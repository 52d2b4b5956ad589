import Dolgate.RectanglesSafe
import Dolgate.TightEncoding

set_option autoImplicit false

/-! Every filter is undone: what a filter makes of a picture becomes the pixels of the picture. -/

namespace Dolgate.Vnc.Tight
open Checked

structure Filled (colours : List Rgb) (n : Nat) (rgba : List UInt8) : Prop where
  length : rgba.length = colours.length * 4
  pixel : ∀ i colour, i < n → colours[i]? = some colour → pixelAt rgba i = colour.rgba.bytes

theorem Filled.zero {colours : List Rgb} :
    Filled colours 0 (List.replicate (colours.length * 4) 0) :=
  ⟨List.length_replicate, fun _ _ h => absurd h (Nat.not_lt_zero _)⟩

theorem pixelAt_splice {rgba ys : List UInt8} {i : Nat} (hi : i * 4 + 4 ≤ rgba.length)
    (hlen : ys.length = 4) : pixelAt (splice rgba (i * 4) ys) i = ys := by
  apply List.ext_getElem?
  intro k
  rw [pixelAt, List.getElem?_take, List.getElem?_drop]
  split
  · exact getElem?_splice_inside (by omega) (by omega)
  · exact (List.getElem?_eq_none (by omega)).symm

theorem pixelAt_splice_of_lt {rgba ys : List UInt8} {i j : Nat} (hi : i * 4 + 4 ≤ rgba.length)
    (hlen : ys.length = 4) (hj : j < i) :
    pixelAt (splice rgba (i * 4) ys) j = pixelAt rgba j := by
  apply List.ext_getElem?
  intro k
  rw [pixelAt, pixelAt, List.getElem?_take, List.getElem?_take, List.getElem?_drop,
    List.getElem?_drop]
  split
  · exact getElem?_splice (by omega) (by omega)
  · rfl

theorem chunks_flatMap {α β : Type} {f : α → List β} {xs : List α} {n : Nat} (hn : 0 < n)
    (hf : ∀ a ∈ xs, (f a).length = n) : chunks n (xs.flatMap f) = xs.map f := by
  apply List.ext_getElem?
  intro i
  rw [chunks, length_flatMap_const hf, Nat.mul_div_cancel _ hn, List.getElem?_map,
    List.getElem?_map]
  by_cases hi : i < xs.length
  · have hx : xs[i]? = some xs[i] := List.getElem?_eq_getElem hi
    rw [List.getElem?_range hi, Option.map_some, take_drop_flatMap_const hf hx, hx, Option.map_some]
  · rw [List.getElem?_eq_none (by rw [List.length_range]; omega),
      List.getElem?_eq_none (Nat.not_lt.mp hi)]
    rfl

section

variable {σ : Type} {t : σ} {E : σ → Prop} {Q : List UInt8 → σ → Prop} {rgba : List UInt8}
  {colours palette : List Rgb} {picture : Nat → Nat → Rgb} {rect : Rect}

theorem wp_tpixel_bytes {colour : Rgb} {Q : Rgba → σ → Prop} (hQ : Q colour.rgba t) :
    wp (tpixel colour.bytes .rgba32) Q E t := hQ

theorem wp_storePixel_filled {i : Nat} {colour : Rgb} (h : Filled colours i rgba)
    (hcolour : colours[i]? = some colour) (hsize : colours.length * 4 < 2 ^ 64)
    (hQ : ∀ ys, Filled colours (i + 1) ys → Q ys t) : wp (storePixel rgba i colour.rgba) Q E t := by
  have hi := (List.getElem?_eq_some_iff.mp hcolour).1
  have hlen := h.length
  have hfour : colour.rgba.bytes.length = 4 := Rgba.length_bytes _
  refine wp_bind.mpr (wp_usize (by omega) ?_)
  refine wp_copyInto (by omega) (by omega) (by omega) (hQ _ ⟨?_, ?_⟩)
  · rw [length_splice (by omega), hlen]
  · intro j colour' hj hcolour'
    by_cases heq : j = i
    · subst heq
      rw [pixelAt_splice (by omega) hfour, Option.some.inj (hcolour'.symm.trans hcolour)]
    · rw [pixelAt_splice_of_lt (by omega) hfour (by omega)]
      exact h.pixel j colour' (by omega) hcolour'

theorem wp_pixels_filled {β : Type} {xs : List β}
    {body : Nat → β → List UInt8 → Comp σ DecodeError (List UInt8)}
    (hlen : xs.length = colours.length)
    (hbody : ∀ i colour rgba' (hi : i < xs.length), colours[i]? = some colour →
      Filled colours i rgba' →
        wp (body i xs[i] rgba') (fun ys t' => Filled colours (i + 1) ys ∧ t' = t) E t)
    (h : Filled colours 0 rgba) (hQ : ∀ ys, Filled colours colours.length ys → Q ys t) :
    wp (forEach xs body rgba) Q E t := by
  refine wp_forEach (fun i ys t' => Filled colours i ys ∧ t' = t) ⟨h, rfl⟩ ?_ ?_
  · rintro i ys t' hi ⟨hys, rfl⟩
    exact hbody i _ ys hi (List.getElem?_eq_getElem (hlen ▸ hi)) hys
  · rintro ys t' ⟨hys, rfl⟩
    exact hQ ys (hlen ▸ hys)

theorem wp_copyPixels_filled (hsize : colours.length * 4 < 2 ^ 64) (h : Filled colours 0 rgba)
    (hQ : ∀ ys, Filled colours colours.length ys → Q ys t) :
    wp (copyPixels colours.length .rgba32 (colours.flatMap Rgb.bytes) rgba) Q E t := by
  have hthree : ∀ colour ∈ colours, colour.bytes.length = 3 := fun _ _ => rfl
  have hlen := length_flatMap_const hthree
  simp only [copyPixels, bytesPerPixel_rgba32]
  refine wp_bind.mpr (wp_usize (by omega) ?_)
  refine wp_ite (fun hshort => absurd hlen (by omega)) fun _ => ?_
  refine wp_bind.mpr (wp_chunksExact (by decide) ?_)
  rw [chunks_flatMap (by decide) hthree, List.take_of_length_le (by rw [List.length_map])]
  refine wp_pixels_filled (by rw [List.length_map]) ?_ h hQ
  intro i colour rgba' hi hcolour hfilled
  have hchunk : (colours.map Rgb.bytes)[i] = colour.bytes := by
    rw [List.getElem_map, (List.getElem?_eq_some_iff.mp hcolour).2]
  rw [hchunk]
  refine wp_bind.mpr (wp_tpixel_bytes ?_)
  exact wp_storePixel_filled hfilled hcolour hsize fun ys hys => ⟨hys, rfl⟩

theorem wp_indexedPixels_filled {indices : List UInt8} (hsize : colours.length * 4 < 2 ^ 64)
    (hcolours : indices.map (palette[·.toNat]?) = colours.map some) (h : Filled colours 0 rgba)
    (hQ : ∀ ys, Filled colours colours.length ys → Q ys t) :
    wp (indexedPixels colours.length (palette.map Rgb.rgba) indices rgba) Q E t := by
  have hlen : indices.length = colours.length := by
    have hlengths := congrArg List.length hcolours
    rwa [List.length_map, List.length_map] at hlengths
  refine wp_ite (fun hshort => absurd hlen (by omega)) fun _ => ?_
  rw [← hlen, List.take_length]
  refine wp_pixels_filled hlen ?_ h hQ
  intro i colour rgba' hi hcolour hfilled
  have hentry := congrArg (·[i]?) hcolours
  simp only [List.getElem?_map, List.getElem?_eq_getElem hi, hcolour, Option.map_some,
    Option.some.injEq] at hentry
  refine wp_bind.mpr (wp_orFail_some (a := colour.rgba) ?_ ?_)
  · rw [List.getElem?_map, hentry]
    rfl
  · exact wp_storePixel_filled hfilled hcolour hsize fun ys hys => ⟨hys, rfl⟩

theorem wp_grid_filled {body : Nat → Nat → List UInt8 → Comp σ DecodeError (List UInt8)}
    (hbody : ∀ x y rgba', x < rect.width → y < rect.height →
      Filled (coloursIn picture rect) (y * rect.width + x) rgba' →
        wp (body y x rgba') (fun ys t' =>
          Filled (coloursIn picture rect) (y * rect.width + x + 1) ys ∧ t' = t) E t)
    (h : Filled (coloursIn picture rect) 0 rgba)
    (hQ : ∀ ys, Filled (coloursIn picture rect) (coloursIn picture rect).length ys → Q ys t) :
    wp (forRange rect.height (fun y => forRange rect.width (body y)) rgba) Q E t := by
  refine wp_forRange (fun y ys t' => Filled (coloursIn picture rect) (y * rect.width) ys ∧ t' = t)
    ⟨by rw [Nat.zero_mul]; exact h, rfl⟩ ?_ ?_
  · rintro y ys t' hy ⟨hys, rfl⟩
    refine wp_forRange (fun x ys t'' =>
      Filled (coloursIn picture rect) (y * rect.width + x) ys ∧ t'' = t') ⟨hys, rfl⟩ ?_ ?_
    · rintro x ys t'' hx ⟨hys, rfl⟩
      exact hbody x y ys hx hy hys
    · rintro ys t'' ⟨hys, rfl⟩
      rw [Nat.add_mul, Nat.one_mul]
      exact ⟨hys, rfl⟩
  · rintro ys t' ⟨hys, rfl⟩
    rw [length_coloursIn, Nat.mul_comm] at hQ
    exact hQ ys hys

theorem bitOf_toNat (byte : UInt8) (x : Nat) :
    (bitOf byte x).toNat = (byte.toNat >>> (7 - x % 8)) &&& 1 := by
  have hmask : ∀ k, k < 8 → (0x80 >>> UInt8.ofNat k : UInt8).toNat = 2 ^ (7 - k) := by decide
  have hmod : x % 8 < 8 := Nat.mod_lt x (by decide)
  have hand : (byte &&& (0x80 >>> UInt8.ofNat (x % 8))).toNat =
      (byte.toNat.testBit (7 - x % 8)).toNat * 2 ^ (7 - x % 8) := by
    rw [UInt8.toNat_and, hmask _ hmod, Nat.and_two_pow]
  have hpos : 0 < 2 ^ (7 - x % 8) := Nat.two_pow_pos _
  have hset : byte &&& (0x80 >>> UInt8.ofNat (x % 8)) ≠ 0 ↔ byte.toNat.testBit (7 - x % 8) = true := by
    rw [ne_eq, ← UInt8.toNat_inj, hand]
    cases byte.toNat.testBit (7 - x % 8) with
    | false => simp
    | true => simp
  rw [Nat.and_one_is_mod, Nat.shiftRight_eq_div_pow, ← Nat.toNat_testBit]
  exact congrArg Bool.toNat (Bool.eq_iff_iff.mpr (decide_eq_true_iff.trans hset))

theorem length_row {indices : Nat → List Nat} {rows : Nat → List UInt8}
    (hrows : ∀ row, row < rect.height → Packed 1 (indices row) (rows row))
    (hcolours : ∀ row, row < rect.height → (indices row).map (palette[·]?) =
      (List.range rect.width).map fun column => some (picture (rect.x + column) (rect.y + row))) :
    ∀ row ∈ List.range rect.height, (rows row).length = (rect.width + 7) / 8 := by
  intro row hrow
  have hlengths := congrArg List.length (hcolours row (List.mem_range.mp hrow))
  rw [List.length_map, List.length_map, List.length_range] at hlengths
  rw [(hrows row (List.mem_range.mp hrow)).length, hlengths, Nat.mul_one]

theorem wp_bitmapPixels_filled {indices : Nat → List Nat} {rows : Nat → List UInt8}
    (hsize : rect.width * rect.height * 4 < 2 ^ 64) (hpalette : palette.length = 2)
    (hrows : ∀ row, row < rect.height → Packed 1 (indices row) (rows row))
    (hcolours : ∀ row, row < rect.height → (indices row).map (palette[·]?) =
      (List.range rect.width).map fun column => some (picture (rect.x + column) (rect.y + row)))
    (h : Filled (coloursIn picture rect) 0 rgba)
    (hQ : ∀ ys, Filled (coloursIn picture rect) (coloursIn picture rect).length ys → Q ys t) :
    wp (bitmapPixels rect.width rect.height (palette.map Rgb.rgba)
      ((List.range rect.height).flatMap rows) rgba) Q E t := by
  have hwidth := length_row hrows hcolours
  have hlen := length_flatMap_const hwidth
  rw [List.length_range, Nat.mul_comm] at hlen
  have hbytes := rowBytes_le rect.width rect.height
  refine wp_bind.mpr (wp_usize (by omega) ?_)
  refine wp_ite (fun hshort => absurd hlen (by omega)) fun _ => wp_grid_filled ?_ h hQ
  intro x y ys hx hy hfilled
  have hentry := congrArg (·[x]?) (hcolours y hy)
  simp only [List.getElem?_map, List.getElem?_range hx, Option.map_some] at hentry
  obtain ⟨index, hindex, hcolour⟩ := Option.map_eq_some_iff.mp hentry
  have hlt := (List.getElem?_eq_some_iff.mp hcolour).1
  obtain ⟨byte, hbyte, hvalue⟩ := (hrows y hy).index_eq (.inl rfl) hindex (by omega)
  rw [Nat.mul_one] at hbyte hvalue
  have hat : ((List.range rect.height).flatMap rows)[y * ((rect.width + 7) / 8) + x / 8]? =
      some byte := by
    rw [getElem?_flatMap_const hwidth (by omega), List.getElem?_range hy, Option.bind_some, hbyte]
  have hbit : (bitOf byte x).toNat = index := (bitOf_toNat byte x).trans hvalue
  have hrgba : (palette.map Rgb.rgba)[(bitOf byte x).toNat]? =
      some (picture (rect.x + x) (rect.y + y)).rgba := by
    rw [hbit, List.getElem?_map, hcolour, Option.map_some]
  have hplace : y * ((rect.width + 7) / 8) + x / 8 < (rect.width + 7) / 8 * rect.height :=
    pixel_lt (by omega) hy
  refine wp_bind.mpr (wp_usize (by omega) ?_)
  refine wp_bind.mpr (wp_index_some hat (wp_bind.mpr (wp_index_some hrgba ?_)))
  refine wp_storePixel_filled hfilled (getElem?_coloursIn hx hy) ?_ fun ys hys => ⟨hys, rfl⟩
  rw [length_coloursIn]
  exact hsize

/-! ### The gradient -/

structure Known (width n : Nat) (value : Nat → Int) (row : List Int) : Prop where
  length : row.length = width * 3
  value : ∀ i, i < n → row[i]? = some (value i)

/-- What the decoder has for row `row - 1`, channel by channel. -/
def rowValue (picture : Nat → Nat → Rgb) (rect : Rect) (row i : Nat) : Int :=
  bordered (channelAt picture rect (i % 3)) (i / 3 + 1) row

theorem rowValue_eq {row column channel : Nat} (hchannel : channel < 3) :
    rowValue picture rect row (column * 3 + channel) =
      bordered (channelAt picture rect channel) (column + 1) row := by
  have hmod : (column * 3 + channel) % 3 = channel := by omega
  have hdiv : (column * 3 + channel) / 3 = column := by omega
  rw [rowValue, hmod, hdiv]

theorem Known.next {width n : Nat} {value : Nat → Int} {row : List Int} {v : Int}
    (h : Known width n value row) (hn : n < width * 3) (hv : v = value n) :
    Known width (n + 1) value (row.set n v) where
  length := by rw [List.length_set, h.length]
  value i hi := by
    by_cases heq : n = i
    · subst heq
      rw [List.getElem?_set_self (by rw [h.length]; exact hn), hv]
    · rw [List.getElem?_set_ne heq]
      exact h.value i (by omega)

theorem bordered_bounds (value : Nat → Nat → UInt8) (column row : Nat) :
    0 ≤ bordered value column row ∧ bordered value column row ≤ 255 := by
  cases column with
  | zero => exact ⟨Int.le_refl 0, (by decide : (0 : Int) ≤ 255)⟩
  | succ column =>
    cases row with
    | zero => exact ⟨Int.le_refl 0, (by decide : (0 : Int) ≤ 255)⟩
    | succ row =>
      have hlt := (value column row).toNat_lt
      rw [bordered]
      omega

theorem predicted_add_difference (value : Nat → Nat → UInt8) (column row : Nat) :
    (predicted value column row + (difference value column row).toNat) % 256 =
      (value column row).toNat := by
  have hlow : 0 ≤ predicted value column row := Int.le_max_left _ _
  have hhigh : predicted value column row ≤ 255 := by
    unfold predicted
    omega
  have hpredicted : (UInt8.ofNat (predicted value column row).toNat).toNat =
      (predicted value column row).toNat :=
    UInt8.toNat_ofNat_of_lt' (by change (predicted value column row).toNat < 256; omega)
  have hlt := (value column row).toNat_lt
  rw [difference, UInt8.toNat_sub, hpredicted]
  omega

theorem wp_leftOf_known {row : List Int} {n x y channel : Nat} {Q : Int → σ → Prop}
    (h : Known rect.width n (rowValue picture rect y) row) (hn : x * 3 ≤ n) (hchannel : channel < 3)
    (hQ : Q (bordered (channelAt picture rect channel) x y) t) : wp (leftOf row x channel) Q E t := by
  cases x with
  | zero => exact hQ
  | succ x =>
    refine wp_ite (fun _ => ?_) fun hpos => absurd (Nat.succ_pos x) hpos
    refine wp_bind.mpr (wp_sub (Nat.succ_pos x) ?_)
    rw [Nat.add_sub_cancel]
    refine wp_index_some (h.value _ (by omega)) ?_
    rw [rowValue_eq hchannel]
    exact hQ

theorem wp_gradientChannel_known {previous current : List Int} {x y channel : Nat}
    {Q : List Int → σ → Prop}
    (hprevious : Known rect.width (rect.width * 3) (rowValue picture rect y) previous)
    (hcurrent : Known rect.width (x * 3 + channel) (rowValue picture rect (y + 1)) current)
    (hx : x < rect.width) (hchannel : channel < 3)
    (hQ : ∀ row, Known rect.width (x * 3 + (channel + 1)) (rowValue picture rect (y + 1)) row →
      Q row t) :
    wp (gradientChannel previous (difference (channelAt picture rect channel) x y) x channel current)
      Q E t := by
  have hdifference := (difference (channelAt picture rect channel) x y).toNat_lt
  have hleft := bordered_bounds (channelAt picture rect channel) x (y + 1)
  have habove := bordered_bounds (channelAt picture rect channel) (x + 1) y
  have haboveLeft := bordered_bounds (channelAt picture rect channel) x y
  refine wp_bind.mpr (wp_leftOf_known hcurrent (by omega) hchannel ?_)
  refine wp_bind.mpr (wp_index_some (hprevious.value _ (by omega)) ?_)
  rw [rowValue_eq hchannel]
  refine wp_bind.mpr (wp_leftOf_known hprevious (by omega) hchannel ?_)
  refine wp_bind.mpr (wp_i32 (by omega) ?_)
  refine wp_bind.mpr (wp_i32 (by omega) ?_)
  refine wp_bind.mpr (wp_i32 (by omega) ?_)
  refine wp_store (by rw [hcurrent.length]; omega) (hQ _ (hcurrent.next (by omega) ?_))
  rw [rowValue_eq hchannel]
  exact predicted_add_difference (channelAt picture rect channel) x y

theorem length_gradientBytes :
    (gradientBytes picture rect).length = rect.width * rect.height * 3 := by
  have hrow : ∀ row ∈ List.range rect.height, ((List.range rect.width).flatMap fun column =>
      (List.range 3).map fun channel =>
        difference (channelAt picture rect channel) column row).length = rect.width * 3 := by
    intro row _
    rw [length_flatMap_const fun column _ => by rw [List.length_map, List.length_range],
      List.length_range]
  rw [gradientBytes, length_flatMap_const hrow, List.length_range, Nat.mul_left_comm,
    Nat.mul_assoc]

theorem getElem?_gradientBytes {x y channel : Nat} (hx : x < rect.width) (hy : y < rect.height)
    (hchannel : channel < 3) :
    (gradientBytes picture rect)[(y * rect.width + x) * 3 + channel]? =
      some (difference (channelAt picture rect channel) x y) := by
  have hpixel : ∀ row, ∀ column ∈ List.range rect.width, ((List.range 3).map fun channel =>
      difference (channelAt picture rect channel) column row).length = 3 := by
    intro row column _
    rw [List.length_map, List.length_range]
  have hrow : ∀ row ∈ List.range rect.height, ((List.range rect.width).flatMap fun column =>
      (List.range 3).map fun channel =>
        difference (channelAt picture rect channel) column row).length = rect.width * 3 := by
    intro row _
    rw [length_flatMap_const (hpixel row), List.length_range]
  have hplace : (y * rect.width + x) * 3 + channel = y * (rect.width * 3) + (x * 3 + channel) := by
    rw [Nat.add_mul, Nat.mul_assoc, Nat.add_assoc]
  rw [gradientBytes, hplace, getElem?_flatMap_const hrow (by omega), List.getElem?_range hy,
    Option.bind_some, getElem?_flatMap_const (hpixel y) hchannel, List.getElem?_range hx,
    Option.bind_some, List.getElem?_map, List.getElem?_range hchannel, Option.map_some]

theorem wp_gradientPixel_known {previous current : List Int} {x y : Nat}
    {Q : List Int × List UInt8 → σ → Prop} (hsize : rect.width * rect.height * 4 < 2 ^ 64)
    (hprevious : Known rect.width (rect.width * 3) (rowValue picture rect y) previous)
    (hcurrent : Known rect.width (x * 3) (rowValue picture rect (y + 1)) current)
    (hfilled : Filled (coloursIn picture rect) (y * rect.width + x) rgba)
    (hx : x < rect.width) (hy : y < rect.height)
    (hQ : ∀ row ys, Known rect.width ((x + 1) * 3) (rowValue picture rect (y + 1)) row →
      Filled (coloursIn picture rect) (y * rect.width + x + 1) ys → Q (row, ys) t) :
    wp (gradientPixel .rgba32 rect.width (gradientBytes picture rect) previous y x (current, rgba))
      Q E t := by
  have hpixel := pixel_lt hx hy
  refine wp_bind.mpr (wp_forRange (fun channel current t' =>
    Known rect.width (x * 3 + channel) (rowValue picture rect (y + 1)) current ∧ t' = t)
    ⟨hcurrent, rfl⟩ ?_ ?_)
  · rintro channel current t' hchannel ⟨hcurrent', rfl⟩
    refine wp_bind.mpr (wp_usize (by omega) ?_)
    refine wp_bind.mpr (wp_index_some (getElem?_gradientBytes hx hy hchannel) ?_)
    exact wp_gradientChannel_known hprevious hcurrent' hx hchannel fun row hrow => ⟨hrow, rfl⟩
  · rintro current t' ⟨hcurrent', rfl⟩
    have hvalue : ∀ channel, channel < 3 → rowValue picture rect (y + 1) (x * 3 + channel) =
        ((picture (rect.x + x) (rect.y + y)).channel channel).toNat :=
      fun channel hchannel => rowValue_eq hchannel
    refine wp_bind.mpr (wp_index_some (hcurrent'.value (x * 3 + 0) (by omega)) ?_)
    refine wp_bind.mpr (wp_index_some (hcurrent'.value (x * 3 + 1) (by omega)) ?_)
    refine wp_bind.mpr (wp_index_some (hcurrent'.value (x * 3 + 2) (by omega)) ?_)
    rw [hvalue 0 (by decide), hvalue 1 (by decide), hvalue 2 (by decide)]
    have hwire : ([((picture (rect.x + x) (rect.y + y)).channel 0).toNat,
        ((picture (rect.x + x) (rect.y + y)).channel 1).toNat,
        ((picture (rect.x + x) (rect.y + y)).channel 2).toNat] : List Int).map
          (fun value => UInt8.ofNat value.toNat) = (picture (rect.x + x) (rect.y + y)).bytes := by
      simp [Rgb.channel, Rgb.bytes]
    dsimp only
    rw [hwire]
    refine wp_bind.mpr (wp_tpixel_bytes ?_)
    refine wp_bind.mpr (wp_storePixel_filled hfilled (getElem?_coloursIn hx hy) ?_ fun ys hys => ?_)
    · rw [length_coloursIn]
      exact hsize
    · exact hQ current ys (by rw [Nat.add_mul]; exact hcurrent') hys

theorem wp_applyGradient_filled (hsize : rect.width * rect.height * 4 < 2 ^ 64)
    (h : Filled (coloursIn picture rect) 0 rgba)
    (hQ : ∀ ys, Filled (coloursIn picture rect) (coloursIn picture rect).length ys → Q ys t) :
    wp (applyGradient rect.width rect.height .rgba32 (gradientBytes picture rect) rgba) Q E t := by
  have hlen := @length_gradientBytes picture rect
  have hzero : (List.replicate (rect.width * 3) (0 : Int)).length = rect.width * 3 :=
    List.length_replicate
  refine wp_ite (fun h => absurd bytesPerPixel_rgba32 h) fun _ => ?_
  refine wp_bind.mpr (wp_usize (by omega) ?_)
  refine wp_ite (fun hshort => absurd hlen (by omega)) fun _ => ?_
  -- above the first row all is 0
  refine wp_bind.mpr (wp_forRange (fun y (p : List Int × List Int × List UInt8) t' =>
    Known rect.width (rect.width * 3) (rowValue picture rect y) p.1 ∧
      p.2.1.length = rect.width * 3 ∧ Filled (coloursIn picture rect) (y * rect.width) p.2.2 ∧
        t' = t) ⟨⟨hzero, ?_⟩, hzero, ?_, rfl⟩ ?_ ?_)
  · intro i hi
    rw [List.getElem?_replicate, if_pos hi]
    rfl
  · rw [Nat.zero_mul]
    exact h
  · rintro y ⟨previous, current, ys⟩ t' hy ⟨hprevious, hcurrent, hys, rfl⟩
    refine wp_bind.mpr (wp_forRange (fun x (p : List Int × List UInt8) t'' =>
      Known rect.width (x * 3) (rowValue picture rect (y + 1)) p.1 ∧
        Filled (coloursIn picture rect) (y * rect.width + x) p.2 ∧ t'' = t')
      ⟨⟨hcurrent, fun i hi => absurd hi (by omega)⟩, hys, rfl⟩ ?_ ?_)
    · rintro x ⟨current, ys⟩ t'' hx ⟨hcurrent, hys, rfl⟩
      exact wp_gradientPixel_known hsize hprevious hcurrent hys hx hy
        fun current ys hcurrent hys => ⟨hcurrent, hys, rfl⟩
    · rintro ⟨current, ys⟩ t'' ⟨hcurrent, hys, rfl⟩
      have hsame : current.length = previous.length := hcurrent.length.trans hprevious.length.symm
      refine wp_bind.mpr (wp_copyInto (Nat.zero_le _) (Nat.le_refl _) hsame ?_)
      rw [splice, List.take_zero, List.nil_append, Nat.zero_add, hsame, List.drop_length,
        List.append_nil, Nat.add_mul, Nat.one_mul]
      exact ⟨hcurrent, hcurrent.length, hys, rfl⟩
  · rintro ⟨previous, current, ys⟩ t' ⟨_, _, hys, rfl⟩
    rw [length_coloursIn, Nat.mul_comm] at hQ
    exact hQ ys hys

theorem wp_basicPixels_filled {filter : Filter} {data : List UInt8}
    (hsize : rect.width * rect.height * 4 < 2 ^ 64)
    (hfiltered : Filtered picture rect filter palette data)
    (hQ : ∀ ys, Filled (coloursIn picture rect) (coloursIn picture rect).length ys → Q ys t) :
    wp (basicPixels rect .rgba32 filter (palette.map Rgb.rgba) data) Q E t := by
  have hlen := @length_coloursIn picture rect
  have hzero : Filled (coloursIn picture rect) 0
      (List.replicate (rect.width * rect.height * 4) 0) := hlen ▸ .zero
  refine wp_bind.mpr (wp_usize (by omega) ?_)
  refine wp_bind.mpr (wp_usize hsize ?_)
  cases hfiltered with
  | copy =>
    rw [← hlen] at hsize hzero ⊢
    exact wp_copyPixels_filled hsize hzero hQ
  | bitmap hpalette hrows hcolours =>
    refine wp_ite (fun _ => ?_) fun hnot => absurd ((List.length_map _).trans hpalette) hnot
    exact wp_bitmapPixels_filled hsize hpalette hrows hcolours hzero hQ
  | indexed hpalette hcolours =>
    refine wp_ite (fun htwo => ?_) fun _ => ?_
    · rw [List.length_map] at htwo
      omega
    · rw [← hlen] at hsize hzero ⊢
      exact wp_indexedPixels_filled hsize hcolours hzero hQ
  | gradient => exact wp_applyGradient_filled hsize hzero hQ

end

variable {picture : Nat → Nat → Rgb} {rect : Rect} {filter : Filter} {palette : List Rgb}
  {data : List UInt8} {fb : Framebuffer} {Q : Unit → Framebuffer → Prop} {E : Framebuffer → Prop}

theorem Filtered.length_eq (h : Filtered picture rect filter palette data) :
    data.length = filteredLength rect .rgba32 filter palette.length := by
  have hlen := @length_coloursIn picture rect
  cases h with
  | copy =>
    rw [length_flatMap_const (n := 3) fun _ _ => rfl, hlen]
    rfl
  | @bitmap palette indices rows hsize hrows hcolours =>
    have hwidth := length_row hrows hcolours
    rw [length_flatMap_const hwidth, List.length_range, Nat.mul_comm, filteredLength, if_pos hsize]
  | indexed hsize hcolours =>
    have hlengths := congrArg List.length hcolours
    rw [List.length_map, List.length_map, hlen] at hlengths
    rw [hlengths, filteredLength, if_neg (by omega)]
  | gradient => exact length_gradientBytes

theorem wp_applyFill_shows {colour : Rgb} (hfb : fb.Valid) (hrect : fb.contains rect = true)
    (hcolour : ∀ x y, rect.covers x y → picture x y = colour)
    (hQ : ∀ fb', SameOutside rect fb fb' → ShowsPicture picture rect fb' → Q () fb') :
    wp (applyFill rect .rgba32 colour.bytes) Q E fb := by
  refine wp_ite (fun hshort => absurd hshort (Nat.lt_irrefl 3)) fun _ => ?_
  refine wp_bind.mpr (wp_tpixel_bytes ?_)
  refine wp_fill hfb hrect fun fb' hsame hshows => hQ fb' hsame (shows_of_showsIn hshows ?_)
  intro column row hcolumn hrow
  rw [hcolour _ _ ⟨⟨Nat.le_add_right _ _, Nat.add_lt_add_left hcolumn _⟩,
    Nat.le_add_right _ _, Nat.add_lt_add_left hrow _⟩]

theorem wp_applyBasic_shows (hfb : fb.Valid) (hrect : fb.contains rect = true)
    (hfiltered : Filtered picture rect filter palette data)
    (hQ : ∀ fb', SameOutside rect fb fb' → ShowsPicture picture rect fb' → Q () fb') :
    wp (applyBasic rect .rgba32 filter (palette.map Rgb.rgba) data) Q E fb := by
  have harea := hfb.rect_area_le hrect
  have hmax : maxFramebufferPixels * 4 < 2 ^ 64 := by decide
  refine wp_bind.mpr (wp_basicPixels_filled (by omega) hfiltered fun ys hys => ?_)
  refine wp_writeRgba hfb hrect (hys.length.trans (by rw [length_coloursIn])) ?_
  intro fb' hsame hshows
  refine hQ fb' hsame (shows_of_showsIn hshows ?_)
  intro column row hcolumn hrow
  have hcolour := @getElem?_coloursIn picture _ _ _ hcolumn hrow
  exact hys.pixel _ _ (List.getElem?_eq_some_iff.mp hcolour).1 hcolour

end Dolgate.Vnc.Tight
