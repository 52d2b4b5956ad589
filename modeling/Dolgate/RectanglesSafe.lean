import Dolgate.ZrleSafe
import Dolgate.Rectangles

set_option autoImplicit false

/-! Whatever a server sends for a rectangle, decoding it fails or succeeds without panic, and the
rest of the screen stays as it is. -/

namespace Dolgate.Vnc
open Checked

namespace Tight

section

variable {σ : Type} {t : σ} {E : σ → Prop} {Q : List UInt8 → σ → Prop} {rgba : List UInt8}
  {width height : Nat}

theorem bytesPerPixel_rgba32 : bytesPerPixel .rgba32 = 3 := rfl

theorem wp_tpixel {bytes : List UInt8} {Q : Rgba → σ → Prop} (hlen : 3 ≤ bytes.length)
    (hQ : ∀ colour, Q colour t) : wp (tpixel bytes .rgba32) Q E t := by
  refine wp_ite (fun h => absurd h (by decide)) fun _ => ?_
  refine wp_bind.mpr (wp_index (by omega) ?_)
  refine wp_bind.mpr (wp_index (by omega) ?_)
  refine wp_bind.mpr (wp_index (by omega) ?_)
  exact hQ _

theorem wp_storePixel {i : Nat} {colour : Rgba} (hi : i * 4 + 4 ≤ rgba.length)
    (hrgba : rgba.length < 2 ^ 64) (hQ : ∀ ys, ys.length = rgba.length → Q ys t) :
    wp (storePixel rgba i colour) Q E t := by
  have hlen := colour.length_bytes
  refine wp_bind.mpr (wp_usize (by omega) ?_)
  refine wp_copyInto (by omega) hi (by omega) (hQ _ ?_)
  exact length_splice (by omega)

theorem pixel_lt {x y : Nat} (hx : x < width) (hy : y < height) :
    y * width + x < width * height := by
  have : (y + 1) * width ≤ height * width := Nat.mul_le_mul_right width hy
  rw [Nat.mul_comm width]
  rw [Nat.add_mul, Nat.one_mul] at this
  omega

theorem wp_pixels {β : Type} {xs : List β} {body : Nat → β → List UInt8 → Comp σ DecodeError _}
    (hbody : ∀ i rgba' (hi : i < xs.length), rgba'.length = rgba.length →
      wp (body i xs[i] rgba') (fun ys t' => ys.length = rgba.length ∧ t' = t) E t)
    (hQ : ∀ ys, ys.length = rgba.length → Q ys t) : wp (forEach xs body rgba) Q E t := by
  refine wp_forEach (fun _ ys t' => ys.length = rgba.length ∧ t' = t) ⟨rfl, rfl⟩ ?_ ?_
  · rintro i ys t' hi ⟨hys, rfl⟩
    exact hbody i ys hi hys
  · rintro ys t' ⟨hys, rfl⟩
    exact hQ ys hys

theorem wp_grid {body : Nat → Nat → List UInt8 → Comp σ DecodeError (List UInt8)}
    (hbody : ∀ x y rgba', x < width → y < height → rgba'.length = rgba.length →
      wp (body y x rgba') (fun ys t' => ys.length = rgba.length ∧ t' = t) E t)
    (hQ : ∀ ys, ys.length = rgba.length → Q ys t) :
    wp (forRange height (fun y => forRange width (body y)) rgba) Q E t := by
  refine wp_forRange (fun _ ys t' => ys.length = rgba.length ∧ t' = t) ⟨rfl, rfl⟩ ?_ ?_
  · rintro y ys t' hy ⟨hys, rfl⟩
    refine wp_forRange (fun _ ys t'' => ys.length = rgba.length ∧ t'' = t') ⟨hys, rfl⟩ ?_
      fun _ _ h => h
    rintro x ys t'' hx ⟨hys, rfl⟩
    exact hbody x y ys hx hy hys
  · rintro ys t' ⟨hys, rfl⟩
    exact hQ ys hys

theorem wp_copyPixels {pixels : Nat} {data : List UInt8} (hrgba : rgba.length = pixels * 4)
    (hsize : pixels * 4 < 2 ^ 64) (hE : E t) (hQ : ∀ ys, ys.length = rgba.length → Q ys t) :
    wp (copyPixels pixels .rgba32 data rgba) Q E t := by
  simp only [copyPixels, bytesPerPixel_rgba32]
  refine wp_bind.mpr (wp_usize (by omega) ?_)
  refine wp_ite (fun _ => hE) fun _ => ?_
  refine wp_bind.mpr (wp_chunksExact (by decide) (wp_pixels ?_ hQ))
  intro i ys hi hys
  have hcount : i < pixels := by rw [List.length_take] at hi; omega
  have hchunk : ((chunks 3 data).take pixels)[i].length = 3 :=
    length_of_mem_chunks (List.mem_of_mem_take (List.getElem_mem hi))
  refine wp_bind.mpr (wp_tpixel (by omega) fun colour => ?_)
  exact wp_storePixel (by omega) (by omega) fun zs hzs => ⟨hzs.trans hys, rfl⟩

theorem wp_rowByte {data : List UInt8} {x y : Nat} {f : UInt8 → Comp σ DecodeError (List UInt8)}
    (hx : x < width) (hy : y < height) (hlen : (width + 7) / 8 * height ≤ data.length)
    (hsize : (width + 7) / 8 * height < 2 ^ 64) (hf : ∀ byte, wp (f byte) Q E t) :
    wp (usize (y * ((width + 7) / 8) + x / 8) >>= fun i => index data i >>= f) Q E t := by
  have hbyte : y * ((width + 7) / 8) + x / 8 < (width + 7) / 8 * height := pixel_lt (by omega) hy
  refine wp_bind.mpr (wp_usize (by omega) ?_)
  exact wp_bind.mpr (wp_index (by omega) (hf _))

theorem rowBytes_le (width height : Nat) : (width + 7) / 8 * height ≤ width * height :=
  Nat.mul_le_mul_right height (by omega)

theorem wp_bitmapPixels {palette : List Rgba} {data : List UInt8}
    (hrgba : rgba.length = width * height * 4) (hsize : width * height * 4 < 2 ^ 64)
    (hpalette : palette.length = 2) (hE : E t) (hQ : ∀ ys, ys.length = rgba.length → Q ys t) :
    wp (bitmapPixels width height palette data rgba) Q E t := by
  have hbytes := rowBytes_le width height
  refine wp_bind.mpr (wp_usize (by omega) ?_)
  refine wp_ite (fun _ => hE) fun hlen => wp_grid ?_ hQ
  intro x y ys hx hy hys
  refine wp_rowByte hx hy (Nat.not_lt.mp hlen) (by omega) fun byte => ?_
  have hbit := Bool.toNat_lt (bitOf byte x)
  refine wp_bind.mpr (wp_index (by omega) ?_)
  have hpixel := pixel_lt hx hy
  exact wp_storePixel (by omega) (by omega) fun zs hzs => ⟨hzs.trans hys, rfl⟩

theorem wp_indexedPixels {pixels : Nat} {palette : List Rgba} {data : List UInt8}
    (hrgba : rgba.length = pixels * 4) (hsize : pixels * 4 < 2 ^ 64) (hE : E t)
    (hQ : ∀ ys, ys.length = rgba.length → Q ys t) :
    wp (indexedPixels pixels palette data rgba) Q E t := by
  refine wp_ite (fun _ => hE) fun _ => wp_pixels ?_ hQ
  intro i ys hi hys
  have hcount : i < pixels := by rw [List.length_take] at hi; omega
  refine wp_bind.mpr (wp_orFail (fun colour _ => ?_) hE)
  exact wp_storePixel (by omega) (by omega) fun zs hzs => ⟨hzs.trans hys, rfl⟩

structure Channels (width : Nat) (row : List Int) : Prop where
  length : row.length = width * 3
  byte : ∀ v ∈ row, 0 ≤ v ∧ v ≤ 255

theorem Channels.zero : Channels width (List.replicate (width * 3) 0) where
  length := List.length_replicate
  byte v hv := by obtain rfl := List.eq_of_mem_replicate hv; decide

theorem Channels.set {row : List Int} {i : Nat} {v : Int} (h : Channels width row)
    (hv : 0 ≤ v ∧ v ≤ 255) : Channels width (row.set i v) where
  length := by rw [List.length_set, h.length]
  byte u hu := by
    rcases List.mem_or_eq_of_mem_set hu with hu | rfl
    · exact h.byte u hu
    · exact hv

theorem wp_channel {row : List Int} {i : Nat} {Q : Int → σ → Prop} (h : Channels width row)
    (hi : i < width * 3) (hQ : ∀ v, 0 ≤ v ∧ v ≤ 255 → Q v t) :
    wp (index row i : Comp σ DecodeError Int) Q E t :=
  wp_index (h.length ▸ hi) (hQ _ (h.byte _ (List.getElem_mem _)))

theorem wp_leftOf {row : List Int} {x channel : Nat} {Q : Int → σ → Prop} (h : Channels width row)
    (hx : x < width) (hchannel : channel < 3) (hQ : ∀ v, 0 ≤ v ∧ v ≤ 255 → Q v t) :
    wp (leftOf row x channel) Q E t := by
  refine wp_ite (fun hpos => ?_) fun _ => hQ 0 (by decide)
  exact wp_bind.mpr (wp_sub hpos (wp_channel h (by omega) hQ))

theorem wp_gradientChannel {previous current : List Int} {difference : UInt8} {x channel : Nat}
    {Q : List Int → σ → Prop} (hprevious : Channels width previous)
    (hcurrent : Channels width current) (hx : x < width) (hchannel : channel < 3)
    (hQ : ∀ row, Channels width row → Q row t) :
    wp (gradientChannel previous difference x channel current) Q E t := by
  have hdifference := difference.toNat_lt
  refine wp_bind.mpr (wp_leftOf hcurrent hx hchannel fun left hleft => ?_)
  refine wp_bind.mpr (wp_channel hprevious (by omega) fun above habove => ?_)
  refine wp_bind.mpr (wp_leftOf hprevious hx hchannel fun aboveLeft haboveLeft => ?_)
  refine wp_bind.mpr (wp_i32 (by omega) ?_)
  refine wp_bind.mpr (wp_i32 (by omega) ?_)
  refine wp_bind.mpr (wp_i32 (by omega) ?_)
  refine wp_store (by rw [hcurrent.length]; omega) (hQ _ (hcurrent.set ?_))
  omega

theorem wp_gradientPixel {previous : List Int} {data : List UInt8} {x y : Nat}
    {row : List Int × List UInt8} {Q : List Int × List UInt8 → σ → Prop}
    (hprevious : Channels width previous) (hcurrent : Channels width row.1)
    (hrgba : row.2.length = width * height * 4) (hsize : width * height * 4 < 2 ^ 64)
    (hdata : width * height * 3 ≤ data.length) (hx : x < width) (hy : y < height)
    (hQ : ∀ current ys, Channels width current → ys.length = width * height * 4 →
      Q (current, ys) t) :
    wp (gradientPixel .rgba32 width data previous y x row) Q E t := by
  have hpixel := pixel_lt hx hy
  refine wp_bind.mpr (wp_forRange (fun _ current t' => Channels width current ∧ t' = t)
    ⟨hcurrent, rfl⟩ ?_ ?_)
  · rintro channel current t' hchannel ⟨hcurrent', rfl⟩
    refine wp_bind.mpr (wp_usize (by omega) ?_)
    refine wp_bind.mpr (wp_index (by omega) ?_)
    exact wp_gradientChannel hprevious hcurrent' hx hchannel fun row hrow => ⟨hrow, rfl⟩
  · rintro current t' ⟨hcurrent', rfl⟩
    refine wp_bind.mpr (wp_channel hcurrent' (by omega) fun red _ => ?_)
    refine wp_bind.mpr (wp_channel hcurrent' (by omega) fun green _ => ?_)
    refine wp_bind.mpr (wp_channel hcurrent' (by omega) fun blue _ => ?_)
    refine wp_bind.mpr (wp_tpixel (by simp) fun colour => ?_)
    refine wp_bind.mpr (wp_storePixel (by omega) (by omega) fun ys hys => ?_)
    exact hQ current ys hcurrent' (hys.trans hrgba)

theorem wp_applyGradient {data : List UInt8} (hrgba : rgba.length = width * height * 4)
    (hsize : width * height * 4 < 2 ^ 64) (hE : E t)
    (hQ : ∀ ys, ys.length = rgba.length → Q ys t) :
    wp (applyGradient width height .rgba32 data rgba) Q E t := by
  refine wp_ite (fun h => absurd bytesPerPixel_rgba32 h) fun _ => ?_
  refine wp_bind.mpr (wp_usize (by omega) ?_)
  refine wp_ite (fun _ => hE) fun hlen => ?_
  refine wp_bind.mpr (wp_forRange (fun _ (p : List Int × List Int × List UInt8) t' =>
    Channels width p.1 ∧ Channels width p.2.1 ∧ p.2.2.length = width * height * 4 ∧ t' = t)
    ⟨.zero, .zero, hrgba, rfl⟩ ?_ ?_)
  · rintro y ⟨previous, current, ys⟩ t' hy ⟨hprevious, hcurrent, hys, rfl⟩
    refine wp_bind.mpr (wp_forRange (fun _ (p : List Int × List UInt8) t'' =>
      Channels width p.1 ∧ p.2.length = width * height * 4 ∧ t'' = t') ⟨hcurrent, hys, rfl⟩ ?_ ?_)
    · rintro x ⟨current, ys⟩ t'' hx ⟨hcurrent, hys, rfl⟩
      exact wp_gradientPixel hprevious hcurrent hys hsize (Nat.not_lt.mp hlen) hx hy
        fun current ys hcurrent hys => ⟨hcurrent, hys, rfl⟩
    · rintro ⟨current, ys⟩ t'' ⟨hcurrent, hys, rfl⟩
      have hsame : current.length = previous.length := hcurrent.length.trans hprevious.length.symm
      refine wp_bind.mpr (wp_copyInto (Nat.zero_le _) (Nat.le_refl _) hsame ?_)
      rw [splice, List.take_zero, List.nil_append, Nat.zero_add, hsame, List.drop_length,
        List.append_nil]
      exact ⟨hcurrent, hcurrent, hys, rfl⟩
  · rintro ⟨previous, current, ys⟩ t' ⟨_, _, hys, rfl⟩
    exact hQ ys (hys.trans hrgba.symm)

theorem wp_basicPixels {rect : Rect} {filter : Filter} {palette : List Rgba} {data : List UInt8}
    (hsize : rect.width * rect.height * 4 < 2 ^ 64) (hE : E t) (hQ : ∀ ys, Q ys t) :
    wp (basicPixels rect .rgba32 filter palette data) Q E t := by
  refine wp_bind.mpr (wp_usize (by omega) ?_)
  refine wp_bind.mpr (wp_usize hsize ?_)
  have hzero : (List.replicate (rect.width * rect.height * 4) (0 : UInt8)).length =
    rect.width * rect.height * 4 := List.length_replicate
  cases filter with
  | copy => exact wp_copyPixels hzero hsize hE fun ys _ => hQ ys
  | palette =>
    refine wp_ite (fun hpalette => ?_) fun _ => ?_
    · exact wp_bitmapPixels hzero hsize hpalette hE fun ys _ => hQ ys
    · exact wp_indexedPixels hzero hsize hE fun ys _ => hQ ys
  | gradient => exact wp_applyGradient hzero hsize hE fun ys _ => hQ ys

theorem wp_jpegPixels {rect : Rect} {rgb : Option (List UInt8)}
    (hsize : rect.width * rect.height * 4 < 2 ^ 64) (hE : E t) (hQ : ∀ ys, Q ys t) :
    wp (jpegPixels rect rgb) Q E t := by
  refine wp_bind.mpr (wp_orFail (fun rgb _ => ?_) hE)
  refine wp_bind.mpr (wp_usize (by omega) ?_)
  refine wp_bind.mpr (wp_usize (by omega) ?_)
  refine wp_ite (fun _ => hE) fun _ => ?_
  refine wp_bind.mpr (wp_chunksExact (by decide) ?_)
  refine wp_bind.mpr (wp_usize hsize (wp_pixels ?_ fun ys _ => hQ ys))
  intro i ys hi hys
  rw [List.length_replicate] at hys ⊢
  have hcount : i < rect.width * rect.height := by rw [List.length_take] at hi; omega
  have hchunk : ((chunks 3 rgb).take (rect.width * rect.height))[i].length = 3 :=
    length_of_mem_chunks (List.mem_of_mem_take (List.getElem_mem hi))
  refine wp_bind.mpr (wp_tpixel (by omega) fun colour => ?_)
  exact wp_storePixel (by omega) (by omega) fun zs hzs => ⟨hzs.trans hys, rfl⟩

end

variable {rect : Rect} {fb : Framebuffer}

theorem safe_applyFill {pixel : List UInt8} (hfb : fb.Valid) :
    Safe rect fb (applyFill rect .rgba32 pixel) fb := by
  refine wp_ite (fun _ => SameOutside.refl rect fb) fun hlen => ?_
  rw [bytesPerPixel_rgba32] at hlen
  exact wp_bind.mpr (wp_tpixel (by omega) fun colour => safe_fill hfb)

theorem safe_applyJpeg {rgb : Option (List UInt8)} (hfb : fb.Valid)
    (hrect : fb.contains rect = true) : Safe rect fb (applyJpeg rect rgb) fb := by
  have harea := hfb.rect_area_le hrect
  have hmax : maxFramebufferPixels * 4 < 2 ^ 64 := by decide
  exact wp_bind.mpr (wp_jpegPixels (by omega) (.refl rect fb) fun ys => safe_writeRgba hfb)

theorem safe_applyBasic {filter : Filter} {palette : List Rgba} {data : List UInt8}
    (hfb : fb.Valid) (hrect : fb.contains rect = true) :
    Safe rect fb (applyBasic rect .rgba32 filter palette data) fb := by
  have harea := hfb.rect_area_le hrect
  have hmax : maxFramebufferPixels * 4 < 2 ^ 64 := by decide
  exact wp_bind.mpr (wp_basicPixels (by omega) (.refl rect fb) fun ys => safe_writeRgba hfb)

end Tight

namespace Cursor

section

variable {σ : Type} {t : σ} {E : σ → Prop}

theorem wp_maskAlpha {width height : Nat} {mask rgba : List UInt8} {Q : List UInt8 → σ → Prop}
    (hrgba : rgba.length = width * height * 4) (hsize : width * height * 4 < 2 ^ 64)
    (hmask : maskLength width height ≤ mask.length)
    (hQ : ∀ ys, ys.length = rgba.length → Q ys t) :
    wp (maskAlpha width height mask rgba) Q E t := by
  have hbytes := Tight.rowBytes_le width height
  refine Tight.wp_grid ?_ hQ
  intro x y ys hx hy hys
  refine Tight.wp_rowByte hx hy hmask (by omega) fun byte => ?_
  refine wp_ite (fun _ => ⟨hys, rfl⟩) fun _ => ?_
  have hpixel := Tight.pixel_lt hx hy
  exact wp_store (by omega) ⟨by rw [List.length_set, hys], rfl⟩

theorem wp_decode {rect : Rect} {body : List UInt8} {Q : Option Cursor → σ → Prop}
    (hnone : Q none t) (hsome : ∀ cursor : Cursor,
      cursor.rgba.length = cursor.width * cursor.height * 4 → Q (some cursor) t) :
    wp (decode rect .rgba32 body) Q E t := by
  refine wp_ite (fun _ => hnone) fun hside => ?_
  refine wp_ite (fun _ => hsome _ (by simp)) fun _ => ?_
  have hside : rect.width ≤ 512 ∧ rect.height ≤ 512 := by
    unfold maxSide at hside; omega
  have harea : rect.width * rect.height ≤ 512 * 512 := Nat.mul_le_mul hside.1 hside.2
  have hbytes := Tight.rowBytes_le rect.width rect.height
  have hbpp : PixelFormat.rgba32.bytesPerPixel = 4 := rfl
  simp only [hbpp]
  refine wp_bind.mpr (wp_usize (by omega) ?_)
  refine wp_bind.mpr (wp_usize (by omega) ?_)
  refine wp_bind.mpr (wp_usize (by unfold maskLength; omega) ?_)
  refine wp_ite (fun _ => hnone) fun hlen => ?_
  refine wp_bind.mpr (wp_slice (Nat.zero_le _) (by omega) fun source _ => ?_)
  refine wp_bind.mpr (wp_attempt (wp_toRgba (by omega) (fun rgba hrgba => ?_) hnone))
  refine wp_bind.mpr (wp_slice (by omega) (Nat.le_refl _) fun mask hmask => ?_)
  refine wp_bind.mpr (wp_maskAlpha hrgba (by omega) (by omega) fun ys hys => ?_)
  exact hsome _ (hys.trans hrgba)

end

end Cursor

theorem safe_validated {rect : Rect} {fb : Framebuffer} {m : Decoder Unit}
    (hm : fb.contains rect = true → Safe rect fb m fb) :
    Safe rect fb (do validateRect rect; m; return (none : Option Cursor)) fb :=
  Safe.validateRect (.refl rect fb) fun hrect => Safe.seq (hm hrect) fun _ _ hs => hs

theorem safe_decodeRectangle (rect : Rect) (body : Body) {fb : Framebuffer} (hfb : fb.Valid) :
    Safe rect fb (decodeRectangle .rgba32 rect body) fb := by
  cases body with
  | raw data => exact safe_validated fun _ => safe_applyRaw hfb
  | copyRect sourceX sourceY => exact safe_validated fun _ => safe_applyCopyRect hfb
  | tightFill pixel => exact safe_validated fun _ => Tight.safe_applyFill hfb
  | tightJpeg rgb => exact safe_validated fun hrect => Tight.safe_applyJpeg hfb hrect
  | tightBasic filter palette data =>
    exact safe_validated fun hrect => Tight.safe_applyBasic hfb hrect
  | zrle pieces =>
    refine Safe.validateRect (.refl rect fb) fun hrect => ?_
    refine wp_bind.mpr (Zrle.wp_inflate (fun out hout => ?_) (.refl rect fb))
    exact Safe.seq (Zrle.safe_apply hfb hrect hout) fun _ _ hs => hs
  | cursor body => exact Cursor.wp_decode (.refl rect fb) fun _ _ => .refl rect fb

theorem valid_of_checkedLen {width height len : Nat} (hwidth : width < 2 ^ 16)
    (hheight : height < 2 ^ 16) (h : checkedRgbaFramebufferLen width height = some len) :
    Framebuffer.Valid { width, height, pixels := List.replicate len 0 } := by
  have hmul : width * height < 2 ^ 64 :=
    Nat.lt_of_le_of_lt (Nat.mul_le_mul hwidth.le hheight.le) (by decide)
  unfold checkedRgbaFramebufferLen checkedMul rgbaBytesPerPixel at h
  rw [if_pos hmul] at h
  simp only [Option.bind_eq_bind, Option.bind_some] at h
  split at h
  · cases h
  · rename_i hsize
    have harea : width * height ≤ maxFramebufferPixels := by omega
    have hbound : maxFramebufferPixels * 4 < 2 ^ 64 := by decide
    rw [if_pos (by omega), Option.bind_some] at h
    split at h
    · cases h
      exact ⟨hwidth, hheight, harea, List.length_replicate⟩
    · cases h

theorem valid_tryNew {width height : Nat} {fb : Framebuffer} (hwidth : width < 2 ^ 16)
    (hheight : height < 2 ^ 16) (h : Framebuffer.tryNew width height = .ok fb) : fb.Valid := by
  unfold Framebuffer.tryNew at h
  split at h
  · cases h
    exact valid_of_checkedLen hwidth hheight ‹_›
  · cases h

/-- Hostile bytes do no harm: a decoder fails or succeeds, the framebuffer keeps its size and no
pixel changes outside of the rectangle. -/
theorem decodeRectangle_outcome {fb : Framebuffer} (hfb : fb.Valid) (rect : Rect) (body : Body) :
    let out := decodeRectangle .rgba32 rect body fb
    ((∃ cursor, out.1 = .ok cursor) ∨ ∃ e, out.1 = .error (.error e)) ∧
      out.2.width = fb.width ∧ out.2.height = fb.height ∧
      out.2.pixels.length = out.2.width * out.2.height * 4 ∧
      ∀ x y, x < fb.width → y < fb.height → ¬ rect.covers x y →
        out.2.pixel x y = fb.pixel x y := by
  rcases wp_iff.mp (safe_decodeRectangle rect body hfb) with
    ⟨cursor, fb', h, hs⟩ | ⟨e, fb', h, hs⟩
  · rw [h]
    exact ⟨.inl ⟨cursor, rfl⟩, hs.width, hs.height, (hfb.of_sameOutside hs).length_pixels, hs.pixel⟩
  · rw [h]
    exact ⟨.inr ⟨e, rfl⟩, hs.width, hs.height, (hfb.of_sameOutside hs).length_pixels, hs.pixel⟩

/-- The second of two tiles is cut off: the first has been drawn, and the column beside the
rectangle is as before. -/
theorem truncated_tile_outcome :
    let fb : Framebuffer := { width := 66, height := 1, pixels := List.replicate 264 0 }
    let rect : Rect := { x := 0, y := 0, width := 65, height := 1 }
    let out := decodeRectangle .rgba32 rect (.zrle [.ok [1, 9, 9, 9, 1]]) fb
    (out.1 matches .error (.error (.corruptStream "ZRLE truncated"))) ∧
      out.2.pixel 63 0 = [9, 9, 9, 255] ∧ out.2.pixels.length = 264 ∧
      out.2.pixel 65 0 = fb.pixel 65 0 := by
  intro fb rect out
  have hfb : fb.Valid := valid_tryNew (by decide : 66 < 2 ^ 16) (by decide : 1 < 2 ^ 16) rfl
  have h := decodeRectangle_outcome hfb rect (.zrle [.ok [1, 9, 9, 9, 1]])
  refine ⟨by decide +kernel, by decide +kernel, ?_, ?_⟩
  · rw [h.2.2.2.1, h.2.1, h.2.2.1]
    simp only [fb, Nat.reduceMul]
  · exact h.2.2.2.2 65 0 (by decide) (by decide) (by decide)

theorem wp_tryResize {width height : Nat} {fb : Framebuffer} (hwidth : width < 2 ^ 16)
    (hheight : height < 2 ^ 16) (hfb : fb.Valid) :
    wp (tryResize width height) (fun _ => Framebuffer.Valid) Framebuffer.Valid fb :=
  wp_bind.mpr (wp_orFail (fun _ hlen => valid_of_checkedLen hwidth hheight hlen) hfb)

theorem handleUpdates_safe {updates : List Update} {fb : Framebuffer} (hfb : fb.Valid)
    (hsize : ∀ width height, .desktopSize width height ∈ updates →
      width < 2 ^ 16 ∧ height < 2 ^ 16) :
    wp (handleUpdates .rgba32 updates) (fun _ => Framebuffer.Valid) Framebuffer.Valid fb := by
  refine wp_forEach (fun _ _ => Framebuffer.Valid) hfb ?_ fun _ _ h => h
  intro i _ fb' hi hfb'
  cases hupdate : updates[i] with
  | rectangle rect body =>
    have hvalid : ∀ fb'', SameOutside rect fb' fb'' → fb''.Valid := fun _ => hfb'.of_sameOutside
    refine wp_bind.mpr (wp_mono (safe_decodeRectangle rect body hfb') (fun _ fb'' h => ?_) hvalid)
    exact hvalid fb'' h
  | desktopSize width height =>
    have ⟨hwidth, hheight⟩ := hsize width height (hupdate ▸ List.getElem_mem hi)
    exact wp_tryResize hwidth hheight hfb'

/-- The second rectangle lies beside the screen, which the update before it has made smaller. -/
theorem handleUpdates_safe_shrunk : ∃ fb, Framebuffer.tryNew 2 1 = .ok fb ∧
    wp (handleUpdates .rgba32 [.desktopSize 1 1, .rectangle ⟨1, 0, 1, 1⟩ (.raw [1, 2, 3, 4])])
      (fun _ => Framebuffer.Valid) Framebuffer.Valid fb := by
  have hfb : Framebuffer.Valid ⟨2, 1, List.replicate 8 0⟩ :=
    valid_tryNew (by decide : 2 < 2 ^ 16) (by decide : 1 < 2 ^ 16) rfl
  refine ⟨_, rfl, handleUpdates_safe hfb ?_⟩
  intro width height hmem
  rcases List.mem_cons.mp hmem with h | h
  · cases h
    decide
  · cases List.mem_singleton.mp h

end Dolgate.Vnc
