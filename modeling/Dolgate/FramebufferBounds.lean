import Dolgate.Framebuffer

set_option autoImplicit false

/-! A rectangle that lies inside of the framebuffer is drawn without panic, and nothing outside of
it changes, also where the drawing fails half way. -/

namespace Dolgate.Vnc
open Checked

structure Framebuffer.Valid (fb : Framebuffer) : Prop where
  width_lt : fb.width < 2 ^ 16
  height_lt : fb.height < 2 ^ 16
  area_le : fb.width * fb.height ≤ maxFramebufferPixels
  length_pixels : fb.pixels.length = fb.width * fb.height * 4

def Rect.covers (rect : Rect) (x y : Nat) : Prop :=
  (rect.x ≤ x ∧ x < rect.x + rect.width) ∧ rect.y ≤ y ∧ y < rect.y + rect.height

instance (rect : Rect) (x y : Nat) : Decidable (rect.covers x y) :=
  inferInstanceAs (Decidable (_ ∧ _))

def Framebuffer.pixel (fb : Framebuffer) (x y : Nat) : List UInt8 :=
  (fb.pixels.drop ((y * fb.width + x) * 4)).take 4

/-- Nothing but pixels of `rect` has changed. -/
structure SameOutside (rect : Rect) (fb fb' : Framebuffer) : Prop where
  width : fb'.width = fb.width
  height : fb'.height = fb.height
  length : fb'.pixels.length = fb.pixels.length
  pixel : ∀ x y, x < fb.width → y < fb.height → ¬ rect.covers x y → fb'.pixel x y = fb.pixel x y

theorem SameOutside.refl (rect : Rect) (fb : Framebuffer) : SameOutside rect fb fb :=
  ⟨rfl, rfl, rfl, fun _ _ _ _ _ => rfl⟩

theorem SameOutside.trans {rect : Rect} {fb fb' fb'' : Framebuffer} (h : SameOutside rect fb fb')
    (h' : SameOutside rect fb' fb'') : SameOutside rect fb fb'' where
  width := h'.width.trans h.width
  height := h'.height.trans h.height
  length := h'.length.trans h.length
  pixel x y hx hy hout :=
    (h'.pixel x y (h.width ▸ hx) (h.height ▸ hy) hout).trans (h.pixel x y hx hy hout)

theorem SameOutside.mono {tile rect : Rect} {fb fb' : Framebuffer}
    (h : SameOutside tile fb fb') (hsub : ∀ x y, tile.covers x y → rect.covers x y) :
    SameOutside rect fb fb' :=
  { h with pixel := fun x y hx hy hout => h.pixel x y hx hy (mt (hsub x y) hout) }

theorem Framebuffer.Valid.of_sameOutside {rect : Rect} {fb fb' : Framebuffer} (hfb : fb.Valid)
    (h : SameOutside rect fb fb') : fb'.Valid where
  width_lt := h.width ▸ hfb.width_lt
  height_lt := h.height ▸ hfb.height_lt
  area_le := by rw [h.width, h.height]; exact hfb.area_le
  length_pixels := by rw [h.length, h.width, h.height]; exact hfb.length_pixels

theorem contains_iff {fb : Framebuffer} {rect : Rect} : fb.contains rect = true ↔
    rect.x + rect.width ≤ fb.width ∧ rect.y + rect.height ≤ fb.height :=
  decide_eq_true_iff

theorem SameOutside.contains {rect : Rect} {fb fb' : Framebuffer} (h : SameOutside rect fb fb')
    (other : Rect) : fb'.contains other = fb.contains other := by
  rw [Framebuffer.contains, Framebuffer.contains, h.width, h.height]

/-- `m` does not panic from `fb`, and it leaves no more than pixels of `rect` changed. -/
def Safe {α : Type} (rect : Rect) (fb₀ : Framebuffer) (m : Decoder α) (fb : Framebuffer) : Prop :=
  wp m (fun _ => SameOutside rect fb₀) (SameOutside rect fb₀) fb

section

variable {rect : Rect} {fb₀ fb : Framebuffer}

theorem Safe.seq {α β : Type} {m : Decoder α} {f : α → Decoder β} (hm : Safe rect fb₀ m fb)
    (hf : ∀ a fb, SameOutside rect fb₀ fb → Safe rect fb₀ (f a) fb) : Safe rect fb₀ (m >>= f) fb :=
  wp_seq hm hf

theorem Safe.within {α : Type} {tile : Rect} {m : Decoder α} (h : Safe tile fb m fb)
    (hs : SameOutside rect fb₀ fb) (hsub : ∀ x y, tile.covers x y → rect.covers x y) :
    Safe rect fb₀ m fb :=
  wp_mono h (fun _ _ h => hs.trans (h.mono hsub)) fun _ h => hs.trans (h.mono hsub)

theorem Safe.rows {n : Nat} {body : Nat → Unit → Decoder Unit} (h : SameOutside rect fb₀ fb)
    (hbody : ∀ row fb, row < n → SameOutside rect fb₀ fb → Safe rect fb₀ (body row ()) fb) :
    Safe rect fb₀ (forRange n body ()) fb :=
  wp_forRange (fun _ _ => SameOutside rect fb₀) h (fun row _ fb => hbody row fb) fun _ _ h => h

theorem Safe.validateRect {α : Type} {m : Decoder α} (h : SameOutside rect fb₀ fb)
    (hm : fb.contains rect = true → Safe rect fb₀ m fb) :
    Safe rect fb₀ (do validateRect rect; m) fb := by
  refine wp_bind.mpr (wp_bind.mpr (wp_ite hm fun _ => h))

theorem Framebuffer.Valid.index_le (hfb : fb.Valid) {x y n : Nat} (hx : x + n ≤ fb.width)
    (hy : y < fb.height) : (y * fb.width + x) * 4 + n * 4 ≤ fb.pixels.length := by
  have hrow : (y + 1) * fb.width ≤ fb.height * fb.width := Nat.mul_le_mul_right _ hy
  rw [hfb.length_pixels, Nat.mul_comm fb.width]
  rw [Nat.add_mul, Nat.one_mul] at hrow
  omega

theorem Framebuffer.Valid.length_le (hfb : fb.Valid) : fb.pixels.length ≤ maxFramebufferBytes := by
  have := hfb.area_le
  rw [hfb.length_pixels, maxFramebufferBytes, rgbaBytesPerPixel]
  omega

theorem Framebuffer.Valid.rect_area_le (hfb : fb.Valid) (hrect : fb.contains rect = true) :
    rect.width * rect.height ≤ maxFramebufferPixels := by
  have ⟨hx, hy⟩ := contains_iff.mp hrect
  have : rect.width * rect.height ≤ fb.width * fb.height :=
    Nat.mul_le_mul (by omega) (by omega)
  exact this.trans hfb.area_le

theorem wp_offset {x y : Nat} {Q : Nat → Framebuffer → Prop} {E : Framebuffer → Prop}
    (hfb : fb.Valid) (hx : x ≤ fb.width) (hy : y < fb.height)
    (hQ : Q ((y * fb.width + x) * 4) fb) : wp (offset x y) Q E fb := by
  have hlen := hfb.index_le (n := 0) hx hy
  have hmax := hfb.length_le
  have hbound : maxFramebufferBytes < 2 ^ 64 := by decide
  exact wp_bind.mpr (wp_usize (by omega) hQ)

/-- The pixels of other rows, and those of this row beside the rectangle, do not overlap what is
written. -/
theorem sameOutside_splice {y : Nat} {bytes : List UInt8} (hfb : fb.Valid)
    (hrect : fb.contains rect = true) (hy : rect.y ≤ y ∧ y < rect.y + rect.height)
    (hlen : bytes.length = rect.width * 4) :
    SameOutside rect fb
      { fb with pixels := splice fb.pixels ((y * fb.width + rect.x) * 4) bytes } := by
  have ⟨hx, hbottom⟩ := contains_iff.mp hrect
  have hindex := hfb.index_le hx (by omega : y < fb.height)
  have hfits : (y * fb.width + rect.x) * 4 + bytes.length ≤ fb.pixels.length := by
    rw [hlen]; exact hindex
  refine ⟨rfl, rfl, length_splice hfits, ?_⟩
  intro x' y' hx' hy' hout
  have hdisjoint : (y' * fb.width + x') * 4 + 4 ≤ (y * fb.width + rect.x) * 4 ∨
      (y * fb.width + rect.x) * 4 + bytes.length ≤ (y' * fb.width + x') * 4 := by
    rw [hlen]
    rcases Nat.lt_trichotomy y' y with h | rfl | h
    · have : (y' + 1) * fb.width ≤ y * fb.width := Nat.mul_le_mul_right _ h
      rw [Nat.add_mul, Nat.one_mul] at this
      omega
    · unfold Rect.covers at hout
      omega
    · have : (y + 1) * fb.width ≤ y' * fb.width := Nat.mul_le_mul_right _ h
      rw [Nat.add_mul, Nat.one_mul] at this
      omega
  apply List.ext_getElem?
  intro i
  simp only [Framebuffer.pixel, List.getElem?_take, List.getElem?_drop]
  split
  · exact getElem?_splice hfits (by omega)
  · rfl

theorem Safe.copyRow {y : Nat} {bytes : List UInt8} (hfb : fb.Valid)
    (hs : SameOutside rect fb₀ fb) (hrect : fb.contains rect = true)
    (hy : rect.y ≤ y ∧ y < rect.y + rect.height) (hlen : bytes.length = rect.width * 4) :
    Safe rect fb₀ (copyRow ((y * fb.width + rect.x) * 4)
      ((y * fb.width + rect.x) * 4 + rect.width * 4) bytes) fb := by
  have ⟨hx, hbottom⟩ := contains_iff.mp hrect
  have hindex := hfb.index_le hx (by omega : y < fb.height)
  refine wp_bind.mpr (wp_bind.mpr (wp_copyInto (by omega) hindex (by omega) ?_))
  exact hs.trans (sameOutside_splice hfb hrect hy hlen)

theorem Safe.target {row : Nat} {f : Nat → Decoder Unit} (hfb : fb.Valid)
    (hrect : fb.contains rect = true) (hrow : row < rect.height)
    (hf : Safe rect fb₀ (f (((rect.y + row) * fb.width + rect.x) * 4)) fb) :
    Safe rect fb₀ (u16 (rect.y + row) >>= fun y => offset rect.x y >>= f) fb := by
  have ⟨hx, hbottom⟩ := contains_iff.mp hrect
  have hheight := hfb.height_lt
  refine wp_bind.mpr (wp_u16 (by omega) ?_)
  exact wp_bind.mpr (wp_offset hfb (by omega) (by omega) hf)

theorem safe_fill {colour : Rgba} (hfb : fb.Valid) : Safe rect fb (fill rect colour) fb := by
  refine Safe.validateRect (.refl rect fb) fun hrect => ?_
  refine Safe.rows (.refl rect fb) ?_
  intro row fb' hrow hs
  have hfb' := hfb.of_sameOutside hs
  have hrect' : fb'.contains rect = true := (hs.contains rect).trans hrect
  refine Safe.target hfb' hrect' hrow ?_
  refine Safe.copyRow hfb' hs hrect' (by omega) ?_
  simp only [List.length_flatten, List.map_replicate, Rgba.length_bytes, List.sum_replicate,
    smul_eq_mul]

theorem safe_writeRgba {pixels : List UInt8} (hfb : fb.Valid) :
    Safe rect fb (writeRgba rect pixels) fb := by
  refine Safe.validateRect (.refl rect fb) fun hrect => ?_
  have harea := hfb.rect_area_le hrect
  have hmax : maxFramebufferPixels * 4 < 2 ^ 64 := by decide
  refine wp_bind.mpr (wp_usize (by omega) ?_)
  refine wp_ite (fun _ => SameOutside.refl rect fb) fun hlen => ?_
  have hlen : pixels.length = rect.height * (rect.width * 4) := by
    rw [not_not.mp hlen, Nat.mul_right_comm, Nat.mul_comm]
  refine Safe.rows (.refl rect fb) ?_
  intro row fb' hrow hs
  have hfb' := hfb.of_sameOutside hs
  have hrect' : fb'.contains rect = true := (hs.contains rect).trans hrect
  -- the row begins and ends inside of the pixels given
  have hrowend : (row + 1) * (rect.width * 4) ≤ pixels.length := by
    rw [hlen]; exact Nat.mul_le_mul_right _ hrow
  rw [Nat.add_mul, Nat.one_mul] at hrowend
  have hbytes : pixels.length < 2 ^ 64 := by
    rw [hlen, ← Nat.mul_assoc, Nat.mul_comm rect.height]; omega
  refine wp_bind.mpr (wp_usize (by omega) ?_)
  refine Safe.target hfb' hrect' hrow ?_
  refine wp_bind.mpr (wp_slice (by omega) hrowend ?_)
  intro bytes hlen
  exact Safe.copyRow hfb' hs hrect' (by omega) (by omega)

section

variable {σ : Type} {t : σ} {E : σ → Prop}

theorem wp_convertPixel {pixel : List UInt8} {Q : Rgba → σ → Prop} (hlen : pixel.length = 4)
    (hQ : ∀ colour, Q colour t) : wp (convertPixel .rgba32 pixel) Q E t := by
  refine wp_ite (fun _ => ?_) fun h => absurd rfl h
  refine wp_bind.mpr (wp_index (by omega) ?_)
  refine wp_bind.mpr (wp_index (by omega) ?_)
  refine wp_bind.mpr (wp_index (by omega) ?_)
  exact hQ _

theorem wp_convertRow {source target : List UInt8} {Q : List UInt8 → σ → Prop}
    (hQ : ∀ ys, ys.length = target.length → Q ys t) :
    wp (convertRow source target .rgba32) Q E t := by
  refine wp_ite (fun h => absurd h (by decide)) fun _ => ?_
  refine wp_bind.mpr (wp_chunksExact (by decide) ?_)
  refine wp_forEach (fun _ ys t' => ys.length = target.length ∧ t' = t) ⟨rfl, rfl⟩ ?_ ?_
  · rintro i ys t' hi ⟨hys, rfl⟩
    have hcount : i < target.length / 4 := by
      rw [List.length_take] at hi; omega
    refine wp_bind.mpr (wp_convertPixel (length_of_mem_chunks (List.mem_of_mem_take
      (List.getElem_mem hi))) ?_)
    intro colour
    refine wp_copyInto (by omega) (by omega) (by rw [Rgba.length_bytes]; omega) ⟨?_, rfl⟩
    rw [length_splice (by rw [Rgba.length_bytes]; omega), hys]
  · rintro ys t' ⟨hys, rfl⟩
    exact hQ ys hys

theorem wp_toRgba {source : List UInt8} {pixels : Nat} {Q : List UInt8 → σ → Prop}
    (hpixels : pixels * 4 < 2 ^ 64) (hQ : ∀ ys, ys.length = pixels * 4 → Q ys t) (hE : E t) :
    wp (toRgba source pixels .rgba32) Q E t := by
  refine wp_bind.mpr (wp_usize hpixels ?_)
  refine wp_ite (fun _ => hE) fun hlen => ?_
  refine wp_bind.mpr (wp_usize hpixels ?_)
  refine wp_bind.mpr (wp_slice (Nat.zero_le _) (Nat.not_lt.mp hlen) ?_)
  intro bytes _
  refine wp_convertRow ?_
  intro ys hys
  exact hQ ys (by rw [hys, List.length_replicate])

end

theorem safe_applyRaw {data : List UInt8} (hfb : fb.Valid) :
    Safe rect fb (applyRaw rect .rgba32 data) fb := by
  refine Safe.validateRect (.refl rect fb) fun hrect => ?_
  have ⟨hx, hbottom⟩ := contains_iff.mp hrect
  have harea := hfb.rect_area_le hrect
  have hmax : maxFramebufferPixels * 4 < 2 ^ 64 := by decide
  have hbpp : PixelFormat.rgba32.bytesPerPixel = 4 := rfl
  simp only [hbpp]
  refine wp_bind.mpr (wp_usize (by omega) ?_)
  refine wp_ite (fun _ => SameOutside.refl rect fb) fun hlen => ?_
  have hlen : data.length = rect.height * (rect.width * 4) := by
    rw [not_not.mp hlen, Nat.mul_right_comm, Nat.mul_comm]
  refine Safe.rows (.refl rect fb) ?_
  intro row fb' hrow hs
  have hfb' := hfb.of_sameOutside hs
  have hrect' : fb'.contains rect = true := (hs.contains rect).trans hrect
  have hrowend : (row + 1) * (rect.width * 4) ≤ data.length := by
    rw [hlen]; exact Nat.mul_le_mul_right _ hrow
  rw [Nat.add_mul, Nat.one_mul, ← Nat.mul_assoc] at hrowend
  have hbytes : data.length < 2 ^ 64 := by
    rw [hlen, ← Nat.mul_assoc, Nat.mul_comm rect.height]; omega
  refine wp_bind.mpr (wp_usize (by omega) ?_)
  refine Safe.target hfb' hrect' hrow ?_
  refine wp_bind.mpr (wp_slice (by omega) hrowend fun sourceRow _ => ?_)
  refine wp_bind.mpr (wp_state.mpr ?_)
  have ⟨hx', hbottom'⟩ := contains_iff.mp hrect'
  have hindex := hfb'.index_le hx' (by omega : rect.y + row < fb'.height)
  refine wp_bind.mpr (wp_slice (by omega) hindex fun targetRow htarget => ?_)
  refine wp_bind.mpr (wp_convertRow fun converted hconverted => ?_)
  exact Safe.copyRow hfb' hs hrect' (by omega) (by omega)

theorem wp_copiedRow {sourceY i : Nat} {Q : Nat → Framebuffer → Prop} {E : Framebuffer → Prop}
    (hi : i < rect.height) (hQ : ∀ row, row < rect.height → Q row fb) :
    wp (copiedRow rect sourceY i) Q E fb := by
  refine wp_ite (fun _ => ?_) fun _ => hQ i hi
  exact wp_bind.mpr (wp_sub (by omega) (wp_sub (by omega) (hQ _ (by omega))))

theorem safe_applyCopyRect {sourceX sourceY : Nat} (hfb : fb.Valid) :
    Safe rect fb (applyCopyRect rect sourceX sourceY) fb := by
  refine wp_bind.mpr (wp_state.mpr ?_)
  refine wp_ite (fun _ => SameOutside.refl rect fb) fun h => ?_
  simp only [Bool.or_eq_true, Bool.not_eq_true', not_or, Bool.not_eq_false] at h
  have ⟨hrect, hsource⟩ := h
  refine Safe.rows (.refl rect fb) ?_
  intro i fb' hi hs
  have hfb' := hfb.of_sameOutside hs
  have hrect' : fb'.contains rect = true := (hs.contains rect).trans hrect
  have ⟨hx, hbottom⟩ := contains_iff.mp ((hs.contains _).trans hsource)
  have hheight := hfb'.height_lt
  dsimp only at hx hbottom
  refine wp_bind.mpr (wp_copiedRow hi fun row hrow => ?_)
  refine wp_bind.mpr (wp_u16 (by omega) ?_)
  refine wp_bind.mpr (wp_offset hfb' (by omega) (by omega) ?_)
  refine Safe.target hfb' hrect' hrow ?_
  refine wp_bind.mpr (wp_state.mpr ?_)
  have hindex := hfb'.index_le hx (by omega : sourceY + row < fb'.height)
  refine wp_bind.mpr (wp_slice (by omega) hindex fun bytes hbytes => ?_)
  exact Safe.copyRow hfb' hs hrect' (by omega) (by omega)

end

end Dolgate.Vnc
