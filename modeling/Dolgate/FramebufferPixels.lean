import Dolgate.FramebufferBounds

set_option autoImplicit false

/-! What the pixels of a rectangle are once its rows have been written. -/

namespace Dolgate.Vnc
open Checked

/-- The `n`th pixel of bytes that are pixels one after the other. -/
def pixelAt (bytes : List UInt8) (n : Nat) : List UInt8 := (bytes.drop (n * 4)).take 4

def Rect.row (rect : Rect) (row : Nat) : Rect := { rect with y := rect.y + row, height := 1 }

theorem Rect.covers_row {rect : Rect} {row x y : Nat} :
    (rect.row row).covers x y ↔ (rect.x ≤ x ∧ x < rect.x + rect.width) ∧ y = rect.y + row := by
  unfold Rect.covers Rect.row
  dsimp only
  omega

theorem Rect.covers_of_row {rect : Rect} {row x y : Nat} (hrow : row < rect.height)
    (h : (rect.row row).covers x y) : rect.covers x y := by
  rw [Rect.covers_row] at h
  unfold Rect.covers
  omega

def Framebuffer.ShowsIn (fb : Framebuffer) (rect : Rect) (picture : Nat → Nat → List UInt8) : Prop :=
  ∀ column row, column < rect.width → row < rect.height →
    fb.pixel (rect.x + column) (rect.y + row) = picture column row

section

variable {rect : Rect} {fb₀ fb : Framebuffer}

theorem pixel_splice {y column : Nat} {bytes : List UInt8} (hfb : fb.Valid)
    (hrect : fb.contains rect = true) (hy : rect.y ≤ y ∧ y < rect.y + rect.height)
    (hlen : bytes.length = rect.width * 4) (hcolumn : column < rect.width) :
    ({ fb with pixels := splice fb.pixels ((y * fb.width + rect.x) * 4) bytes } : Framebuffer).pixel
      (rect.x + column) y = pixelAt bytes column := by
  have ⟨hx, hbottom⟩ := contains_iff.mp hrect
  have hindex := hfb.index_le hx (by omega : y < fb.height)
  have hstart : (y * fb.width + (rect.x + column)) * 4 =
      (y * fb.width + rect.x) * 4 + column * 4 := by omega
  apply List.ext_getElem?
  intro i
  simp only [Framebuffer.pixel, pixelAt, List.getElem?_take, List.getElem?_drop]
  split
  · rw [hstart, Nat.add_assoc]
    exact getElem?_splice_inside (by omega) (by omega)
  · rfl

theorem wp_copyRow {row : Nat} {bytes : List UInt8} {Q : Unit → Framebuffer → Prop}
    {E : Framebuffer → Prop} (hfb : fb.Valid) (hrect : fb.contains rect = true)
    (hrow : row < rect.height) (hlen : bytes.length = rect.width * 4)
    (hQ : ∀ fb', SameOutside (rect.row row) fb fb' →
      (∀ column, column < rect.width →
        fb'.pixel (rect.x + column) (rect.y + row) = pixelAt bytes column) → Q () fb') :
    wp (copyRow (((rect.y + row) * fb.width + rect.x) * 4)
      (((rect.y + row) * fb.width + rect.x) * 4 + rect.width * 4) bytes) Q E fb := by
  have ⟨hx, hbottom⟩ := contains_iff.mp hrect
  have hindex := hfb.index_le hx (by omega : rect.y + row < fb.height)
  have hline : fb.contains (rect.row row) = true :=
    contains_iff.mpr ⟨hx, by change rect.y + row + 1 ≤ fb.height; omega⟩
  refine wp_bind.mpr (wp_bind.mpr (wp_copyInto (by omega) hindex (by omega) ?_))
  apply hQ
  · have hin : (rect.row row).y ≤ rect.y + row ∧
        rect.y + row < (rect.row row).y + (rect.row row).height :=
      ⟨Nat.le_refl _, Nat.lt_succ_self _⟩
    exact sameOutside_splice hfb hline hin hlen
  · intro column hcolumn
    exact pixel_splice hfb hrect (by omega) hlen hcolumn

theorem wp_target {α : Type} {row : Nat} {f : Nat → Decoder α} {Q : α → Framebuffer → Prop}
    {E : Framebuffer → Prop} (hfb : fb.Valid) (hrect : fb.contains rect = true)
    (hrow : row < rect.height) (hf : wp (f (((rect.y + row) * fb.width + rect.x) * 4)) Q E fb) :
    wp (u16 (rect.y + row) >>= fun y => offset rect.x y >>= f) Q E fb := by
  have ⟨hx, hbottom⟩ := contains_iff.mp hrect
  have hheight := hfb.height_lt
  refine wp_bind.mpr (wp_u16 (by omega) ?_)
  exact wp_bind.mpr (wp_offset hfb (by omega) (by omega) hf)

structure Drawn (rect : Rect) (picture : Nat → Nat → List UInt8) (fb₀ : Framebuffer) (rows : Nat)
    (fb : Framebuffer) : Prop where
  same : SameOutside rect fb₀ fb
  shows : fb.ShowsIn { rect with height := rows } picture

theorem Drawn.next {picture : Nat → Nat → List UInt8} {row : Nat} {fb' : Framebuffer}
    (h : Drawn rect picture fb₀ row fb) (hrect : fb.contains rect = true) (hrow : row < rect.height)
    (hsame : SameOutside (rect.row row) fb fb')
    (hpixels : ∀ column, column < rect.width →
      fb'.pixel (rect.x + column) (rect.y + row) = picture column row) :
    Drawn rect picture fb₀ (row + 1) fb' where
  same := h.same.trans (hsame.mono fun x y => Rect.covers_of_row hrow)
  shows := by
    have ⟨hx, hbottom⟩ := contains_iff.mp hrect
    intro column line hcolumn hline
    dsimp only at hcolumn hline ⊢
    by_cases heq : line = row
    · rw [heq]
      exact hpixels column hcolumn
    · rw [hsame.pixel _ _ (by omega) (by omega) (by rw [Rect.covers_row]; omega)]
      exact h.shows column line hcolumn (by dsimp only; omega)

theorem wp_draw {body : Nat → Unit → Decoder Unit} {picture : Nat → Nat → List UInt8}
    {Q : Unit → Framebuffer → Prop} {E : Framebuffer → Prop} (hfb : fb₀.Valid)
    (hrect : fb₀.contains rect = true)
    (hrow : ∀ row fb, row < rect.height → fb.Valid → fb.contains rect = true →
      ∀ Q' : Unit → Framebuffer → Prop,
      (∀ fb', SameOutside (rect.row row) fb fb' →
        (∀ column, column < rect.width →
          fb'.pixel (rect.x + column) (rect.y + row) = picture column row) → Q' () fb') →
      wp (body row ()) Q' E fb)
    (hQ : ∀ fb, SameOutside rect fb₀ fb → fb.ShowsIn rect picture → Q () fb) :
    wp (forRange rect.height body ()) Q E fb₀ := by
  refine wp_forRange (fun row _ fb => Drawn rect picture fb₀ row fb) ?_ ?_ ?_
  · exact ⟨.refl rect fb₀, fun _ _ _ h => absurd h (Nat.not_lt_zero _)⟩
  · intro row _ fb hlt h
    have hrect' : fb.contains rect = true := (h.same.contains rect).trans hrect
    exact hrow row fb hlt (hfb.of_sameOutside h.same) hrect' _ fun fb' hsame hpixels =>
      h.next hrect' hlt hsame hpixels
  · intro _ fb h
    exact hQ fb h.same h.shows

theorem wp_validateRect {Q : Unit → Framebuffer → Prop} {E : Framebuffer → Prop}
    (hrect : fb.contains rect = true) (hQ : Q () fb) : wp (validateRect rect) Q E fb :=
  wp_bind.mpr (wp_ite (fun _ => hQ) fun h => absurd hrect h)

theorem pixelAt_replicate {n i : Nat} {colour : Rgba} (h : i < n) :
    pixelAt (List.replicate n colour.bytes).flatten i = colour.bytes := by
  induction n generalizing i with
  | zero => cases h
  | succ n ih =>
    rw [List.replicate_succ, List.flatten_cons, pixelAt]
    cases i with
    | zero => rw [Nat.zero_mul, List.drop_zero, List.take_left' (Rgba.length_bytes colour)]
    | succ i =>
      have hdrop : (i + 1) * 4 = colour.bytes.length + i * 4 := by
        rw [Rgba.length_bytes]
        omega
      rw [hdrop, List.drop_length_add_append]
      exact ih (Nat.lt_of_succ_lt_succ h)

theorem wp_fill {colour : Rgba} {Q : Unit → Framebuffer → Prop} {E : Framebuffer → Prop}
    (hfb : fb.Valid) (hrect : fb.contains rect = true)
    (hQ : ∀ fb', SameOutside rect fb fb' → fb'.ShowsIn rect (fun _ _ => colour.bytes) → Q () fb') :
    wp (fill rect colour) Q E fb := by
  refine wp_bind.mpr (wp_validateRect hrect ?_)
  refine wp_draw hfb hrect ?_ hQ
  intro row fb' hrow hfb' hrect' Q' hQ'
  refine wp_target hfb' hrect' hrow ?_
  refine wp_copyRow hfb' hrect' hrow ?_ ?_
  · simp only [List.length_flatten, List.map_replicate, Rgba.length_bytes, List.sum_replicate,
      smul_eq_mul]
  · intro fb'' hsame hpixels
    apply hQ' fb'' hsame
    intro column hcolumn
    rw [hpixels column hcolumn, pixelAt_replicate hcolumn]

theorem wp_writeRgba {pixels : List UInt8} {Q : Unit → Framebuffer → Prop}
    {E : Framebuffer → Prop} (hfb : fb.Valid) (hrect : fb.contains rect = true)
    (hlen : pixels.length = rect.width * rect.height * 4)
    (hQ : ∀ fb', SameOutside rect fb fb' →
      fb'.ShowsIn rect (fun column row => pixelAt pixels (row * rect.width + column)) → Q () fb') :
    wp (writeRgba rect pixels) Q E fb := by
  have harea := hfb.rect_area_le hrect
  have hmax : maxFramebufferPixels * 4 < 2 ^ 64 := by decide
  refine wp_bind.mpr (wp_validateRect hrect ?_)
  refine wp_bind.mpr (wp_usize (by omega) ?_)
  refine wp_ite (fun h => absurd hlen h) fun _ => ?_
  have hrows : pixels.length = rect.height * (rect.width * 4) := by
    rw [hlen, Nat.mul_right_comm, Nat.mul_comm]
  refine wp_draw hfb hrect ?_ hQ
  intro row fb' hrow hfb' hrect' Q' hQ'
  -- the row begins and ends inside of the pixels given
  have hend : (row + 1) * (rect.width * 4) ≤ pixels.length := by
    rw [hrows]
    exact Nat.mul_le_mul_right _ hrow
  rw [Nat.add_mul, Nat.one_mul] at hend
  refine wp_bind.mpr (wp_usize (by omega) ?_)
  refine wp_target hfb' hrect' hrow ?_
  refine wp_bind.mpr (wp_slice_eq (by omega) hend ?_)
  refine wp_copyRow hfb' hrect' hrow ?_ ?_
  · simp only [List.length_drop, List.length_take]
    omega
  · intro fb'' hsame hpixels
    apply hQ' fb'' hsame
    intro column hcolumn
    rw [hpixels column hcolumn]
    apply List.ext_getElem?
    intro i
    simp only [pixelAt, List.getElem?_take, List.getElem?_drop]
    have hoffset : (row * rect.width + column) * 4 + i =
        row * (rect.width * 4) + (column * 4 + i) := by
      rw [Nat.add_mul, Nat.mul_assoc, Nat.add_assoc]
    split
    · rw [if_pos (by omega), hoffset]
    · rfl

end

end Dolgate.Vnc
