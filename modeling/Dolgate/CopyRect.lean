import Dolgate.FramebufferPixels

set_option autoImplicit false

/-! CopyRect reads every pixel as it was before the first row was written, however the rectangles
overlap. -/

namespace Dolgate.Vnc
open Checked

/-- The rows that have been copied before the `i`th. -/
def RowCopied (rect : Rect) (sourceY i row : Nat) : Prop :=
  if sourceY < rect.y then rect.height ≤ row + i else row < i

instance (rect : Rect) (sourceY i row : Nat) : Decidable (RowCopied rect sourceY i row) :=
  inferInstanceAs (Decidable (ite _ _ _))

/-- The rows that have been copied show the source as it was, the others what they showed. -/
structure Copied (rect : Rect) (sourceX sourceY : Nat) (fb₀ : Framebuffer) (i : Nat)
    (fb : Framebuffer) : Prop where
  same : SameOutside rect fb₀ fb
  copied : ∀ column row, column < rect.width → row < rect.height → RowCopied rect sourceY i row →
    fb.pixel (rect.x + column) (rect.y + row) = fb₀.pixel (sourceX + column) (sourceY + row)
  rest : ∀ column row, column < rect.width → row < rect.height → ¬ RowCopied rect sourceY i row →
    fb.pixel (rect.x + column) (rect.y + row) = fb₀.pixel (rect.x + column) (rect.y + row)

/-- The row that is copied as the `i`th. -/
def copiedAs (rect : Rect) (sourceY i : Nat) : Nat :=
  if sourceY < rect.y then rect.height - 1 - i else i

section

variable {rect : Rect} {fb₀ fb : Framebuffer} {sourceX sourceY i : Nat}

theorem wp_copiedRow_eq {Q : Nat → Framebuffer → Prop} {E : Framebuffer → Prop}
    (hi : i < rect.height) (hQ : Q (copiedAs rect sourceY i) fb) :
    wp (copiedRow rect sourceY i) Q E fb := by
  unfold copiedAs at hQ
  refine wp_ite (fun h => ?_) fun h => ?_
  · rw [if_pos h] at hQ
    exact wp_bind.mpr (wp_sub (by omega) (wp_sub (by omega) hQ))
  · rw [if_neg h] at hQ
    exact hQ

theorem copiedAs_lt (hi : i < rect.height) : copiedAs rect sourceY i < rect.height := by
  unfold copiedAs
  split <;> omega

theorem rowCopied_succ {row : Nat} (hi : i < rect.height) :
    RowCopied rect sourceY (i + 1) row ↔
      RowCopied rect sourceY i row ∨ row = copiedAs rect sourceY i := by
  unfold RowCopied copiedAs
  split <;> omega

theorem Copied.source (h : Copied rect sourceX sourceY fb₀ i fb) (hi : i < rect.height)
    (hsource : fb₀.contains { rect with x := sourceX, y := sourceY } = true) {column : Nat}
    (hcolumn : column < rect.width) :
    fb.pixel (sourceX + column) (sourceY + copiedAs rect sourceY i) =
      fb₀.pixel (sourceX + column) (sourceY + copiedAs rect sourceY i) := by
  have ⟨hx, hy⟩ := contains_iff.mp hsource
  have hrow : copiedAs rect sourceY i < rect.height := copiedAs_lt hi
  dsimp only at hx hy
  by_cases hin : rect.covers (sourceX + column) (sourceY + copiedAs rect sourceY i)
  · obtain ⟨⟨hleft, hright⟩, htop, hbottom⟩ := hin
    have hread : ¬ RowCopied rect sourceY i (sourceY + copiedAs rect sourceY i - rect.y) := by
      unfold RowCopied copiedAs
      split <;> omega
    have hrest := h.rest (sourceX + column - rect.x)
      (sourceY + copiedAs rect sourceY i - rect.y) (by omega) (by omega) hread
    rwa [Nat.add_sub_cancel' hleft, Nat.add_sub_cancel' htop] at hrest
  · exact h.same.pixel _ _ (by omega) (by omega) hin

theorem Copied.next {fb' : Framebuffer} (h : Copied rect sourceX sourceY fb₀ i fb)
    (hrect : fb.contains rect = true) (hi : i < rect.height)
    (hsame : SameOutside (rect.row (copiedAs rect sourceY i)) fb fb')
    (hpixels : ∀ column, column < rect.width →
      fb'.pixel (rect.x + column) (rect.y + copiedAs rect sourceY i) =
        fb₀.pixel (sourceX + column) (sourceY + copiedAs rect sourceY i)) :
    Copied rect sourceX sourceY fb₀ (i + 1) fb' := by
  have ⟨hx, hbottom⟩ := contains_iff.mp hrect
  have hother : ∀ column row, column < rect.width → row < rect.height →
      row ≠ copiedAs rect sourceY i → fb'.pixel (rect.x + column) (rect.y + row) =
        fb.pixel (rect.x + column) (rect.y + row) := fun column row hcolumn hrow hne =>
    hsame.pixel _ _ (by omega) (by omega) (by rw [Rect.covers_row]; omega)
  refine ⟨h.same.trans (hsame.mono fun x y => Rect.covers_of_row (copiedAs_lt hi)), ?_, ?_⟩
  · intro column row hcolumn hrow hcopied
    by_cases heq : row = copiedAs rect sourceY i
    · rw [heq]
      exact hpixels column hcolumn
    · have hcopied := ((rowCopied_succ hi).mp hcopied).resolve_right heq
      rw [hother column row hcolumn hrow heq, h.copied column row hcolumn hrow hcopied]
  · intro column row hcolumn hrow hcopied
    rw [rowCopied_succ hi, not_or] at hcopied
    rw [hother column row hcolumn hrow hcopied.2, h.rest column row hcolumn hrow hcopied.1]

theorem Copied.all (h : Copied rect sourceX sourceY fb₀ rect.height fb) :
    fb.ShowsIn rect fun column row => fb₀.pixel (sourceX + column) (sourceY + row) := by
  intro column row hcolumn hrow
  apply h.copied column row hcolumn hrow
  unfold RowCopied
  split <;> omega

theorem pixelAt_row {start n column : Nat} {pixels : List UInt8} (h : column < n) :
    pixelAt ((pixels.take (start * 4 + n * 4)).drop (start * 4)) column =
      (pixels.drop ((start + column) * 4)).take 4 := by
  apply List.ext_getElem?
  intro i
  simp only [pixelAt, List.getElem?_take, List.getElem?_drop]
  split
  · rw [if_pos (by omega)]
    congr 1
    omega
  · rfl

theorem wp_applyCopyRect {Q : Unit → Framebuffer → Prop} {E : Framebuffer → Prop} (hfb : fb.Valid)
    (hrect : fb.contains rect = true)
    (hsource : fb.contains { rect with x := sourceX, y := sourceY } = true)
    (hQ : ∀ fb', SameOutside rect fb fb' →
      (fb'.ShowsIn rect fun column row => fb.pixel (sourceX + column) (sourceY + row)) → Q () fb') :
    wp (applyCopyRect rect sourceX sourceY) Q E fb := by
  refine wp_bind.mpr (wp_state.mpr ?_)
  refine wp_ite (fun h => ?_) fun _ => ?_
  · rw [hrect, hsource] at h
    exact absurd h (by decide)
  refine wp_forRange (fun i _ => Copied rect sourceX sourceY fb i) ?_ ?_ fun _ fb' h =>
    hQ fb' h.same h.all
  · refine ⟨.refl rect fb, ?_, fun _ _ _ _ _ => rfl⟩
    intro column row _ hrow hcopied
    unfold RowCopied at hcopied
    split at hcopied <;> omega
  · intro i _ fb' hi h
    have hfb' := hfb.of_sameOutside h.same
    have hrect' : fb'.contains rect = true := (h.same.contains rect).trans hrect
    have ⟨hx, hbottom⟩ := contains_iff.mp ((h.same.contains _).trans hsource)
    have hheight := hfb'.height_lt
    have hrow : copiedAs rect sourceY i < rect.height := copiedAs_lt hi
    dsimp only at hx hbottom
    refine wp_bind.mpr (wp_copiedRow_eq hi ?_)
    refine wp_bind.mpr (wp_u16 (by omega) ?_)
    refine wp_bind.mpr (wp_offset hfb' (by omega) (by omega) ?_)
    refine wp_target hfb' hrect' hrow ?_
    refine wp_bind.mpr (wp_state.mpr ?_)
    have hindex := hfb'.index_le hx (by omega : sourceY + copiedAs rect sourceY i < fb'.height)
    refine wp_bind.mpr (wp_slice_eq (by omega) hindex ?_)
    refine wp_copyRow hfb' hrect' hrow ?_ ?_
    · simp only [List.length_drop, List.length_take]
      omega
    · intro fb'' hsame hpixels
      refine h.next hrect' hi hsame ?_
      intro column hcolumn
      rw [hpixels column hcolumn, pixelAt_row hcolumn, ← h.source hi hsource hcolumn,
        Framebuffer.pixel, Nat.add_assoc]

end

/-- Every pixel of the rectangle becomes the pixel of the source as it was before, and no other
pixel changes. -/
theorem copyRect_simultaneous (rect : Rect) (sourceX sourceY : Nat) (fb : Framebuffer)
    (hfb : fb.Valid) (hrect : fb.contains rect = true)
    (hsource : fb.contains { rect with x := sourceX, y := sourceY } = true) :
    ∃ fb', applyCopyRect rect sourceX sourceY fb = (.ok (), fb') ∧
      (fb'.width = fb.width ∧ fb'.height = fb.height) ∧
      (∀ column row, column < rect.width → row < rect.height →
        fb'.pixel (rect.x + column) (rect.y + row) =
          fb.pixel (sourceX + column) (sourceY + row)) ∧
      ∀ x y, x < fb.width → y < fb.height → ¬ rect.covers x y → fb'.pixel x y = fb.pixel x y := by
  obtain ⟨_, fb', hrun, hsame, hshows⟩ := wp_total (wp_applyCopyRect (E := fun _ => False)
    (Q := fun _ fb' => SameOutside rect fb fb' ∧
      fb'.ShowsIn rect fun column row => fb.pixel (sourceX + column) (sourceY + row))
    hfb hrect hsource fun fb' hsame hshows => ⟨hsame, hshows⟩)
  exact ⟨fb', hrun, ⟨hsame.width, hsame.height⟩, hshows, hsame.pixel⟩

/-- A column of three pixels, of which the upper two go down by one. -/
theorem copyRect_down : ∃ fb', applyCopyRect ⟨0, 1, 1, 2⟩ 0 0
    ⟨1, 3, [1, 1, 1, 1, 2, 2, 2, 2, 3, 3, 3, 3]⟩ = (.ok (), fb') ∧
    (∀ column row, column < 1 → row < 2 → fb'.pixel (0 + column) (1 + row) =
      (⟨1, 3, [1, 1, 1, 1, 2, 2, 2, 2, 3, 3, 3, 3]⟩ : Framebuffer).pixel (0 + column) (0 + row)) :=
  have hfb : (⟨1, 3, [1, 1, 1, 1, 2, 2, 2, 2, 3, 3, 3, 3]⟩ : Framebuffer).Valid :=
    ⟨by decide, by decide, by decide, rfl⟩
  have ⟨fb', hrun, _, hshows, _⟩ :=
    copyRect_simultaneous ⟨0, 1, 1, 2⟩ 0 0 _ hfb (by decide) (by decide)
  ⟨fb', hrun, hshows⟩

end Dolgate.Vnc
