import Dolgate.EgfxSurface
import Dolgate.FramebufferPixels

set_option autoImplicit false

/-! What the operations of the surface draw. No pixel of the screen changes that is not marked for
the next flush, and nothing is drawn or read out of bounds. -/

namespace Dolgate.Egfx
open Checked Vnc

namespace Bounds

structure Inside (fb : Framebuffer) (b : Bounds) : Prop where
  left_lt : b.left < b.right
  right_le : b.right ≤ fb.width
  top_lt : b.top < b.bottom
  bottom_le : b.bottom ≤ fb.height

variable {a b : Bounds} {fb : Framebuffer} {x y : Nat}

theorem covers_union_left (h : a.covers x y) : (a.union b).covers x y := by
  unfold covers union at *
  dsimp only
  omega

theorem covers_union_right (h : b.covers x y) : (a.union b).covers x y := by
  unfold covers union at *
  dsimp only
  omega

theorem Inside.union (ha : a.Inside fb) (hb : b.Inside fb) : (a.union b).Inside fb := by
  obtain ⟨hal, har, hat, hab⟩ := ha
  obtain ⟨hbl, hbr, hbt, hbb⟩ := hb
  constructor <;> simp only [Bounds.union] <;> omega

theorem overlapArea_le (a b : Bounds) : a.overlapArea b ≤ b.area := by
  unfold overlapArea area
  dsimp only
  split
  · exact Nat.zero_le _
  · exact Nat.mul_le_mul (by omega) (by omega)

end Bounds

/-- The boxes cover the pixel. -/
def Covered (dirty : List Bounds) (x y : Nat) : Prop := ∃ b ∈ dirty, b.covers x y

theorem covered_set {dirty : List Bounds} {i : Nat} {other : Bounds} {x y : Nat}
    (hi : i < dirty.length) (h : Covered dirty x y ∨ other.covers x y) :
    Covered (dirty.set i (dirty[i].union other)) x y := by
  have hmem : dirty[i].union other ∈ dirty.set i (dirty[i].union other) :=
    List.mem_set hi _
  rcases h with ⟨b, hb, hcovers⟩ | hcovers
  · obtain ⟨k, hk, rfl⟩ := List.mem_iff_getElem.mp hb
    by_cases hki : k = i
    · subst hki
      exact ⟨_, hmem, Bounds.covers_union_left hcovers⟩
    · refine ⟨dirty[k], List.mem_iff_getElem.mpr ⟨k, by rwa [List.length_set], ?_⟩, hcovers⟩
      exact List.getElem_set_ne (Ne.symm hki) _
  · exact ⟨_, hmem, Bounds.covers_union_right hcovers⟩

/-- A box can go once another one has taken it up. -/
theorem covered_eraseIdx {dirty : List Bounds} {i j : Nat} {x y : Nat} (hij : i < j)
    (hj : j < dirty.length) (h : Covered dirty x y) :
    Covered ((dirty.set i (dirty[i].union dirty[j])).eraseIdx j) x y := by
  have hi : i < dirty.length := hij.trans hj
  have hat : (dirty.set i (dirty[i].union dirty[j]))[i]? = some (dirty[i].union dirty[j]) := by
    rw [List.getElem?_set_self hi]
  have hmem : dirty[i].union dirty[j] ∈ (dirty.set i (dirty[i].union dirty[j])).eraseIdx j :=
    List.mem_eraseIdx_iff_getElem?.mpr ⟨i, Nat.ne_of_lt hij, hat⟩
  have h : Covered dirty x y ∨ dirty[j].covers x y := .inl h
  obtain ⟨b, hb, hcovers⟩ := covered_set hi h
  obtain ⟨k, hk⟩ := List.mem_iff_getElem?.mp hb
  by_cases hkj : k = j
  · subst hkj
    rw [List.getElem?_set_ne (Nat.ne_of_lt hij), List.getElem?_eq_getElem hj] at hk
    cases hk
    exact ⟨_, hmem, Bounds.covers_union_right hcovers⟩
  · exact ⟨b, List.mem_eraseIdx_iff_getElem?.mpr ⟨k, hkj, hk⟩, hcovers⟩

section

variable {σ ε : Type} {s : σ} {E : σ → Prop} {dirty : List Bounds}

theorem wp_cheapest {rect : Bounds} {Q : Option (Nat × Nat) → σ → Prop}
    (hQ : ∀ best, (∀ b ∈ best, b.1 < dirty.length) → Q best s) :
    wp (cheapest dirty rect : Comp σ ε _) Q E s := by
  refine wp_forEach (fun i best s' => (∀ b ∈ best, b.1 < i) ∧ s' = s) ⟨?_, rfl⟩ ?_ ?_
  · intro b hb
    cases hb
  · rintro i best s' hi ⟨hbest, rfl⟩
    have hoverlap := Bounds.overlapArea_le dirty[i] rect
    refine wp_bind.mpr (wp_sub (by omega) (wp_pure.mpr ⟨?_, rfl⟩))
    intro b hb
    split at hb
    · cases hb
      exact Nat.lt_succ_self i
    · exact (hbest b hb).trans (Nat.lt_succ_self i)
  · rintro best s' ⟨hbest, rfl⟩
    exact hQ best hbest

theorem wp_closest {Q : Nat × Nat × Nat → σ → Prop} (hlen : 1 < dirty.length)
    (hQ : ∀ i j cost, i < j → j < dirty.length → Q (i, j, cost) s) :
    wp (closest dirty : Comp σ ε _) Q E s := by
  let I (pair : Nat × Nat × Nat) (s' : σ) : Prop :=
    (pair.1 < pair.2.1 ∧ pair.2.1 < dirty.length) ∧ s' = s
  refine wp_forRange (fun _ => I) ⟨⟨Nat.one_pos, hlen⟩, rfl⟩ ?_ ?_
  · intro i pair s' hi h
    refine wp_forRange (fun _ => I) h ?_ fun _ _ h => h
    rintro k pair s' hk ⟨hpair, rfl⟩
    refine wp_bind.mpr (wp_index hi (wp_bind.mpr (wp_index (by omega) ?_)))
    refine wp_pure.mpr ⟨?_, rfl⟩
    split
    · exact ⟨by dsimp only; omega, by dsimp only; omega⟩
    · exact hpair
  · rintro ⟨i, j, cost⟩ s' ⟨⟨hij, hj⟩, rfl⟩
    exact hQ i j cost hij hj

theorem wp_mergeInto {i : Nat} {other : Bounds} {Q : List Bounds → σ → Prop}
    (hi : i < dirty.length) (hQ : Q (dirty.set i (dirty[i].union other)) s) :
    wp (mergeInto dirty i other : Comp σ ε _) Q E s :=
  wp_bind.mpr (wp_index hi (wp_store hi hQ))

theorem wp_remove {α : Type} {xs : List α} {i : Nat} {Q : List α → σ → Prop} (hi : i < xs.length)
    (hQ : Q (xs.eraseIdx i) s) : wp (remove xs i : Comp σ ε _) Q E s := by
  rw [remove, if_pos hi]
  exact hQ

theorem wp_gather {fb : Framebuffer} {rect : Rect} {Q : List UInt8 → σ → Prop} (hfb : fb.Valid)
    (hrect : fb.contains rect = true)
    (hQ : ∀ out, out.length = rect.width * 4 * rect.height →
      (∀ column row, column < rect.width → row < rect.height →
        pixelAt out (row * rect.width + column) = fb.pixel (rect.x + column) (rect.y + row)) →
      Q out s) :
    wp (gather fb rect : Comp σ ε _) Q E s := by
  have ⟨hx, hbottom⟩ := contains_iff.mp hrect
  have hmax := hfb.length_le
  have hbound : maxFramebufferBytes < 2 ^ 64 := by decide
  let line (row : Nat) : List UInt8 :=
    (fb.pixels.drop (((rect.y + row) * fb.width + rect.x) * 4)).take (rect.width * 4)
  refine wp_forRange (fun row out s' => out = (List.range row).flatMap line ∧ s' = s)
    ⟨rfl, rfl⟩ ?_ ?_
  · rintro row out s' hrow ⟨rfl, rfl⟩
    have hindex := hfb.index_le hx (by omega : rect.y + row < fb.height)
    have hat : (rect.y + row) * (fb.width * 4) + rect.x * 4 =
        ((rect.y + row) * fb.width + rect.x) * 4 := by ring
    refine wp_bind.mpr (wp_usize (by omega) (wp_bind.mpr (wp_slice_eq (by omega) (by omega) ?_)))
    refine wp_pure.mpr ⟨?_, rfl⟩
    rw [hat, List.range_succ, List.flatMap_append, List.flatMap_singleton, List.drop_take,
      Nat.add_sub_cancel_left]
  · rintro out s' ⟨rfl, rfl⟩
    have hextract : Session.extract fb rect = some ((List.range rect.height).flatMap line) := by
      rw [Session.extract, if_pos hrect]
    refine hQ _ ?_ ?_
    · rw [List.length_flatMap, List.map_congr_left (g := fun _ => rect.width * 4), List.map_const',
        List.sum_replicate, List.length_range, smul_eq_mul, Nat.mul_comm]
      intro row hrow
      have hindex := hfb.index_le hx (by have := List.mem_range.mp hrow; omega :
        rect.y + row < fb.height)
      simp only [line, List.length_take, List.length_drop]
      omega
    · intro column row hcolumn hrow
      have hpixel := extract_pixel hfb hextract (x := rect.x + column) (y := rect.y + row)
        ⟨⟨by omega, by omega⟩, by omega, by omega⟩
      rwa [Nat.add_sub_cancel_left, Nat.add_sub_cancel_left] at hpixel

end

section

variable {fb : Framebuffer} {rect : Rect} {picture : Nat → Nat → List UInt8}
  {Q : Unit → Framebuffer → Prop} {E : Framebuffer → Prop}

theorem wp_blit {source : List UInt8} {n : Nat} (hfb : fb.Valid) (hrect : fb.contains rect = true)
    (hn : rect.width ≤ n) (hn' : n < 2 ^ 16) (hlen : n * 4 * rect.height ≤ source.length)
    (hpicture : ∀ column row, column < rect.width → row < rect.height →
      pixelAt source (row * n + column) = picture column row)
    (hQ : ∀ fb', SameOutside rect fb fb' → fb'.ShowsIn rect picture → Q () fb') :
    wp (blit rect source (n * 4)) Q E fb := by
  have ⟨_, hbottom⟩ := contains_iff.mp hrect
  have hheight := hfb.height_lt
  have hbound : maxFramebufferBytes < 2 ^ 64 := by decide
  refine wp_draw hfb hrect ?_ hQ
  intro row fb' hrow hfb' hrect' Q' hQ'
  have ⟨hx', hbottom'⟩ := contains_iff.mp hrect'
  have hmax := hfb'.length_le
  have hindex := hfb'.index_le hx' (by omega : rect.y + row < fb'.height)
  have hat : (rect.y + row) * (fb'.width * 4) + rect.x * 4 =
      ((rect.y + row) * fb'.width + rect.x) * 4 := by ring
  have hstart : row * (n * 4) ≤ 2 ^ 16 * (2 ^ 16 * 4) := Nat.mul_le_mul (by omega) (by omega)
  have hend : (row + 1) * (n * 4) ≤ n * 4 * rect.height := by
    rw [Nat.mul_comm (n * 4)]
    exact Nat.mul_le_mul_right _ hrow
  rw [Nat.add_mul, Nat.one_mul] at hend
  refine wp_bind.mpr (wp_usize (by omega) (wp_bind.mpr (wp_state.mpr ?_)))
  refine wp_bind.mpr (wp_usize (by omega) (wp_bind.mpr (wp_slice_eq (by omega) (by omega) ?_)))
  rw [hat]
  refine wp_copyRow hfb' hrect' hrow ?_ ?_
  · rw [List.length_drop, List.length_take]
    omega
  · intro fb'' hsame hpixels
    apply hQ' fb'' hsame
    intro column hcolumn
    rw [hpixels column hcolumn, ← hpicture column row hcolumn hrow]
    apply List.ext_getElem?
    intro k
    simp only [pixelAt, List.getElem?_take, List.getElem?_drop]
    have hoffset : (row * n + column) * 4 + k = row * (n * 4) + (column * 4 + k) := by ring
    split
    · rw [if_pos (by omega), hoffset]
    · rfl

theorem wp_paint {r g b : UInt8} (hfb : fb.Valid) (hrect : fb.contains rect = true)
    (hQ : ∀ fb', SameOutside rect fb fb' →
      fb'.ShowsIn rect (fun _ _ => [r, g, b, 0xFF]) → Q () fb') :
    wp (paint rect r g b) Q E fb := by
  have hbound : maxFramebufferBytes < 2 ^ 64 := by decide
  refine wp_draw hfb hrect ?_ hQ
  intro row fb' hrow hfb' hrect' Q' hQ'
  have ⟨hx', hbottom'⟩ := contains_iff.mp hrect'
  have hmax := hfb'.length_le
  have hindex := hfb'.index_le hx' (by omega : rect.y + row < fb'.height)
  have hat : (rect.y + row) * (fb'.width * 4) + rect.x * 4 =
      ((rect.y + row) * fb'.width + rect.x) * 4 := by ring
  refine wp_bind.mpr (wp_state.mpr (wp_bind.mpr (wp_usize (by omega) ?_)))
  rw [hat]
  refine wp_copyRow hfb' hrect' hrow ?_ ?_
  · simp only [List.length_flatten, List.map_replicate, Rgba.length_bytes, List.sum_replicate,
      smul_eq_mul]
  · intro fb'' hsame hpixels
    apply hQ' fb'' hsame
    intro column hcolumn
    rw [hpixels column hcolumn, pixelAt_replicate hcolumn]
    rfl

end

/-! The surface. -/

namespace EgfxSurface

/-- The pixel is to be sent at the next flush. -/
def Marked (s : EgfxSurface) (x y : Nat) : Prop := Covered s.dirty x y

/-- The bytes that the tiles take. -/
def tileBytes (cache : Table Nat Framebuffer) : Nat :=
  (cache.entries.map fun e => e.2.pixels.length).sum

structure Sound (s : EgfxSurface) : Prop where
  valid : s.screen.Valid
  dirty_le : s.dirty.length ≤ maxDirtyRects
  inside : ∀ b ∈ s.dirty, b.Inside s.screen
  tiles : ∀ slot tile, s.cache.lookup slot = some tile → tile.Valid
  bytes : s.cacheBytes = tileBytes s.cache
  bytes_le : s.cacheBytes ≤ maxFramebufferBytes

/-- The pixels of `rect` show the picture and are marked. Nothing else has changed but marks. -/
structure Draws (rect : Rect) (picture : Nat → Nat → List UInt8) (s s' : EgfxSurface) : Prop where
  sound : s'.Sound
  same : SameOutside rect s.screen s'.screen
  shows : s'.screen.ShowsIn rect picture
  cache : s'.cache = s.cache
  marked : ∀ x y, s.Marked x y ∨ rect.covers x y → s'.Marked x y

end EgfxSurface

open EgfxSurface

section

variable {s : EgfxSurface} {rect : Rect} {E : EgfxSurface → Prop} {x y width height : Nat}

theorem Bounds.Inside.of_size {fb fb' : Framebuffer} {b : Bounds} (h : b.Inside fb)
    (hwidth : fb'.width = fb.width) (hheight : fb'.height = fb.height) : b.Inside fb' :=
  ⟨h.left_lt, hwidth ▸ h.right_le, h.top_lt, hheight ▸ h.bottom_le⟩

/-- The bounds on the clipped rectangle and where it lies. -/
theorem clip_eq_some (h : s.clip x y width height = some rect) :
    (rect.x = x ∧ rect.y = y) ∧ (0 < rect.width ∧ rect.width ≤ width) ∧
      (0 < rect.height ∧ rect.height ≤ height) ∧ s.screen.contains rect = true := by
  unfold clip satAdd at h
  split at h
  · cases h
  · dsimp only at h
    split at h
    · cases h
    · cases h
      refine ⟨⟨rfl, rfl⟩, ?_, ?_, contains_iff.mpr ?_⟩ <;> dsimp only <;> omega

theorem wp_onScreen {m : Decoder Unit} {Q : Unit → EgfxSurface → Prop}
    (h : wp m (fun _ fb => Q () { s with screen := fb }) (fun _ => False) s.screen) :
    wp (onScreen m) Q E s := by
  obtain ⟨_, fb, hm, hQ⟩ := wp_total h
  unfold wp onScreen
  rw [hm]
  exact hQ

/-- No pixel that is marked is lost when boxes are merged. -/
theorem wp_markDirty {Q : Unit → EgfxSurface → Prop} (hs : s.Sound)
    (hrect : s.screen.contains rect = true) (hwidth : 0 < rect.width) (hheight : 0 < rect.height)
    (hQ : ∀ dirty, Sound { s with dirty } →
      (∀ x y, s.Marked x y ∨ rect.covers x y → Covered dirty x y) → Q () { s with dirty }) :
    wp (markDirty rect.x rect.y rect.width rect.height) Q E s := by
  have ⟨hright, hbottom⟩ := contains_iff.mp hrect
  have hscreen := hs.valid.width_lt
  have hscreen' := hs.valid.height_lt
  let box : Bounds := ⟨rect.x, rect.y, satAdd rect.x rect.width, satAdd rect.y rect.height⟩
  have hsat : satAdd rect.x rect.width = rect.x + rect.width := Nat.min_eq_left (by omega)
  have hsat' : satAdd rect.y rect.height = rect.y + rect.height := Nat.min_eq_left (by omega)
  have hcovers : ∀ x y, rect.covers x y → box.covers x y := by
    intro x y h
    unfold Rect.covers at h
    simp only [box, Bounds.covers, hsat, hsat']
    exact h
  have hbox : box.Inside s.screen := by
    constructor <;> simp only [box, hsat, hsat'] <;> omega
  have hmerged : ∀ (dirty : List Bounds) (i : Nat) (hi : i < dirty.length) (other : Bounds),
      (∀ b ∈ dirty, b.Inside s.screen) → other.Inside s.screen →
      ∀ b ∈ dirty.set i (dirty[i].union other), b.Inside s.screen := by
    intro dirty i hi other hdirty hother b hb
    rcases List.mem_or_eq_of_mem_set hb with hb | rfl
    · exact hdirty b hb
    · exact (hdirty _ (List.getElem_mem hi)).union hother
  have happend : ∀ b ∈ s.dirty ++ [box], b.Inside s.screen := by
    intro b hb
    rcases List.mem_append.mp hb with hb | hb
    · exact hs.inside b hb
    · cases List.mem_singleton.mp hb
      exact hbox
  have hcovered : ∀ x y, s.Marked x y ∨ rect.covers x y → Covered (s.dirty ++ [box]) x y := by
    rintro x y (⟨b, hb, h⟩ | h)
    · exact ⟨b, List.mem_append_left _ hb, h⟩
    · exact ⟨box, List.mem_append_right _ (List.mem_singleton.mpr rfl), hcovers x y h⟩
  refine wp_bind.mpr (wp_state.mpr (wp_bind.mpr (wp_cheapest ?_)))
  intro best hbest
  cases hfit : best.filter (·.2 ≤ mergeSlack) with
  | some pair =>
    have hi := hbest pair (Option.eq_some_of_filter_eq_some hfit)
    refine wp_bind.mpr (wp_mergeInto hi (wp_put.mpr (hQ _ ?_ ?_)))
    · exact { hs with
        dirty_le := by rw [List.length_set]; exact hs.dirty_le
        inside := hmerged s.dirty pair.1 hi box hs.inside hbox }
    · exact fun x y h => covered_set hi (h.imp_right (hcovers x y))
  | none =>
    refine wp_ite (fun hroom => ?_) fun hfull => ?_
    · refine wp_put.mpr (hQ _ { hs with dirty_le := ?_, inside := happend } hcovered)
      rw [List.length_append, List.length_singleton]
      exact hroom
    · have hlen : (s.dirty ++ [(⟨rect.x, rect.y, satAdd rect.x rect.width,
          satAdd rect.y rect.height⟩ : Bounds)]).length = s.dirty.length + 1 := List.length_append
      have hmax : maxDirtyRects = 8 := rfl
      refine wp_bind.mpr (wp_closest (by omega) fun i j cost hij hj => ?_)
      refine wp_bind.mpr (wp_index hj (wp_bind.mpr (wp_mergeInto (hij.trans hj) ?_)))
      refine wp_bind.mpr (wp_remove (by rwa [List.length_set]) (wp_put.mpr (hQ _ ?_ ?_)))
      · have hle := hs.dirty_le
        refine { hs with dirty_le := ?_, inside := ?_ }
        · rw [List.length_eraseIdx_of_lt (by rwa [List.length_set]), List.length_set]
          omega
        · intro b hb
          exact hmerged _ i (hij.trans hj) _ happend (happend _ (List.getElem_mem hj)) b
            (List.mem_of_mem_eraseIdx hb)
      · exact fun x y h => covered_eraseIdx hij hj (hcovered x y h)

theorem wp_drawing {picture : Nat → Nat → List UInt8} {m : Decoder Unit}
    {Q : Unit → EgfxSurface → Prop} (hs : s.Sound) (hclip : s.clip x y width height = some rect)
    (hm : ∀ Q' : Unit → Framebuffer → Prop, (∀ fb, SameOutside rect s.screen fb →
      fb.ShowsIn rect picture → Q' () fb) → wp m Q' (fun _ => False) s.screen)
    (hQ : ∀ s', Draws rect picture s s' → Q () s') :
    wp (onScreen m) (fun _ => wp (markDirty rect.x rect.y rect.width rect.height) Q E) E s := by
  have ⟨_, ⟨hwidth, _⟩, ⟨hheight, _⟩, hrect⟩ := clip_eq_some hclip
  refine wp_onScreen (hm _ fun fb hsame hshows => ?_)
  have hs' : Sound { s with screen := fb } := { hs with
    valid := hs.valid.of_sameOutside hsame
    inside := fun b hb => (hs.inside b hb).of_size hsame.width hsame.height }
  refine wp_markDirty hs' ((hsame.contains rect).trans hrect) hwidth hheight ?_
  intro dirty hsound hmarked
  exact hQ _ ⟨hsound, hsame, hshows, rfl, hmarked⟩

theorem wp_write {pixels : List UInt8} {Q : Unit → EgfxSurface → Prop} (hs : s.Sound)
    (hwidth : width < 2 ^ 16) (hheight : height < 2 ^ 16) (hsame : Q () s)
    (hQ : ∀ rect s', s.clip x y width height = some rect → width * 4 * height ≤ pixels.length →
      Draws rect (fun column row => pixelAt pixels (row * width + column)) s s' → Q () s') :
    wp (write x y width height pixels) Q E s := by
  refine wp_bind.mpr (wp_state.mpr ?_)
  cases hclip : s.clip x y width height with
  | none => exact hsame
  | some rect =>
    have ⟨_, ⟨_, hle⟩, ⟨_, hle'⟩, hrect⟩ := clip_eq_some hclip
    have harea : width * 4 * height ≤ 2 ^ 16 * 4 * 2 ^ 16 :=
      Nat.mul_le_mul (by omega) (by omega)
    refine wp_bind.mpr (wp_usize (by omega) (wp_ite (fun _ => hsame) fun hlen => ?_))
    have hlen := Nat.not_lt.mp hlen
    refine wp_bind.mpr (wp_drawing hs hclip (fun Q' hQ' => ?_) fun s' h => hQ rect s' hclip hlen h)
    exact wp_blit hs.valid hrect hle hwidth ((Nat.mul_le_mul_left _ hle').trans hlen)
      (fun _ _ _ _ => rfl) hQ'

theorem wp_copy {sourceX sourceY destX destY : Nat} {Q : Unit → EgfxSurface → Prop} (hs : s.Sound)
    (hsame : Q () s)
    (hQ : ∀ source dest s', s.clip sourceX sourceY width height = some source →
      s.clip destX destY source.width source.height = some dest →
      Draws dest (fun column row => s.screen.pixel (sourceX + column) (sourceY + row)) s s' →
      Q () s') :
    wp (copy sourceX sourceY width height destX destY) Q E s := by
  refine wp_bind.mpr (wp_state.mpr ?_)
  cases hclip : s.clip sourceX sourceY width height with
  | none => exact hsame
  | some source =>
    dsimp only
    cases hclip' : s.clip destX destY source.width source.height with
    | none => exact hsame
    | some dest =>
      have ⟨⟨hx, hy⟩, _, _, hsource⟩ := clip_eq_some hclip
      have ⟨_, ⟨_, hle⟩, ⟨_, hle'⟩, hdest⟩ := clip_eq_some hclip'
      have ⟨hright, hbottom⟩ := contains_iff.mp hsource
      have ⟨hright', _⟩ := contains_iff.mp hdest
      have hscreen := hs.valid.width_lt
      have hfrom : s.screen.contains ⟨source.x, source.y, dest.width, dest.height⟩ = true :=
        contains_iff.mpr ⟨by dsimp only; omega, by dsimp only; omega⟩
      refine wp_bind.mpr (wp_gather hs.valid hfrom fun scratch hlen hpixels => ?_)
      refine wp_bind.mpr (wp_drawing hs hclip' (fun Q' hQ' => ?_) fun s' h =>
        hQ source dest s' hclip hclip' h)
      refine wp_blit hs.valid hdest (Nat.le_refl _) (by omega) (Nat.le_of_eq hlen.symm) ?_ hQ'
      intro column row hcolumn hrow
      rw [hpixels column row hcolumn hrow, hx, hy]

theorem wp_filled {r g b : UInt8} {Q : Unit → EgfxSurface → Prop} (hs : s.Sound) (hsame : Q () s)
    (hQ : ∀ rect s', s.clip x y width height = some rect →
      Draws rect (fun _ _ => [r, g, b, 0xFF]) s s' → Q () s') :
    wp (fill x y width height r g b) Q E s := by
  refine wp_bind.mpr (wp_state.mpr ?_)
  cases hclip : s.clip x y width height with
  | none => exact hsame
  | some rect =>
    have ⟨_, _, _, hrect⟩ := clip_eq_some hclip
    exact wp_bind.mpr (wp_drawing hs hclip (fun Q' hQ' => wp_paint hs.valid hrect hQ') fun s' h =>
      hQ rect s' hclip h)

theorem wp_cacheRestore {slot destX destY : Nat} {Q : Bool → EgfxSurface → Prop} (hs : s.Sound)
    (hsame : ∀ known, (∀ tile, s.cache.lookup slot = some tile →
      s.clip destX destY tile.width tile.height = none) → Q known s)
    (hQ : ∀ tile dest s', s.cache.lookup slot = some tile →
      s.clip destX destY tile.width tile.height = some dest → Draws dest tile.pixel s s' →
      Q true s') :
    wp (cacheRestore slot destX destY) Q E s := by
  refine wp_bind.mpr (wp_state.mpr ?_)
  cases hlookup : s.cache.lookup slot with
  | none =>
    exact hsame false fun tile h =>
      absurd (hlookup.symm.trans h).symm (Option.some_ne_none tile)
  | some tile =>
    dsimp only
    cases hclip : s.clip destX destY tile.width tile.height with
    | none =>
      refine hsame true fun tile' h => ?_
      cases hlookup.symm.trans h
      exact hclip
    | some dest =>
      have htile := hs.tiles slot tile hlookup
      have ⟨_, ⟨_, hle⟩, ⟨_, hle'⟩, hdest⟩ := clip_eq_some hclip
      have ⟨hright, _⟩ := contains_iff.mp hdest
      have hscreen := hs.valid.width_lt
      have hfrom : tile.contains ⟨0, 0, dest.width, dest.height⟩ = true :=
        contains_iff.mpr ⟨by dsimp only; omega, by dsimp only; omega⟩
      refine wp_bind.mpr (wp_gather htile hfrom fun scratch hlen hpixels => ?_)
      refine wp_bind.mpr (wp_mono (wp_drawing hs hclip (fun Q' hQ' => ?_) fun s' h =>
        hQ tile dest s' hlookup hclip h) (fun _ s' h => wp_bind.mpr h) fun _ h => h)
      refine wp_blit hs.valid hdest (Nat.le_refl _) (by omega) (Nat.le_of_eq hlen.symm) ?_ hQ'
      intro column row hcolumn hrow
      rw [hpixels column row hcolumn hrow, Nat.zero_add, Nat.zero_add]

theorem sum_kerase {κ α : Type} [DecidableEq κ] (f : α → Nat) (slot : κ)
    (entries : List (Σ _ : κ, α)) : (entries.map fun e => f e.2).sum =
      ((entries.dlookup slot).map f).getD 0 + ((entries.kerase slot).map fun e => f e.2).sum := by
  induction entries with
  | nil => rfl
  | cons e entries ih =>
    obtain ⟨k, a⟩ := e
    by_cases hk : slot = k
    · subst hk
      have herase : List.kerase slot (⟨slot, a⟩ :: entries : List (Σ _ : κ, α)) = entries :=
        List.kerase_cons_eq rfl
      rw [List.dlookup_cons_eq, herase]
      rfl
    · rw [List.dlookup_cons_ne entries ⟨k, a⟩ hk, List.kerase_cons_ne hk, List.map_cons,
        List.map_cons, List.sum_cons, List.sum_cons, ih]
      exact Nat.add_left_comm _ _ _

theorem tileBytes_erase (cache : Table Nat Framebuffer) (slot : Nat) : tileBytes cache =
    ((cache.lookup slot).map (·.pixels.length)).getD 0 + tileBytes (cache.erase slot) :=
  sum_kerase (fun tile : Framebuffer => tile.pixels.length) slot cache.entries

theorem tileBytes_insert (cache : Table Nat Framebuffer) (slot : Nat) (tile : Framebuffer) :
    tileBytes (cache.insert slot tile) = tile.pixels.length + tileBytes (cache.erase slot) := rfl

theorem wp_cacheStore {slot sourceX sourceY : Nat} {Q : Bool → EgfxSurface → Prop} (hs : s.Sound)
    (hsame : ∀ stored, (stored = true → s.clip sourceX sourceY width height = none) → Q stored s)
    (hQ : ∀ source tile s', s.clip sourceX sourceY width height = some source → s'.Sound →
      s'.screen = s.screen → s'.dirty = s.dirty → s'.cache = s.cache.insert slot tile →
      (tile.width, tile.height) = (source.width, source.height) →
      tile.ShowsIn ⟨0, 0, source.width, source.height⟩
        (fun column row => s.screen.pixel (sourceX + column) (sourceY + row)) → Q true s') :
    wp (cacheStore slot sourceX sourceY width height) Q E s := by
  refine wp_bind.mpr (wp_state.mpr ?_)
  cases hclip : s.clip sourceX sourceY width height with
  | none => exact hsame true fun _ => hclip
  | some source =>
    dsimp only
    cases hlen : checkedRgbaFramebufferLen source.width source.height with
    | none => exact hsame false fun h => absurd h Bool.false_ne_true
    | some len =>
      have ⟨⟨hx, hy⟩, _, _, hsource⟩ := clip_eq_some hclip
      have ⟨hright, hbottom⟩ := contains_iff.mp hsource
      have hscreen := hs.valid.width_lt
      have hscreen' := hs.valid.height_lt
      have hvalid := valid_of_checkedLen (by omega) (by omega) hlen
      have hpixels := hvalid.length_pixels
      have hbound : maxFramebufferBytes < 2 ^ 64 := by decide
      have hretained : s.cacheBytes - ((s.cache.lookup slot).map (·.pixels.length)).getD 0 =
          tileBytes (s.cache.erase slot) := by
        rw [hs.bytes, tileBytes_erase s.cache slot, Nat.add_sub_cancel_left]
      rw [List.length_replicate] at hpixels
      dsimp only at hpixels ⊢
      rw [hretained]
      refine wp_ite (fun _ => hsame false fun h => absurd h Bool.false_ne_true) fun hroom => ?_
      have hle := hs.bytes_le
      rw [hs.bytes, tileBytes_erase s.cache slot] at hle
      refine wp_bind.mpr (wp_gather hs.valid hsource fun pixels hout hshows => ?_)
      refine wp_bind.mpr (wp_usize (by omega) (wp_bind.mpr (wp_put.mpr (wp_pure.mpr ?_))))
      have hlength : pixels.length = len := by rw [hout, hpixels, Nat.mul_right_comm]
      refine hQ source ⟨source.width, source.height, pixels⟩ _ hclip ?_ rfl rfl rfl rfl ?_
      · refine { hs with tiles := ?_, bytes := ?_, bytes_le := by dsimp only; omega }
        · intro slot' tile htile
          by_cases hslot : slot' = slot
          · subst hslot
            rw [AList.lookup_insert] at htile
            cases htile
            exact { hvalid with length_pixels := hlength.trans hpixels }
          · rw [AList.lookup_insert_ne hslot] at htile
            exact hs.tiles slot' tile htile
        · rw [tileBytes_insert]
          dsimp only
          rw [hlength, Nat.add_comm]
      · intro column row hcolumn hrow
        rw [Nat.zero_add, Nat.zero_add, ← hx, ← hy]
        exact hshows column row hcolumn hrow

theorem wp_cacheEvict {slot : Nat} {Q : Unit → EgfxSurface → Prop} (hs : s.Sound)
    (hQ : ∀ s' : EgfxSurface, s'.Sound → s'.screen = s.screen → s'.dirty = s.dirty →
      (∀ slot', slot' ≠ slot → s'.cache.lookup slot' = s.cache.lookup slot') → Q () s') :
    wp (cacheEvict slot) Q E s := by
  refine wp_bind.mpr (wp_state.mpr ?_)
  cases hlookup : s.cache.lookup slot with
  | none => exact hQ s hs rfl rfl fun _ _ => rfl
  | some tile =>
    have hbytes := tileBytes_erase s.cache slot
    rw [hlookup, ← hs.bytes] at hbytes
    have hle := hs.bytes_le
    dsimp only [Option.map_some, Option.getD_some] at hbytes
    refine wp_put.mpr (hQ _ ?_ rfl rfl fun slot' hslot => AList.lookup_erase_ne hslot)
    refine { hs with tiles := ?_, bytes := ?_, bytes_le := ?_ }
    · intro slot' tile' htile
      by_cases hslot : slot' = slot
      · subst hslot
        rw [AList.lookup_erase] at htile
        cases htile
      · rw [AList.lookup_erase_ne hslot] at htile
        exact hs.tiles slot' tile' htile
    · dsimp only
      omega
    · dsimp only
      omega

theorem pos_of_checkedLen {len : Nat} (h : checkedRgbaFramebufferLen width height = some len) :
    0 < width ∧ 0 < height := by
  unfold checkedRgbaFramebufferLen at h
  by_contra hzero
  rw [Option.bind_eq_bind, Option.bind_eq_some_iff] at h
  obtain ⟨pixels, _, h⟩ := h
  rw [if_pos (by omega)] at h
  cases h

/-- A size that is refused leaves the surface as it is. -/
theorem wp_tryResize {Q : Bool → EgfxSurface → Prop} (hwidth : width < 2 ^ 16)
    (hheight : height < 2 ^ 16) (hsame : (width, height) = s.size → 0 < width → Q false s)
    (hQ : ∀ s' : EgfxSurface, s'.Sound → s'.size = (width, height) → (width, height) ≠ s.size →
      0 < width ∧ 0 < height → Q true s') (hE : E s) :
    wp (tryResize width height) Q E s := by
  refine wp_bind.mpr (wp_orFail (fun len hlen => wp_bind.mpr (wp_state.mpr ?_)) hE)
  have hpos := pos_of_checkedLen hlen
  refine wp_ite (fun h => hsame (by rw [size, h.1, h.2]) hpos.1) fun h => ?_
  refine wp_bind.mpr (wp_put.mpr (wp_pure.mpr (hQ _ ?_ rfl ?_ hpos)))
  · exact
      { valid := valid_of_checkedLen hwidth hheight hlen
        dirty_le := Nat.zero_le _
        inside := fun b hb => absurd hb List.not_mem_nil
        tiles := fun slot tile htile => by cases htile
        bytes := rfl
        bytes_le := Nat.zero_le _ }
  · intro heq
    exact h ⟨(congrArg Prod.fst heq).symm, (congrArg Prod.snd heq).symm⟩

end

end Dolgate.Egfx
