import Mathlib.Data.List.DropRight

set_option autoImplicit false

/-! Texts that are segments put together with a separator between them. -/

namespace Dolgate.Segments

variable {α : Type} {sep : α} {xs seg : List α} {segs : List (List α)}

def join (sep : α) (segs : List (List α)) : List α := [sep].intercalate segs

theorem join_cons {rest : List (List α)} (h : rest ≠ []) :
    join sep (seg :: rest) = seg ++ sep :: join sep rest := by
  rw [join, List.intercalate_cons_of_ne_nil h]
  simp [join]

theorem join_singleton : join sep [seg] = seg := List.intercalate_singleton

theorem join_append {rest : List (List α)} (h : segs ≠ []) (hrest : rest ≠ []) :
    join sep (segs ++ rest) = join sep segs ++ sep :: join sep rest := by
  induction segs with
  | nil => exact absurd rfl h
  | cons s segs ih =>
      cases segs with
      | nil =>
          rw [List.singleton_append, join_cons hrest, join_singleton]
      | cons s' segs =>
          have hcons : join sep (s :: s' :: segs) = s ++ sep :: join sep (s' :: segs) :=
            join_cons (by simp)
          rw [List.cons_append, join_cons (by simp), ih (by simp), hcons, List.append_assoc,
            List.cons_append]

/-- What is stripped of `p` at both ends has none of it there. -/
theorem dropWhile_rdropWhile_idempotent (p : α → Bool) (xs : List α) :
    (((xs.dropWhile p).rdropWhile p).dropWhile p).rdropWhile p =
      (xs.dropWhile p).rdropWhile p := by
  have hhead : ((xs.dropWhile p).rdropWhile p).dropWhile p = (xs.dropWhile p).rdropWhile p := by
    obtain ⟨rest, hrest⟩ := List.rdropWhile_prefix p (l := xs.dropWhile p)
    cases hkept : (xs.dropWhile p).rdropWhile p with
    | nil => rfl
    | cons x kept =>
      have hdrop : xs.dropWhile p = x :: (kept ++ rest) := by rw [← hrest, hkept, List.cons_append]
      have hx : ¬ p x = true := by
        have hne := List.head_dropWhile_not p (l := xs) (by rw [hdrop]; simp)
        simp only [hdrop, List.head_cons] at hne
        simp [hne]
      rw [List.dropWhile_cons_of_neg hx]
  rw [hhead, List.rdropWhile_idempotent]

variable [DecidableEq α]

def lastIndexOf (sep : α) (xs : List α) : Nat := xs.length - 1 - xs.reverse.idxOf sep

theorem sep_not_mem_of_mem_splitOn (h : seg ∈ xs.splitOn sep) : sep ∉ seg := by
  induction xs generalizing seg with
  | nil =>
      rw [List.splitOn_nil, List.mem_singleton] at h
      simp [h]
  | cons x xs ih =>
      rw [List.splitOn_cons_eq_if_modifyHead] at h
      split at h
      · obtain rfl | h := List.mem_cons.mp h
        · simp
        · exact ih h
      · next hx =>
        cases hsplit : xs.splitOn sep with
        | nil => exact absurd hsplit (List.splitOn_ne_nil sep xs)
        | cons head rest =>
            rw [hsplit, List.modifyHead_cons] at h
            obtain rfl | h := List.mem_cons.mp h
            · have hhead : sep ∉ head := ih (by rw [hsplit]; exact List.mem_cons_self)
              intro hmem
              obtain rfl | hmem := List.mem_cons.mp hmem
              · simp at hx
              · exact hhead hmem
            · exact ih (by rw [hsplit]; exact List.mem_cons_of_mem _ h)

theorem splitOn_join (h : ∀ s ∈ segs, sep ∉ s) (hne : segs ≠ []) :
    (join sep segs).splitOn sep = segs := List.splitOn_intercalate sep h hne

theorem take_lastIndexOf (h : sep ∉ seg) :
    (xs ++ sep :: seg).take (lastIndexOf sep (xs ++ sep :: seg)) = xs := by
  have hidx : (xs ++ sep :: seg).reverse.idxOf sep = seg.length := by
    have hrev : (xs ++ sep :: seg).reverse = seg.reverse ++ sep :: xs.reverse := by simp
    rw [hrev, List.idxOf_append_of_notMem (by simpa using h), List.idxOf_cons_self]
    simp
  have hlast : lastIndexOf sep (xs ++ sep :: seg) = xs.length := by
    rw [lastIndexOf, hidx, List.length_append, List.length_cons]
    omega
  rw [hlast, List.take_left]

/-- What stands before the first separator. -/
theorem eq_of_append_sep {ys zs : List α} (hseg : sep ∉ seg) (hxs : sep ∉ xs)
    (h : seg ++ sep :: ys = xs ++ sep :: zs) : seg = xs := by
  have hbefore : ∀ (l rest : List α), sep ∉ l →
      (l ++ sep :: rest).takeWhile (fun x => x ≠ sep) = l := by
    intro l rest hl
    rw [List.takeWhile_append_of_pos, List.takeWhile_cons_of_neg (by simp), List.append_nil]
    intro x hx
    simpa using fun heq : x = sep => hl (heq ▸ hx)
  rw [← hbefore seg ys hseg, h, hbefore xs zs hxs]

end Dolgate.Segments
