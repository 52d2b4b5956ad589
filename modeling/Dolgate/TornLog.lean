import Mathlib.Data.List.Infix

set_option autoImplicit false

/-! Texts of lines, each with its end, and how they are read in pieces. -/

namespace Dolgate.TornLog

variable {α : Type*} {sep : α}

def text (sep : α) (lines : List (List α)) : List α := lines.flatMap (· ++ [sep])

variable [BEq α] [LawfulBEq α]

theorem splitOn_text {ls : List (List α)} (h : ∀ l ∈ ls, sep ∉ l) (rest : List α) :
    (text sep ls ++ rest).splitOn sep = ls ++ rest.splitOn sep := by
  induction ls with
  | nil => rfl
  | cons l ls ih =>
      have hl : (l ++ sep :: (text sep ls ++ rest)).splitOn sep =
          l.splitOn sep ++ (text sep ls ++ rest).splitOn sep := List.splitOn_append_cons_self _ _
      have htext : text sep (l :: ls) ++ rest = l ++ sep :: (text sep ls ++ rest) := by
        simp [text]
      rw [htext, hl, List.splitOn_eq_singleton (h l List.mem_cons_self),
        ih fun l hl => h l (List.mem_cons_of_mem _ hl)]
      rfl

/-- A reader of pieces that keeps the line it has not seen the end of, and takes the last one when
the pieces end. -/
def lines (sep : α) (carry : List α) : List (List α) → List (List α)
  | [] => [carry]
  | piece :: pieces =>
      let parts := (carry ++ piece).splitOn sep
      parts.dropLast ++ lines sep (parts.getLastD []) pieces

theorem exists_last_line (sep : α) (xs : List α) : ∃ init last, sep ∉ last ∧
    xs.splitOn sep = init ++ [last] ∧
      ∀ ys, (xs ++ ys).splitOn sep = init ++ (last ++ ys).splitOn sep := by
  by_cases h : sep ∈ xs
  · obtain ⟨as, bs, hxs, has⟩ := List.eq_append_cons_of_mem (List.mem_reverse.mpr h)
    have hsplit : xs = bs.reverse ++ sep :: as.reverse := by
      rw [← List.reverse_reverse xs, hxs]
      simp
    have hlast : sep ∉ as.reverse := fun hmem => has (List.mem_reverse.mp hmem)
    refine ⟨bs.reverse.splitOn sep, as.reverse, hlast, ?_, fun ys => ?_⟩
    · rw [hsplit, List.splitOn_append_cons_self, List.splitOn_eq_singleton hlast]
    · rw [hsplit, List.append_assoc, List.cons_append, List.splitOn_append_cons_self]
  · exact ⟨[], xs, h, List.splitOn_eq_singleton h, fun _ => rfl⟩

/-- How the text is cut into pieces does not matter. -/
theorem lines_eq_splitOn (carry : List α) (pieces : List (List α)) (hcarry : sep ∉ carry) :
    lines sep carry pieces = (carry ++ pieces.flatten).splitOn sep := by
  induction pieces generalizing carry with
  | nil => rw [lines, List.flatten_nil, List.append_nil, List.splitOn_eq_singleton hcarry]
  | cons piece pieces ih =>
      obtain ⟨init, last, hlast, hsplit, hrest⟩ := exists_last_line sep (carry ++ piece)
      rw [lines, List.flatten_cons, ← List.append_assoc, hrest, hsplit, List.dropLast_concat,
        List.getLastD_concat, ih last hlast]

end Dolgate.TornLog
