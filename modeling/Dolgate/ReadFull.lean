import Mathlib.Data.List.Basic

set_option autoImplicit false

/-! Reading a given number of bytes from a stream that comes in pieces of any size. -/

namespace Dolgate.GoReads

variable {α : Type}

abbrev Reads (α : Type) := List (List α)

/-- `io.ReadFull` of `n`; `none` where the stream ends before. -/
def readFull : Nat → Reads α → Option (List α × Reads α)
  | 0, reads => some ([], reads)
  | _ + 1, [] => none
  | n + 1, piece :: reads =>
    if n + 1 ≤ piece.length then some (piece.take (n + 1), piece.drop (n + 1) :: reads)
    else (readFull (n + 1 - piece.length) reads).map fun r => (piece ++ r.1, r.2)

theorem readFull_eq_some {n : Nat} {reads reads' : Reads α} {bytes : List α}
    (h : readFull n reads = some (bytes, reads')) :
    reads.flatten = bytes ++ reads'.flatten ∧ bytes.length = n := by
  induction reads generalizing n bytes with
  | nil =>
    cases n with
    | zero =>
      cases h
      exact ⟨rfl, rfl⟩
    | succ n => cases h
  | cons piece reads ih =>
    cases n with
    | zero =>
      cases h
      exact ⟨rfl, rfl⟩
    | succ n =>
      rw [readFull] at h
      split at h
      · next hle =>
        cases h
        refine ⟨?_, List.length_take_of_le hle⟩
        rw [List.flatten_cons, List.flatten_cons, ← List.append_assoc, List.take_append_drop]
      · next hlt =>
        obtain ⟨r, hr, heq⟩ := Option.map_eq_some_iff.mp h
        cases heq
        obtain ⟨hflatten, hlength⟩ := ih hr
        refine ⟨by rw [List.flatten_cons, hflatten, List.append_assoc], ?_⟩
        rw [List.length_append, hlength]
        omega

/-- A stream that has the bytes gives them, in whatever pieces it comes. -/
theorem readFull_append {reads : Reads α} {bytes rest : List α}
    (h : reads.flatten = bytes ++ rest) :
    ∃ reads', readFull bytes.length reads = some (bytes, reads') ∧ reads'.flatten = rest := by
  induction reads generalizing bytes with
  | nil =>
    obtain ⟨rfl, rfl⟩ := List.append_eq_nil_iff.mp h.symm
    exact ⟨[], rfl, rfl⟩
  | cons piece reads ih =>
    cases hlength : bytes.length with
    | zero =>
      obtain rfl := List.eq_nil_of_length_eq_zero hlength
      exact ⟨piece :: reads, rfl, h⟩
    | succ n =>
      rw [List.flatten_cons] at h
      rw [readFull, ← hlength]
      split
      · next hle =>
        refine ⟨piece.drop bytes.length :: reads, ?_, ?_⟩
        · have htake := congrArg (List.take bytes.length) h
          rw [List.take_append_of_le_length hle, List.take_left] at htake
          rw [htake]
        · have hdrop := congrArg (List.drop bytes.length) h
          rw [List.drop_append_of_le_length hle, List.drop_left] at hdrop
          exact hdrop
      · next hlt =>
        obtain ⟨more, rfl⟩ : ∃ more, bytes = piece ++ more := by
          have hprefix : piece <+: bytes :=
            List.prefix_of_prefix_length_le ⟨reads.flatten, h⟩ ⟨rest, rfl⟩ (by omega)
          exact ⟨_, hprefix.choose_spec.symm⟩
        rw [List.append_assoc, List.append_cancel_left_eq] at h
        obtain ⟨reads', hread, hrest⟩ := ih h
        refine ⟨reads', ?_, hrest⟩
        rw [List.length_append, Nat.add_sub_cancel_left, hread, Option.map_some]

end Dolgate.GoReads
