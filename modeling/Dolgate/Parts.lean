import Mathlib

set_option autoImplicit false

/-! Lists that are made of parts of one length. -/

namespace Dolgate

variable {α β : Type} {f : α → List β} {xs : List α} {n i : Nat} {a : α}

theorem length_flatMap_const (hf : ∀ a ∈ xs, (f a).length = n) :
    (xs.flatMap f).length = xs.length * n := by
  induction xs with
  | nil => simp
  | cons a xs ih =>
    rw [List.flatMap_cons, List.length_append, hf a List.mem_cons_self,
      ih fun b hb => hf b (List.mem_cons_of_mem _ hb), List.length_cons, Nat.add_mul, Nat.one_mul,
      Nat.add_comm]

/-- What begins with the `i`th part. -/
theorem drop_flatMap_const (hf : ∀ a ∈ xs, (f a).length = n) :
    (xs.flatMap f).drop (i * n) = (xs.drop i).flatMap f := by
  induction xs generalizing i with
  | nil => simp
  | cons a xs ih =>
    cases i with
    | zero => rw [Nat.zero_mul, List.drop_zero, List.drop_zero]
    | succ i =>
      have hsucc : (i + 1) * n = (f a).length + i * n := by
        rw [hf a List.mem_cons_self, Nat.add_mul, Nat.one_mul, Nat.add_comm]
      rw [List.flatMap_cons, hsucc, List.drop_length_add_append, List.drop_succ_cons]
      exact ih fun b hb => hf b (List.mem_cons_of_mem _ hb)

/-- The `i`th part. -/
theorem take_drop_flatMap_const (hf : ∀ a ∈ xs, (f a).length = n) (h : xs[i]? = some a) :
    ((xs.flatMap f).drop (i * n)).take n = f a := by
  obtain ⟨hi, rfl⟩ := List.getElem?_eq_some_iff.mp h
  rw [drop_flatMap_const hf, List.drop_eq_getElem_cons hi, List.flatMap_cons,
    List.take_left' (hf _ (List.getElem_mem hi))]

/-- The `r`th element of the `i`th part. -/
theorem getElem?_flatMap_const {r : Nat} (hf : ∀ a ∈ xs, (f a).length = n) (hr : r < n) :
    (xs.flatMap f)[i * n + r]? = xs[i]?.bind fun a => (f a)[r]? := by
  rw [← List.getElem?_drop, drop_flatMap_const hf]
  by_cases hi : i < xs.length
  · have hlen : (f xs[i]).length = n := hf _ (List.getElem_mem hi)
    rw [List.drop_eq_getElem_cons hi, List.flatMap_cons, List.getElem?_append_left (by omega),
      List.getElem?_eq_getElem hi]
    rfl
  · have hend : xs.length ≤ i := Nat.not_lt.mp hi
    rw [List.drop_eq_nil_of_le hend, List.getElem?_eq_none hend]
    rfl

end Dolgate
