import Mathlib.Data.List.Basic

set_option autoImplicit false

/-! The first element of a list that satisfies a predicate is changed. -/

namespace Dolgate.FirstMatch

variable {α β : Type} {p : α → Bool} {f : α → α} {xs : List α}

def modifyFirst (p : α → Bool) (f : α → α) : List α → List α
  | [] => []
  | x :: xs => if p x then f x :: xs else x :: modifyFirst p f xs

theorem modifyFirst_cons_of_pos {x : α} (h : p x = true) :
    modifyFirst p f (x :: xs) = f x :: xs := by
  rw [modifyFirst, if_pos h]

theorem modifyFirst_cons_of_neg {x : α} (h : p x = false) :
    modifyFirst p f (x :: xs) = x :: modifyFirst p f xs := by
  rw [modifyFirst, if_neg (by simp [h])]

theorem modifyFirst_take (n : Nat) :
    modifyFirst p f (xs.take n) = (modifyFirst p f xs).take n := by
  induction xs generalizing n with
  | nil => simp [modifyFirst]
  | cons x xs ih =>
    cases n with
    | zero => rfl
    | succ n =>
      by_cases hx : p x = true
      · rw [List.take_succ_cons, modifyFirst_cons_of_pos hx, modifyFirst_cons_of_pos hx,
          List.take_succ_cons]
      · rw [Bool.not_eq_true] at hx
        rw [List.take_succ_cons, modifyFirst_cons_of_neg hx, modifyFirst_cons_of_neg hx,
          List.take_succ_cons, ih]

theorem map_modifyFirst_of_eq {g : α → β} (h : ∀ x, g (f x) = g x) :
    (modifyFirst p f xs).map g = xs.map g := by
  induction xs with
  | nil => rfl
  | cons x xs ih =>
    rw [modifyFirst]
    split
    · rw [List.map_cons, List.map_cons, h]
    · rw [List.map_cons, List.map_cons, ih]

theorem map_modifyFirst {g : α → β} {q : β → Bool} {k : β → β} (hp : ∀ x, p x = q (g x))
    (hf : ∀ x, g (f x) = k (g x)) : (modifyFirst p f xs).map g = modifyFirst q k (xs.map g) := by
  induction xs with
  | nil => rfl
  | cons x xs ih =>
    rw [List.map_cons, modifyFirst, modifyFirst, ← hp]
    split
    · rw [List.map_cons, hf]
    · rw [List.map_cons, ih]

end Dolgate.FirstMatch
