import Mathlib

set_option autoImplicit false

/-! Go's slices, which share the arrays they lie in. -/

namespace Dolgate.GoSlices

variable {α : Type}

structure Slice (α : Type) where
  array : List α
  low : Nat
  high : Nat
  ordered : low ≤ high
  bounded : high ≤ array.length
deriving DecidableEq, Repr

/-- The elements from `low` up to `high`. -/
def field (xs : List α) (low high : Nat) : List α := (xs.drop low).take (high - low)

/-- What an array holds once `ys` has been written to it from `low` on. -/
def overwritten (xs : List α) (low : Nat) (ys : List α) : List α :=
  xs.take low ++ ys ++ xs.drop (low + ys.length)

theorem overwritten_length {xs ys : List α} {low : Nat} (h : low + ys.length ≤ xs.length) :
    (overwritten xs low ys).length = xs.length := by
  simp only [overwritten, List.length_append, List.length_take, List.length_drop]
  omega

namespace Slice

def whole (array : List α) : Slice α := ⟨array, 0, array.length, Nat.zero_le _, le_rfl⟩

def elements (s : Slice α) : List α := field s.array s.low s.high

def length (s : Slice α) : Nat := s.high - s.low

/-- `s[i:j]`, or a panic. -/
def sub (s : Slice α) (i j : Nat) : Option (Slice α) :=
  if h : i ≤ j ∧ s.low + j ≤ s.array.length then
    some ⟨s.array, s.low + i, s.low + j, Nat.add_le_add_left h.1 _, h.2⟩
  else none

/-- `append(s, xs...)`, and what the array of `s` holds afterwards: where the capacity allows it,
the elements are written to that array, otherwise they go to a new one. -/
def append (s : Slice α) (xs : List α) : Slice α × List α :=
  if h : s.high + xs.length ≤ s.array.length then
    (⟨overwritten s.array s.high xs, s.low, s.high + xs.length,
      s.ordered.trans (Nat.le_add_right _ _), (overwritten_length h).symm ▸ h⟩,
      overwritten s.array s.high xs)
  else (whole (s.elements ++ xs), s.array)

end Slice

theorem field_length {xs : List α} {low high : Nat} (h : high ≤ xs.length) :
    (field xs low high).length = high - low := by
  simp only [field, List.length_take, List.length_drop]
  omega

theorem field_left (xs ys : List α) : field (xs ++ ys) 0 xs.length = xs := by
  simp [field]

theorem field_right (xs ys : List α) (low high : Nat) :
    field (xs ++ ys) (xs.length + low) (xs.length + high) = field ys low high := by
  have hdrop : (xs ++ ys).drop (xs.length + low) = ys.drop low := by
    rw [← List.drop_drop, List.drop_left]
  rw [field, field, hdrop, Nat.add_sub_add_left]

theorem field_of_le {xs : List α} {high : Nat} (h : high ≤ xs.length) (ys : List α) (low : Nat) :
    field (xs ++ ys) low high = field xs low high := by
  rcases le_total low xs.length with hlow | hlow
  · simp only [field, List.drop_append_of_le_length hlow]
    rw [List.take_append_of_le_length (by simp only [List.length_drop]; omega)]
  · simp [field, Nat.sub_eq_zero_of_le (h.trans hlow)]

theorem field_append {xs : List α} {low mid high : Nat} (hlow : low ≤ mid) (hhigh : mid ≤ high) :
    field xs low mid ++ field xs mid high = field xs low high := by
  have hsplit : high - low = (mid - low) + (high - mid) := by omega
  have hdrop : xs.drop mid = (xs.drop low).drop (mid - low) := by
    rw [List.drop_drop, Nat.add_sub_cancel' hlow]
  rw [field, field, field, hdrop, hsplit, List.take_add]

theorem field_flatten (before : List (List α)) (part : List α) (after : List (List α))
    {low high : Nat} (hlow : before.flatten.length = low) (hhigh : low + part.length = high) :
    field (before ++ part :: after).flatten low high = part := by
  rw [List.flatten_append, List.flatten_cons, ← hhigh, ← hlow]
  exact (field_right before.flatten (part ++ after.flatten) 0 part.length).trans (field_left _ _)

theorem field_whole (xs : List α) : field xs 0 xs.length = xs := by
  simp [field]

theorem field_overwritten_of_le {xs ys : List α} {low mid : Nat} (hmid : mid ≤ xs.length) :
    field (overwritten xs mid ys) low mid = field xs low mid := by
  have hlen : (xs.take mid).length = mid := List.length_take_of_le hmid
  rw [overwritten, List.append_assoc, field_of_le hlen.ge]
  have hall := field_of_le hlen.ge (xs.drop mid) low
  rwa [List.take_append_drop, eq_comm] at hall

theorem field_overwritten {xs ys : List α} {low : Nat} (hlow : low ≤ xs.length) :
    field (overwritten xs low ys) low (low + ys.length) = ys := by
  have hlen : (xs.take low).length = low := List.length_take_of_le hlow
  have hright := field_right (xs.take low) (ys ++ xs.drop (low + ys.length)) 0 ys.length
  rwa [hlen, field_left, ← List.append_assoc] at hright

theorem field_overwritten_of_ge {xs ys : List α} {low high last : Nat}
    (h : low + ys.length ≤ xs.length) (hhigh : low + ys.length ≤ high) :
    field (overwritten xs low ys) high last = field xs high last := by
  have hlen : (xs.take low ++ ys).length = low + ys.length := by
    rw [List.length_append, List.length_take_of_le (by omega)]
  have hdrop : (overwritten xs low ys).drop high = xs.drop high := by
    obtain ⟨k, rfl⟩ := Nat.exists_eq_add_of_le hhigh
    rw [overwritten, ← hlen, ← List.drop_drop, List.drop_left, hlen, List.drop_drop]
  rw [field, hdrop, field]

theorem overwritten_eq_iff {xs ys : List α} {low : Nat} (h : low + ys.length ≤ xs.length) :
    overwritten xs low ys = xs ↔ field xs low (low + ys.length) = ys := by
  constructor
  · intro hsame
    have hfield : field (overwritten xs low ys) low (low + ys.length) = ys :=
      field_overwritten (Nat.le_of_add_right_le h)
    rwa [hsame] at hfield
  · intro hfield
    have hys : ys = (xs.drop low).take ys.length := by
      rw [← hfield]
      simp [field]
    calc overwritten xs low ys
        = xs.take low ++ (xs.drop low).take ys.length ++ (xs.drop low).drop ys.length := by
          rw [overwritten, ← hys, List.drop_drop]
      _ = xs := by rw [List.append_assoc, List.take_append_drop, List.take_append_drop]

namespace Slice

@[simp] theorem elements_whole (xs : List α) : (whole xs).elements = xs := field_whole xs

@[simp] theorem length_elements (s : Slice α) : s.elements.length = s.length :=
  field_length s.bounded

def part (xs : List α) (low high : Nat) (h : low ≤ high) (hhigh : high ≤ xs.length) : Slice α :=
  ⟨xs, low, high, h, hhigh⟩

@[simp] theorem elements_part {xs : List α} {low high : Nat} (h : low ≤ high)
    (hhigh : high ≤ xs.length) : (part xs low high h hhigh).elements = field xs low high := rfl

theorem sub_whole {xs : List α} {i j : Nat} (h : i ≤ j) (hj : j ≤ xs.length) :
    (whole xs).sub i j = some (part xs i j h hj) := by
  have hbounds : i ≤ j ∧ (whole xs).low + j ≤ (whole xs).array.length := by
    simpa [whole] using And.intro h hj
  rw [sub, dif_pos hbounds]
  simp [whole, part]

theorem sub_part {xs : List α} {low high i j : Nat} (h : low ≤ high) (hhigh : high ≤ xs.length)
    (hij : i ≤ j) (hj : low + j ≤ xs.length) :
    (part xs low high h hhigh).sub i j =
      some (part xs (low + i) (low + j) (Nat.add_le_add_left hij low) hj) :=
  dif_pos ⟨hij, hj⟩

theorem append_part_array {xs ys : List α} {low high : Nat} (h : low ≤ high)
    (hhigh : high ≤ xs.length) :
    ((part xs low high h hhigh).append ys).2 =
      if high + ys.length ≤ xs.length then overwritten xs high ys else xs := by
  by_cases hroom : high + ys.length ≤ xs.length
  · rw [if_pos hroom]
    exact congrArg Prod.snd (dif_pos hroom)
  · rw [if_neg hroom]
    exact congrArg Prod.snd (dif_neg hroom)

theorem append_part_elements {xs ys : List α} {low high : Nat} (h : low ≤ high)
    (hhigh : high ≤ xs.length) :
    ((part xs low high h hhigh).append ys).1.elements = field xs low high ++ ys := by
  by_cases hroom : high + ys.length ≤ xs.length
  · have happend : ((part xs low high h hhigh).append ys).1.elements =
        field (overwritten xs high ys) low (high + ys.length) :=
      congrArg (fun r : Slice α × List α => r.1.elements) (dif_pos hroom)
    rw [happend, ← field_append h (Nat.le_add_right _ _), field_overwritten_of_le hhigh,
      field_overwritten hhigh]
  · have happend : (part xs low high h hhigh).append ys =
        (whole ((part xs low high h hhigh).elements ++ ys), xs) := dif_neg hroom
    rw [happend, elements_whole, elements_part]

end Slice

end Dolgate.GoSlices
