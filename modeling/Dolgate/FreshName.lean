import Mathlib.Data.Fintype.Card
import Mathlib.Data.List.Perm.Subperm

set_option autoImplicit false

/-! The first name of a series that is not taken. -/

namespace Dolgate.FreshName

variable {α : Type} [DecidableEq α] {taken other : List α} {series : Nat → α} {k : Nat}

/-- The search goes on for `fuel` names that are taken. -/
def search (taken : List α) (series : Nat → α) : Nat → Nat → Nat
  | 0, index => index
  | fuel + 1, index =>
      if series index ∈ taken then search taken series fuel (index + 1) else index

/-- The place of the first name that is not taken. No more names are taken than `taken` has. -/
def index (taken : List α) (series : Nat → α) : Nat := search taken series taken.length 0

theorem search_cases (taken : List α) (series : Nat → α) (fuel start : Nat) :
    (∀ j, start ≤ j → j < search taken series fuel start → series j ∈ taken) ∧
      (series (search taken series fuel start) ∉ taken ∨
        search taken series fuel start = start + fuel) := by
  induction fuel generalizing start with
  | zero => exact ⟨fun j hle hlt => absurd hlt (Nat.not_lt.mpr hle), .inr rfl⟩
  | succ fuel ih =>
    rw [search]
    split
    · next hmem =>
      obtain ⟨hbelow, hend⟩ := ih (start + 1)
      refine ⟨fun j hle hlt => ?_, hend.imp_right fun h => by omega⟩
      by_cases heq : j = start
      · rw [heq]
        exact hmem
      · exact hbelow j (by omega) hlt
    · next hnot => exact ⟨fun j hle hlt => absurd hlt (Nat.not_lt.mpr hle), .inl hnot⟩

theorem mem_of_lt_index (h : k < index taken series) : series k ∈ taken :=
  (search_cases taken series taken.length 0).1 k (Nat.zero_le k) h

theorem series_index_not_mem (hseries : Function.Injective series) :
    series (index taken series) ∉ taken := by
  obtain ⟨hbelow, hend⟩ := search_cases taken series taken.length 0
  rcases hend with hnot | hlast
  · exact hnot
  · intro hmem
    rw [Nat.zero_add] at hlast
    have hsubset : (List.range (taken.length + 1)).map series ⊆ taken := by
      intro name hname
      obtain ⟨j, hj, rfl⟩ := List.mem_map.mp hname
      have hj := List.mem_range.mp hj
      by_cases heq : j = taken.length
      · rw [index, hlast] at hmem
        rwa [heq]
      · exact hbelow j (Nat.zero_le j) (by omega)
    have hnodup : ((List.range (taken.length + 1)).map series).Nodup :=
      List.nodup_range.map hseries
    have hlength := (hnodup.subperm hsubset).length_le
    rw [List.length_map, List.length_range] at hlength
    omega

theorem index_eq (hseries : Function.Injective series) (hbelow : ∀ j, j < k → series j ∈ taken)
    (hnot : series k ∉ taken) : index taken series = k := by
  rcases Nat.lt_trichotomy (index taken series) k with h | h | h
  · exact absurd (hbelow _ h) (series_index_not_mem hseries)
  · exact h
  · exact absurd (mem_of_lt_index h) hnot

theorem index_eq_of_freed (hseries : Function.Injective series)
    (hsub : ∀ name, name ∈ other → name ∈ taken)
    (hmet : ∀ j, j < index taken series → series j ∈ other) :
    index other series = index taken series :=
  index_eq hseries hmet fun hmem => series_index_not_mem hseries (hsub _ hmem)

theorem index_freed
    (hmet : ∃ j, j < index taken series ∧ series j ∉ other) :
    series (index other series) ∈ taken := by
  obtain ⟨j, hj, hnot⟩ := hmet
  have hle : index other series ≤ j := by
    by_contra hlt
    exact hnot (mem_of_lt_index (Nat.not_le.mp hlt))
  exact mem_of_lt_index (hle.trans_lt hj)

end Dolgate.FreshName
