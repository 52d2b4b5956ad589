import Mathlib.Data.List.Basic

set_option autoImplicit false

/-! Deliveries that are decided on in one order and carried out later, each by itself. `f` picks
what matters of a delivery. -/

namespace Dolgate.Outbox

variable {α β : Type*} {f : α → Option β} {pending : List α} {i : Nat} {x : α}

theorem filterMap_eq_nil {l : List α} (h : ∀ y ∈ l, f y = none) : l.filterMap f = [] := by
  rw [List.filterMap_eq_nil_iff]
  exact h

theorem filterMap_deliver (h : pending[i]? = some x)
    (hturn : f x ≠ none → ∀ y ∈ pending.take i, f y = none) :
    (f x).toList ++ (pending.eraseIdx i).filterMap f = pending.filterMap f := by
  obtain ⟨hi, h⟩ := List.getElem?_eq_some_iff.mp h
  have hsplit : pending = pending.take i ++ ([x] ++ pending.drop (i + 1)) := by
    rw [← h, List.singleton_append, List.getElem_cons_drop, List.take_append_drop]
  have herase : pending.eraseIdx i = pending.take i ++ pending.drop (i + 1) :=
    List.eraseIdx_eq_take_drop_succ _ _
  rw [herase]
  conv_rhs => rw [hsplit]
  simp only [List.filterMap_append]
  cases hx : f x with
  | none => simp [hx]
  | some b =>
      have hnil : (pending.take i).filterMap f = [] := filterMap_eq_nil (hturn (by simp [hx]))
      simp [hnil, hx]

end Dolgate.Outbox
