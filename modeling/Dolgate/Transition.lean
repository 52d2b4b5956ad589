import Mathlib.Data.List.Basic

set_option autoImplicit false

namespace Dolgate.Transition

variable {σ ε : Type*}

def run (step : σ → ε → Option σ) : σ → List ε → Option σ
  | s, [] => some s
  | s, e :: es => (step s e).bind fun t => run step t es

/-- Every step of the run is taken in a state where `ok` allows it. -/
def Admissible (ok : σ → ε → Prop) (step : σ → ε → Option σ) : σ → List ε → Prop
  | _, [] => True
  | s, e :: es => ok s e ∧ ∀ t, step s e = some t → Admissible ok step t es

variable {step : σ → ε → Option σ} {ok : σ → ε → Prop} {s t u : σ} {e : ε}
  {es fs : List ε}

@[simp] theorem run_nil : run step s [] = some s := rfl

theorem run_cons : run step s (e :: es) = some u ↔
    ∃ t, step s e = some t ∧ run step t es = some u := by
  simp [run, Option.bind_eq_some_iff]

theorem run_append : run step s (es ++ fs) = some u ↔
    ∃ t, run step s es = some t ∧ run step t fs = some u := by
  induction es generalizing s with
  | nil => simp
  | cons e es ih =>
      simp only [List.cons_append, run_cons, ih]
      constructor
      · rintro ⟨t, ht, v, hv, hu⟩
        exact ⟨v, ⟨t, ht, hv⟩, hu⟩
      · rintro ⟨v, ⟨t, ht, hv⟩, hu⟩
        exact ⟨t, ht, v, hv, hu⟩

theorem Admissible.append_right (h : Admissible ok step s (es ++ fs))
    (hr : run step s es = some t) : Admissible ok step t fs := by
  induction es generalizing s with
  | nil =>
      cases hr
      exact h
  | cons e es ih =>
      obtain ⟨v, hv, hr⟩ := run_cons.mp hr
      exact ih (h.2 v hv) hr

theorem Admissible.append_left (h : Admissible ok step s (es ++ fs)) :
    Admissible ok step s es := by
  induction es generalizing s with
  | nil => trivial
  | cons e es ih => exact ⟨h.1, fun t ht => ih (h.2 t ht)⟩

theorem Admissible.and {ok' : σ → ε → Prop} (h : Admissible ok step s es)
    (h' : Admissible ok' step s es) : Admissible (fun s e => ok s e ∧ ok' s e) step s es := by
  induction es generalizing s with
  | nil => trivial
  | cons e es ih => exact ⟨⟨h.1, h'.1⟩, fun t ht => ih (h.2 t ht) (h'.2 t ht)⟩

theorem admissible_of_forall (h : ∀ s e, ok s e) : Admissible ok step s es := by
  induction es generalizing s with
  | nil => trivial
  | cons e es ih => exact ⟨h s e, fun _ _ => ih⟩

theorem admissible_of_mem (h : ∀ e ∈ es, ∀ s, ok s e) : Admissible ok step s es := by
  induction es generalizing s with
  | nil => trivial
  | cons e es ih =>
      exact ⟨h e List.mem_cons_self s, fun _ _ => ih fun e he => h e (List.mem_cons_of_mem _ he)⟩

/-- Whether `ok` allows each step of the run. -/
def allows (ok : σ → ε → Bool) (step : σ → ε → Option σ) : σ → List ε → Bool
  | _, [] => true
  | s, e :: es =>
      ok s e && match step s e with
        | none => true
        | some t => allows ok step t es

theorem admissible_of_allows {check : σ → ε → Bool} (hok : ∀ s e, check s e = true → ok s e)
    (h : allows check step s es = true) : Admissible ok step s es := by
  induction es generalizing s with
  | nil => trivial
  | cons e es ih =>
      simp only [allows, Bool.and_eq_true] at h
      refine ⟨hok s e h.1, fun t ht => ih ?_⟩
      rw [ht] at h
      exact h.2

/-- What every allowed step preserves holds at the end of every allowed run. -/
theorem run_invariant_of_admissible {I : σ → Prop}
    (hstep : ∀ s e t, I s → ok s e → step s e = some t → I t)
    (hi : I s) (ha : Admissible ok step s es) (hr : run step s es = some u) : I u := by
  induction es generalizing s with
  | nil =>
      cases hr
      exact hi
  | cons e es ih =>
      obtain ⟨t, ht, hr⟩ := run_cons.mp hr
      exact ih (hstep s e t hi ha.1 ht) (ha.2 t ht) hr

theorem run_invariant {I : σ → Prop}
    (hstep : ∀ s e t, I s → step s e = some t → I t)
    (hi : I s) (hr : run step s es = some u) : I u :=
  run_invariant_of_admissible (fun s e t hi (_ : True) => hstep s e t hi) hi
    (admissible_of_forall fun _ _ => trivial) hr

/-- Two conditions that agree on every step from a state with the invariant agree on every run. -/
theorem admissible_congr {ok' : σ → ε → Prop} {Inv : σ → Prop}
    (hstep : ∀ s e t, Inv s → step s e = some t → Inv t)
    (hok : ∀ s e t, Inv s → step s e = some t → (ok s e ↔ ok' s e))
    (hi : Inv s) (hr : run step s es = some u) :
    Admissible ok step s es ↔ Admissible ok' step s es := by
  induction es generalizing s with
  | nil => exact Iff.rfl
  | cons e es ih =>
      obtain ⟨t, ht, hr⟩ := run_cons.mp hr
      have hih := ih (hstep s e t hi ht) hr
      constructor
      · intro h
        refine ⟨(hok s e t hi ht).mp h.1, fun v hv => ?_⟩
        cases ht.symm.trans hv
        exact hih.mp (h.2 t ht)
      · intro h
        refine ⟨(hok s e t hi ht).mpr h.1, fun v hv => ?_⟩
        cases ht.symm.trans hv
        exact hih.mpr (h.2 t ht)

/-- `P` holds in every state of the run. -/
def Always (P : σ → Prop) (step : σ → ε → Option σ) : σ → List ε → Prop
  | s, [] => P s
  | s, e :: es => P s ∧ ∀ t, step s e = some t → Always P step t es

theorem Always.state {P : σ → Prop} (h : Always P step s (es ++ fs)) (hr : run step s es = some t) :
    P t := by
  induction es generalizing s with
  | nil =>
      cases hr
      cases fs with
      | nil => exact h
      | cons f fs => exact h.1
  | cons e es ih =>
      obtain ⟨v, hv, hr⟩ := run_cons.mp hr
      exact ih (h.2 v hv) hr

theorem Always.head {P : σ → Prop} (h : Always P step s es) : P s := by
  cases es with
  | nil => exact h
  | cons e es => exact h.1

theorem always_of_admissible {P I : σ → Prop} (hP : ∀ s, I s → P s)
    (hkeep : ∀ s e t, I s → ok s e → step s e = some t → I t)
    (hi : I s) (ha : Admissible ok step s es) : Always P step s es := by
  induction es generalizing s with
  | nil => exact hP s hi
  | cons e es ih => exact ⟨hP s hi, fun t ht => ih (hkeep s e t hi ha.1 ht) (ha.2 t ht)⟩

/-- When the steps that are not allowed are just those that lose `P`, every state of a run has `P`
exactly if every step is allowed. -/
theorem always_iff_admissible {P I : σ → Prop} (hP : ∀ s, I s → P s)
    (hkeep : ∀ s e t, I s → ok s e → step s e = some t → I t)
    (hlose : ∀ s e t, I s → ¬ ok s e → step s e = some t → ¬ P t)
    (hi : I s) (hr : run step s es = some u) : Always P step s es ↔ Admissible ok step s es := by
  refine ⟨fun h => ?_, always_of_admissible hP hkeep hi⟩
  induction es generalizing s with
  | nil => trivial
  | cons e es ih =>
      obtain ⟨t, ht, hr⟩ := run_cons.mp hr
      have hafter := h.2 t ht
      by_cases hok : ok s e
      · refine ⟨hok, fun v hv => ?_⟩
        cases ht.symm.trans hv
        exact ih (hkeep s e t hi hok ht) hr hafter
      · exact absurd hafter.head (hlose s e t hi hok ht)

/-- What relates the two ends of every step relates the two ends of every run. -/
theorem run_relation {R : σ → σ → Prop} (hrefl : ∀ s, R s s)
    (htrans : ∀ s t u, R s t → R t u → R s u)
    (hstep : ∀ s e t, step s e = some t → R s t) (hr : run step s es = some u) : R s u := by
  induction es generalizing s with
  | nil =>
      cases hr
      exact hrefl _
  | cons e es ih =>
      obtain ⟨t, ht, hr⟩ := run_cons.mp hr
      exact htrans s t u (hstep s e t ht) (ih hr)

end Dolgate.Transition
