import Dolgate.Transition

set_option autoImplicit false

/-! Programs that call their environment. A call returns what the environment makes of it: `exec`
tells it from the outcome `o`, which is any that there may be. -/

namespace Dolgate.Calls
open Transition

/-- `R c` is the type of what the call `c` returns. -/
inductive Prog (C : Type) (R : C → Type) (α : Type) where
  | ret (a : α)
  | call (c : C) (k : R c → Prog C R α)

variable {C : Type} {R : C → Type} {α β W O : Type}

namespace Prog

def bind : Prog C R α → (α → Prog C R β) → Prog C R β
  | .ret a, f => f a
  | .call c k, f => .call c fun r => (k r).bind f

instance : Monad (Prog C R) where
  pure := .ret
  bind := bind

def perform (c : C) : Prog C R (R c) := .call c .ret

def returned : Prog C R α → Option α
  | .ret a => some a
  | .call _ _ => none

def All (P : C → Prop) : Prog C R α → Prop
  | .ret _ => True
  | .call c k => P c ∧ ∀ r, (k r).All P

variable {P : C → Prop}

theorem All.pure (a : α) : (Pure.pure a : Prog C R α).All P := trivial

theorem All.perform {c : C} (h : P c) : (perform c : Prog C R (R c)).All P := ⟨h, fun _ => trivial⟩

theorem All.bind {p : Prog C R α} {f : α → Prog C R β} (hp : p.All P) (hf : ∀ a, (f a).All P) :
    (p >>= f).All P := by
  induction p with
  | ret a => exact hf a
  | call c k ih => exact ⟨hp.1, fun r => ih r (hp.2 r)⟩

theorem All.ite {b : Prop} [Decidable b] {p q : Prog C R α} (hp : b → p.All P)
    (hq : ¬ b → q.All P) : (if b then p else q).All P := by
  split
  · exact hp ‹_›
  · exact hq ‹_›

end Prog

section

variable (exec : W → (c : C) → O → W × R c)

def step (s : W × Prog C R α) (o : O) : Option (W × Prog C R α) :=
  match s.2 with
  | .ret _ => none
  | .call c k => some ((exec s.1 c o).1, k (exec s.1 c o).2)

def runs (p : Prog C R α) (w : W) (os : List O) : Option (α × W) :=
  (run (step exec) (w, p) os).bind fun s => s.2.returned.map fun a => (a, s.1)

variable (ok : W → C → O → Prop)

def Allowed (s : W × Prog C R α) (o : O) : Prop :=
  match s.2 with
  | .ret _ => True
  | .call c _ => ok s.1 c o

/-- Where the program returns, after calls whose outcomes are allowed, it returns with `Q`. -/
def wp : Prog C R α → (α → W → Prop) → W → Prop
  | .ret a, Q, w => Q a w
  | .call c k, Q, w => ∀ o, ok w c o → wp (k (exec w c o).2) Q (exec w c o).1

end

variable {exec : W → (c : C) → O → W × R c} {ok : W → C → O → Prop} {w : W}

theorem wp_pure {a : α} {Q : α → W → Prop} :
    wp exec ok (pure a : Prog C R α) Q w ↔ Q a w := Iff.rfl

/-- The rule for a call: whatever the environment makes of it, the rest ends in `Q`. -/
theorem wp_perform {c : C} {f : R c → Prog C R β} {Q : β → W → Prop}
    (h : ∀ o, ok w c o → wp exec ok (f (exec w c o).2) Q (exec w c o).1) :
    wp exec ok (Prog.perform c >>= f) Q w := h

theorem wp_bind {p : Prog C R α} {f : α → Prog C R β} {Q : β → W → Prop} :
    wp exec ok (p >>= f) Q w ↔ wp exec ok p (fun a w => wp exec ok (f a) Q w) w := by
  induction p generalizing w with
  | ret a => exact Iff.rfl
  | call c k ih => exact forall_congr' fun o => imp_congr_right fun _ => ih _

theorem wp_mono {p : Prog C R α} {Q Q' : α → W → Prop} (hQ : ∀ a w, Q a w → Q' a w)
    (h : wp exec ok p Q w) : wp exec ok p Q' w := by
  induction p generalizing w with
  | ret a => exact hQ a w h
  | call c k ih => exact fun o ho => ih _ (h o ho)

/-- The rule for a sequence: what the first program returns with is enough for the second. -/
theorem wp_seq {p : Prog C R α} {f : α → Prog C R β} {Q : α → W → Prop} {Q' : β → W → Prop}
    (hp : wp exec ok p Q w) (hf : ∀ a w, Q a w → wp exec ok (f a) Q' w) :
    wp exec ok (p >>= f) Q' w :=
  wp_bind.mpr (wp_mono hf hp)

/-- What each of its calls keeps, the program keeps. -/
theorem wp_of_all {P : C → Prop} {Inv : W → Prop} {p : Prog C R α}
    (hcall : ∀ w c o, Inv w → P c → ok w c o → Inv (exec w c o).1) (hp : p.All P) (hw : Inv w) :
    wp exec ok p (fun _ => Inv) w := by
  induction p generalizing w with
  | ret a => exact hw
  | call c k ih => exact fun o ho => ih _ (hp.2 _) (hcall w c o hw hp.1 ho)

theorem wp_step {s t : W × Prog C R α} {o : O} {Q : α → W → Prop}
    (h : wp exec ok s.2 Q s.1) (ho : Allowed ok s o) (hs : step exec s o = some t) :
    wp exec ok t.2 Q t.1 := by
  obtain ⟨w, p⟩ := s
  cases p with
  | ret a => cases hs
  | call c k =>
      cases hs
      exact h o ho

/-- The rule for runs. -/
theorem runs_wp {p : Prog C R α} {os : List O} {Q : α → W → Prop} {a : α} {w' : W}
    (h : wp exec ok p Q w) (hok : Admissible (Allowed ok) (step exec) (w, p) os)
    (hr : runs exec p w os = some (a, w')) : Q a w' := by
  obtain ⟨s, hrun, hs⟩ := Option.bind_eq_some_iff.mp hr
  have hwp : wp exec ok s.2 Q s.1 :=
    run_invariant_of_admissible (I := fun s => wp exec ok s.2 Q s.1)
      (fun s o t hi ho ht => wp_step hi ho ht) h hok hrun
  obtain ⟨v, p⟩ := s
  cases p with
  | ret b =>
      cases hs
      exact hwp
  | call c k => cases hs

end Dolgate.Calls
