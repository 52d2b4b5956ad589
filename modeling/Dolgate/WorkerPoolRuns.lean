import Mathlib.Algebra.Order.Ring.Nat
import Dolgate.WorkerPoolSteps

set_option autoImplicit false

/-! How the calls of a run come to their results. -/

namespace Dolgate.WorkerPool

open Transition

variable {Command Output : Type}

/-! ### How long a call can go on -/

def Phase.rank : Phase Output → Nat
  | .asking => 8
  | .queued .background _ => 7
  | .starting .background _ => 6
  | .refused => 5
  | .choosing => 4
  | .queued .interactive _ => 3
  | .starting .interactive _ => 2
  | .running _ _ => 1
  | .returned _ => 0

def State.total (s : State Command Output) : Nat := (s.calls.map fun call => call.phase.rank).sum

def Event.isAdvance : Event Command Output → Bool
  | .advance _ _ => true
  | _ => false

def advances (events : List (Event Command Output)) : Nat := events.countP Event.isAdvance

theorem sum_map_modify {α : Type} (f : α → Nat) (g : α → α) {xs : List α} {i : Nat} {x : α}
    (h : xs[i]? = some x) (hlt : f (g x) < f x) : ((xs.modify i g).map f).sum < (xs.map f).sum := by
  induction xs generalizing i with
  | nil => simp at h
  | cons y xs ih =>
      cases i with
      | zero =>
          obtain rfl : y = x := by simpa using h
          simp
          omega
      | succ i =>
          have hrest := ih (i := i) (by simpa using h)
          simp only [List.modify_succ_cons, List.map_cons, List.sum_cons]
          omega

namespace State

variable {s t : State Command Output} {i : Nat} {call : Call Command Output} {answer : Output}

theorem ensureStarted_phase (lane : Lane) (w : Nat) (worker : Worker) :
    ∃ phase, (s.ensureStarted i lane w worker).calls = (s.setPhase i phase).calls ∧
      phase.rank < (Phase.starting lane w : Phase Output).rank := by
  unfold ensureStarted
  split_ifs
  · exact ⟨_, rfl, by cases lane <;> simp [afterRun, Phase.rank]⟩
  · exact ⟨_, rfl, by cases lane <;> simp [Phase.rank]⟩
  · cases lane with
    | interactive => exact ⟨_, rfl, by simp [Phase.rank]⟩
    | background => exact ⟨_, rfl, by simp [afterRun, Phase.rank]⟩

theorem askBackground_phase (s : State Command Output) (i : Nat) :
    ∃ phase, (s.askBackground i).calls = (s.setPhase i phase).calls ∧ phase.rank < 8 := by
  rw [askBackground, backgroundWorker]
  split_ifs
  · exact ⟨_, rfl, by simp [Phase.rank]⟩
  · cases hback : s.background with
    | none => exact ⟨.queued .background s.workers.length, rfl, by simp [Phase.rank]⟩
    | some w => exact ⟨.queued .background w, rfl, by simp [Phase.rank]⟩

theorem chooseInteractive_phase (s : State Command Output) (i : Nat) :
    ∃ phase, (s.chooseInteractive i).calls = (s.setPhase i phase).calls ∧ phase.rank < 4 := by
  rw [chooseInteractive, interactiveWorker]
  cases hinter : s.interactive with
  | none => exact ⟨.queued .interactive s.workers.length, rfl, by simp [Phase.rank]⟩
  | some w => exact ⟨.queued .interactive w, rfl, by simp [Phase.rank]⟩

theorem advance_phase (h : s.advance i call answer = some t) :
    ∃ phase, t.calls = (s.setPhase i phase).calls ∧ phase.rank < call.phase.rank := by
  cases hphase : call.phase with
  | asking =>
      simp only [advance, hphase] at h
      exact Option.some.inj h ▸ s.askBackground_phase i
  | choosing =>
      simp only [advance, hphase] at h
      exact Option.some.inj h ▸ s.chooseInteractive_phase i
  | queued lane w =>
      simp only [advance, hphase] at h
      obtain ⟨worker, _, hfree⟩ := Option.bind_eq_some_iff.mp h
      obtain ⟨_, hnext⟩ := Option.ite_none_right_eq_some.mp hfree
      obtain rfl := Option.some.inj hnext
      exact ⟨_, rfl, by cases lane <;> simp [Phase.rank]⟩
  | starting lane w =>
      simp only [advance, hphase] at h
      obtain ⟨worker, _, rfl⟩ := Option.map_eq_some_iff.mp h
      exact ensureStarted_phase lane w worker
  | running lane w =>
      simp only [advance, hphase] at h
      obtain rfl := Option.some.inj h
      exact ⟨_, rfl, by simp [afterRun, Phase.rank]⟩
  | refused =>
      simp only [advance, hphase] at h
      obtain rfl := Option.some.inj h
      exact ⟨_, rfl, by simp [Phase.rank]⟩
  | returned result => simp [advance, hphase] at h

theorem total_advance (hcall : s.calls[i]? = some call) (h : s.advance i call answer = some t) :
    t.total < s.total ∧ t.calls.length = s.calls.length := by
  obtain ⟨phase, hcalls, hlt⟩ := advance_phase h
  rw [total, total, hcalls]
  exact ⟨sum_map_modify _ _ hcall hlt, by simp [setPhase]⟩

end State

theorem advances_le {s t : State Command Output} {events : List (Event Command Output)}
    (hrun : run step s events = some t) :
    advances events + t.total + 8 * s.calls.length ≤ s.total + 8 * t.calls.length := by
  induction events generalizing s with
  | nil =>
      cases hrun
      simp [advances]
  | cons e events ih =>
      obtain ⟨u, hu, hrun⟩ := run_cons.mp hrun
      have hlater := ih hrun
      have hcount : advances (e :: events) =
          advances events + if e.isAdvance = true then 1 else 0 := List.countP_cons
      cases e with
      | call lane command =>
          obtain rfl := Option.some.inj hu
          have hrank : (if lane = .background then Phase.asking else Phase.choosing :
              Phase Output).rank ≤ 8 := by
            split_ifs <;> simp [Phase.rank]
          simp only [State.enter, State.total, List.map_append, List.map_cons, List.map_nil,
            List.sum_append, List.sum_cons, List.sum_nil, List.length_append,
            List.length_singleton] at hlater
          simp only [hcount, Event.isAdvance, Bool.false_eq_true, if_false, State.total] at hlater ⊢
          omega
      | tick elapsed =>
          obtain rfl := Option.some.inj hu
          simp only [hcount, Event.isAdvance, Bool.false_eq_true, if_false]
          exact hlater
      | advance i answer =>
          obtain ⟨call, hcall, hadvance⟩ := Option.bind_eq_some_iff.mp hu
          obtain ⟨htotal, hlength⟩ := State.total_advance hcall hadvance
          simp only [hcount, Event.isAdvance, if_true]
          omega

theorem sound_initial : ({} : State Command Output).Sound where
  kept i call hcall := by simp at hcall
  interactive_open v hv := by cases hv
  background_seat w hw := by cases hw
  started w worker hworker := by simp at hworker
  held w worker i hworker := by simp at hworker
  logged entry hentry := by simp at hentry

/-- Each call that has returned has the output of its one run on the interactive worker, and none
that has not has been run. -/
def FallsBack (s : State Command Output) : Prop :=
  ∀ (i : Nat) call, s.calls[i]? = some call →
    (∀ result, call.phase = .returned result → ∃ w output, result = .ok output ∧
      s.interactive = some w ∧ s.runs i = [⟨i, w, call.command, output⟩]) ∧
    ((∀ result, call.phase ≠ .returned result) → s.runs i = [])

theorem background_calls_fall_back (events : List (Event Command Output))
    (s : State Command Output) (halone : Admissible AloneInRefusal step {} events)
    (hrun : run step {} events = some s) :
    FallsBack s ∧
      (∀ answer : Output, (∀ i, step s (.advance i answer) = none) →
        ∀ call ∈ s.calls, ∃ result, call.phase = .returned result) ∧
      advances events ≤ 8 * s.calls.length := by
  have hsound : s.Sound := run_invariant_of_admissible (I := State.Sound)
    (fun _ _ _ h hok hstep => h.afterStep hok hstep) sound_initial halone hrun
  refine ⟨fun i call hcall => ?_, fun answer hstuck call hmem => ?_, ?_⟩
  · exact ⟨(hsound.kept i call hcall).returned, (hsound.kept i call hcall).waiting⟩
  · by_contra hno
    obtain ⟨i, hcall⟩ := List.getElem?_of_mem hmem
    obtain ⟨j, hnext⟩ := hsound.progress answer hcall fun result hresult => hno ⟨result, hresult⟩
    rw [hstuck j] at hnext
    cases hnext
  · have htotal := advances_le hrun
    simp only [State.total, List.map_nil, List.sum_nil, List.length_nil] at htotal
    omega

def Phase.isRefused : Phase Output → Bool
  | .refused => true
  | _ => false

def Phase.inBackground : Phase Output → Bool
  | .queued .background _ => true
  | .starting .background _ => true
  | .running .background _ => true
  | _ => false

/-- When a refused call goes on, no other call is inside a run on a background worker. -/
def aloneCheck (s : State Command Output) : Event Command Output → Bool
  | .advance i _ =>
      !(s.calls[i]?).any (fun call => call.phase.isRefused) ||
        (List.range s.calls.length).all fun j =>
          j = i || !(s.calls[j]?).any fun call => call.phase.inBackground
  | _ => true

theorem aloneInRefusal_of_check {s : State Command Output} {e : Event Command Output}
    (h : aloneCheck s e = true) : AloneInRefusal s e := by
  cases e with
  | call lane command => trivial
  | tick elapsed => trivial
  | advance i answer =>
      intro call hcall hrefused w _ j other hother hne hat
      have hj := (List.getElem?_eq_some_iff.mp hother).1
      simp only [aloneCheck, hcall, Option.any_some, hrefused, Phase.isRefused, Bool.not_true,
        Bool.false_or, List.all_eq_true, List.mem_range] at h
      have hout := h j hj
      rcases hat with hat | hat | hat <;> simp [hne, hother, hat, Phase.inBackground] at hout

def refusedOnce : List (Event Nat Nat) :=
  [.call .background 5, .call .interactive 6, .advance 0 0, .advance 0 0, .advance 1 0,
    .advance 0 0, .advance 0 0, .advance 1 0, .advance 0 0, .advance 1 0, .advance 1 60,
    .advance 0 0, .advance 0 0, .advance 0 50]

theorem background_calls_fall_back_once :
    ∃ s, run step {} refusedOnce = some s ∧ FallsBack s ∧
      (∀ answer : Nat, (∀ i, step s (.advance i answer) = none) →
        ∀ call ∈ s.calls, ∃ result, call.phase = .returned result) ∧
      advances refusedOnce ≤ 8 * s.calls.length := by
  have hallowed : allows aloneCheck step {} refusedOnce = true := by
    decide
  exact ⟨_, rfl, background_calls_fall_back refusedOnce _
    (admissible_of_allows (fun _ _ => aloneInRefusal_of_check) hallowed) rfl⟩

/-- Two background calls are given one worker. The first is refused and closes it; the second, whose
turn then comes, returns that the worker is closed, and its command is never run. -/
def refusedTwice : List (Event Nat Nat) :=
  [.call .background 5, .call .background 6, .advance 0 0, .advance 1 0, .advance 0 0,
    .advance 0 0, .advance 0 0, .advance 1 0, .advance 1 0]

theorem queued_call_does_not_fall_back :
    ¬ (∀ (events : List (Event Nat Nat)) (s : State Nat Nat),
      run step {} events = some s → FallsBack s) := by
  intro h
  obtain ⟨w, output, herror, _⟩ := (h refusedTwice _ rfl 1 ⟨6, .returned (.error .closed)⟩ rfl).1
    (.error .closed) rfl
  cases herror

end Dolgate.WorkerPool
