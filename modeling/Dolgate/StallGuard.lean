import Dolgate.Transition

set_option autoImplicit false

/-! The guard that ends a handshake in which nothing moves. What it does under its lock and what it
sets on the connection are two steps each. -/

namespace Dolgate.StallGuard

open Transition

def handshakeStallTimeout : Nat := 10 * 1000

/-- `arming` are the calls of `arm` and `Extend` that are between their check and `SetDeadline`, with
their timeouts; `pausing` and `releasing` count the calls that have let the lock go and are yet to
clear the deadline. `returned` says that a `Release` has returned. -/
structure Guard where
  timeout : Nat
  wrapped : Bool := false
  paused : Nat := 0
  released : Bool := false
  arming : List Nat := []
  pausing : Nat := 0
  releasing : Nat := 0
  returned : Bool := false
  deadline : Option Nat := none
  deriving DecidableEq, Repr

/-- `newStallGuard` -/
def start (timeout : Int) : Guard :=
  { timeout := if timeout ≤ 0 then handshakeStallTimeout else timeout.toNat }

inductive Event where
  | wrap
  | arm
  | extend (timeout : Nat)
  | setDeadline (i now : Nat)
  | pause
  | pauseClears
  | resume
  | release
  | releaseClears
  deriving DecidableEq, Repr

def Guard.active (g : Guard) : Bool := !g.released && g.paused == 0

def step (g : Guard) : Event → Option Guard
  | .wrap => if g.wrapped then none else some { g with wrapped := true }
  | .arm =>
      if g.wrapped then
        if g.active then some { g with arming := g.arming ++ [g.timeout] } else some g
      else none
  | .extend timeout =>
      let g := { g with timeout := max g.timeout timeout }
      if g.wrapped ∧ g.active then some { g with arming := g.arming ++ [g.timeout] } else some g
  | .setDeadline i now => do
      let timeout ← g.arming[i]?
      return { g with arming := g.arming.eraseIdx i, deadline := some (now + timeout) }
  | .pause =>
      let g := { g with paused := g.paused + 1 }
      some (if g.wrapped then { g with pausing := g.pausing + 1 } else g)
  | .pauseClears =>
      if 0 < g.pausing then some { g with pausing := g.pausing - 1, deadline := none } else none
  | .resume => some { g with paused := g.paused - 1 }
  | .release =>
      let g := { g with released := true }
      some (if g.wrapped then { g with releasing := g.releasing + 1 } else { g with returned := true })
  | .releaseClears =>
      if 0 < g.releasing then
        some { g with releasing := g.releasing - 1, returned := true, deadline := none }
      else none

/-- A `Release` has returned, or a `Pause` that has not been resumed has. -/
def Guard.Off (g : Guard) : Prop := g.returned = true ∨ g.pausing < g.paused

instance (g : Guard) : Decidable g.Off := inferInstanceAs (Decidable (_ ∨ _))

def NoDeadline (g : Guard) : Prop := g.Off → g.arming = [] → g.deadline = none

/-- The last of those that are about to set a deadline does not set it when the guard is off. -/
def InTime (g : Guard) : Event → Prop
  | .setDeadline _ _ => g.Off → 2 ≤ g.arming.length
  | _ => True

structure Inv (g : Guard) : Prop where
  clear : NoDeadline g
  bare : g.wrapped = false → g.arming = [] ∧ g.deadline = none
  released : g.returned = true ∨ 0 < g.releasing → g.released = true
  paused : g.released = false → g.paused = 0 → ¬ g.Off

variable {g t : Guard}

theorem inv_start (timeout : Int) : Inv (start timeout) where
  clear _ _ := rfl
  bare _ := ⟨rfl, rfl⟩
  released h := by rcases h with h | h <;> cases h
  paused _ _ hoff := by rcases hoff with h | h <;> cases h

theorem Inv.not_off (h : Inv g) (hactive : g.active = true) : ¬ g.Off := by
  simp only [Guard.active, Bool.and_eq_true, Bool.not_eq_true', beq_iff_eq] at hactive
  exact h.paused hactive.1 hactive.2

theorem Inv.arm (h : Inv g) (hwrapped : g.wrapped = true) (hactive : g.active = true)
    (timeout : Nat) : Inv { g with arming := g.arming ++ [timeout] } where
  clear hoff := absurd hoff (h.not_off hactive)
  bare hbare := absurd (hbare.symm.trans hwrapped) Bool.false_ne_true
  released := h.released
  paused := h.paused

theorem inv_step (g : Guard) (event : Event) (t : Guard) (h : Inv g) (hok : InTime g event)
    (ht : step g event = some t) : Inv t := by
  cases event with
  | wrap =>
      simp only [step] at ht
      split at ht
      · cases ht
      · next hbare =>
          cases ht
          exact ⟨h.clear, nofun, h.released, h.paused⟩
  | arm =>
      simp only [step] at ht
      split at ht
      · next hwrapped =>
          split at ht
          · next hactive =>
              cases ht
              exact h.arm hwrapped hactive _
          · cases ht
            exact h
      · cases ht
  | extend timeout =>
      have hlonger : Inv { g with timeout := max g.timeout timeout } :=
        ⟨h.clear, h.bare, h.released, h.paused⟩
      simp only [step] at ht
      split at ht
      · next hactive =>
          cases ht
          exact hlonger.arm hactive.1 hactive.2 _
      · cases ht
        exact hlonger
  | setDeadline i now =>
      simp only [step, Option.bind_eq_bind, Option.bind_eq_some_iff] at ht
      obtain ⟨timeout, hi, ht⟩ := ht
      cases ht
      have hlt := (List.getElem?_eq_some_iff.mp hi).1
      refine ⟨fun hoff hnone => ?_, fun hbare => ?_, h.released, h.paused⟩
      · have htwo := hok hoff
        have hlen := List.length_eraseIdx_of_lt hlt
        have hzero : (g.arming.eraseIdx i).length = 0 := List.length_eq_zero_iff.mpr hnone
        omega
      · rw [(h.bare hbare).1] at hlt
        cases hlt
  | pause =>
      simp only [step] at ht
      cases ht
      split
      · next hwrapped =>
          refine ⟨fun hoff hnone => h.clear ?_ hnone, fun hbare => ?_, h.released, nofun⟩
          · rcases hoff with hreturned | hpaused
            · exact .inl hreturned
            · exact .inr (Nat.lt_of_add_lt_add_right hpaused)
          · exact h.bare hbare
      · next hwrapped =>
          have hbare := h.bare (Bool.eq_false_iff.mpr hwrapped)
          exact ⟨fun _ _ => hbare.2, fun _ => hbare, h.released, nofun⟩
  | pauseClears =>
      simp only [step] at ht
      split at ht
      · next hpos =>
          cases ht
          refine ⟨fun _ _ => rfl, fun hbare => ⟨(h.bare hbare).1, rfl⟩, h.released,
            fun hreleased hpaused hoff => ?_⟩
          rcases hoff with hreturned | hlt
          · exact h.paused hreleased hpaused (.inl hreturned)
          · simp only at hpaused hlt
            omega
      · cases ht
  | resume =>
      cases ht
      refine ⟨fun hoff hnone => h.clear ?_ hnone, h.bare, h.released,
        fun hreleased hpaused hoff => ?_⟩
      · rcases hoff with hreturned | hlt
        · exact .inl hreturned
        · exact .inr (Nat.lt_of_lt_of_le hlt (Nat.sub_le _ _))
      · rcases hoff with hreturned | hlt
        · have hyes := h.released (.inl hreturned)
          exact absurd (hreleased.symm.trans hyes) Bool.false_ne_true
        · simp only at hpaused hlt
          omega
  | release =>
      simp only [step] at ht
      cases ht
      split
      · exact ⟨h.clear, h.bare, fun _ => rfl, nofun⟩
      · next hwrapped =>
          have hbare := h.bare (Bool.eq_false_iff.mpr hwrapped)
          exact ⟨fun _ _ => hbare.2, fun _ => hbare, fun _ => rfl, nofun⟩
  | releaseClears =>
      simp only [step] at ht
      split at ht
      · next hpos =>
          cases ht
          have hreleased := h.released (.inr hpos)
          exact ⟨fun _ _ => rfl, fun hbare => ⟨(h.bare hbare).1, rfl⟩, fun _ => hreleased,
            fun hno => absurd (hno.symm.trans hreleased) Bool.false_ne_true⟩
      · cases ht

theorem late_deadline {event : Event} (hlate : ¬ InTime g event)
    (ht : step g event = some t) : ¬ NoDeadline t := by
  cases event with
  | setDeadline i now =>
      simp only [InTime, Classical.not_imp] at hlate
      obtain ⟨hoff, hone⟩ := hlate
      simp only [step, Option.bind_eq_bind, Option.bind_eq_some_iff] at ht
      obtain ⟨timeout, hi, ht⟩ := ht
      cases ht
      have hlt := (List.getElem?_eq_some_iff.mp hi).1
      have hlen := List.length_eraseIdx_of_lt hlt
      intro hno
      have hnone : g.arming.eraseIdx i = [] := List.length_eq_zero_iff.mp (by omega)
      cases hno hoff hnone
  | _ => exact absurd trivial hlate

variable {events : List Event} {timeout : Int}

/-- In a run of reads, writes and the guard's calls there is never a deadline left when the guard is
off, exactly if none is set too late. -/
theorem no_deadline_left_iff (hrun : run step (start timeout) events = some g) :
    Always NoDeadline step (start timeout) events ↔
      Admissible InTime step (start timeout) events :=
  always_iff_admissible (fun _ h => h.clear) inv_step (fun _ _ _ _ => late_deadline)
    (inv_start timeout) hrun

def handshake : List Event :=
  [.wrap, .arm, .setDeadline 0 5, .pause, .pauseClears, .arm, .resume, .arm, .setDeadline 0 90,
    .extend 300000, .setDeadline 0 95, .release, .releaseClears, .arm]

theorem handshake_leaves_no_deadline : Always NoDeadline step (start 0) handshake := by
  obtain ⟨g, hg⟩ : ∃ g, run step (start 0) handshake = some g :=
    Option.isSome_iff_exists.mp (by decide)
  have hallows : allows (fun g event => match event with
      | .setDeadline _ _ => !decide g.Off
      | _ => true) step (start 0) handshake = true := by decide
  refine (no_deadline_left_iff hg).mpr (admissible_of_allows (fun g event hcheck => ?_) hallows)
  cases event with
  | setDeadline i now => exact fun hoff => absurd hoff (by simpa using hcheck)
  | _ => trivial

/-- The reader has checked the guard when the handshake is over, and sets its deadline then. -/
def lateReader : List Event := [.wrap, .arm, .release, .releaseClears, .setDeadline 0 5]

theorem late_reader_leaves_deadline :
    (run step (start 0) lateReader).map Guard.deadline = some (some 10005) ∧
      ¬ Always NoDeadline step (start 0) lateReader := by
  refine ⟨by decide, fun halways => ?_⟩
  obtain ⟨g, hg⟩ : ∃ g, run step (start 0) lateReader = some g :=
    Option.isSome_iff_exists.mp (by decide)
  have hadmissible : Admissible InTime step (start 0)
      ([.wrap, .arm, .release, .releaseClears] ++ [.setDeadline 0 5]) :=
    (no_deadline_left_iff hg).mp halways
  have hlate := hadmissible.append_right rfl
  exact absurd (hlate.1 (by decide)) (by decide)

end Dolgate.StallGuard
