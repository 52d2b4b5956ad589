import Dolgate.SyncService

set_option autoImplicit false

/-! Which push of the sync service covers which call. Calls come at any await of a push and between
any two microtasks; what a push computes and sends is left to `SyncService`. -/

namespace Dolgate.CoalescedPush

open Transition

/-- Where a push is: behind the operations before it, at an await, or returned and not yet settled
by its `finally`. -/
inductive Phase where
  | queued
  | building
  | pushing
  | rejecting
  | settling
  | ended
  deriving DecidableEq, Repr

structure Push where
  generation : Nat
  phase : Phase := .queued
  deriving DecidableEq, Repr

structure Flags where
  syncGeneration : Nat := 0
  pushTask : Option Nat := none
  queuedPushGeneration : Option Nat := none
  pushTimer : Bool := false
  deriving DecidableEq, Repr

inductive Mark where
  | call (generation : Nat)
  | build (generation : Nat)
  | paused (generation : Nat)
  deriving DecidableEq, Repr

/-- `others` counts the other operations that are queued or running. -/
structure State where
  flags : Flags := {}
  pushes : List Push := []
  others : Nat := 0
  history : List Mark := []
  deriving DecidableEq, Repr

/-- What goes on: a call, one by the timer, and what comes of the awaits of a push. `expires` is a
lease that is found to be no longer active. -/
inductive Event where
  | pushDirty
  | timer
  | begins (i : Nat)
  | built (i : Nat)
  | pushed (i : Nat) (deletions : Bool)
  | fails (i : Nat)
  | rejected (i : Nat)
  | pauses (i : Nat)
  | expires (i : Nat)
  | settles (i : Nat)
  | other
  | otherEnds (retries : Bool)
  deriving DecidableEq, Repr

def Flags.invalidate (f : Flags) : Flags :=
  { f with
    syncGeneration := f.syncGeneration + 1
    queuedPushGeneration := none
    pushTimer := false }

def Flags.call (f : Flags) : Flags × Bool :=
  if f.pushTask = some f.syncGeneration then
    ({ f with pushTimer := false, queuedPushGeneration := some f.syncGeneration }, false)
  else ({ f with pushTimer := false, pushTask := some f.syncGeneration }, true)

def Flags.round (f : Flags) (generation : Nat) : Flags :=
  { f with queuedPushGeneration :=
      if f.queuedPushGeneration = some generation then none else f.queuedPushGeneration }

/-- The `finally` of a push. -/
def Flags.settle (f : Flags) (generation : Nat) : Flags :=
  { f with
    pushTask := if f.pushTask = some generation then none else f.pushTask
    queuedPushGeneration :=
      if f.queuedPushGeneration = some generation then none else f.queuedPushGeneration }

/-- The push `i`, if it is at one of these phases. -/
def State.find (s : State) (i : Nat) (phases : List Phase) : Option Push :=
  s.pushes[i]?.filter fun p => phases.contains p.phase

def State.put (s : State) (i : Nat) (p : Push) (phase : Phase) : State :=
  { s with pushes := s.pushes.set i { p with phase } }

def State.active (s : State) (p : Push) : Bool := decide (p.generation = s.flags.syncGeneration)

def State.call (s : State) : State :=
  let (flags, begins) := s.flags.call
  { s with
    flags
    pushes := s.pushes ++ if begins then [{ generation := s.flags.syncGeneration }] else []
    history := s.history ++ [.call s.flags.syncGeneration] }

def State.round (s : State) (i : Nat) (p : Push) : State :=
  { s.put i p .building with
    flags := s.flags.round p.generation
    history := s.history ++ [.build p.generation] }

def step (s : State) : Event → Option State
  | .pushDirty => some s.call
  | .timer => if s.flags.pushTimer then some s.call else none
  | .begins i => do
      let p ← s.find i [.queued]
      return if s.active p then s.round i p else s.put i p .settling
  | .built i => do
      let p ← s.find i [.building]
      return s.put i p (if s.active p then .pushing else .settling)
  | .pushed i deletions => do
      let p ← s.find i [.pushing]
      return if s.active p then
        if s.flags.queuedPushGeneration = some p.generation ∨ deletions = true then s.round i p
        else s.put i p .settling
      else s.put i p .settling
  | .fails i => do
      let p ← s.find i [.building, .pushing]
      return if s.active p then
        { s.put i p .settling with flags := { s.flags with pushTimer := true } }
      else s.put i p .settling
  | .rejected i => do
      let p ← s.find i [.pushing]
      return s.put i p (if s.active p then .rejecting else .settling)
  | .pauses i => do
      let p ← s.find i [.rejecting]
      return if s.active p then
        { s.put i p .settling with
          flags := s.flags.invalidate
          history := s.history ++ [.paused p.generation] }
      else s.put i p .settling
  | .expires i => do
      let p ← s.find i [.queued, .building, .pushing, .rejecting]
      return s.put i p .settling
  | .settles i => do
      let p ← s.find i [.settling]
      return { s.put i p .ended with flags := s.flags.settle p.generation }
  | .other => some { s with others := s.others + 1 }
  | .otherEnds retries =>
      if s.others = 0 then none
      else some { s with
        others := s.others - 1
        flags := { s.flags with pushTimer := s.flags.pushTimer || retries } }

def Quiet (s : State) : Prop :=
  (∀ p ∈ s.pushes, p.phase = .ended) ∧ s.others = 0 ∧ s.flags.pushTimer = false

def Covered (s : State) : Prop :=
  ∀ (before after : List Mark) (generation : Nat),
    s.history = before ++ .call generation :: after →
      .build generation ∈ after ∨ .paused generation ∈ after

/-- No call comes between the return of the push of its generation and the `finally`, and a lease
does not expire before its push has begun or while another round is asked for. -/
def InTime (s : State) : Event → Prop
  | .pushDirty => ∀ p ∈ s.pushes, p.generation = s.flags.syncGeneration → p.phase ≠ .settling
  | .timer => ∀ p ∈ s.pushes, p.generation = s.flags.syncGeneration → p.phase ≠ .settling
  | .expires i => ∀ p, s.pushes[i]? = some p →
      p.phase ≠ .queued ∧ s.flags.queuedPushGeneration ≠ some p.generation
  | _ => True

section

variable {ρ : Type}

def Flags.of (s : SyncService.Service ρ) : Flags where
  syncGeneration := s.syncGeneration
  pushTask := s.pushTask
  queuedPushGeneration := s.queuedPushGeneration
  pushTimer := s.pushTimer

end

end Dolgate.CoalescedPush
