import Dolgate.Transition

set_option autoImplicit false

/-! The lanes of auxiliary channels on one connection, and the calls that run commands on them. The
server opens the interactive lane's channel and refuses every other. Nothing times out. -/

namespace Dolgate.WorkerPool

open Transition

inductive Lane where
  | interactive
  | background
  deriving DecidableEq

inductive RunError where
  | unavailable
  | closed
  deriving DecidableEq

/-- A worker, its channel's place (`holder`) and whether a channel was opened for it. -/
structure Worker where
  closed : Bool := false
  started : Bool := false
  holder : Option Nat := none
  deriving DecidableEq

def newWorker : Worker := {}

def Worker.close (worker : Worker) : Worker := { worker with closed := true, started := false }

/-- What a call does next. Inside a run the lane says which of the pool's two runs it is. -/
inductive Phase (Output : Type) where
  | asking
  | choosing
  | queued (lane : Lane) (w : Nat)
  | starting (lane : Lane) (w : Nat)
  | running (lane : Lane) (w : Nat)
  | refused
  | returned (result : Except RunError Output)

structure Call (Command Output : Type) where
  command : Command
  phase : Phase Output

structure Entry (Command Output : Type) where
  call : Nat
  worker : Nat
  command : Command
  output : Output

structure State (Command Output : Type) where
  interactive : Option Nat := none
  background : Option Nat := none
  denied : Bool := false
  deniedAt : Int := 0
  now : Int := 0
  workers : List Worker := []
  calls : List (Call Command Output) := []
  log : List (Entry Command Output) := []

inductive Event (Command Output : Type) where
  | call (lane : Lane) (command : Command)
  | advance (i : Nat) (answer : Output)
  | tick (elapsed : Nat)

def backgroundRetryInterval : Int := 300000000000

variable {Command Output : Type}

namespace State

def setPhase (s : State Command Output) (i : Nat) (phase : Phase Output) : State Command Output :=
  { s with calls := s.calls.modify i fun call => { call with phase := phase } }

def setWorker (s : State Command Output) (w : Nat) (f : Worker → Worker) : State Command Output :=
  { s with workers := s.workers.modify w f }

def hold (s : State Command Output) (w : Nat) (holder : Option Nat) : State Command Output :=
  s.setWorker w fun worker => { worker with holder := holder }

def newInteractive (s : State Command Output) : State Command Output :=
  { s with workers := s.workers ++ [newWorker], interactive := some s.workers.length }

def newBackground (s : State Command Output) : State Command Output :=
  { s with workers := s.workers ++ [newWorker], background := some s.workers.length }

def interactiveWorker (s : State Command Output) : State Command Output × Nat :=
  match s.interactive with
  | some w => (s, w)
  | none => (s.newInteractive, s.workers.length)

def backgroundWorker (s : State Command Output) : State Command Output × Option Nat :=
  if s.denied = true ∧ s.now - s.deniedAt < backgroundRetryInterval then (s, none)
  else
    match s.background with
    | some w => ({ s with denied := false }, some w)
    | none => (({ s with denied := false } : State Command Output).newBackground,
        some s.workers.length)

def denyBackground (s : State Command Output) : State Command Output :=
  { s with
    denied := true
    deniedAt := s.now
    workers := match s.background with
      | some w => s.workers.modify w Worker.close
      | none => s.workers
    background := none }

/-- What `Run` of the pool does with the result of a worker's run. -/
def afterRun (lane : Lane) : Except RunError Output → Phase Output
  | .error .unavailable => if lane = .background then .refused else .returned (.error .unavailable)
  | result => .returned result

def leave (s : State Command Output) (i : Nat) (lane : Lane) (w : Nat)
    (result : Except RunError Output) : State Command Output :=
  (s.hold w none).setPhase i (afterRun lane result)

def ensureStarted (s : State Command Output) (i : Nat) (lane : Lane) (w : Nat) (worker : Worker) :
    State Command Output :=
  if worker.closed then s.leave i lane w (.error .closed)
  else if worker.started then s.setPhase i (.running lane w)
  else
    match lane with
    | .interactive =>
        (s.setWorker w fun worker => { worker with started := true }).setPhase i (.running lane w)
    | .background => s.leave i lane w (.error .unavailable)

def runCommand (s : State Command Output) (i : Nat) (lane : Lane) (w : Nat) (command : Command)
    (answer : Output) : State Command Output :=
  ({ s with log := s.log ++ [⟨i, w, command, answer⟩] } : State Command Output).leave i lane w
    (.ok answer)

def askBackground (s : State Command Output) (i : Nat) : State Command Output :=
  match s.backgroundWorker with
  | (t, some w) => t.setPhase i (.queued .background w)
  | (t, none) => t.setPhase i .choosing

def chooseInteractive (s : State Command Output) (i : Nat) : State Command Output :=
  s.interactiveWorker.1.setPhase i (.queued .interactive s.interactiveWorker.2)

/-- The next thing call `i` does. Only a queued call can have to wait. -/
def advance (s : State Command Output) (i : Nat) (call : Call Command Output) (answer : Output) :
    Option (State Command Output) :=
  match call.phase with
  | .asking => some (s.askBackground i)
  | .choosing => some (s.chooseInteractive i)
  | .queued lane w =>
      (s.workers[w]?).bind fun worker =>
        if worker.holder = none then
          some ((s.hold w (some i)).setPhase i (.starting lane w))
        else none
  | .starting lane w => (s.workers[w]?).map fun worker => s.ensureStarted i lane w worker
  | .running lane w => some (s.runCommand i lane w call.command answer)
  | .refused => some (s.denyBackground.setPhase i .choosing)
  | .returned _ => none

/-- A call enters `Run`. -/
def enter (s : State Command Output) (lane : Lane) (command : Command) : State Command Output :=
  { s with
    calls := s.calls ++
      [{ command := command, phase := if lane = .background then .asking else .choosing }] }

end State

def step (s : State Command Output) : Event Command Output → Option (State Command Output)
  | .call lane command => some (s.enter lane command)
  | .advance i answer => (s.calls[i]?).bind fun call => s.advance i call answer
  | .tick elapsed => some { s with now := s.now + elapsed }

def Phase.At (phase : Phase Output) (lane : Lane) (w : Nat) : Prop :=
  phase = .queued lane w ∨ phase = .starting lane w ∨ phase = .running lane w

/-- When a refused call closes the background worker, no other call has been given it that has not
been refused too. -/
def AloneInRefusal (s : State Command Output) : Event Command Output → Prop
  | .advance i _ =>
      ∀ call, s.calls[i]? = some call → call.phase = .refused →
        ∀ w, s.background = some w → ∀ (j : Nat) other, s.calls[j]? = some other → j ≠ i →
          ¬ other.phase.At .background w
  | _ => True

/-! ### What holds in every state -/

namespace State

variable {s t : State Command Output}

def runs (s : State Command Output) (i : Nat) : List (Entry Command Output) :=
  s.log.filter fun entry => entry.call = i

/-- The worker is there for a call of the lane: the pool's own, or one that is not closed. -/
def Seat (s : State Command Output) : Lane → Nat → Prop
  | .interactive, w => s.interactive = some w
  | .background, w => s.interactive ≠ some w ∧
      ∃ worker, s.workers[w]? = some worker ∧ worker.closed = false

structure Kept (s : State Command Output) (i : Nat) (call : Call Command Output) : Prop where
  seat : ∀ lane w, call.phase.At lane w → s.Seat lane w
  lane : ∀ lane w, call.phase = .running lane w → lane = .interactive
  waiting : (∀ result, call.phase ≠ .returned result) → s.runs i = []
  returned : ∀ result, call.phase = .returned result → ∃ w output, result = .ok output ∧
    s.interactive = some w ∧ s.runs i = [⟨i, w, call.command, output⟩]

def HeldBy (s : State Command Output) (w i : Nat) : Prop :=
  ∃ call lane, s.calls[i]? = some call ∧
    (call.phase = .starting lane w ∨ call.phase = .running lane w)

structure Sound (s : State Command Output) : Prop where
  kept : ∀ (i : Nat) call, s.calls[i]? = some call → s.Kept i call
  interactive_open : ∀ v, s.interactive = some v →
    ∃ worker, s.workers[v]? = some worker ∧ worker.closed = false
  background_seat : ∀ w, s.background = some w → s.Seat .background w
  started : ∀ (w : Nat) worker, s.workers[w]? = some worker → worker.started = true →
    s.interactive = some w
  held : ∀ (w : Nat) worker i, s.workers[w]? = some worker → worker.holder = some i → s.HeldBy w i
  logged : ∀ entry ∈ s.log, entry.call < s.calls.length

theorem runs_eq_nil_of_length_le (h : s.Sound) {i : Nat} (hi : s.calls.length ≤ i) :
    s.runs i = [] := by
  rw [runs, List.filter_eq_nil_iff]
  intro entry hentry
  have hlt := h.logged entry hentry
  simp only [decide_eq_true_eq]
  omega

theorem calls_setPhase_of_ne {i j : Nat} {phase : Phase Output} (h : i ≠ j) :
    (s.setPhase i phase).calls[j]? = s.calls[j]? := by
  simp [setPhase, h]

theorem calls_setPhase_self {i : Nat} {call : Call Command Output} (h : s.calls[i]? = some call)
    (phase : Phase Output) :
    (s.setPhase i phase).calls[i]? = some { call with phase := phase } := by
  simp [setPhase, h]

/-- What a step leaves for the calls it is not about: their workers, and what was run for them. -/
structure Extends (s t : State Command Output) (i : Nat) : Prop where
  calls : t.calls = s.calls
  interactive : ∀ v, s.interactive = some v → t.interactive = some v
  seat : ∀ (j : Nat) call w, j ≠ i → s.calls[j]? = some call → call.phase.At .background w →
    s.Seat .background w → t.Seat .background w
  runs : ∀ j, j ≠ i → t.runs j = s.runs j

structure Stocked (t : State Command Output) : Prop where
  interactive_open : ∀ v, t.interactive = some v →
    ∃ worker, t.workers[v]? = some worker ∧ worker.closed = false
  background_seat : ∀ w, t.background = some w → t.Seat .background w
  started : ∀ (w : Nat) worker, t.workers[w]? = some worker → worker.started = true →
    t.interactive = some w
  logged : ∀ entry ∈ t.log, entry.call < t.calls.length

theorem Sound.stocked (h : s.Sound) : s.Stocked :=
  ⟨h.interactive_open, h.background_seat, h.started, h.logged⟩

theorem Sound.setPhase (h : s.Sound) {i : Nat} {call : Call Command Output}
    (hcall : s.calls[i]? = some call) (hext : s.Extends t i) (hstock : t.Stocked)
    {phase : Phase Output} (hkept : t.Kept i { call with phase := phase })
    (hheld : ∀ (w : Nat) worker j, t.workers[w]? = some worker → worker.holder = some j →
      (j = i ∧ ∃ lane, phase = .starting lane w ∨ phase = .running lane w) ∨
        j ≠ i ∧ s.HeldBy w j) :
    (t.setPhase i phase).Sound where
  kept := by
    intro j other hother
    by_cases hij : i = j
    · subst hij
      have hself := calls_setPhase_self (s := t) (hext.calls ▸ hcall) phase
      obtain rfl : { call with phase := phase } = other := Option.some.inj (hself.symm.trans hother)
      exact ⟨hkept.seat, hkept.lane, hkept.waiting, hkept.returned⟩
    · rw [calls_setPhase_of_ne hij, hext.calls] at hother
      have hold := h.kept j other hother
      have hruns := hext.runs j (Ne.symm hij)
      refine ⟨fun lane w hat => ?_, hold.lane, fun hwaiting => ?_, fun result hresult => ?_⟩
      · cases lane with
        | interactive => exact hext.interactive w (hold.seat .interactive w hat)
        | background =>
            exact hext.seat j other w (Ne.symm hij) hother hat (hold.seat .background w hat)
      · exact hruns.trans (hold.waiting hwaiting)
      · obtain ⟨w, output, hok, hw, hrun⟩ := hold.returned result hresult
        exact ⟨w, output, hok, hext.interactive w hw, hruns.trans hrun⟩
  interactive_open := hstock.interactive_open
  background_seat := hstock.background_seat
  started := hstock.started
  held := by
    intro w worker j hworker hholder
    rcases hheld w worker j hworker hholder with
      ⟨rfl, lane, hphase⟩ | ⟨hij, other, lane, hother, hphase⟩
    · exact ⟨_, lane, calls_setPhase_self (hext.calls ▸ hcall) phase, hphase⟩
    · refine ⟨other, lane, ?_, hphase⟩
      rw [calls_setPhase_of_ne (Ne.symm hij), hext.calls]
      exact hother
  logged := by
    intro entry hentry
    simpa [State.setPhase] using hstock.logged entry hentry

end State

end Dolgate.WorkerPool
