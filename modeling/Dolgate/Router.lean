import Mathlib.Logic.Function.Basic
import Dolgate.Transition

set_option autoImplicit false

/-! The router that puts each frame of the core in the line of its target. What the reader does with
a frame, and what the goroutine of the frame does, are steps. -/

namespace Dolgate.Router

inductive CommandType where
  | keyboardInteractiveRespond
  | hostKeyTrustRespond
  | flowStart
  | flowStop
  | flowAck
  | flowVisibility
  | connect
  | tmuxConnect
  | awsConnect
  | localConnect
  | serialConnect
  | disconnect
  | installAuthorizedKey
  | portForwardStart
  | ssmPortForwardStart
  | portForwardStop
  | ssmPortForwardStop
  | sftpConnect
  | sftpDisconnect
  | containersConnect
  | containersDisconnect
  | probeHostKey
  | tailnetConfigure
  | other (name : String)
  deriving DecidableEq, Repr

structure Request where
  id : String := ""
  type : CommandType
  sessionID : String := ""
  endpointID : String := ""
  jobID : String := ""
  deriving DecidableEq, Repr

structure StreamFrame where
  sessionID : String := ""
  requestID : String := ""
  deriving DecidableEq, Repr

inductive Frame where
  | control (request : Option Request)
  | stream (metadata : Option StreamFrame)
  deriving DecidableEq, Repr

def frameCommand : Frame → CommandType
  | .control (some request) => request.type
  | _ => .other ""

def frameRequestID : Frame → String
  | .control (some request) => request.id
  | .stream (some metadata) => metadata.requestID
  | _ => ""

def frameSessionID : Frame → String
  | .control (some request) => request.sessionID
  | .stream (some metadata) => metadata.sessionID
  | _ => ""

def frameEndpointID : Frame → String
  | .control (some request) => request.endpointID
  | _ => ""

def frameJobID : Frame → String
  | .control (some request) => request.jobID
  | _ => ""

def frameScope (frame : Frame) (command : CommandType) : String :=
  if frameSessionID frame ≠ "" then "session:" ++ frameSessionID frame
  else if frameEndpointID frame ≠ "" then "endpoint:" ++ frameEndpointID frame
  else if frameJobID frame ≠ "" then "job:" ++ frameJobID frame
  else if command = .probeHostKey ∧ frameRequestID frame ≠ "" then
    "probe:" ++ frameRequestID frame
  else "global"

def isCancelCommand : CommandType → Bool
  | .disconnect => true
  | .portForwardStop => true
  | .ssmPortForwardStop => true
  | .sftpDisconnect => true
  | .containersDisconnect => true
  | _ => false

def isBarrierCommand (command : CommandType) : Bool := command == .tailnetConfigure

/-- The commands that `route` runs itself. -/
def isAnswer (command : CommandType) : Bool :=
  command == .keyboardInteractiveRespond || command == .hostKeyTrustRespond

def isFlowCommand (command : CommandType) : Bool :=
  command == .flowStart || command == .flowStop || command == .flowAck ||
    command == .flowVisibility

/-- Where a frame is. The first five are in the hands of the reader or have never left them;
`unlisted` has given up its place, and is yet to close its channel. -/
inductive Phase where
  | answering
  | answered
  | cancelling
  | routing
  | claimed
  | waiting
  | passed
  | running
  | finished
  | unlisted
  | closed
  deriving DecidableEq, Repr

/-- `previous` and `barrier` are the frames whose channels it waits for. -/
structure Routed where
  frame : Frame
  previous : Option Nat := none
  barrier : Option Nat := none
  phase : Phase
  deriving DecidableEq, Repr

def Routed.command (r : Routed) : CommandType := frameCommand r.frame

def Routed.scope (r : Routed) : String := frameScope r.frame r.command

def Routed.queues (r : Routed) : Bool := !isAnswer r.command && !isFlowCommand r.command

/-- `routed` are the frames in their order, `reading` is the one the reader is at. A channel is known
by the frame that closes it. -/
structure State where
  routed : List Routed := []
  reading : Option Nat := none
  tails : String → Option Nat := fun _ => none
  depth : String → Option Int := fun _ => none
  barrier : Option Nat := none

inductive Event where
  | route (frame : Frame)
  | answer
  | cancelled
  | claim
  | spawn
  | passBarrier (i : Nat)
  | start (i : Nat)
  | finish (i : Nat)
  | unlist (i : Nat)
  | close (i : Nat)
  deriving DecidableEq, Repr

def firstPhase (command : CommandType) : Phase :=
  if isAnswer command then .answering
  else if isFlowCommand command then .answering
  else if isCancelCommand command then .cancelling
  else .routing

def State.put (s : State) (i : Nat) (r : Routed) : State := { s with routed := s.routed.set i r }

/-- The frame `i`, if that is where it is. -/
def State.find (s : State) (i : Nat) (phase : Phase) : Option Routed :=
  s.routed[i]?.filter fun r => r.phase = phase

def State.open (s : State) : Option Nat → Bool
  | none => true
  | some i => (s.find i .closed).isSome

/-- `claim` -/
def State.claim (s : State) (i : Nat) (r : Routed) : State :=
  { s.put i { r with previous := s.tails r.scope, phase := .claimed } with
    tails := Function.update s.tails r.scope (some i)
    depth := Function.update s.depth r.scope (some ((s.depth r.scope).getD 0 + 1)) }

/-- `currentBarrier` and `setBarrier` -/
def State.spawn (s : State) (i : Nat) (r : Routed) : State :=
  { s.put i { r with barrier := s.barrier, phase := .waiting } with
    barrier := if isBarrierCommand r.command then some i else s.barrier
    reading := none }

/-- What `release` does under the lock. -/
def State.unlist (s : State) (i : Nat) (r : Routed) : State :=
  let depth := (s.depth r.scope).getD 0 - 1
  { s.put i { r with phase := .unlisted } with
    depth := Function.update s.depth r.scope (if depth ≤ 0 then none else some depth)
    tails := if s.tails r.scope = some i then Function.update s.tails r.scope none else s.tails }

def step (s : State) : Event → Option State
  | .route frame =>
      if s.reading = none then
        some { s with
          routed := s.routed ++ [{ frame, phase := firstPhase (frameCommand frame) }]
          reading := some s.routed.length }
      else none
  | .answer => do
      let i ← s.reading
      let r ← s.find i .answering
      return { s.put i { r with phase := .answered } with reading := none }
  | .cancelled => do
      let i ← s.reading
      let r ← s.find i .cancelling
      return s.put i { r with phase := .routing }
  | .claim => do
      let i ← s.reading
      let r ← s.find i .routing
      return s.claim i r
  | .spawn => do
      let i ← s.reading
      let r ← s.find i .claimed
      return s.spawn i r
  | .passBarrier i => do
      let r ← s.find i .waiting
      if s.open r.barrier then some (s.put i { r with phase := .passed }) else none
  | .start i => do
      let r ← s.find i .passed
      if s.open r.previous then some (s.put i { r with phase := .running }) else none
  | .finish i => do
      let r ← s.find i .running
      return s.put i { r with phase := .finished }
  | .unlist i => do
      let r ← s.find i .finished
      return s.unlist i r
  | .close i => do
      let r ← s.find i .unlisted
      return s.put i { r with phase := .closed }

variable {s t : State} {i : Nat} {r : Routed} {phase : Phase} {frame : Frame}

theorem find_eq : s.find i phase = some r ↔ s.routed[i]? = some r ∧ r.phase = phase := by
  simp [State.find, Option.filter_eq_some_iff]

theorem open_some {p : Nat} : s.open (some p) = true ↔
    ∃ q, s.routed[p]? = some q ∧ q.phase = .closed := by
  simp [State.open, Option.isSome_iff_exists, find_eq]

theorem step_route : step s (.route frame) = some t ↔ s.reading = none ∧ t = { s with
    routed := s.routed ++ [{ frame, phase := firstPhase (frameCommand frame) }]
    reading := some s.routed.length } := by
  simp [step, @eq_comm State]

theorem step_answer : step s .answer = some t ↔ ∃ i r, s.reading = some i ∧
    s.routed[i]? = some r ∧ r.phase = .answering ∧
    t = { s.put i { r with phase := .answered } with reading := none } := by
  simp [step, Option.bind_eq_some_iff, find_eq, @eq_comm State, and_assoc]

theorem step_cancelled : step s .cancelled = some t ↔ ∃ i r, s.reading = some i ∧
    s.routed[i]? = some r ∧ r.phase = .cancelling ∧
    t = s.put i { r with phase := .routing } := by
  simp [step, Option.bind_eq_some_iff, find_eq, @eq_comm State, and_assoc]

theorem step_claim : step s .claim = some t ↔ ∃ i r, s.reading = some i ∧
    s.routed[i]? = some r ∧ r.phase = .routing ∧ t = s.claim i r := by
  simp [step, Option.bind_eq_some_iff, find_eq, @eq_comm State, and_assoc]

theorem step_spawn : step s .spawn = some t ↔ ∃ i r, s.reading = some i ∧
    s.routed[i]? = some r ∧ r.phase = .claimed ∧ t = s.spawn i r := by
  simp [step, Option.bind_eq_some_iff, find_eq, @eq_comm State, and_assoc]

theorem step_passBarrier : step s (.passBarrier i) = some t ↔ ∃ r,
    s.routed[i]? = some r ∧ r.phase = .waiting ∧ s.open r.barrier = true ∧
    t = s.put i { r with phase := .passed } := by
  simp [step, Option.bind_eq_some_iff, find_eq, @eq_comm State, and_assoc]

theorem step_start : step s (.start i) = some t ↔ ∃ r,
    s.routed[i]? = some r ∧ r.phase = .passed ∧ s.open r.previous = true ∧
    t = s.put i { r with phase := .running } := by
  simp [step, Option.bind_eq_some_iff, find_eq, @eq_comm State, and_assoc]

theorem step_finish : step s (.finish i) = some t ↔ ∃ r,
    s.routed[i]? = some r ∧ r.phase = .running ∧ t = s.put i { r with phase := .finished } := by
  simp [step, Option.bind_eq_some_iff, find_eq, @eq_comm State, and_assoc]

theorem step_unlist : step s (.unlist i) = some t ↔ ∃ r,
    s.routed[i]? = some r ∧ r.phase = .finished ∧ t = s.unlist i r := by
  simp [step, Option.bind_eq_some_iff, find_eq, @eq_comm State, and_assoc]

theorem step_close : step s (.close i) = some t ↔ ∃ r,
    s.routed[i]? = some r ∧ r.phase = .unlisted ∧ t = s.put i { r with phase := .closed } := by
  simp [step, Option.bind_eq_some_iff, find_eq, @eq_comm State, and_assoc]

end Dolgate.Router
