import Dolgate.Base64
import Dolgate.RouterOrder

set_option autoImplicit false

/-! The connections that are being made, their registries, and how the reader ends them before it
puts a command in its line. -/

namespace Dolgate.InFlight

open Transition Router

/-- What has a registry of its own. The session managers share the one of their dialer. -/
inductive Service where
  | ssh
  | forwarding
  | sftp
  | containers
  deriving DecidableEq, Repr

inductive Target where
  | session (id : String)
  | endpoint (id : String)
  deriving DecidableEq, Repr

def Target.id : Target → String
  | .session id => id
  | .endpoint id => id

/-- `service` is the one whose registry it enters. Some enter none. -/
structure Operation where
  target : Target
  service : Option Service
  deriving DecidableEq, Repr

def operation (frame : Frame) : Option Operation :=
  match frameCommand frame with
  | .connect => some { target := .session (frameSessionID frame), service := some .ssh }
  | .tmuxConnect => some { target := .session (frameSessionID frame), service := some .ssh }
  | .awsConnect => some { target := .session (frameSessionID frame), service := none }
  | .localConnect => some { target := .session (frameSessionID frame), service := none }
  | .serialConnect => some { target := .session (frameSessionID frame), service := none }
  | .installAuthorizedKey => some { target := .session (frameSessionID frame), service := none }
  | .portForwardStart =>
      some { target := .endpoint (frameEndpointID frame), service := some .forwarding }
  | .ssmPortForwardStart => some { target := .endpoint (frameEndpointID frame), service := none }
  | .sftpConnect => some { target := .endpoint (frameEndpointID frame), service := some .sftp }
  | .containersConnect =>
      some { target := .endpoint (frameEndpointID frame), service := some .containers }
  | _ => none

def awaits (frame : Frame) : Bool :=
  match frameCommand frame with
  | .installAuthorizedKey => true
  | .portForwardStart => true
  | .ssmPortForwardStart => true
  | _ => false

def Cancels (frame : Frame) (target : Target) : Prop :=
  isCancelCommand (frameCommand frame) = true ∧ target.id ≠ "" ∧
    match target with
    | .session id => frameSessionID frame = id
    | .endpoint id => frameEndpointID frame = id

instance (frame : Frame) (target : Target) : Decidable (Cancels frame target) := by
  unfold Cancels
  cases target <;> infer_instance

def blank (id : String) : Bool := (Base64.trimSpace id.toList).isEmpty

/-- The registries that `CancelInFlight` asks, with the key. -/
def asked (frame : Frame) : List (Service × String) :=
  (if blank (frameSessionID frame) then [] else [(.ssh, frameSessionID frame)]) ++
    if blank (frameEndpointID frame) then []
    else [(.forwarding, frameEndpointID frame), (.sftp, frameEndpointID frame),
      (.containers, frameEndpointID frame)]

/-- `cancel` is told by the frame whose operation it ends. -/
structure Entry where
  id : Nat
  cancel : Nat
  deriving DecidableEq, Repr

structure Registry where
  seq : Nat := 0
  entries : String → List Entry := fun _ => []

def Registry.begin (registry : Registry) (key : String) (cancel : Nat) : Registry where
  seq := registry.seq + 1
  entries := Function.update registry.entries key
    (registry.entries key ++ [{ id := registry.seq + 1, cancel }])

/-- What `Begin` returns for the end. -/
def Registry.release (registry : Registry) (key : String) (id : Nat) : Registry :=
  { registry with
    entries := Function.update registry.entries key
      ((registry.entries key).filter fun existing => existing.id ≠ id) }

/-- What `Cancel` does under the lock. -/
def Registry.remove (registry : Registry) (key : String) : Registry :=
  { registry with entries := Function.update registry.entries key [] }

/-- `ids` are the registrations of the operations of the frames. `todo` and `cancels` are where the
reader is in `CancelInFlight`, `others` where other calls of `Cancel` are. -/
structure State where
  router : Router.State := {}
  registries : Service → Registry := fun _ => {}
  ids : Nat → Option Nat := fun _ => none
  ended : Nat → Bool := fun _ => false
  cancelled : Nat → Bool := fun _ => false
  todo : List (Service × String) := []
  cancels : List Nat := []
  others : List (List Nat) := []

inductive Event where
  | router (e : Router.Event)
  | begin (i : Nat)
  | ends (i : Nat)
  | collect
  | cancel
  | collectElsewhere (service : Service) (key : String)
  | cancelElsewhere (n : Nat)
  deriving DecidableEq, Repr

/-- The operation of the frame `i`, if its handler has been run and it is not over. -/
def State.working (s : State) (i : Nat) : Option Operation := do
  let r ← s.router.routed[i]?
  if r.phase.started = true ∧ s.ended i = false then operation r.frame else none

def State.permits (s : State) : Router.Event → Bool
  | .cancelled => s.todo.isEmpty && s.cancels.isEmpty
  | .finish i => s.router.routed[i]?.all fun r => !awaits r.frame || s.ended i
  | _ => true

def State.todoAfter (s : State) : Router.Event → List (Service × String)
  | .route frame => if isCancelCommand (frameCommand frame) then asked frame else []
  | _ => s.todo

def collected (registry : Registry) (key : String) : List Nat :=
  (registry.entries key).map Entry.cancel

def State.setRegistry (s : State) (service : Service) (registry : Registry) : State :=
  { s with registries := Function.update s.registries service registry }

def State.begin (s : State) (i : Nat) (service : Service) (key : String) : State :=
  { s.setRegistry service ((s.registries service).begin key i) with
    ids := Function.update s.ids i (some ((s.registries service).seq + 1)) }

def State.end (s : State) (i : Nat) (op : Operation) : State :=
  let s := { s with ended := Function.update s.ended i true }
  match op.service, s.ids i with
  | some service, some id =>
      { s.setRegistry service ((s.registries service).release op.target.id id) with
        cancelled := Function.update s.cancelled i true }
  | _, _ => s

def State.collect (s : State) (service : Service) (key : String)
    (rest : List (Service × String)) : State :=
  { s.setRegistry service ((s.registries service).remove key) with
    todo := rest, cancels := collected (s.registries service) key }

def step (s : State) : Event → Option State
  | .router e =>
      if s.permits e then
        (Router.step s.router e).map fun router => { s with router, todo := s.todoAfter e }
      else none
  | .begin i =>
      match s.working i, s.ids i with
      | some { target, service := some service }, none => some (s.begin i service target.id)
      | _, _ => none
  | .ends i => (s.working i).map (s.end i)
  | .collect =>
      match s.cancels, s.todo with
      | [], (service, key) :: rest => some (s.collect service key rest)
      | _, _ => none
  | .cancel =>
      match s.cancels with
      | [] => none
      | i :: rest =>
          some { s with cancels := rest, cancelled := Function.update s.cancelled i true }
  | .collectElsewhere service key =>
      some { s.setRegistry service ((s.registries service).remove key) with
        others := s.others ++ [collected (s.registries service) key] }
  | .cancelElsewhere n =>
      match s.others[n]? with
      | some (i :: rest) =>
          some { s with
            others := s.others.set n rest, cancelled := Function.update s.cancelled i true }
      | _ => none

/-- The operation of the frame `i` is over, or its context is. -/
def State.Over (s : State) (i : Nat) : Prop := s.ended i = true ∨ s.cancelled i = true

instance (s : State) (i : Nat) : Decidable (s.Over i) := inferInstanceAs (Decidable (_ ∨ _))

/-- A registry has the operation of the frame `i` under the key. -/
def State.Registered (s : State) (i : Nat) (service : Service) (key : String) : Prop :=
  i ∈ collected (s.registries service) key

instance (s : State) (i : Nat) (service : Service) (key : String) :
    Decidable (s.Registered i service key) := inferInstanceAs (Decidable (_ ∈ _))

/-- When a command to end a target has been routed, all operations of the target that came before it
are over. -/
def Interrupted (s : State) : Prop :=
  ∀ (i j : Nat) (r q : Routed) (op : Operation), i < j → s.router.routed[i]? = some r →
    s.router.routed[j]? = some q → operation r.frame = some op → Cancels q.frame op.target →
    q.phase.held = false → s.Over i

def Found (s : State) : Event → Prop
  | .router (.route frame) => ∀ (i : Nat) (r : Routed) (op : Operation),
      s.router.routed[i]? = some r → operation r.frame = some op → Cancels frame op.target →
      (∀ service, op.service = some service → (service, op.target.id) ∉ asked frame) → s.Over i
  | .collect => ∀ (service : Service) (key : String) (i j : Nat) (r q : Routed) (op : Operation),
      s.todo.head? = some (service, key) → s.router.reading = some j → i < j →
      s.router.routed[i]? = some r → s.router.routed[j]? = some q → operation r.frame = some op →
      Cancels q.frame op.target → op.service = some service → op.target.id = key →
      s.Over i ∨ s.Registered i service key
  | _ => True

end Dolgate.InFlight
