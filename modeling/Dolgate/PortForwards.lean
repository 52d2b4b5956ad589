import Mathlib.Logic.Function.Basic
import Dolgate.Transition

set_option autoImplicit false

/-! The runtimes of port forwards, their clients and their listeners. What is done under the lock is
one step, and so is each thing that is closed. The calls for one rule come one after the other. -/

namespace Dolgate.PortForwards

open Transition

/-- Where `startWithClient` is. -/
inductive Phase where
  | checking
  | listening
  | inserting
  | inserted
  | returned
  deriving DecidableEq, Repr

inductive Accepting where
  | none
  | running
  | failing
  | over
  deriving DecidableEq, Repr

/-- A call of `startWithClient`, with the client it has been handed and the runtime it makes. -/
structure Forward where
  rule : String
  phase : Phase := .checking
  client : Bool := true
  listener : Bool := false
  cancelled : Bool := false
  accepting : Accepting := .none
  deriving DecidableEq, Repr

/-- What the line of a rule is at. A stop has taken out the runtime that it is to close. -/
inductive Lane where
  | idle
  | starting (n : Nat)
  | stopping (removed : Option Nat)
  deriving DecidableEq, Repr

structure Return where
  forward : Nat
  registered : Bool
  closed : Bool
  deriving DecidableEq, Repr

/-- A failure of the runtime `forward`, with the runtime that has been taken out for it. -/
structure Failure where
  forward : Nat
  removed : Option Nat
  deriving DecidableEq, Repr

/-- `closers` are the runtimes that have been taken out and are not closed yet. `stopped` says that a
stop has returned, and nothing has been started since. -/
structure State where
  forwards : List Forward := []
  runtimes : String → Option Nat := fun _ => none
  lanes : String → Lane := fun _ => .idle
  closers : List Nat := []
  stopped : String → Bool := fun _ => false
  returns : List Return := []
  failures : List Failure := []

inductive Event where
  | call (rule : String)
  | check (n : Nat)
  | listenFails (n : Nat)
  | listens (n : Nat)
  | insert (n : Nat)
  | returns (n : Nat)
  | stop (rule : String)
  | stopReturns (rule : String)
  | shutdown
  | acceptFails (n : Nat)
  | fails (n : Nat)
  | close (n : Nat)
  deriving DecidableEq, Repr

def State.put (s : State) (n : Nat) (f : Forward) : State :=
  { s with forwards := s.forwards.set n f }

/-- The forward `n`, if that is where its call is. -/
def State.find (s : State) (n : Nat) (phase : Phase) : Option Forward :=
  s.forwards[n]?.filter fun f => f.phase = phase

def State.finish (s : State) (n : Nat) (f : Forward) : State :=
  { s.put n { f with phase := .returned } with
    lanes := Function.update s.lanes f.rule .idle
    returns := s.returns ++
      [{ forward := n, registered := s.runtimes f.rule = some n, closed := !f.client }] }

/-- `removeRuntime` -/
def State.remove (s : State) (rule : String) : State :=
  { s with
    runtimes := Function.update s.runtimes rule none
    closers := s.closers ++ (s.runtimes rule).toList }

def State.registered (s : State) : List Nat :=
  (List.range s.forwards.length).filter fun n =>
    s.forwards[n]?.any fun f => s.runtimes f.rule = some n

/-- `runtimeHandle.close`, one thing after the other. -/
def State.close (s : State) (n : Nat) (f : Forward) : State :=
  if f.cancelled = false then s.put n { f with cancelled := true }
  else if f.listener = true then s.put n { f with listener := false }
  else { s.put n { f with client := false } with closers := s.closers.filter (· ≠ n) }

def step (s : State) : Event → Option State
  | .call rule =>
      if s.lanes rule = .idle then
        some { s with
          forwards := s.forwards ++ [{ rule }]
          lanes := Function.update s.lanes rule (.starting s.forwards.length)
          stopped := Function.update s.stopped rule false }
      else none
  | .check n => do
      let f ← s.find n .checking
      return if f.rule = "" then s.finish n f
        else if (s.runtimes f.rule).isSome then s.finish n f
        else s.put n { f with phase := .listening }
  | .listenFails n => do
      let f ← s.find n .listening
      return s.finish n { f with client := false }
  | .listens n => do
      let f ← s.find n .listening
      return s.put n { f with phase := .inserting, listener := true }
  | .insert n => do
      let f ← s.find n .inserting
      return { s.put n { f with phase := .inserted } with
        runtimes := Function.update s.runtimes f.rule (some n) }
  | .returns n => do
      let f ← s.find n .inserted
      return s.finish n { f with accepting := .running }
  | .stop rule =>
      if s.lanes rule = .idle then
        some { s.remove rule with
          lanes := Function.update s.lanes rule (.stopping (s.runtimes rule)) }
      else none
  | .stopReturns rule =>
      match s.lanes rule with
      | .stopping removed =>
          if removed.all fun n => s.forwards[n]?.all fun f => f.client = false then
            some { s with
              lanes := Function.update s.lanes rule .idle
              stopped := Function.update s.stopped rule true }
          else none
      | _ => none
  | .shutdown =>
      some { s with runtimes := fun _ => none, closers := s.closers ++ s.registered }
  | .acceptFails n => do
      let f ← s.forwards[n]?
      if f.accepting = .running then
        some (s.put n { f with accepting := if f.cancelled then .over else .failing })
      else none
  | .fails n => do
      let f ← s.forwards[n]?
      if f.accepting = .failing then
        some { (s.put n { f with accepting := .over }).remove f.rule with
          failures := s.failures ++ [{ forward := n, removed := s.runtimes f.rule }] }
      else none
  | .close n => do
      let f ← s.forwards[n]?
      if n ∈ s.closers then some (s.close n f) else none

/-- A client is in one runtime or closed when its call returns, a failure takes out its own runtime
alone, and a stop leaves nothing of its rule. -/
structure Owned (s : State) : Prop where
  returns : ∀ r ∈ s.returns, r.registered = true ∨ r.closed = true
  once : ∀ rule rule' n, s.runtimes rule = some n → s.runtimes rule' = some n → rule = rule'
  failures : ∀ x ∈ s.failures, x.removed = none ∨ x.removed = some x.forward
  stopped : ∀ rule, s.stopped rule = true → s.runtimes rule = none ∧
    ∀ f ∈ s.forwards, f.rule = rule → f.client = false ∧ f.listener = false

/-- A rule that is started is no empty text and is not running, no other goroutine has still to
close its runtime when a start or a stop returns, and a failure finds no other runtime. -/
def Proper (s : State) : Event → Prop
  | .check n => ∀ f, s.forwards[n]? = some f → f.rule ≠ "" ∧ s.runtimes f.rule = none
  | .returns n => n ∉ s.closers
  | .stopReturns rule => ∀ n f, n ∈ s.closers → s.forwards[n]? = some f → f.rule ≠ rule
  | .fails n => ∀ f, s.forwards[n]? = some f →
      s.runtimes f.rule = none ∨ s.runtimes f.rule = some n
  | _ => True

end Dolgate.PortForwards
