import Mathlib.Data.List.AList
import Dolgate.Transition

set_option autoImplicit false

/-! The registry that keeps one node for each tailnet. Its locked sections, the calls of nodes, and
what timers do are steps. -/

namespace Dolgate.Tailnet

inductive NodeCall where
  | logout
  | close
  | purge
  deriving DecidableEq, Repr

inductive Retirement where
  | reset
  | forget
  deriving DecidableEq, Repr

inductive Cause where
  | idleExpired
  | disconnect
  | reset
  | retire
  | discard
  | replaceInvalidIdentity
  | forget
  | close
  deriving DecidableEq, Repr

section

variable (α : Type)

/-- What `newNode` returns, told from other nodes by its number. -/
structure Node where
  id : α
  serial : Nat
  deriving DecidableEq, Repr

/-- `teardown` says whether there is the channel. -/
structure Entry where
  node : Node α
  refs : Int := 0
  retirement : Option Retirement := none
  generation : Nat
  idle : Option Nat := none
  teardown : Bool := false
  teardownCloses : Bool := false
  deriving DecidableEq, Repr

/-- `released` says whether its `once` has been done. -/
structure Lease where
  node : Node α
  id : α
  generation : Nat
  released : Bool := false
  deriving DecidableEq, Repr

inductive TimerState where
  | armed
  | fired
  | done
  deriving DecidableEq, Repr

structure Timer where
  id : α
  state : TimerState
  deriving DecidableEq, Repr

/-- A goroutine that has marked an entry, with the calls it is still to make. `Close` does not
remove entries: it has replaced them all. -/
structure Teardown where
  id : α
  node : Node α
  generation : Nat
  cause : Cause
  calls : List NodeCall
  removes : Bool := true
  deriving DecidableEq, Repr

/-- What has happened, with whether a lease of the node was not released when it was called. -/
inductive Action where
  | made (node : Node α)
  | lent (node : Node α)
  | retired (node : Node α) (retirement : Retirement)
  | began (node : Node α) (cause : Cause)
  | called (node : Node α) (call : NodeCall) (cause : Cause) (held : Bool)
  | ended (node : Node α)
  deriving DecidableEq, Repr

end

/-- Where a `DiscardInvalidIdentityIfIdle` is, which observes a node with a lease. -/
inductive Check where
  | probing (lease : Nat)
  | replacing (lease : Nat)
  | releasing (lease : Nat)
  | returned
  deriving DecidableEq, Repr

structure Registry (α : Type) where
  entries : AList fun _ : α => Entry α := ∅
  closed : Bool := false
  generations : Nat := 0
  leases : List (Lease α) := []
  timers : List (Timer α) := []
  teardowns : List (Teardown α) := []
  checks : List Check := []
  log : List (Action α) := []

variable {α : Type} [DecidableEq α]

/-- `idle.Stop()`, if there is one. -/
def stopIdle (timers : List (Timer α)) : Option Nat → List (Timer α)
  | none => timers
  | some t =>
      match timers[t]? with
      | some { id, state := .armed } => timers.set t { id, state := .done }
      | _ => timers

/-- What `finishRetirement` calls. -/
def Retirement.calls : Retirement → List NodeCall
  | .forget => [.logout, .close, .purge]
  | .reset => [.close]

def Retirement.join (retirement : Retirement) : Option Retirement → Retirement
  | some .forget => .forget
  | _ => retirement

namespace Registry

variable (s : Registry α)

def put (id : α) (e : Entry α) : Registry α := { s with entries := s.entries.insert id e }

@[simp] theorem lookup_put (id id' : α) (e : Entry α) :
    (s.put id e).entries.lookup id' = if id' = id then some e else s.entries.lookup id' := by
  rw [put]
  split
  · next h =>
      subst h
      exact AList.lookup_insert _
  · next h => exact AList.lookup_insert_ne h

/-- `beginTeardown`, and what the goroutine does when it has let the lock go. -/
def beginTeardown (id : α) (e : Entry α) (cause : Cause) (calls : List NodeCall) : Registry α :=
  { s.put id { e with teardown := true, teardownCloses := true } with
    teardowns := s.teardowns ++ [{ id, node := e.node, generation := e.generation, cause, calls }]
    log := s.log ++ [.began e.node cause] }

@[simp] theorem lookup_beginTeardown (id id' : α) (e : Entry α) (cause : Cause)
    (calls : List NodeCall) : (s.beginTeardown id e cause calls).entries.lookup id' =
      if id' = id then some { e with teardown := true, teardownCloses := true }
      else s.entries.lookup id' :=
  s.lookup_put id id' _

def lockEntrySettled (id : α) : Option (Option (Entry α)) :=
  match s.entries.lookup id with
  | none => some none
  | some e => if e.teardown then none else some (some e)

def lease (id : α) (e : Entry α) (refs : Int) : Registry α :=
  { s.put id { e with idle := none, refs := refs } with
    timers := stopIdle s.timers e.idle
    leases := s.leases ++ [{ node := e.node, id, generation := e.generation }] }

@[simp] theorem lookup_lease (id id' : α) (e : Entry α) (refs : Int) :
    (s.lease id e refs).entries.lookup id' =
      if id' = id then some { e with idle := none, refs := refs } else s.entries.lookup id' :=
  s.lookup_put id id' _

/-- `Acquire`. `made` says whether `newNode` makes a node, if it is called. -/
def acquire (id : α) (made : Bool) : Option (Registry α) :=
  (s.lockEntrySettled id).map fun existing =>
    if s.closed then s
    else
      match existing with
      | some e =>
          if e.retirement.isSome then s
          else { s.lease id e (e.refs + 1) with log := s.log ++ [.lent e.node] }
      | none =>
          if made then
            let generation := s.generations + 1
            let e : Entry α := { node := { id, serial := generation }, generation }
            { ({ s with generations := generation } : Registry α).lease id e (e.refs + 1) with
              log := s.log ++ [.made e.node, .lent e.node] }
          else s

def release (id : α) (generation : Nat) : Registry α :=
  match s.entries.lookup id with
  | none => s
  | some e =>
      if e.generation ≠ generation then s
      else if 0 < e.refs - 1 then s.put id { e with refs := e.refs - 1 }
      else
        match e.retirement with
        | some retirement =>
            ({ s with timers := stopIdle s.timers e.idle } : Registry α).beginTeardown id
              { e with refs := 0, idle := none } .retire retirement.calls
        | none =>
            { s.put id { e with refs := 0, idle := some s.timers.length } with
              timers := stopIdle s.timers e.idle ++ [{ id, state := .armed }] }

/-- `Lease.Release`, which does it once. -/
def releaseLease (l : Nat) : Option (Registry α) :=
  (s.leases[l]?).map fun lease =>
    if lease.released then s
    else
      ({ s with leases := s.leases.set l { lease with released := true } } : Registry α).release
        lease.id lease.generation

def idleExpired (id : α) : Registry α :=
  match s.entries.lookup id with
  | none => s
  | some e =>
      if 0 < e.refs then s else s.beginTeardown id { e with idle := none } .idleExpired [.close]

def retire (id : α) (retirement : Retirement) : Option (Registry α) :=
  (s.lockEntrySettled id).map fun existing =>
    match existing with
    | none => s
    | some e =>
        if s.closed then s
        else
          let retirement' := retirement.join e.retirement
          let e' := { e with retirement := some retirement', idle := none }
          let s : Registry α := { s with
            timers := stopIdle s.timers e.idle, log := s.log ++ [.retired e.node retirement] }
          if 0 < e.refs then s.put id e'
          else s.beginTeardown id e' .retire retirement'.calls

/-- What `Disconnect` and `Reset` do under the lock: a node in use is left alone. -/
def closeUnused (id : α) (cause : Cause) : Option (Registry α) :=
  (s.lockEntrySettled id).map fun existing =>
    match existing with
    | none => s
    | some e =>
        if 0 < e.refs then s
        else
          ({ s with timers := stopIdle s.timers e.idle } : Registry α).beginTeardown id
            { e with idle := none } cause [.close]

def disconnect (id : α) : Option (Registry α) := s.closeUnused id .disconnect

def reset (id : α) : Option (Registry α) := s.closeUnused id .reset

def discard (id : α) : Option (Registry α) :=
  (s.lockEntrySettled id).map fun existing =>
    match existing with
    | none => s
    | some e =>
        ({ s with timers := stopIdle s.timers e.idle } : Registry α).beginTeardown id
          { e with idle := none, refs := 0 } .discard
          ((e.retirement.map Retirement.calls).getD [.close])

/-- `ReplaceInvalidIdentity`, with whether it replaces the node. No lease is one of another
registry, too. -/
def replaceInvalidIdentity (id : α) (invalid : Option Nat) : Option (Registry α × Bool) :=
  (s.lockEntrySettled id).map fun existing =>
    match existing, invalid.bind (s.leases[·]?) with
    | some e, some lease =>
        if lease.id ≠ id ∨ e.generation ≠ lease.generation then (s, false)
        else
          (({ s with timers := stopIdle s.timers e.idle } : Registry α).beginTeardown id
            { e with idle := none, refs := 0 } .replaceInvalidIdentity [.close, .purge], true)
    | _, _ => (s, false)

/-- The first part of `DiscardInvalidIdentityIfIdle`, up to the question for the status. -/
def observe (id : α) : Option (Registry α) :=
  (s.lockEntrySettled id).map fun existing =>
    match existing with
    | none => s
    | some e =>
        if s.closed ∨ e.refs ≠ 0 then s
        else { s.lease id e 1 with checks := s.checks ++ [.probing s.leases.length] }

def check (i : Nat) : Option (Registry α) :=
  match s.checks[i]? with
  | some (.replacing l) =>
      match s.leases[l]? with
      | some lease =>
          (s.replaceInvalidIdentity lease.id (some l)).map fun (t, discarded) =>
            { t with checks := s.checks.set i (if discarded then .returned else .releasing l) }
      | none => none
  | some (.releasing l) =>
      ({ s with checks := s.checks.set i .returned } : Registry α).releaseLease l
  | _ => none

def forget (id : α) : Option (Registry α) :=
  (s.lockEntrySettled id).map fun existing =>
    match existing with
    | none => s
    | some e =>
        ({ s with timers := stopIdle s.timers e.idle } : Registry α).beginTeardown id
          { e with idle := none } .forget [.logout, .close, .purge]

/-- A target of `Close`, unless the node is being closed. -/
def closeTarget (entry : Sigma fun _ : α => Entry α) : Option (Teardown α) :=
  if entry.2.teardownCloses then none
  else
    some { id := entry.1, node := entry.2.node, generation := entry.2.generation, cause := .close
           calls := if entry.2.retirement = some .forget then Retirement.forget.calls
             else Retirement.reset.calls
           removes := false }

/-- `Close` goes through its targets one after the other; here they take any turns. -/
def close : Registry α :=
  if s.closed then s
  else
    let targets := s.entries.entries.filterMap closeTarget
    { s with
      closed := true
      timers := s.entries.entries.foldl (fun timers entry => stopIdle timers entry.2.idle) s.timers
      entries := ∅
      teardowns := s.teardowns ++ targets
      log := s.log ++ targets.map fun target => .began target.node target.cause }

def held (node : Node α) : Bool := s.leases.any fun l => l.node = node ∧ l.released = false

def call (i : Nat) : Option (Registry α) :=
  match s.teardowns[i]? with
  | some t =>
      match t.calls with
      | c :: calls => some { s with
          teardowns := s.teardowns.set i { t with calls }
          log := s.log ++ [.called t.node c t.cause (s.held t.node)] }
      | [] => none
  | none => none

/-- `endTeardownRemoving`; a target of `Close` has nothing to be removed. -/
def endTeardown (i : Nat) : Option (Registry α) :=
  match s.teardowns[i]? with
  | some t =>
      if t.calls = [] then
        let s : Registry α := { s with
          teardowns := s.teardowns.eraseIdx i, log := s.log ++ [.ended t.node] }
        match s.entries.lookup t.id with
        | some e =>
            if t.removes = true ∧ e.generation = t.generation then
              some { s with
                timers := stopIdle s.timers e.idle, entries := s.entries.erase t.id }
            else some s
        | none => some s
      else none
  | none => none

end Registry

inductive Event (α : Type) where
  | acquire (id : α) (made : Bool)
  | release (lease : Nat)
  | fire (timer : Nat)
  | expire (timer : Nat)
  | retire (id : α) (retirement : Retirement)
  | disconnect (id : α)
  | reset (id : α)
  | discard (id : α)
  | replaceInvalidIdentity (id : α) (invalid : Option Nat)
  | observe (id : α)
  | probed (check : Nat) (invalid : Bool)
  | check (check : Nat)
  | forget (id : α)
  | close
  | call (teardown : Nat)
  | ended (teardown : Nat)
  deriving DecidableEq, Repr

def step (s : Registry α) : Event α → Option (Registry α)
  | .acquire id made => s.acquire id made
  | .release l => s.releaseLease l
  | .fire t =>
      match s.timers[t]? with
      | some { id, state := .armed } =>
          some { s with timers := s.timers.set t { id, state := .fired } }
      | _ => none
  | .expire t =>
      match s.timers[t]? with
      | some { id, state := .fired } =>
          let s : Registry α := { s with timers := s.timers.set t { id, state := .done } }
          some (s.idleExpired id)
      | _ => none
  | .retire id retirement => s.retire id retirement
  | .disconnect id => s.disconnect id
  | .reset id => s.reset id
  | .discard id => s.discard id
  | .replaceInvalidIdentity id invalid => (s.replaceInvalidIdentity id invalid).map Prod.fst
  | .observe id => s.observe id
  | .probed i invalid =>
      match s.checks[i]? with
      | some (.probing l) => some { s with
          checks := s.checks.set i (if invalid then .replacing l else .releasing l) }
      | _ => none
  | .check i => s.check i
  | .forget id => s.forget id
  | .close => some s.close
  | .call i => s.call i
  | .ended i => s.endTeardown i

end Dolgate.Tailnet
