import Mathlib.Logic.Function.Basic
import Dolgate.Table
import Dolgate.Transition

set_option autoImplicit false

/-! The hub behind `GET /sync/watch`. Entries are pointers into a heap, a channel is the number of
times it has been closed, and every locked section is one step. -/

namespace Dolgate.WatchHub

variable {U : Type} [DecidableEq U]

/-- `syncWatchUser`. -/
structure Entry where
  closes : Nat
  waiters : Int
  since : Int
  deriving DecidableEq, Repr

/-- `SyncWatchHub`. Pointers below `next` are in use. -/
structure Hub (U : Type) where
  heap : Nat → Entry
  next : Nat
  users : Table U Nat
  checking : Bool
  closed : Bool
  closedCloses : Nat

namespace Hub

def new : Hub U := ⟨fun _ => ⟨0, 0, 0⟩, 0, ∅, false, false, 0⟩

def update (h : Hub U) (e : Nat) (f : Entry → Entry) : Hub U :=
  { h with heap := Function.update h.heap e (f (h.heap e)) }

/-- The part of `subscribe` that finds or makes the entry. -/
def entryFor (h : Hub U) (user : U) (since : Int) : Hub U × Nat :=
  match h.users.lookup user with
  | none =>
      ({ h with
        heap := Function.update h.heap h.next ⟨0, 0, since⟩
        next := h.next + 1
        users := h.users.insert user h.next }, h.next)
  | some e => (h.update e fun x => if since < x.since then { x with since := since } else x, e)

/-- What is held of it afterwards (`none` is `closedCh`), and whether a check loop is started. -/
def subscribe (h : Hub U) (user : U) (since : Int) : Hub U × Option Nat × Bool :=
  if h.closed then (h, none, false)
  else
    let (h', e) := h.entryFor user since
    ({ h'.update e fun x => { x with waiters := x.waiters + 1 } with checking := true },
      some e, !h.checking)

def release (h : Hub U) (user : U) (e : Nat) : Hub U :=
  let h := h.update e fun x => { x with waiters := x.waiters - 1 }
  if (h.heap e).waiters ≤ 0 ∧ h.users.lookup user = some e then
    { h with users := h.users.erase user }
  else h

def notify (h : Hub U) (user : U) : Hub U :=
  match h.users.lookup user with
  | none => h
  | some e =>
      { h.update e fun x => { x with closes := x.closes + 1 } with users := h.users.erase user }

def close (h : Hub U) : Hub U :=
  if h.closed then h else { h with closed := true, closedCloses := h.closedCloses + 1 }

/-- `waitingSince`; `none` when nobody waits. -/
def waitingSince (h : Hub U) : Hub U × Option (List (U × Int)) :=
  if h.users.entries = [] then ({ h with checking := false }, none)
  else (h, some (h.users.entries.map fun p => (p.1, (h.heap p.2).since)))

end Hub

/-- Where a check loop stands: in its `select`, about to copy the waiting set, reading rows, or
about to notify. -/
inductive Phase (U : Type) where
  | selecting
  | copying
  | reading (waiting : List (U × Int)) (current : U → Option (Option Int))
  | notifying (changed : List U)

structure Row where
  stored : Bool
  revision : Int
  deriving DecidableEq, Repr

def Row.read (row : Row) : Option Int := if row.stored then some row.revision else none

/-- A request as the handler of `/sync/watch` sees it: the revision that the gate has read, and
the entry it waits on. -/
structure Request (U : Type) where
  user : U
  since : Int
  held : Option Nat

structure System (U : Type) where
  hub : Hub U
  loops : List (Phase U)
  rows : U → Row
  requests : List (Request U)

inductive LoopEvent (U : Type) where
  | tick
  | stop
  | copy
  | readRow (user : U)
  | readFailed
  | compare
  | notify (user : U)
  | rest

inductive Event (U : Type) where
  | gate (user : U)
  | subscribe (i : Nat)
  | release (i : Nat)
  | notify (user : U)
  | close
  | commit (user : U) (revision : Int)
  | remove (user : U)
  | loop (l : Nat) (event : LoopEvent U)

namespace System

def init (rows : U → Row) : System U := ⟨.new, [], rows, []⟩

def setLoop (s : System U) (l : Nat) (phase : Phase U) : System U :=
  { s with loops := s.loops.set l phase }

def changed (waiting : List (U × Int)) (current : U → Option (Option Int)) : List U :=
  (waiting.filter fun p => (current p.1).join ≠ some p.2).map Prod.fst

/-- The steps of `checkLoop` number `l`. A query may read the rows in batches, so that each is read
at a time of its own. -/
def stepLoop (s : System U) (l : Nat) : Phase U → LoopEvent U → Option (System U)
  | .selecting, .tick => some (s.setLoop l .copying)
  | .selecting, .stop =>
      if s.hub.closed then
        some { s with hub := { s.hub with checking := false }, loops := s.loops.eraseIdx l }
      else none
  | .copying, .copy =>
      match s.hub.waitingSince with
      | (hub, none) => some { s with hub := hub, loops := s.loops.eraseIdx l }
      | (hub, some waiting) =>
          some ({ s with hub := hub }.setLoop l (.reading waiting fun _ => none))
  | .reading waiting current, .readRow user =>
      some (s.setLoop l
        (.reading waiting (Function.update current user (some (s.rows user).read))))
  | .reading _ _, .readFailed => some (s.setLoop l .selecting)
  | .reading waiting current, .compare =>
      if ∀ p ∈ waiting, current p.1 ≠ none then
        some (s.setLoop l (.notifying (changed waiting current)))
      else none
  | .notifying users, .notify user =>
      if user ∈ users then
        some ({ s with hub := s.hub.notify user }.setLoop l (.notifying (users.erase user)))
      else none
  | .notifying [], .rest => some (s.setLoop l .selecting)
  | _, _ => none

def step (s : System U) : Event U → Option (System U)
  | .gate user =>
      match (s.rows user).read with
      | some revision => some { s with requests := s.requests ++ [⟨user, revision, none⟩] }
      | none => none
  | .subscribe i =>
      match s.requests[i]? with
      | some ⟨user, since, none⟩ =>
          let (hub, held, starts) := s.hub.subscribe user since
          some { s with
            hub := hub
            loops := if starts then s.loops ++ [.selecting] else s.loops
            requests := s.requests.set i ⟨user, since, held⟩ }
      | _ => none
  | .release i =>
      match s.requests[i]? with
      | some ⟨user, since, some e⟩ =>
          some { s with
            hub := s.hub.release user e
            requests := s.requests.set i ⟨user, since, none⟩ }
      | _ => none
  | .notify user => some { s with hub := s.hub.notify user }
  | .close => some { s with hub := s.hub.close }
  | .commit user revision =>
      if (s.rows user).revision < revision then
        some { s with rows := Function.update s.rows user ⟨true, revision⟩ }
      else none
  | .remove user =>
      some { s with rows := Function.update s.rows user { s.rows user with stored := false } }
  | .loop l event => s.loops[l]?.bind fun phase => s.stepLoop l phase event

end System

end Dolgate.WatchHub
