import Dolgate.Ring
import Dolgate.Transition

set_option autoImplicit false

namespace Dolgate.Ringbuf
open Transition

inductive ListenerCall where
  | onChunk (chunk : Chunk)
  | onDropped (fromSeq toSeq : Nat)
deriving DecidableEq, Repr

structure Batch where
  stream : StreamKind
  bytes : List UInt8
  lastSeq : Nat
  lastTMs : Int
deriving DecidableEq, Repr

def Batch.add (b : Batch) (chunk : Chunk) : Batch :=
  { b with bytes := b.bytes ++ chunk.bytes, lastSeq := chunk.seq, lastTMs := chunk.tMs }

def newBatch (first : Chunk) : Batch := Batch.add ⟨first.stream, [], 0, 0⟩ first

def Batch.flush (b : Batch) : List ListenerCall :=
  if b.bytes = [] then [] else [.onChunk ⟨b.lastSeq, b.lastTMs, b.stream, b.bytes⟩]

/-- Where `run` stands: at a replayed chunk, at the outer receive, or in the merge loop. -/
inductive Loop where
  | replaying (dropped : Option DroppedRange) (chunks : List Chunk)
  | waiting
  | merging (batch : Batch)
deriving DecidableEq, Repr

structure Follower where
  sub : Subscription
  replay : ReadResult
  loop : Loop
  expectedSeq : Nat
  calls : List ListenerCall
deriving DecidableEq, Repr

/-- The follower's `admit`: the gap to report, the next expected number, and whether the chunk is
delivered. -/
def admitChunk (expectedSeq : Nat) (chunk : Chunk) : List ListenerCall × Nat × Bool :=
  if chunk.seq < expectedSeq then ([], expectedSeq, false)
  else if expectedSeq < chunk.seq then
    ([.onDropped expectedSeq (chunk.seq - 1)], chunk.seq + 1, true)
  else ([], chunk.seq + 1, true)

def Follower.replayStep (f : Follower) : Option Follower :=
  match f.loop with
  | .replaying (some d) chunks =>
      some { f with loop := .replaying none chunks, calls := f.calls ++ [.onDropped d.fromSeq d.toSeq] }
  | .replaying none (chunk :: rest) =>
      some { f with loop := .replaying none rest, calls := f.calls ++ [.onChunk chunk] }
  | .replaying none [] => some { f with loop := .waiting }
  | _ => none

def Follower.receive (f : Follower) : Option Follower :=
  match f.sub.queue with
  | [] => none
  | chunk :: rest =>
      let (gap, next, deliver) := admitChunk f.expectedSeq chunk
      let f := { f with sub := { f.sub with queue := rest }, expectedSeq := next }
      match f.loop with
      | .waiting =>
          if deliver then some { f with loop := .merging (newBatch chunk), calls := f.calls ++ gap }
          else some f
      | .merging batch =>
          if !deliver then some f
          else if chunk.stream ≠ batch.stream then
            some
              { f with
                loop := .merging (newBatch chunk)
                calls := f.calls ++ gap ++ batch.flush }
          else some { f with loop := .merging (batch.add chunk), calls := f.calls ++ gap }
      | .replaying _ _ => none

def Follower.window (f : Follower) : Option Follower :=
  match f.loop with
  | .merging batch => some { f with loop := .waiting, calls := f.calls ++ batch.flush }
  | _ => none

/-- A `sub.deliver` that the goroutine in `appendChunk` has still to make. -/
structure Delivery where
  appender : Nat
  chunk : Chunk
  sub : Nat
deriving DecidableEq, Repr

/-- `appenders` holds what each call of `Append` has still to store. `history` is every chunk ever
stored; the ring itself forgets. -/
structure System where
  ring : Ring
  appenders : List (List (StreamKind × List UInt8))
  inFlight : List Delivery
  followers : List Follower
  history : List Chunk

inductive Event where
  | append (stream : StreamKind) (data : List UInt8)
  | store (appender : Nat) (tMs : Int)
  | deliver (delivery : Delivery)
  | follow (cursor : Cursor)
  | replay (sub : Nat)
  | receive (sub : Nat)
  | window (sub : Nat)

def start (capacityBytes maxChunkBytes : Int) : System :=
  ⟨Ring.new capacityBytes maxChunkBytes, [], [], [], []⟩

def onFollower (s : System) (sub : Nat) (move : Follower → Option Follower) : Option System :=
  match s.followers[sub]? with
  | none => none
  | some f => (move f).map fun g => { s with followers := s.followers.set sub g }

/-- A goroutine stores its next payload once it has told every subscription of the last one. The
subscriptions of one chunk are told in any order, as `range` over a map gives them. -/
def step (s : System) : Event → Option System
  | .append stream data =>
      some { s with appenders := s.appenders ++ [(s.ring.split data).map fun p => (stream, p)] }
  | .store i tMs =>
      match s.appenders[i]? with
      | some ((stream, payload) :: rest) =>
          if s.inFlight.any fun d => d.appender == i then none
          else
            match s.ring.appendChunk tMs stream payload with
            | none => some { s with appenders := s.appenders.set i rest }
            | some (chunk, subs, ring) =>
                some
                  { s with
                    ring := ring
                    appenders := s.appenders.set i rest
                    inFlight := s.inFlight ++ subs.map fun sub => ⟨i, chunk, sub⟩
                    history := s.history ++ [chunk] }
      | _ => none
  | .deliver d =>
      if d ∈ s.inFlight then
        (onFollower s d.sub fun f => some { f with sub := f.sub.deliver d.chunk }).map fun t =>
          { t with inFlight := s.inFlight.erase d }
      else none
  | .follow cursor =>
      (s.ring.subscribe cursor).map fun (replay, _, ring) =>
        { s with
          ring := ring
          followers := s.followers ++
            [{ sub := ⟨defaultSubscriberQueue, [], false, false⟩
               replay := replay
               loop := .replaying replay.dropped replay.chunks
               expectedSeq := replay.nextSeq
               calls := [] }] }
  | .replay sub => onFollower s sub Follower.replayStep
  | .receive sub => onFollower s sub Follower.receive
  | .window sub => onFollower s sub Follower.window

end Dolgate.Ringbuf
