import Mathlib

set_option autoImplicit false

namespace Dolgate.Ringbuf

def defaultCapacityBytes : Nat := 2 * 1024 * 1024

def defaultMaxChunkBytes : Nat := 16 * 1024

def defaultReadMaxBytes : Nat := 512 * 1024

def defaultSubscriberQueue : Nat := 1024

inductive StreamKind where
  | stdout
  | stderr
deriving DecidableEq, Repr

/-- A stored run of terminal bytes. Only the order of `tMs` matters. -/
structure Chunk where
  seq : Nat
  tMs : Int
  stream : StreamKind
  bytes : List UInt8
deriving DecidableEq, Repr

structure DroppedRange where
  fromSeq : Nat
  toSeq : Nat
deriving DecidableEq, Repr

structure ReadResult where
  chunks : List Chunk
  nextSeq : Nat
  dropped : Option DroppedRange
deriving DecidableEq, Repr

inductive Cursor where
  | head
  | tailBytes (bytes : Nat)
  | seq (seq : Nat)
  | timeMs (tMs : Int)
  | live
deriving DecidableEq, Repr

/-- The ring under its lock; `subs` are the ids of the registered subscriptions. -/
structure Ring where
  capacityBytes : Nat
  maxChunkBytes : Nat
  chunks : List Chunk
  usedBytes : Nat
  droppedBytesTotal : Nat
  headSeq : Nat
  tailSeq : Nat
  nextSeq : Nat
  subs : List Nat
  nextSubID : Nat
  closed : Bool
deriving DecidableEq, Repr

def Ring.new (capacityBytes maxChunkBytes : Int) : Ring where
  capacityBytes := if capacityBytes ≤ 0 then defaultCapacityBytes else capacityBytes.toNat
  maxChunkBytes := if maxChunkBytes ≤ 0 then defaultMaxChunkBytes else maxChunkBytes.toNat
  chunks := []
  usedBytes := 0
  droppedBytesTotal := 0
  headSeq := 0
  tailSeq := 0
  nextSeq := 0
  subs := []
  nextSubID := 0
  closed := false

/-- The payloads `Append` stores: `data` cut every `max` bytes. `data` has at most as many pieces
as bytes. -/
def pieces (max : Nat) : Nat → List UInt8 → List (List UInt8)
  | 0, _ => []
  | fuel + 1, data =>
      if data = [] then [] else data.take max :: pieces max fuel (data.drop max)

def Ring.split (r : Ring) (data : List UInt8) : List (List UInt8) :=
  pieces r.maxChunkBytes data.length data

structure Occupancy where
  chunks : List Chunk
  usedBytes : Nat
  droppedBytesTotal : Nat
  headSeq : Nat
deriving DecidableEq, Repr

def evict (capacity : Nat) : List Chunk → Nat → Nat → Nat → Occupancy
  | [], used, total, head => ⟨[], used, total, head⟩
  | front :: rest, used, total, head =>
      if capacity < used then
        evict capacity rest (used - front.bytes.length) (total + front.bytes.length)
          (front.seq + 1)
      else ⟨front :: rest, used, total, head⟩

/-- The locked part of `appendChunk`: the chunk stored and the subscriptions to tell. -/
def Ring.appendChunk (r : Ring) (tMs : Int) (stream : StreamKind) (payload : List UInt8) :
    Option (Chunk × List Nat × Ring) :=
  if r.closed then none
  else
    let chunk : Chunk := ⟨r.nextSeq, tMs, stream, payload⟩
    let head := if r.chunks = [] then chunk.seq else r.headSeq
    let kept := evict r.capacityBytes (r.chunks ++ [chunk]) (r.usedBytes + payload.length)
      r.droppedBytesTotal head
    some (chunk, r.subs,
      { r with
        nextSeq := r.nextSeq + 1
        tailSeq := chunk.seq
        chunks := kept.chunks
        usedBytes := kept.usedBytes
        droppedBytesTotal := kept.droppedBytesTotal
        headSeq := kept.headSeq })

def tailIndex (want : Nat) : List Chunk → Nat → Nat → Nat
  | [], _, idx => idx
  | chunk :: before, covered, idx =>
      if want ≤ covered then idx else tailIndex want before (covered + chunk.bytes.length) (idx - 1)

/-- An index into the chunks and what can no longer be served. An index that does not fit an
`int` is negative there, and slicing at it panics. -/
def Ring.resolveCursor (r : Ring) : Cursor → Option (Nat × Option DroppedRange)
  | .head => some (0, none)
  | .seq seq =>
      let evicted := r.chunks ≠ [] ∧ seq < r.headSeq
      let dropped := if evicted then some ⟨seq, r.headSeq - 1⟩ else none
      let seq := if evicted then r.headSeq else seq
      if seq < r.headSeq then some (0, dropped)
      else if 2 ^ 63 ≤ seq - r.headSeq then none
      else some (min (seq - r.headSeq) r.chunks.length, dropped)
  | .timeMs tMs =>
      some ((r.chunks.findIdx fun chunk => decide (tMs ≤ chunk.tMs)), none)
  | .tailBytes bytes => some (tailIndex bytes r.chunks.reverse 0 r.chunks.length, none)
  | .live => some (r.chunks.length, none)

def takeBytes (max : Nat) : List Chunk → Nat → List Chunk
  | [], _ => []
  | chunk :: rest, total =>
      if max < total + chunk.bytes.length then []
      else chunk :: takeBytes max rest (total + chunk.bytes.length)

def Ring.read (r : Ring) (cursor : Cursor) (maxBytes : Int) : Option ReadResult :=
  let max := if maxBytes ≤ 0 then defaultReadMaxBytes else maxBytes.toNat
  match r.resolveCursor cursor with
  | none => none
  | some (startIdx, dropped) =>
      let out := takeBytes max (r.chunks.drop startIdx) 0
      some ⟨out, (out.getLast?.map fun chunk => chunk.seq + 1).getD r.nextSeq, dropped⟩

def Ring.subscribe (r : Ring) (cursor : Cursor) : Option (ReadResult × Nat × Ring) :=
  match r.read cursor 0 with
  | none => none
  | some replay =>
      let id := r.nextSubID
      let r := { r with nextSubID := id + 1 }
      if r.closed then some (replay, id, r)
      else some (replay, id, { r with subs := r.subs ++ [id] })

structure Subscription where
  capacity : Nat
  queue : List Chunk
  lagged : Bool
  closed : Bool
deriving DecidableEq, Repr

def Subscription.deliver (s : Subscription) (chunk : Chunk) : Subscription :=
  if s.closed then s
  else if s.queue.length < s.capacity then { s with queue := s.queue ++ [chunk] }
  else { s with lagged := true }

theorem pieces_ne_nil {max fuel : Nat} (hmax : 0 < max) {data : List UInt8} :
    ∀ p ∈ pieces max fuel data, p ≠ [] := by
  induction fuel generalizing data with
  | zero => simp [pieces]
  | succ fuel ih =>
      simp only [pieces]
      split
      · simp
      · rename_i hne
        intro p hp
        rcases List.mem_cons.mp hp with rfl | hp
        · simp [hne]
          omega
        · exact ih p hp

theorem evict_suffix (capacity : Nat) (chunks : List Chunk) (used total head : Nat) :
    (evict capacity chunks used total head).chunks <:+ chunks := by
  induction chunks generalizing used total head with
  | nil => exact List.suffix_refl _
  | cons front rest ih =>
      simp only [evict]
      split
      · exact (ih _ _ _).trans (List.suffix_cons _ _)
      · exact List.suffix_refl _

theorem takeBytes_all {max total : Nat} {chunks : List Chunk}
    (h : total + (chunks.map fun c => c.bytes.length).sum ≤ max) :
    takeBytes max chunks total = chunks := by
  induction chunks generalizing total with
  | nil => rfl
  | cons c rest ih =>
      simp only [List.map_cons, List.sum_cons] at h
      rw [takeBytes, if_neg (by omega), ih (by omega)]

end Dolgate.Ringbuf
