import Mathlib.Algebra.Order.Ring.Nat
import Mathlib.Logic.Function.Basic
import Dolgate.Transition

set_option autoImplicit false

/-! Logs of marks and of data under keys, in which data may be put together with earlier data of its
key when there is no mark between them. -/

namespace Dolgate.CoalescedLog

inductive Item (κ ε β : Type) where
  | mark (e : ε)
  | data (k : κ) (bytes : List β)
  deriving DecidableEq, Repr

variable {κ ε β : Type}

def Item.mark? : Item κ ε β → Option ε
  | .mark e => some e
  | .data _ _ => none

def marks (log : List (Item κ ε β)) : List ε := log.filterMap Item.mark?

section

variable [DecidableEq κ]

def Item.of (k : κ) : Item κ ε β → List β
  | .mark _ => []
  | .data k' bytes => if k' = k then bytes else []

def payload (k : κ) (log : List (Item κ ε β)) : List β := log.flatMap (Item.of k)

/-- The data of a key that stands between mark `n` and the next one, counted from the start. -/
def between (k : κ) : Nat → List (Item κ ε β) → List β
  | _, [] => []
  | 0, .mark _ :: _ => []
  | n + 1, .mark _ :: log => between k n log
  | 0, .data k' bytes :: log => Item.of k (.data k' bytes : Item κ ε β) ++ between k 0 log
  | n + 1, .data _ _ :: log => between k (n + 1) log

end

variable {l l' pre suf : List (Item κ ε β)} {k k' : κ} {n i : Nat} {b c : List β} {x : Item κ ε β}

@[simp] theorem marks_append : marks (l ++ l') = marks l ++ marks l' := by simp [marks]

@[simp] theorem marks_mark {e : ε} : marks ([.mark e] : List (Item κ ε β)) = [e] := rfl

@[simp] theorem marks_data : marks (.data k b :: l) = marks l := rfl

theorem marks_eq_nil (h : ∀ x ∈ l, ∃ k b, x = .data k b) : marks l = [] := by
  rw [marks, List.filterMap_eq_nil_iff]
  intro x hx
  obtain ⟨k, b, rfl⟩ := h x hx
  rfl

variable [DecidableEq κ]

@[simp] theorem payload_nil : payload k ([] : List (Item κ ε β)) = [] := rfl

@[simp] theorem payload_append : payload k (l ++ l') = payload k l ++ payload k l' := by
  simp [payload]

@[simp] theorem payload_cons : payload k (x :: l) = x.of k ++ payload k l := by simp [payload]

theorem between_append : between k n (l ++ l') =
    between k n l ++ if (marks l).length ≤ n then between k (n - (marks l).length) l' else [] := by
  induction l generalizing n with
  | nil => simp [between, marks]
  | cons x l ih =>
      cases x with
      | mark e =>
          have hmarks : (marks (.mark e :: l)).length = (marks l).length + 1 := by
            simp [marks, Item.mark?]
          cases n with
          | zero => simp [between, hmarks]
          | succ n => simp [between, ih, hmarks]
      | data k' bytes =>
          have hmarks : marks (.data k' bytes :: l) = marks l := rfl
          cases n with
          | zero => rw [List.cons_append, between, between, ih, hmarks, List.append_assoc]
          | succ n => rw [List.cons_append, between, between, ih, hmarks]

theorem payload_eq_nil (h : ∀ x ∈ l, ∃ k' b, x = .data k' b ∧ k' ≠ k) : payload k l = [] := by
  rw [payload, List.flatMap_eq_nil_iff]
  intro x hx
  obtain ⟨k', b, rfl, hne⟩ := h x hx
  simp [Item.of, hne]

theorem between_eq_payload (h : ∀ x ∈ l, ∃ k' b, x = .data k' b) :
    between k n l = if n = 0 then payload k l else [] := by
  induction l with
  | nil => simp [between, payload]
  | cons x l ih =>
      obtain ⟨k', b, rfl⟩ := h x List.mem_cons_self
      have hrest := ih fun y hy => h y (List.mem_cons_of_mem _ hy)
      cases n with
      | zero => simpa [between] using hrest
      | succ n => simpa [between] using hrest

/-- The same marks in one order, the same data of every key, and the same data between two marks. -/
structure Agrees (l l' : List (Item κ ε β)) : Prop where
  marks : marks l = marks l'
  payload : ∀ k, payload k l = payload k l'
  between : ∀ k n, between k n l = between k n l'

theorem Agrees.refl : Agrees l l := ⟨rfl, fun _ => rfl, fun _ _ => rfl⟩

theorem Agrees.trans {l'' : List (Item κ ε β)} (h : Agrees l l') (h' : Agrees l' l'') :
    Agrees l l'' :=
  ⟨h.marks.trans h'.marks, fun k => (h.payload k).trans (h'.payload k),
    fun k n => (h.between k n).trans (h'.between k n)⟩

theorem Agrees.append (h : Agrees l l') (suf : List (Item κ ε β)) :
    Agrees (l ++ suf) (l' ++ suf) where
  marks := by rw [marks_append, marks_append, h.marks]
  payload k := by rw [payload_append, payload_append, h.payload]
  between k n := by rw [between_append, between_append, h.between, h.marks]

theorem Agrees.prepend (h : Agrees l l') (pre : List (Item κ ε β)) :
    Agrees (pre ++ l) (pre ++ l') where
  marks := by rw [marks_append, marks_append, h.marks]
  payload k := by rw [payload_append, payload_append, h.payload]
  between k n := by
    rw [between_append, between_append]
    simp only [h.between]

theorem agrees_merge (h : ∀ x ∈ suf, ∃ k' b, x = .data k' b ∧ k' ≠ k) :
    Agrees (pre ++ .data k (b ++ c) :: suf : List (Item κ ε β))
      (pre ++ .data k b :: suf ++ [.data k c]) := by
  have hdata : ∀ x ∈ suf, ∃ k' b, x = Item.data k' b := by
    intro x hx
    obtain ⟨k', b, rfl, -⟩ := h x hx
    exact ⟨k', b, rfl⟩
  have hpayload : ∀ k', payload k' (.data k (b ++ c) :: suf : List (Item κ ε β)) =
      payload k' (.data k b :: (suf ++ [.data k c]) : List (Item κ ε β)) := by
    intro k'
    by_cases hk : k = k'
    · subst hk
      have hsuf : payload k suf = [] := payload_eq_nil h
      simp [Item.of, hsuf, payload_nil]
    · simp [Item.of, hk, payload_nil]
  rw [List.append_assoc, List.cons_append]
  apply Agrees.prepend
  have hmerged : ∀ x ∈ (.data k (b ++ c) :: suf : List (Item κ ε β)), ∃ k' b, x = .data k' b := by
    intro x hx
    obtain rfl | hx := List.mem_cons.mp hx
    · exact ⟨_, _, rfl⟩
    · exact hdata x hx
  have hapart : ∀ x ∈ (.data k b :: (suf ++ [.data k c]) : List (Item κ ε β)),
      ∃ k' b, x = .data k' b := by
    intro x hx
    simp only [List.mem_cons, List.mem_append, List.not_mem_nil, or_false] at hx
    obtain rfl | hx | rfl := hx
    · exact ⟨_, _, rfl⟩
    · exact hdata x hx
    · exact ⟨_, _, rfl⟩
  constructor
  · rw [marks_eq_nil hmerged, marks_eq_nil hapart]
  · exact hpayload
  · intro k' n
    rw [between_eq_payload hmerged, between_eq_payload hapart, hpayload]

theorem agrees_set (hi : l[i]? = some (.data k b))
    (hlast : ∀ (j : Nat) (x : Item κ ε β), i < j → l[j]? = some x →
      ∃ k' b, x = .data k' b ∧ k' ≠ k) :
    Agrees (l.set i (.data k (b ++ c))) (l ++ [.data k c]) := by
  obtain ⟨hlt, hget⟩ := List.getElem?_eq_some_iff.mp hi
  have hl : l = l.take i ++ .data k b :: l.drop (i + 1) := by
    rw [← hget, List.getElem_cons_drop, List.take_append_drop]
  have hset : l.set i (.data k (b ++ c)) = l.take i ++ .data k (b ++ c) :: l.drop (i + 1) :=
    List.set_eq_take_append_cons_drop.trans (if_pos hlt)
  rw [hset]
  conv_rhs => rw [hl]
  refine agrees_merge fun x hx => ?_
  obtain ⟨j, hj⟩ := List.mem_iff_getElem?.mp hx
  rw [List.getElem?_drop] at hj
  exact hlast (i + 1 + j) x (by omega) hj

end Dolgate.CoalescedLog

/-! The writer of events. What is done under its lock is one step, and so is each signal. -/

namespace Dolgate.EventWriter

open CoalescedLog Transition

def coalesceMaxBytes : Nat := 32 * 1024

def queueLimitBytes : Nat := 4 * 1024 * 1024

/-- `queuedFrame` -/
structure Frame (κ ε β : Type) where
  control : Option ε
  metadata : κ
  payload : List β
  deriving DecidableEq, Repr

variable {κ ε β : Type}

def Frame.item (f : Frame κ ε β) : Item κ ε β :=
  match f.control with
  | some event => .mark event
  | none => .data f.metadata f.payload

def Frame.full (f : Frame κ ε β) : Bool := decide (coalesceMaxBytes ≤ f.payload.length)

/-- What a call is still to do. One that has been woken has to take the lock again. -/
inductive Caller (κ β : Type) where
  | waiting (metadata : κ) (payload : List β)
  | woken (metadata : κ) (payload : List β)
  | waking (kick : Bool)
  | kicking
  | ended
  deriving DecidableEq, Repr

/-- Where `run` is. -/
inductive Writer (κ ε β : Type) where
  | looking (lingered : Bool)
  | parked (lingered : Bool)
  | lingering
  | writing (frames : List (Frame κ ε β))
  | ended
  deriving DecidableEq, Repr

/-- `emitted` has what the calls have put in, in the order in which they took the lock. -/
structure State (κ ε β : Type) where
  queue : List (Frame κ ε β) := []
  queuedBytes : Nat := 0
  lastData : κ → Option Nat := fun _ => none
  urgent : Bool := false
  closing : Bool := false
  wake : Bool := false
  kick : Bool := false
  writer : Writer κ ε β := .looking false
  callers : List (Caller κ β) := []
  crashed : Bool := false
  emitted : List (Item κ ε β) := []
  written : List (Item κ ε β) := []

inductive Event (κ ε β : Type) where
  | emit (event : ε)
  | emitStream (metadata : κ) (payload : List β)
  | close
  | retry (i : Nat)
  | nudge (i : Nat)
  | look (recent : Bool)
  | wakes
  | timer
  | kicks
  | write
  | flush
  deriving DecidableEq, Repr

def Event.calls : Event κ ε β → Bool
  | .emit _ => true
  | .emitStream _ _ => true
  | .close => true
  | .retry _ => true
  | _ => false

/-- `space.Broadcast` -/
def Caller.broadcast : Caller κ β → Caller κ β
  | .waiting metadata payload => .woken metadata payload
  | c => c

def State.pending (s : State κ ε β) : List (Frame κ ε β) :=
  match s.writer with
  | .writing frames => frames ++ s.queue
  | _ => s.queue

section

variable [DecidableEq κ]

def State.last (s : State κ ε β) (metadata : κ) (payload : List β) :
    Option (Nat × Frame κ ε β) := do
  let index ← s.lastData metadata
  let f ← s.queue[index]?
  if f.payload.length + payload.length ≤ coalesceMaxBytes then
    some (index, { f with payload := f.payload ++ payload })
  else none

/-- The place in `lastData` is none of the queue. -/
def State.outOfRange (s : State κ ε β) (metadata : κ) : Bool :=
  (s.lastData metadata).any fun index => decide (s.queue.length ≤ index)

/-- `emitStream` when there is space: the state and whether the frame is full. -/
def State.append (s : State κ ε β) (metadata : κ) (payload : List β) : State κ ε β × Bool :=
  let emitted := s.emitted ++ [.data metadata payload]
  let queuedBytes := s.queuedBytes + payload.length
  match s.last metadata payload with
  | some (index, f) =>
      ({ s with
          queue := s.queue.set index f
          queuedBytes
          urgent := s.urgent || f.full
          emitted }, f.full)
  | none =>
      let f : Frame κ ε β := { control := none, metadata, payload }
      ({ s with
          queue := s.queue ++ [f]
          lastData := Function.update s.lastData metadata (some s.queue.length)
          queuedBytes
          urgent := s.urgent || f.full
          emitted }, f.full)

/-- `emitStream` with the lock. -/
def State.offer (s : State κ ε β) (metadata : κ) (payload : List β) : State κ ε β × Caller κ β :=
  if queueLimitBytes ≤ s.queuedBytes ∧ s.closing = false then (s, .waiting metadata payload)
  else if s.outOfRange metadata then ({ s with crashed := true }, .ended)
  else
    let (t, full) := s.append metadata payload
    (t, .waking full)

/-- `run` with the lock. -/
def State.look (s : State κ ε β) (lingered recent : Bool) : State κ ε β :=
  if s.queue = [] then
    if s.closing then { s with writer := .ended } else { s with writer := .parked lingered }
  else if !s.urgent && !s.closing && !lingered && recent then { s with writer := .lingering }
  else
    { s with
      writer := .writing s.queue
      queue := []
      queuedBytes := 0
      lastData := fun _ => none
      urgent := false
      callers := s.callers.map Caller.broadcast }

variable [Inhabited κ]

def step (s : State κ ε β) (e : Event κ ε β) : Option (State κ ε β) :=
  if s.crashed then none
  else match e with
  | .emit event =>
      some { s with
        queue := s.queue ++ [{ control := some event, metadata := default, payload := [] }]
        lastData := fun _ => none
        urgent := true
        callers := s.callers ++ [.waking true]
        emitted := s.emitted ++ [.mark event] }
  | .emitStream metadata payload =>
      let (t, c) := s.offer metadata payload
      some { t with callers := t.callers ++ [c] }
  | .close =>
      some { s with closing := true, callers := s.callers.map Caller.broadcast ++ [.waking true] }
  | .retry i =>
      match s.callers[i]? with
      | some (.woken metadata payload) =>
          let (t, c) := s.offer metadata payload
          some { t with callers := t.callers.set i c }
      | _ => none
  | .nudge i =>
      match s.callers[i]? with
      | some (.waking kick) =>
          some { s with wake := true
                        callers := s.callers.set i (if kick then .kicking else .ended) }
      | some .kicking => some { s with kick := true, callers := s.callers.set i .ended }
      | _ => none
  | .look recent =>
      match s.writer with
      | .looking lingered => some (s.look lingered recent)
      | _ => none
  | .wakes =>
      match s.writer with
      | .parked lingered =>
          if s.wake then some { s with wake := false, writer := .looking lingered } else none
      | _ => none
  | .timer =>
      match s.writer with
      | .lingering => some { s with writer := .looking true }
      | _ => none
  | .kicks =>
      match s.writer with
      | .lingering =>
          if s.kick then some { s with kick := false, writer := .looking true } else none
      | _ => none
  | .write =>
      match s.writer with
      | .writing (f :: frames) =>
          some { s with writer := .writing frames, written := s.written ++ [f.item] }
      | _ => none
  | .flush =>
      match s.writer with
      | .writing [] => some { s with writer := .looking false }
      | _ => none

end

/-- What is written and what is pending is what was emitted, the queue is measured, and neither the
writer nor a call waits for a signal that nobody is to send. -/
structure Kept [DecidableEq κ] (s : State κ ε β) : Prop where
  running : s.crashed = false
  order : Agrees (s.written ++ s.pending.map Frame.item) s.emitted
  measured : s.queuedBytes = (s.queue.map fun f => f.payload.length).sum
  awake : ∀ lingered, s.writer = .parked lingered → s.queue ≠ [] →
    s.wake = true ∨ ∃ kick, Caller.waking kick ∈ s.callers
  space : ∀ metadata payload, Caller.waiting metadata payload ∈ s.callers →
    queueLimitBytes ≤ s.queuedBytes

/-- Everything that was emitted is written: the control events in their order, the payloads of each
target in theirs, and each payload between its control events. -/
def Delivered [DecidableEq κ] (s : State κ ε β) : Prop := Agrees s.written s.emitted

end Dolgate.EventWriter
