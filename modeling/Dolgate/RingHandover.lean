import Dolgate.RingHistory
import Dolgate.RingOrder

set_option autoImplicit false

namespace Dolgate.Ringbuf
open Transition

def Ring.retainedFrom (r : Ring) (cursor : Cursor) : List Chunk :=
  match r.resolveCursor cursor with
  | some (idx, _) => r.chunks.drop idx
  | none => []

/-- One subscription after it was handed out. The consumer of the feed is the follower, or someone
else who takes chunks off it. `taken` is what has left the feed, `inFlight` what was stored and not
yet delivered, `stored` all that was stored since. -/
structure Handover where
  ring : Ring
  id : Nat
  follower : Follower
  taken : List Chunk
  inFlight : List Chunk
  stored : List Chunk
deriving DecidableEq, Repr

/-- `Subscribe` with its queue length; `Follow` passes zero. -/
def Ring.handover (r : Ring) (cursor : Cursor) (queue : Int) : Option Handover :=
  (r.subscribe cursor).map fun (replay, id, ring) =>
    { ring := ring
      id := id
      follower :=
        { sub := ⟨if queue ≤ 0 then defaultSubscriberQueue else queue.toNat, [], false, r.closed⟩
          replay := replay
          loop := .replaying replay.dropped replay.chunks
          expectedSeq := replay.nextSeq
          calls := [] }
      taken := []
      inFlight := []
      stored := [] }

/-- `close` is the locked part of the ring's `Close`, `closeFeed` what it does to the feed. -/
inductive Move where
  | store (tMs : Int) (stream : StreamKind) (payload : List UInt8)
  | deliver (i : Nat)
  | close
  | closeFeed
  | take
  | replay
  | receive
  | window
deriving DecidableEq, Repr

namespace Handover

def withSub (h : Handover) (sub : Subscription) : Handover :=
  { h with follower := { h.follower with sub := sub } }

/-- `Append` stores pieces that are neither empty nor too long. -/
def step (h : Handover) : Move → Option Handover
  | .store tMs stream payload =>
      if payload = [] ∨ h.ring.maxChunkBytes < payload.length then none
      else
        match h.ring.appendChunk tMs stream payload with
        | none => some h
        | some (chunk, subs, ring) =>
            some
              { h with
                ring := ring
                inFlight := if h.id ∈ subs then h.inFlight ++ [chunk] else h.inFlight
                stored := h.stored ++ [chunk] }
  | .deliver i =>
      match h.inFlight[i]? with
      | none => none
      | some chunk =>
          some { h.withSub (h.follower.sub.deliver chunk) with inFlight := h.inFlight.eraseIdx i }
  | .close => some { h with ring := h.ring.close }
  | .closeFeed =>
      if h.ring.closed then some (h.withSub { h.follower.sub with closed := true }) else none
  | .take =>
      match h.follower.sub.queue with
      | [] => none
      | chunk :: rest =>
          some { h.withSub { h.follower.sub with queue := rest } with taken := h.taken ++ [chunk] }
  | .replay => h.follower.replayStep.map fun f => { h with follower := f }
  | .receive =>
      h.follower.receive.map fun f =>
        { h with follower := f, taken := h.taken ++ h.follower.sub.queue.take 1 }
  | .window => h.follower.window.map fun f => { h with follower := f }

end Handover

def Lossless (h : Handover) : Move → Prop
  | .deliver _ => h.follower.sub.queue.length < h.follower.sub.capacity
  | .closeFeed => h.inFlight = []
  | _ => True

/-- Chunks are delivered in the order in which they were stored, and only the follower takes them
off the feed. -/
def Followed (h : Handover) : Move → Prop
  | .deliver i => i = 0 ∧ Lossless h (.deliver i)
  | .take => False
  | e => Lossless h e

def Drained (h : Handover) : Prop := h.inFlight = [] ∧ h.follower.sub.queue = []

/-- Each chunk that the ring retained from the cursor on, and each stored since, is once in what the
subscriber got. -/
def ReachesOnce (retained : List Chunk) (h : Handover) : Prop :=
  ∀ c ∈ retained ++ h.stored, (h.follower.replay.chunks ++ h.taken).count c = 1

def ListenerCall.chunk? : ListenerCall → Option Chunk
  | .onChunk chunk => some chunk
  | .onDropped _ _ => none

/-- The listener got these chunks in order and each once, neighbours of one stream merged. -/
def HeardOnce (retained : List Chunk) (h : Handover) : Prop :=
  ∃ groups : List (List Chunk), (∀ g ∈ groups, Mergeable g) ∧
    groups.flatten = retained ++ h.stored ∧
    h.follower.calls.filterMap ListenerCall.chunk? = groups.filterMap merged

theorem replayStep_frame {f g : Follower} (h : f.replayStep = some g) :
    g.sub = f.sub ∧ g.replay = f.replay ∧ g.expectedSeq = f.expectedSeq := by
  unfold Follower.replayStep at h
  split at h <;> cases h <;> exact ⟨rfl, rfl, rfl⟩

theorem window_frame {f g : Follower} (h : f.window = some g) :
    g.sub = f.sub ∧ g.replay = f.replay ∧ g.expectedSeq = f.expectedSeq := by
  unfold Follower.window at h
  split at h <;> cases h
  exact ⟨rfl, rfl, rfl⟩

theorem receive_frame {f g : Follower} (h : f.receive = some g) :
    ∃ c rest, f.sub.queue = c :: rest ∧ g.sub = { f.sub with queue := rest } ∧
      g.replay = f.replay := by
  unfold Follower.receive at h
  split at h
  · cases h
  · rename_i c rest hq
    refine ⟨c, rest, hq, ?_⟩
    simp only at h
    split at h
    · split at h <;> cases h <;> exact ⟨rfl, rfl⟩
    · split at h
      · cases h
        exact ⟨rfl, rfl⟩
      · split at h <;> cases h <;> exact ⟨rfl, rfl⟩
    · cases h

theorem close_nextSeq (r : Ring) : r.close.nextSeq = r.nextSeq ∧ r.close.closed = true := by
  unfold Ring.close
  split
  · exact ⟨rfl, ‹_›⟩
  · exact ⟨rfl, rfl⟩

/-- Where the chunks stored from number `n` on are: taken, in the feed or on their way. -/
structure Carried (n : Nat) (replay : ReadResult) (h : Handover) : Prop where
  numbered : Consecutive n h.stored
  next : h.ring.nextSeq = n + h.stored.length
  filled : ∀ c ∈ h.stored, c.bytes ≠ []
  whole : (h.taken ++ h.follower.sub.queue ++ h.inFlight).Perm h.stored
  registered : h.ring.closed = false → h.id ∈ h.ring.subs ∧ h.follower.sub.closed = false
  ended : h.follower.sub.closed = true → h.inFlight = []
  replay : h.follower.replay = replay

variable {h t : Handover} {n : Nat} {replay : ReadResult}

theorem appendChunk_some_open {r : Ring} {tMs : Int} {stream : StreamKind} {payload : List UInt8}
    {found : Chunk × List Nat × Ring} (happ : r.appendChunk tMs stream payload = some found) :
    r.closed = false := by
  by_contra hcl
  simp [Ring.appendChunk, hcl] at happ

theorem Carried.deliver_eq {i : Nat} {c : Chunk} (hc : Carried n replay h)
    (hget : h.inFlight[i]? = some c) (hok : Lossless h (.deliver i)) :
    h.follower.sub.deliver c =
        { h.follower.sub with queue := h.follower.sub.queue ++ [c] } ∧
      h.follower.sub.closed = false := by
  have hopen : h.follower.sub.closed = false := by
    by_contra hcl
    rw [hc.ended (by simpa using hcl)] at hget
    cases hget
  have hroom : h.follower.sub.queue.length < h.follower.sub.capacity := hok
  exact ⟨by simp [Subscription.deliver, hopen, hroom], hopen⟩

theorem Carried.store {tMs : Int} {stream : StreamKind} {payload : List UInt8}
    (hc : Carried n replay h) (ht : h.step (.store tMs stream payload) = some t) :
    Carried n replay t := by
  simp only [Handover.step] at ht
  split at ht
  · cases ht
  · rename_i hguard
    split at ht
    · cases ht
      exact hc
    · rename_i c subs ring happ
      cases ht
      have hopen := appendChunk_some_open happ
      obtain ⟨hchunk, hsubs, hnext, -, hsubs', -, hopen', -⟩ := appendChunk_open hopen happ
      obtain ⟨hid, hfeed⟩ := hc.registered hopen
      rw [hsubs, if_pos hid]
      refine ⟨hc.numbered.snoc ?_, ?_, ?_, ?_, fun _ => ⟨hsubs' ▸ hid, hfeed⟩, ?_, hc.replay⟩
      · rw [hchunk]
        exact hc.next
      · simp only [hnext, hc.next, List.length_append, List.length_singleton]
        omega
      · intro c' hc'
        rcases List.mem_append.mp hc' with hc' | hc'
        · exact hc.filled c' hc'
        · rw [List.mem_singleton.mp hc', hchunk]
          exact fun hnil => hguard (.inl hnil)
      · simp only [← List.append_assoc]
        exact hc.whole.append_right [c]
      · simp [hfeed]

theorem Carried.deliver {i : Nat} (hc : Carried n replay h) (hok : Lossless h (.deliver i))
    (ht : h.step (.deliver i) = some t) : Carried n replay t := by
  simp only [Handover.step] at ht
  split at ht
  · cases ht
  · rename_i c hget
    cases ht
    obtain ⟨hqueue, hopen⟩ := hc.deliver_eq hget hok
    rw [hqueue]
    refine ⟨hc.numbered, hc.next, hc.filled, ?_, hc.registered, by simp [Handover.withSub, hopen],
      hc.replay⟩
    obtain ⟨hi, rfl⟩ := List.getElem?_eq_some_iff.mp hget
    have hperm := List.getElem_cons_eraseIdx_perm hi
    refine List.Perm.trans ?_ hc.whole
    simp only [Handover.withSub, ← List.append_assoc]
    rw [List.append_assoc]
    exact List.Perm.append_left _ hperm

theorem Carried.step {e : Move} (hc : Carried n replay h) (hok : Lossless h e)
    (ht : h.step e = some t) : Carried n replay t := by
  cases e with
  | store tMs stream payload => exact hc.store ht
  | deliver i => exact hc.deliver hok ht
  | close =>
      cases ht
      obtain ⟨hnext, hclosed⟩ := close_nextSeq h.ring
      exact ⟨hc.numbered, hnext.trans hc.next, hc.filled, hc.whole, by simp [hclosed], hc.ended,
        hc.replay⟩
  | closeFeed =>
      simp only [Handover.step] at ht
      split at ht
      · rename_i hclosed
        cases ht
        exact ⟨hc.numbered, hc.next, hc.filled, hc.whole,
          fun ho => by simp [Handover.withSub, hclosed] at ho, fun _ => hok, hc.replay⟩
      · cases ht
  | take =>
      simp only [Handover.step] at ht
      split at ht
      · cases ht
      · rename_i c rest hq
        cases ht
        refine ⟨hc.numbered, hc.next, hc.filled, ?_, hc.registered, hc.ended, hc.replay⟩
        have := hc.whole
        rw [hq] at this
        simpa [Handover.withSub] using this
  | replay =>
      obtain ⟨f, hf, rfl⟩ := Option.map_eq_some_iff.mp ht
      obtain ⟨hsub, hrep, -⟩ := replayStep_frame hf
      exact ⟨hc.numbered, hc.next, hc.filled, by simpa only [hsub] using hc.whole,
        by simpa only [hsub] using hc.registered, by simpa only [hsub] using hc.ended,
        hrep.trans hc.replay⟩
  | receive =>
      obtain ⟨f, hf, rfl⟩ := Option.map_eq_some_iff.mp ht
      obtain ⟨c, rest, hq, hsub, hrep⟩ := receive_frame hf
      refine ⟨hc.numbered, hc.next, hc.filled, ?_, by simpa only [hsub] using hc.registered,
        by simpa only [hsub] using hc.ended, hrep.trans hc.replay⟩
      have := hc.whole
      rw [hq] at this
      simpa [hsub, hq] using this
  | window =>
      obtain ⟨f, hf, rfl⟩ := Option.map_eq_some_iff.mp ht
      obtain ⟨hsub, hrep, -⟩ := window_frame hf
      exact ⟨hc.numbered, hc.next, hc.filled, by simpa only [hsub] using hc.whole,
        by simpa only [hsub] using hc.registered, by simpa only [hsub] using hc.ended,
        hrep.trans hc.replay⟩

def Loop.Holds (gathered : List Chunk) : Loop → Prop
  | .merging b => merged gathered = some b.chunk ∧ ∀ c ∈ gathered, c.stream = b.stream
  | _ => gathered = []

/-- The follower has handed on the replay and, in groups, what it took off the feed. -/
structure Heard (n : Nat) (h : Handover) (groups : List (List Chunk)) (gathered : List Chunk) :
    Prop where
  inOrder : h.taken ++ h.follower.sub.queue ++ h.inFlight = h.stored
  expected : h.follower.expectedSeq ≤ n + h.taken.length
  covered : groups.flatten ++ gathered = h.taken
  mergeable : ∀ g ∈ groups, Mergeable g
  called : h.follower.calls.filterMap ListenerCall.chunk? ++ h.follower.loop.left =
    h.follower.replay.chunks ++ groups.filterMap merged
  holds : h.follower.loop.Holds gathered

theorem admitChunk_of_le {expectedSeq : Nat} {c : Chunk} (hle : expectedSeq ≤ c.seq) :
    ∃ gap, admitChunk expectedSeq c = (gap, c.seq + 1, true) ∧
      gap.filterMap ListenerCall.chunk? = [] := by
  unfold admitChunk
  rw [if_neg (by omega)]
  split
  · exact ⟨_, rfl, rfl⟩
  · exact ⟨_, rfl, rfl⟩

theorem mergeable_snoc {groups : List (List Chunk)} {gathered : List Chunk}
    (hg : ∀ g ∈ groups, Mergeable g) (h : Mergeable gathered) :
    ∀ g ∈ groups ++ [gathered], Mergeable g := by
  intro g hmem
  rcases List.mem_append.mp hmem with hmem | hmem
  · exact hg g hmem
  · rw [List.mem_singleton.mp hmem]
    exact h

variable {groups : List (List Chunk)} {gathered : List Chunk}

theorem Heard.window {f : Follower} (hh : Heard n h groups gathered)
    (hfill : ∀ c ∈ h.taken, c.bytes ≠ []) (hf : h.follower.window = some f) :
    Heard n { h with follower := f } (groups ++ [gathered]) [] := by
  unfold Follower.window at hf
  split at hf
  · rename_i b hb
    cases hf
    have hholds := hh.holds
    have hcalled := hh.called
    rw [hb] at hholds hcalled
    have hne : ∀ c ∈ gathered, c.bytes ≠ [] := fun c hc =>
      hfill c (hh.covered ▸ List.mem_append_right _ hc)
    refine ⟨hh.inOrder, hh.expected, by simpa using hh.covered,
      mergeable_snoc hh.mergeable (merged_mergeable hholds.1 hholds.2), ?_, rfl⟩
    simp only [Loop.left, List.append_nil] at hcalled ⊢
    simp [List.filterMap_append, hcalled, flush_eq hholds.1 hne, hholds.1, ListenerCall.chunk?]
  · cases hf

theorem Heard.replayStep {f : Follower} (hh : Heard n h groups gathered)
    (hf : h.follower.replayStep = some f) :
    Heard n { h with follower := f } groups gathered := by
  have hcalled := hh.called
  have hholds := hh.holds
  unfold Follower.replayStep at hf
  split at hf
  · rename_i d chunks hl
    cases hf
    rw [hl] at hcalled hholds
    exact ⟨hh.inOrder, hh.expected, hh.covered, hh.mergeable,
      by simpa [List.filterMap_append, List.filterMap_cons, Loop.left, ListenerCall.chunk?]
        using hcalled, hholds⟩
  · rename_i c rest hl
    cases hf
    rw [hl] at hcalled hholds
    exact ⟨hh.inOrder, hh.expected, hh.covered, hh.mergeable,
      by simpa [List.filterMap_append, Loop.left, ListenerCall.chunk?] using hcalled, hholds⟩
  · rename_i hl
    cases hf
    rw [hl] at hcalled hholds
    exact ⟨hh.inOrder, hh.expected, hh.covered, hh.mergeable, by simpa [Loop.left] using hcalled,
      hholds⟩
  · cases hf

theorem Heard.receive {f : Follower} (hh : Heard n h groups gathered)
    (hnum : Consecutive n h.stored) (hfill : ∀ c ∈ h.taken, c.bytes ≠ [])
    (hf : h.follower.receive = some f) :
    ∃ groups' gathered', Heard n
      { h with follower := f, taken := h.taken ++ h.follower.sub.queue.take 1 } groups'
        gathered' := by
  unfold Follower.receive at hf
  split at hf
  · cases hf
  · rename_i c rest hq
    have horder := hh.inOrder
    rw [hq] at horder
    have hseq : c.seq = n + h.taken.length := by
      refine hnum h.taken.length c ?_
      rw [← horder]
      simp
    obtain ⟨gap, hnext, hgap⟩ := admitChunk_of_le (hseq ▸ hh.expected)
    have hcovered := hh.covered
    have hcalled := hh.called
    have hholds := hh.holds
    simp only [hnext, if_true] at hf
    split at hf
    · rename_i hl
      cases hf
      rw [hl] at hcalled hholds
      refine ⟨groups, [c], ⟨by simpa [hq] using horder, by simp [hq, hseq, Nat.add_assoc], ?_, hh.mergeable,
        ?_, merged_newBatch c, by simp [newBatch, Batch.add]⟩⟩
      · have hnil : gathered = [] := hholds
        simp [← hcovered, hnil, hq]
      · simpa [List.filterMap_append, hgap, Loop.left] using hcalled
    · rename_i b hl
      rw [hl] at hcalled hholds
      have hne : ∀ c ∈ gathered, c.bytes ≠ [] := fun c hc =>
        hfill c (hcovered ▸ List.mem_append_right _ hc)
      simp only [Bool.not_true, Bool.false_eq_true, if_false] at hf
      split at hf
      · rename_i hstream
        cases hf
        refine ⟨groups ++ [gathered], [c], ⟨by simpa [hq] using horder, by simp [hq, hseq, Nat.add_assoc],
          ?_, mergeable_snoc hh.mergeable (merged_mergeable hholds.1 hholds.2), ?_,
          merged_newBatch c, by simp [newBatch, Batch.add]⟩⟩
        · simp [← hcovered, hq]
        · simp only [Loop.left, List.append_nil] at hcalled ⊢
          simp [List.filterMap_append, hgap, hcalled, flush_eq hholds.1 hne, hholds.1,
            ListenerCall.chunk?]
      · rename_i hstream
        cases hf
        have hstream : c.stream = b.stream := by simpa using hstream
        refine ⟨groups, gathered ++ [c], ⟨by simpa [hq] using horder,
          by simp [hq, hseq, Nat.add_assoc], ?_, hh.mergeable, ?_, merged_add hholds.1 hstream, ?_⟩⟩
        · simp [← hcovered, hq]
        · simpa [List.filterMap_append, hgap, Loop.left] using hcalled
        · intro c' hc'
          rcases List.mem_append.mp hc' with hc' | hc'
          · exact hholds.2 c' hc'
          · rw [List.mem_singleton.mp hc']
            exact hstream
    · cases hf

theorem Heard.step {e : Move} (hc : Carried n replay h) (hh : Heard n h groups gathered)
    (hok : Followed h e) (ht : h.step e = some t) :
    ∃ groups' gathered', Heard n t groups' gathered' := by
  have hfill : ∀ c ∈ h.taken, c.bytes ≠ [] := by
    intro c hmem
    refine hc.filled c ?_
    rw [← hh.inOrder, List.append_assoc]
    exact List.mem_append_left _ hmem
  cases e with
  | store tMs stream payload =>
      simp only [Handover.step] at ht
      split at ht
      · cases ht
      · split at ht
        · cases ht
          exact ⟨groups, gathered, hh⟩
        · rename_i c subs ring happ
          cases ht
          have hopen := appendChunk_some_open happ
          obtain ⟨-, hsubs, -⟩ := appendChunk_open hopen happ
          rw [hsubs, if_pos (hc.registered hopen).1]
          exact ⟨groups, gathered, ⟨by simp [← hh.inOrder], hh.expected, hh.covered,
            hh.mergeable, hh.called, hh.holds⟩⟩
  | deliver i =>
      obtain ⟨rfl, hroom⟩ := hok
      simp only [Handover.step] at ht
      split at ht
      · cases ht
      · rename_i c hget
        cases ht
        rw [(hc.deliver_eq hget hroom).1]
        obtain ⟨rest, hrest⟩ : ∃ rest, h.inFlight = c :: rest := by
          cases hl : h.inFlight with
          | nil => simp [hl] at hget
          | cons d rest => exact ⟨rest, by simpa [hl] using hget⟩
        refine ⟨groups, gathered, ⟨?_, hh.expected, hh.covered, hh.mergeable, hh.called, hh.holds⟩⟩
        simp [Handover.withSub, ← hh.inOrder, hrest]
  | close =>
      cases ht
      exact ⟨groups, gathered, ⟨hh.inOrder, hh.expected, hh.covered, hh.mergeable, hh.called,
        hh.holds⟩⟩
  | closeFeed =>
      simp only [Handover.step] at ht
      split at ht
      · cases ht
        exact ⟨groups, gathered, ⟨hh.inOrder, hh.expected, hh.covered, hh.mergeable, hh.called,
          hh.holds⟩⟩
      · cases ht
  | take => exact hok.elim
  | replay =>
      obtain ⟨f, hf, rfl⟩ := Option.map_eq_some_iff.mp ht
      exact ⟨groups, gathered, hh.replayStep hf⟩
  | receive =>
      obtain ⟨f, hf, rfl⟩ := Option.map_eq_some_iff.mp ht
      exact hh.receive hc.numbered hfill hf
  | window =>
      obtain ⟨f, hf, rfl⟩ := Option.map_eq_some_iff.mp ht
      exact ⟨_, _, hh.window hfill hf⟩

theorem Followed.lossless {e : Move} (hok : Followed h e) : Lossless h e := by
  cases e with
  | deliver i => exact hok.2
  | take => exact hok.elim
  | closeFeed => exact hok
  | _ => trivial

theorem takeBytes_spec (max total : Nat) (chunks : List Chunk) (ht : total ≤ max) :
    takeBytes max chunks total <+: chunks ∧
      total + byteCount (takeBytes max chunks total) ≤ max := by
  induction chunks generalizing total with
  | nil => exact ⟨ List.prefix_refl _, by simpa [takeBytes, byteCount] using ht⟩
  | cons c rest ih =>
      simp only [takeBytes]
      split
      · exact ⟨ List.nil_prefix, by simpa [byteCount] using ht⟩
      · obtain ⟨hp, hb⟩ := ih (total + c.bytes.length) (by omega)
        refine ⟨List.prefix_cons_inj c |>.mpr hp, ?_⟩
        simp only [byteCount, List.map_cons, List.sum_cons] at hb ⊢
        omega

theorem takeBytes_eq_iff {max : Nat} {chunks : List Chunk} :
    takeBytes max chunks 0 = chunks ↔ byteCount chunks ≤ max := by
  constructor
  · intro h
    have := (takeBytes_spec max 0 chunks (Nat.zero_le _)).2
    rw [h] at this
    omega
  · intro h
    exact takeBytes_all (by simpa [byteCount] using h)

theorem Consecutive.map_seq {first : Nat} {chunks : List Chunk} (h : Consecutive first chunks) :
    chunks.map Chunk.seq = List.range' first chunks.length := by
  refine List.ext_getElem? fun i => ?_
  rcases lt_or_ge i chunks.length with hi | hi
  · rw [List.getElem?_map, List.getElem?_eq_getElem hi, Option.map_some,
      h i _ (List.getElem?_eq_getElem hi), List.getElem?_range' hi, Nat.one_mul]
  · rw [List.getElem?_eq_none (by simpa using hi), List.getElem?_eq_none (by simpa using hi)]

theorem Consecutive.mem {first : Nat} {chunks : List Chunk} (h : Consecutive first chunks)
    {c : Chunk} (hc : c ∈ chunks) : first ≤ c.seq ∧ c.seq < first + chunks.length := by
  have : c.seq ∈ List.range' first chunks.length := h.map_seq ▸ List.mem_map_of_mem hc
  simpa using this

theorem Consecutive.nodup {first : Nat} {chunks : List Chunk} (h : Consecutive first chunks) :
    chunks.Nodup :=
  List.Nodup.of_map Chunk.seq (h.map_seq ▸ List.nodup_range')

variable {r : Ring} {appended : List UInt8} {cursor : Cursor} {queue : Int}

theorem retainedFrom_suffix (r : Ring) (cursor : Cursor) : r.retainedFrom cursor <:+ r.chunks := by
  unfold Ring.retainedFrom
  split
  · exact List.drop_suffix _ _
  · exact List.nil_suffix

theorem subscribe_spec {id : Nat} {r' : Ring} (hs : r.subscribe cursor = some (replay, id, r')) :
    replay.chunks = takeBytes defaultReadMaxBytes (r.retainedFrom cursor) 0 ∧
      replay.nextSeq = (replay.chunks.getLast?.map fun c => c.seq + 1).getD r.nextSeq ∧
      r'.nextSeq = r.nextSeq ∧ r'.closed = r.closed ∧ (r.closed = false → id ∈ r'.subs) := by
  unfold Ring.subscribe at hs
  split at hs
  · cases hs
  · rename_i read hread
    have hrep : replay.chunks = takeBytes defaultReadMaxBytes (r.retainedFrom cursor) 0 ∧
        replay.nextSeq = (replay.chunks.getLast?.map fun c => c.seq + 1).getD r.nextSeq := by
      have hrr : read = replay := by
        simp only at hs
        split at hs <;> cases hs <;> rfl
      subst hrr
      simp only [Ring.read, le_refl, if_true] at hread
      split at hread
      · cases hread
      · rename_i idx dropped hres
        cases hread
        simp [Ring.retainedFrom, hres]
    refine ⟨hrep.1, hrep.2, ?_⟩
    simp only at hs
    split at hs
    · rename_i hclosed
      cases hs
      exact ⟨rfl, rfl, fun ho => by simp [hclosed] at ho⟩
    · cases hs
      exact ⟨rfl, rfl, fun _ => by simp⟩

theorem handover_init (hr : Represents r appended) (h0 : r.handover cursor queue = some h) :
    ∃ replay, Carried r.nextSeq replay h ∧ Heard r.nextSeq h [] [] ∧
      replay.chunks = takeBytes defaultReadMaxBytes (r.retainedFrom cursor) 0 := by
  obtain ⟨⟨replay, id, ring⟩, hs, rfl⟩ := Option.map_eq_some_iff.mp h0
  obtain ⟨hchunks, hnext, hseq, hclosed, hsubs⟩ := subscribe_spec hs
  have hle : replay.nextSeq ≤ r.nextSeq := by
    rw [hnext]
    cases hl : replay.chunks.getLast? with
    | none => simp
    | some c =>
        have hmem : c ∈ r.retainedFrom cursor :=
          (takeBytes_spec _ 0 _ (Nat.zero_le _)).1.subset (hchunks ▸ List.mem_of_getLast? hl)
        have := (hr.consecutive.mem ((retainedFrom_suffix r cursor).subset hmem)).2
        have := hr.count
        simp only [Option.map_some, Option.getD_some]
        omega
  refine ⟨replay, ⟨?_, by simpa using hseq, by simp, by simp, fun ho => ?_, by simp, rfl⟩,
    ⟨rfl, by simpa using hle, rfl, by simp, by simp [Loop.left], rfl⟩, hchunks⟩
  · simp [Consecutive]
  · exact ⟨hsubs (hclosed ▸ ho), hclosed ▸ ho⟩

theorem reachesOnce_iff (hr : Represents r appended) (hc : Carried r.nextSeq replay h)
    (hcut : replay.chunks = takeBytes defaultReadMaxBytes (r.retainedFrom cursor) 0)
    (hd : Drained h) :
    ReachesOnce (r.retainedFrom cursor) h ↔
      byteCount (r.retainedFrom cursor) ≤ defaultReadMaxBytes := by
  have htaken : h.taken.Perm h.stored := by simpa [hd.1, hd.2] using hc.whole
  have hpre : replay.chunks <+: r.retainedFrom cursor :=
    hcut ▸ (takeBytes_spec _ 0 _ (Nat.zero_le _)).1
  have hnodup : (r.retainedFrom cursor).Nodup :=
    (retainedFrom_suffix r cursor).sublist.nodup hr.consecutive.nodup
  have hdisjoint : ∀ c ∈ r.retainedFrom cursor, c ∉ h.stored := by
    intro c hret hst
    have hlt := (hr.consecutive.mem ((retainedFrom_suffix r cursor).subset hret)).2
    have hge := (hc.numbered.mem hst).1
    have := hr.count
    omega
  rw [← takeBytes_eq_iff, ← hcut]
  constructor
  · intro honce
    refine hpre.eq_of_length_le ?_
    refine (List.subperm_of_subset hnodup fun c hmem => ?_).length_le
    have hcount := honce c (List.mem_append_left _ hmem)
    rw [hc.replay] at hcount
    have : c ∈ replay.chunks ++ h.taken := List.count_pos_iff.mp (by omega)
    rcases List.mem_append.mp this with hin | hin
    · exact hin
    · exact absurd (htaken.subset hin) (hdisjoint c hmem)
  · intro hall c hmem
    rw [hc.replay, hall, List.count_append, htaken.count_eq, ← List.count_append]
    refine List.count_eq_one_of_mem ?_ hmem
    exact List.nodup_append.mpr ⟨hnodup, hc.numbered.nodup,
      fun a ha b hb hab => hdisjoint a ha (hab ▸ hb)⟩

theorem merged_singleton (c : Chunk) : merged [c] = some c := by
  simp [merged]

theorem filterMap_merged_singletons (chunks : List Chunk) :
    (chunks.map fun c => [c]).filterMap merged = chunks := by
  induction chunks with
  | nil => rfl
  | cons c chunks ih => simp [merged_singleton, ih]

theorem flatMap_merged {groups : List (List Chunk)} (hm : ∀ g ∈ groups, Mergeable g) :
    (groups.filterMap merged).flatMap Chunk.bytes = groups.flatten.flatMap Chunk.bytes := by
  induction groups with
  | nil => rfl
  | cons g groups ih =>
      have hlast : g.getLast? = some (g.getLast (hm g List.mem_cons_self).1) :=
        List.getLast?_eq_some_getLast _
      have := ih fun g' hg' => hm g' (List.mem_cons_of_mem _ hg')
      simp [merged, hlast, this]

theorem byteCount_eq (chunks : List Chunk) :
    byteCount chunks = (chunks.flatMap Chunk.bytes).length := by
  simp [byteCount, List.length_flatMap]

theorem heardOnce_iff (hh : Heard n h groups gathered) (hc : Carried n replay h)
    (hcut : replay.chunks = takeBytes defaultReadMaxBytes (r.retainedFrom cursor) 0)
    (hd : Drained h) (hw : h.follower.loop = .waiting) :
    HeardOnce (r.retainedFrom cursor) h ↔
      byteCount (r.retainedFrom cursor) ≤ defaultReadMaxBytes := by
  have htaken : h.taken = h.stored := by simpa [hd.1, hd.2] using hh.inOrder
  have hholds := hh.holds
  have hcalled := hh.called
  rw [hw] at hholds hcalled
  have hnil : gathered = [] := hholds
  have hcovered : groups.flatten = h.stored := by simpa [hnil, htaken] using hh.covered
  simp only [Loop.left, List.append_nil, hc.replay] at hcalled
  constructor
  · rintro ⟨heard, hmerge, hflat, hcalls⟩
    have hbytes := congrArg (List.flatMap Chunk.bytes) (hcalls.symm.trans hcalled)
    rw [List.flatMap_append, flatMap_merged hmerge, flatMap_merged hh.mergeable, hflat, hcovered,
      List.flatMap_append] at hbytes
    have hsame := congrArg List.length (List.append_cancel_right hbytes)
    have hle := (takeBytes_spec defaultReadMaxBytes 0 (r.retainedFrom cursor) (Nat.zero_le _)).2
    rw [← hcut, byteCount_eq] at hle
    rw [byteCount_eq]
    omega
  · intro hfit
    rw [← takeBytes_eq_iff, ← hcut] at hfit
    refine ⟨(r.retainedFrom cursor).map (fun c => [c]) ++ groups, ?_, ?_, ?_⟩
    · intro g hg
      rcases List.mem_append.mp hg with hg | hg
      · obtain ⟨c, -, rfl⟩ := List.mem_map.mp hg
        exact ⟨by simp, by simp⟩
      · exact hh.mergeable g hg
    · rw [List.flatten_append, hcovered]
      rw [← List.flatMap_def, List.flatMap_singleton']
    · rw [hcalled, List.filterMap_append, filterMap_merged_singletons, hfit]

def Following (n : Nat) (replay : ReadResult) (h : Handover) : Prop :=
  Carried n replay h ∧ ∃ groups gathered, Heard n h groups gathered

theorem Following.step {e : Move} (hi : Following n replay h) (hok : Followed h e)
    (ht : h.step e = some t) : Following n replay t := by
  obtain ⟨hc, groups, gathered, hh⟩ := hi
  exact ⟨hc.step hok.lossless ht, hh.step hc hok ht⟩

def replayThenLive : List Move :=
  [.store 5 .stderr [105], .replay, .deliver 0, .replay, .receive, .window]

theorem evict_of_le {capacity used : Nat} (hle : used ≤ capacity) (chunks : List Chunk)
    (total head : Nat) : evict capacity chunks used total head = ⟨chunks, used, total, head⟩ := by
  cases chunks with
  | nil => rfl
  | cons c chunks => simp [evict, Nat.not_lt.mpr hle]

theorem appendChunk_fits (tMs : Int) (stream : StreamKind) {payload : List UInt8}
    (ho : r.closed = false) (hfit : r.usedBytes + payload.length ≤ r.capacityBytes) :
    ∃ c r', r.appendChunk tMs stream payload = some (c, r.subs, r') ∧
      r'.usedBytes = r.usedBytes + payload.length ∧ r'.droppedBytesTotal = r.droppedBytesTotal ∧
      r'.capacityBytes = r.capacityBytes ∧ r'.closed = false := by
  simp [Ring.appendChunk, ho, evict_of_le hfit]

theorem foldl_dropped (clock : Nat → Int) (stream : StreamKind) (payloads : List (List UInt8))
    (ho : r.closed = false)
    (hfit : r.usedBytes + (payloads.map List.length).sum ≤ r.capacityBytes) :
    (payloads.foldl (fun r payload =>
      match r.appendChunk (clock r.nextSeq) stream payload with
      | none => r
      | some (_, _, r') => r') r).droppedBytesTotal = r.droppedBytesTotal := by
  induction payloads generalizing r with
  | nil => rfl
  | cons payload payloads ih =>
      simp only [List.map_cons, List.sum_cons] at hfit
      obtain ⟨c, r', happ, hused, hdropped, hcap, ho'⟩ :=
        appendChunk_fits (clock r.nextSeq) stream ho
          (show r.usedBytes + payload.length ≤ r.capacityBytes by omega)
      simp only [List.foldl_cons, happ]
      rw [ih ho' (by omega), hdropped]

theorem long_history_loses_chunk {data : List UInt8} (hlong : defaultReadMaxBytes < data.length)
    (hfit : data.length ≤ defaultCapacityBytes) :
    ∃ s h, run (Recorded.call fun _ => 3) ⟨Ring.new 0 0, []⟩ [.append .stdout data] = some s ∧
      s.ring.handover .head 0 = some h ∧ Drained h ∧
      ¬ ReachesOnce (s.ring.retainedFrom .head) h := by
  obtain ⟨hnew, hmax⟩ := sound_new 0 0
  have hr : Represents (Ring.append (fun _ => 3) (Ring.new 0 0) .stdout data) data :=
    (hnew.append (fun _ => 3) .stdout data hmax).1
  have hdropped : (Ring.append (fun _ => 3) (Ring.new 0 0) .stdout data).droppedBytesTotal = 0 := by
    refine foldl_dropped (fun _ => 3) .stdout ((Ring.new 0 0).split data) (r := Ring.new 0 0) rfl ?_
    rw [← List.length_flatten, Ring.split, pieces_flatten hmax le_rfl]
    simpa [Ring.new] using hfit
  generalize hring : Ring.append (fun _ => 3) (Ring.new 0 0) .stdout data = r at hr hdropped
  obtain ⟨h, hh⟩ : ∃ h, r.handover .head 0 = some h := by
    cases hcl : r.closed <;>
      simp [Ring.handover, Ring.subscribe, Ring.read, Ring.resolveCursor, hcl]
  have hd : Drained h := by
    obtain ⟨_, -, rfl⟩ := Option.map_eq_some_iff.mp hh
    exact ⟨rfl, rfl⟩
  refine ⟨⟨r, data⟩, h, ?_, hh, hd, ?_⟩
  · rw [← hring]
    rfl
  · obtain ⟨replay, hc, -, hcut⟩ := handover_init hr hh
    rw [reachesOnce_iff hr hc hcut hd]
    have hused := hr.accounted
    rw [hr.used, hdropped] at hused
    have hall : r.retainedFrom .head = r.chunks := rfl
    rw [hall]
    omega

end Dolgate.Ringbuf
