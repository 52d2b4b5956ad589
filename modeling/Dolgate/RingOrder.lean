import Dolgate.RingFollow

set_option autoImplicit false

namespace Dolgate.Ringbuf
open Transition

def merged (group : List Chunk) : Option Chunk :=
  group.getLast?.map fun last => { last with bytes := group.flatMap Chunk.bytes }

def Mergeable (group : List Chunk) : Prop :=
  group ≠ [] ∧ ∀ a ∈ group, ∀ b ∈ group, a.stream = b.stream

def Loop.left : Loop → List Chunk
  | .replaying _ chunks => chunks
  | _ => []

def Quiet (s : System) (id : Nat) (f : Follower) : Prop :=
  f.loop = .waiting ∧ f.sub.queue = [] ∧ ∀ d ∈ s.inFlight, d.sub ≠ id

/-- The listener got the replay and then every chunk from the follower's start on, once, in order
and without a gap; all of them when nothing is left to do. -/
def Intact (s : System) (id : Nat) (f : Follower) : Prop :=
  (∀ a b, ListenerCall.onDropped a b ∉ f.calls) ∧
    ∃ (m : Nat) (groups : List (List Chunk)), f.replay.nextSeq ≤ m ∧ m ≤ s.history.length ∧
      groups.flatten = (s.history.take m).drop f.replay.nextSeq ∧
      (∀ g ∈ groups, Mergeable g) ∧
      f.calls ++ f.loop.left.map .onChunk =
        f.replay.chunks.map .onChunk ++ (groups.filterMap merged).map .onChunk ∧
      (Quiet s id f → m = s.history.length)

def HasRoom (s : System) : Event → Prop
  | .deliver d => ∀ f, s.followers[d.sub]? = some f → f.sub.queue.length < f.sub.capacity
  | _ => True

/-- No chunk that is still on its way to the same subscription has a smaller number. -/
def InTurn (s : System) : Event → Prop
  | .deliver d => ∀ d' ∈ s.inFlight, d'.sub = d.sub → d.chunk.seq ≤ d'.chunk.seq
  | _ => True

/-- The cursor names nothing evicted, and one read hands over all that is retained from there (or
nothing, where already the first chunk is over the limit). -/
def WholeReplay (s : System) : Event → Prop
  | .follow cursor => ∀ idx dropped, s.ring.resolveCursor cursor = some (idx, dropped) →
      dropped = none ∧
        (((s.ring.chunks.drop idx).map fun c => c.bytes.length).sum ≤ defaultReadMaxBytes ∨
          ∀ c ∈ (s.ring.chunks.drop idx).head?, defaultReadMaxBytes < c.bytes.length)
  | _ => True

def InOrder (s : System) (e : Event) : Prop := HasRoom s e ∧ InTurn s e ∧ WholeReplay s e

def Numbered (history : List Chunk) : Prop :=
  ∀ (i : Nat) (c : Chunk), history[i]? = some c → c.seq = i ∧ c.bytes ≠ []

def Batch.chunk (b : Batch) : Chunk := ⟨b.lastSeq, b.lastTMs, b.stream, b.bytes⟩

def Loop.Gathers (gathered : List Chunk) : Loop → Prop
  | .replaying dropped _ => dropped = none ∧ gathered = []
  | .waiting => gathered = []
  | .merging b => merged gathered = some b.chunk ∧ ∀ c ∈ gathered, c.stream = b.stream

structure Follower.Tracks (history : List Chunk) (f : Follower) (groups : List (List Chunk))
    (gathered : List Chunk) : Prop where
  opened : f.sub.closed = false
  started : f.replay.nextSeq ≤ f.expectedSeq
  bounded : f.expectedSeq + f.sub.queue.length ≤ history.length
  queued : f.sub.queue = (history.drop f.expectedSeq).take f.sub.queue.length
  covered : groups.flatten ++ gathered = (history.take f.expectedSeq).drop f.replay.nextSeq
  mergeable : ∀ g ∈ groups, Mergeable g
  called : f.calls ++ f.loop.left.map .onChunk =
    f.replay.chunks.map .onChunk ++ (groups.filterMap merged).map .onChunk
  gathers : f.loop.Gathers gathered

variable {history : List Chunk} {f g : Follower} {groups : List (List Chunk)}
  {gathered : List Chunk} {c : Chunk}

theorem merged_newBatch (c : Chunk) : merged [c] = some (newBatch c).chunk := by
  simp [merged, newBatch, Batch.add, Batch.chunk]

theorem merged_add {b : Batch} (h : merged gathered = some b.chunk) (hc : c.stream = b.stream) :
    merged (gathered ++ [c]) = some (b.add c).chunk := by
  obtain ⟨last, hlast, hb⟩ := Option.map_eq_some_iff.mp h
  have hbytes : gathered.flatMap Chunk.bytes = b.bytes := congrArg Chunk.bytes hb
  simp [merged, hbytes, Batch.add, Batch.chunk, hc]

theorem merged_mergeable {b : Batch} (h : merged gathered = some b.chunk)
    (hs : ∀ c ∈ gathered, c.stream = b.stream) : Mergeable gathered := by
  refine ⟨?_, fun x hx y hy => (hs x hx).trans (hs y hy).symm⟩
  rintro rfl
  cases h

theorem flush_eq {b : Batch} (h : merged gathered = some b.chunk)
    (hne : ∀ c ∈ gathered, c.bytes ≠ []) : b.flush = [.onChunk b.chunk] := by
  obtain ⟨last, hlast, hb⟩ := Option.map_eq_some_iff.mp h
  have hbytes : gathered.flatMap Chunk.bytes = b.bytes := congrArg Chunk.bytes hb
  have hmem := List.mem_of_getLast? hlast
  have hb' : b.bytes ≠ [] := by
    rw [← hbytes]
    exact fun hnil => hne last hmem (List.flatMap_eq_nil_iff.mp hnil last hmem)
  simp [Batch.flush, hb', Batch.chunk]

theorem Numbered.mem_bytes (h : Numbered history) {c : Chunk} (hc : c ∈ history) :
    c.bytes ≠ [] := by
  obtain ⟨i, hi⟩ := List.mem_iff_getElem?.mp hc
  exact (h i c hi).2

theorem Follower.Tracks.gathered_bytes (h : f.Tracks history groups gathered)
    (hn : Numbered history) : ∀ c ∈ gathered, c.bytes ≠ [] := by
  intro c hc
  have hmem : c ∈ (history.take f.expectedSeq).drop f.replay.nextSeq :=
    h.covered ▸ List.mem_append_right _ hc
  exact hn.mem_bytes (List.mem_of_mem_take (List.mem_of_mem_drop hmem))

theorem Follower.Tracks.no_drop (h : f.Tracks history groups gathered) (a b : Nat) :
    ListenerCall.onDropped a b ∉ f.calls := by
  intro hmem
  have hcalled : ListenerCall.onDropped a b ∈ f.calls ++ f.loop.left.map .onChunk :=
    List.mem_append_left _ hmem
  rw [h.called] at hcalled
  simp at hcalled

theorem Follower.Tracks.flushed {b : Batch} (h : f.Tracks history groups gathered)
    (hn : Numbered history) (hb : f.loop = .merging b) :
    f.calls ++ b.flush = f.replay.chunks.map .onChunk ++
      ((groups ++ [gathered]).filterMap merged).map .onChunk ∧ Mergeable gathered := by
  have hg := h.gathers
  rw [hb] at hg
  have hcalled := h.called
  rw [hb] at hcalled
  refine ⟨?_, merged_mergeable hg.1 hg.2⟩
  rw [flush_eq hg.1 (h.gathered_bytes hn)]
  simp only [Loop.left, List.map_nil, List.append_nil] at hcalled
  simp [hcalled, hg.1]

theorem Follower.Tracks.window (h : f.Tracks history groups gathered) (hn : Numbered history)
    (hw : f.window = some g) : ∃ groups', g.Tracks history groups' [] := by
  unfold Follower.window at hw
  split at hw
  · rename_i b hb
    cases hw
    obtain ⟨hcalls, hmerge⟩ := h.flushed hn hb
    refine ⟨groups ++ [gathered], { h with
      covered := by simpa using h.covered
      mergeable := fun x hx => ?_
      called := by simpa [Loop.left] using hcalls
      gathers := rfl }⟩
    rcases List.mem_append.mp hx with hx | hx
    · exact h.mergeable x hx
    · rw [List.mem_singleton.mp hx]
      exact hmerge
  · cases hw

theorem Follower.Tracks.replayStep (h : f.Tracks history groups gathered)
    (hr : f.replayStep = some g) : g.Tracks history groups gathered := by
  have hg := h.gathers
  have hcalled := h.called
  unfold Follower.replayStep at hr
  split at hr
  · rename_i d chunks hl
    rw [hl] at hg
    cases hg.1
  · rename_i chunk rest hl
    cases hr
    rw [hl] at hg hcalled
    exact { h with called := by simpa [Loop.left] using hcalled, gathers := hg }
  · rename_i hl
    cases hr
    rw [hl] at hg hcalled
    exact { h with called := by simpa [Loop.left] using hcalled, gathers := hg.2 }
  · cases hr

theorem Follower.Tracks.front (h : f.Tracks history groups gathered) {rest : List Chunk}
    (hq : f.sub.queue = c :: rest) : history[f.expectedSeq]? = some c ∧
      rest = (history.drop (f.expectedSeq + 1)).take rest.length := by
  have hqueued := h.queued
  rw [hq] at hqueued
  cases hd : history.drop f.expectedSeq with
  | nil => simp [hd] at hqueued
  | cons x xs =>
      simp only [hd, List.length_cons, List.take_succ_cons, List.cons.injEq] at hqueued
      obtain ⟨rfl, hrest⟩ := hqueued
      have htail : history.drop (f.expectedSeq + 1) = xs := by
        rw [← List.drop_drop, hd]
        rfl
      refine ⟨?_, htail ▸ hrest⟩
      rw [← List.head?_drop, hd]
      rfl

theorem take_drop_snoc {n e : Nat} (hn : n ≤ e) (hc : history[e]? = some c) :
    (history.take (e + 1)).drop n = (history.take e).drop n ++ [c] := by
  have hlen : (history.take e).length = e := by
    have := (List.getElem?_eq_some_iff.mp hc).1
    simp
    omega
  rw [List.take_add_one, hc, List.drop_append_of_le_length (by omega)]
  rfl

theorem Follower.Tracks.receive (h : f.Tracks history groups gathered) (hn : Numbered history)
    (hr : f.receive = some g) :
    (∃ groups' gathered', g.Tracks history groups' gathered') ∧
      g.expectedSeq + g.sub.queue.length = f.expectedSeq + f.sub.queue.length := by
  unfold Follower.receive at hr
  split at hr
  · cases hr
  · rename_i chunk rest hq
    obtain ⟨hfront, hrest⟩ := h.front hq
    have hseq : chunk.seq = f.expectedSeq := (hn _ _ hfront).1
    have hfits : admitChunk f.expectedSeq chunk = ([], f.expectedSeq + 1, true) := by
      simp [admitChunk, hseq]
    have hbound := h.bounded
    rw [hq, List.length_cons] at hbound
    have hcover := take_drop_snoc h.started hfront
    simp only [hfits] at hr
    split at hr
    · rename_i hl
      have hg := h.gathers
      rw [hl] at hg
      have hgath : gathered = [] := hg
      subst hgath
      have hcalled := h.called
      rw [hl] at hcalled
      simp only [if_true, Option.some.injEq] at hr
      subst hr
      refine ⟨⟨groups, [chunk], { h with
        started := Nat.le_succ_of_le h.started
        bounded := by show f.expectedSeq + 1 + rest.length ≤ _; omega
        queued := hrest
        covered := by rw [hcover, ← h.covered, List.append_nil]
        called := by simpa [Loop.left] using hcalled
        gathers := ⟨merged_newBatch chunk, by simp [newBatch, Batch.add]⟩ }⟩, ?_⟩
      show f.expectedSeq + 1 + rest.length = _
      rw [hq, List.length_cons]
      omega
    · rename_i b hl
      have hg := h.gathers
      rw [hl] at hg
      obtain ⟨hflush, hmerge⟩ := h.flushed hn hl
      have hcalled := h.called
      rw [hl] at hcalled
      simp only [Bool.not_true, if_false, Bool.false_eq_true] at hr
      split at hr
      · cases hr
        refine ⟨⟨groups ++ [gathered], [chunk], { h with
          started := Nat.le_succ_of_le h.started
          bounded := by show f.expectedSeq + 1 + rest.length ≤ _; omega
          queued := hrest
          covered := by rw [hcover, ← h.covered]; simp
          mergeable := fun x hx => ?_
          called := by simpa [Loop.left] using hflush
          gathers := ⟨merged_newBatch chunk, by simp [newBatch, Batch.add]⟩ }⟩, ?_⟩
        · rcases List.mem_append.mp hx with hx | hx
          · exact h.mergeable x hx
          · rw [List.mem_singleton.mp hx]
            exact hmerge
        · show f.expectedSeq + 1 + rest.length = _
          rw [hq, List.length_cons]
          omega
      · rename_i hs
        have hs : chunk.stream = b.stream := by simpa using hs
        cases hr
        refine ⟨⟨groups, gathered ++ [chunk], { h with
          started := Nat.le_succ_of_le h.started
          bounded := by show f.expectedSeq + 1 + rest.length ≤ _; omega
          queued := hrest
          covered := by rw [hcover, ← h.covered]; simp
          called := by simpa [Loop.left] using hcalled
          gathers := ⟨merged_add hg.1 hs, fun x hx => ?_⟩ }⟩, ?_⟩
        · rcases List.mem_append.mp hx with hx | hx
          · exact hg.2 x hx
          · rw [List.mem_singleton.mp hx]
            exact hs
        · show f.expectedSeq + 1 + rest.length = _
          rw [hq, List.length_cons]
          omega
    · cases hr

theorem Follower.Tracks.deliver (h : f.Tracks history groups gathered)
    (hroom : f.sub.queue.length < f.sub.capacity)
    (hc : history[f.expectedSeq + f.sub.queue.length]? = some c) :
    Follower.Tracks history { f with sub := f.sub.deliver c } groups gathered ∧
      (f.sub.deliver c).queue.length = f.sub.queue.length + 1 := by
  have hsub : f.sub.deliver c = { f.sub with queue := f.sub.queue ++ [c] } := by
    simp [Subscription.deliver, h.opened, hroom]
  have hlt := (List.getElem?_eq_some_iff.mp hc).1
  rw [hsub]
  refine ⟨{ h with bounded := ?_, queued := ?_ }, by simp⟩
  · simp only [List.length_append, List.length_singleton]
    omega
  · simp only [List.length_append, List.length_singleton]
    rw [List.take_add_one, List.getElem?_drop, hc, ← h.queued]
    rfl

theorem Follower.Tracks.stored (h : f.Tracks history groups gathered) (c : Chunk) :
    f.Tracks (history ++ [c]) groups gathered := by
  have hb := h.bounded
  refine { h with bounded := ?_, queued := ?_, covered := ?_ }
  · rw [List.length_append]
    omega
  · rw [List.drop_append_of_le_length (by omega), List.take_append_of_le_length (by simp; omega)]
    exact h.queued
  · rw [List.take_append_of_le_length (by omega)]
    exact h.covered

theorem appendChunk_open {r r' : Ring} (ho : r.closed = false) {tMs : Int} {stream : StreamKind}
    {payload : List UInt8} {subs : List Nat}
    (h : r.appendChunk tMs stream payload = some (c, subs, r')) :
    c = ⟨r.nextSeq, tMs, stream, payload⟩ ∧ subs = r.subs ∧ r'.nextSeq = r.nextSeq + 1 ∧
      r'.chunks <:+ r.chunks ++ [c] ∧ r'.subs = r.subs ∧ r'.nextSubID = r.nextSubID ∧
      r'.closed = false ∧ r'.maxChunkBytes = r.maxChunkBytes := by
  simp only [Ring.appendChunk, ho, Bool.false_eq_true, if_false, Option.some.injEq,
    Prod.mk.injEq] at h
  obtain ⟨rfl, rfl, rfl⟩ := h
  exact ⟨rfl, rfl, rfl, evict_suffix _ _ _ _ _, rfl, rfl, rfl, rfl⟩

theorem read_whole {r : Ring} {cursor : Cursor} {replay : ReadResult}
    (hn : Numbered history) (hnext : r.nextSeq = history.length)
    (hsuf : r.chunks <:+ history) (h : r.read cursor 0 = some replay)
    (hwhole : ∀ idx dropped, r.resolveCursor cursor = some (idx, dropped) → dropped = none ∧
      (((r.chunks.drop idx).map fun c => c.bytes.length).sum ≤ defaultReadMaxBytes ∨
        ∀ c ∈ (r.chunks.drop idx).head?, defaultReadMaxBytes < c.bytes.length)) :
    replay.dropped = none ∧ replay.nextSeq = history.length := by
  simp only [Ring.read, Int.le_refl, if_true] at h
  cases hr : r.resolveCursor cursor with
  | none => simp [hr] at h
  | some found =>
      obtain ⟨idx, dropped⟩ := found
      obtain ⟨hd, hfit⟩ := hwhole idx dropped hr
      simp only [hr, Option.some.injEq] at h
      subst h
      refine ⟨hd, ?_⟩
      show (((takeBytes defaultReadMaxBytes (r.chunks.drop idx) 0).getLast?.map
        fun chunk => chunk.seq + 1).getD r.nextSeq) = history.length
      rcases hfit with hfit | hbig
      · rw [takeBytes_all (by omega)]
        cases hl : (r.chunks.drop idx).getLast? with
        | none => simpa using hnext
        | some last =>
            have hlast : history.getLast? = some last := by
              obtain ⟨before, hb⟩ := (List.drop_suffix idx r.chunks).trans hsuf
              rw [← hb, List.getLast?_append, hl]
              rfl
            rw [List.getLast?_eq_getElem?] at hlast
            have hseq := (hn _ _ hlast).1
            have hpos := (List.getElem?_eq_some_iff.mp hlast).1
            simp only [Option.map_some, Option.getD_some]
            omega
      · cases hl : r.chunks.drop idx with
        | nil => simpa [takeBytes] using hnext
        | cons x xs =>
            have hx := hbig x (by simp [hl])
            simpa [takeBytes, hx] using hnext

theorem subscribe_open {r r' : Ring} (ho : r.closed = false) {cursor : Cursor}
    {replay : ReadResult} {id : Nat} (h : r.subscribe cursor = some (replay, id, r')) :
    r.read cursor 0 = some replay ∧
      r' = { r with nextSubID := r.nextSubID + 1, subs := r.subs ++ [r.nextSubID] } := by
  simp only [Ring.subscribe] at h
  cases hr : r.read cursor 0 with
  | none => simp [hr] at h
  | some found =>
      simp only [hr, ho, Bool.false_eq_true, if_false, Option.some.injEq, Prod.mk.injEq] at h
      obtain ⟨rfl, rfl, rfl⟩ := h
      exact ⟨rfl, by simp [ho]⟩

structure Inv (s : System) : Prop where
  numbered : Numbered s.history
  next : s.ring.nextSeq = s.history.length
  retained : s.ring.chunks <:+ s.history
  opened : s.ring.closed = false
  subs : s.ring.subs = List.range s.followers.length
  nextSub : s.ring.nextSubID = s.followers.length
  maxChunk : 0 < s.ring.maxChunkBytes
  payloads : ∀ a ∈ s.appenders, ∀ p ∈ a, p.2 ≠ []
  flying : ∀ d ∈ s.inFlight, s.history[d.chunk.seq]? = some d.chunk ∧
    d.sub < s.followers.length
  distinct : (s.inFlight.map fun d => (d.chunk.seq, d.sub)).Nodup
  due : ∀ (id : Nat) f, s.followers[id]? = some f → ∀ n,
    (∃ d ∈ s.inFlight, d.sub = id ∧ d.chunk.seq = n) ↔
      f.expectedSeq + f.sub.queue.length ≤ n ∧ n < s.history.length
  tracks : ∀ f ∈ s.followers, ∃ groups gathered, f.Tracks s.history groups gathered

theorem inv_start (capacityBytes maxChunkBytes : Int) : Inv (start capacityBytes maxChunkBytes) where
  numbered := by simp [Numbered, start]
  next := rfl
  retained := List.nil_suffix
  opened := rfl
  subs := rfl
  nextSub := rfl
  maxChunk := by
    simp only [start, Ring.new]
    split
    · decide
    · omega
  payloads := nofun
  flying := nofun
  distinct := List.nodup_nil
  due := nofun
  tracks := nofun

variable {s t : System}

theorem Inv.move (h : Inv s) {id : Nat} {move : Follower → Option Follower}
    (ht : onFollower s id move = some t)
    (hmove : ∀ f g groups gathered, f.Tracks s.history groups gathered → move f = some g →
      (∃ groups' gathered', g.Tracks s.history groups' gathered') ∧
        g.expectedSeq + g.sub.queue.length = f.expectedSeq + f.sub.queue.length) : Inv t := by
  unfold onFollower at ht
  cases hf : s.followers[id]? with
  | none => simp [hf] at ht
  | some f =>
      simp only [hf, Option.map_eq_some_iff] at ht
      obtain ⟨g, hg, rfl⟩ := ht
      obtain ⟨groups, gathered, htr⟩ := h.tracks f (List.mem_of_getElem? hf)
      obtain ⟨htr', hsame⟩ := hmove f g groups gathered htr hg
      refine { h with subs := ?_, nextSub := ?_, flying := ?_, due := ?_, tracks := ?_ }
      · simpa using h.subs
      · simpa using h.nextSub
      · simpa using h.flying
      · intro j x hx n
        by_cases hj : id = j
        · subst hj
          rw [List.getElem?_set_self (List.getElem?_eq_some_iff.mp hf).1] at hx
          cases hx
          rw [hsame]
          exact h.due id f hf n
        · rw [List.getElem?_set_ne hj] at hx
          exact h.due j x hx n
      · intro x hx
        rcases List.mem_or_eq_of_mem_set hx with hx | rfl
        · exact h.tracks x hx
        · exact htr'

theorem getElem?_snoc {α : Type} {l : List α} {a b : α} {i : Nat} (h : (l ++ [a])[i]? = some b) :
    l[i]? = some b ∨ (i = l.length ∧ b = a) := by
  rcases Nat.lt_or_ge i l.length with hlt | hge
  · rw [List.getElem?_append_left hlt] at h
    exact Or.inl h
  · rw [List.getElem?_append_right hge, List.getElem?_singleton] at h
    split at h
    · cases h
      exact Or.inr ⟨by omega, rfl⟩
    · cases h

theorem Inv.append (h : Inv s) {stream : StreamKind} {data : List UInt8}
    (ht : step s (.append stream data) = some t) : Inv t := by
  cases ht
  refine { h with payloads := fun a ha p hp => ?_ }
  rcases List.mem_append.mp ha with ha | ha
  · exact h.payloads a ha p hp
  · rw [List.mem_singleton.mp ha] at hp
    obtain ⟨q, hq, rfl⟩ := List.mem_map.mp hp
    exact pieces_ne_nil h.maxChunk q hq

theorem Inv.store (h : Inv s) {i : Nat} {tMs : Int} (ht : step s (.store i tMs) = some t) :
    Inv t := by
  simp only [step] at ht
  split at ht
  · rename_i stream payload rest hi
    split at ht
    · cases ht
    · split at ht
      · rename_i hnone
        simp [Ring.appendChunk, h.opened] at hnone
      · rename_i chunk subs ring hsome
        cases ht
        obtain ⟨rfl, rfl, hnext, hsuf, hsubs, hsub, ho, hmax⟩ := appendChunk_open h.opened hsome
        have hmem := List.mem_of_getElem? hi
        have hnew : ∀ n, n < s.history.length + 1 → n < s.history.length ∨ n = s.history.length :=
          fun n hn => Nat.lt_succ_iff_lt_or_eq.mp hn
        refine ⟨?_, ?_, ?_, ho, ?_, hsub.trans h.nextSub, hmax ▸ h.maxChunk, ?_, ?_, ?_, ?_, ?_⟩
        · intro j c hj
          rcases getElem?_snoc hj with hj | ⟨rfl, rfl⟩
          · exact h.numbered j c hj
          · exact ⟨h.next, h.payloads _ hmem _ List.mem_cons_self⟩
        · simp [hnext, h.next]
        · exact hsuf.trans (by obtain ⟨b, hb⟩ := h.retained; exact ⟨b, by rw [← List.append_assoc, hb]⟩)
        · exact hsubs.trans h.subs
        · intro a ha p hp
          rcases List.mem_or_eq_of_mem_set ha with ha | rfl
          · exact h.payloads a ha p hp
          · exact h.payloads _ hmem p (List.mem_cons_of_mem _ hp)
        · intro d hd
          rcases List.mem_append.mp hd with hd | hd
          · obtain ⟨hc, hs⟩ := h.flying d hd
            exact ⟨by rw [List.getElem?_append_left (List.getElem?_eq_some_iff.mp hc).1]; exact hc, hs⟩
          · obtain ⟨sub, hsub', rfl⟩ := List.mem_map.mp hd
            rw [h.subs, List.mem_range] at hsub'
            exact ⟨by simp [h.next], hsub'⟩
        · rw [List.map_append, List.nodup_append]
          refine ⟨h.distinct, ?_, ?_⟩
          · rw [List.map_map, h.subs]
            exact List.Nodup.map (fun a b hab => (Prod.mk.inj hab).2) List.nodup_range
          · intro x hx y hy hxy
            obtain ⟨d, hd, rfl⟩ := List.mem_map.mp hx
            obtain ⟨e, he, rfl⟩ := List.mem_map.mp hy
            obtain ⟨sub, -, rfl⟩ := List.mem_map.mp he
            have hlt := (List.getElem?_eq_some_iff.mp (h.flying d hd).1).1
            have heq : d.chunk.seq = s.ring.nextSeq := (Prod.mk.inj hxy).1
            rw [h.next] at heq
            omega
        · intro id f hf n
          have hold := h.due id f hf n
          have hlt : id < s.followers.length := (List.getElem?_eq_some_iff.mp hf).1
          obtain ⟨groups, gathered, htr⟩ := h.tracks f (List.mem_of_getElem? hf)
          have hb := htr.bounded
          simp only [List.length_append, List.length_singleton]
          constructor
          · rintro ⟨d, hd, hds, hdn⟩
            rcases List.mem_append.mp hd with hd | hd
            · have := hold.mp ⟨d, hd, hds, hdn⟩
              omega
            · obtain ⟨sub, -, rfl⟩ := List.mem_map.mp hd
              have hdn : s.ring.nextSeq = n := hdn
              rw [h.next] at hdn
              omega
          · rintro ⟨hle, hn⟩
            rcases hnew n hn with hn | rfl
            · obtain ⟨d, hd, hds, hdn⟩ := hold.mpr ⟨hle, hn⟩
              exact ⟨d, List.mem_append_left _ hd, hds, hdn⟩
            · refine ⟨⟨i, _, id⟩, List.mem_append_right _ (List.mem_map.mpr ⟨id, ?_, rfl⟩), rfl, h.next⟩
              rw [h.subs]
              exact List.mem_range.mpr hlt
        · intro f hf
          obtain ⟨groups, gathered, htr⟩ := h.tracks f hf
          exact ⟨groups, gathered, htr.stored _⟩
  · cases ht

theorem Inv.deliver (h : Inv s) {d : Delivery} (ht : step s (.deliver d) = some t)
    (hroom : HasRoom s (.deliver d)) (hturn : InTurn s (.deliver d)) : Inv t := by
  simp only [step] at ht
  split at ht
  · rename_i hd
    obtain ⟨u, hu, rfl⟩ := Option.map_eq_some_iff.mp ht
    unfold onFollower at hu
    cases hf : s.followers[d.sub]? with
    | none => simp [hf] at hu
    | some f =>
        simp only [hf, Option.map_some, Option.some.injEq] at hu
        subst hu
        obtain ⟨groups, gathered, htr⟩ := h.tracks f (List.mem_of_getElem? hf)
        have hdue := (h.due d.sub f hf d.chunk.seq).mp ⟨d, hd, rfl, rfl⟩
        have hseq : d.chunk.seq = f.expectedSeq + f.sub.queue.length := by
          obtain ⟨d', hd', hs', hn'⟩ := (h.due d.sub f hf _).mpr
            ⟨Nat.le_refl _, by omega⟩
          have := hturn d' hd' hs'
          omega
        obtain ⟨htr', hlen⟩ := htr.deliver (hroom f hf) (hseq ▸ (h.flying d hd).1)
        have hnodup : s.inFlight.Nodup := List.Nodup.of_map _ h.distinct
        have hinj : ∀ e ∈ s.inFlight, e.chunk.seq = d.chunk.seq → e.sub = d.sub → e = d :=
          fun e he hs hsub => List.inj_on_of_nodup_map h.distinct he hd (Prod.ext hs hsub)
        refine { h with subs := ?_, nextSub := ?_, flying := ?_, distinct := ?_, due := ?_,
                        tracks := ?_ }
        · simpa using h.subs
        · simpa using h.nextSub
        · intro e he
          simpa using h.flying e (List.mem_of_mem_erase he)
        · exact h.distinct.sublist ((List.erase_sublist).map _)
        · intro id x hx n
          simp only [hnodup.mem_erase_iff]
          by_cases hid : d.sub = id
          · subst hid
            rw [List.getElem?_set_self (List.getElem?_eq_some_iff.mp hf).1] at hx
            cases hx
            simp only [hlen]
            constructor
            · rintro ⟨e, ⟨hne, he⟩, hs, rfl⟩
              have hb := (h.due d.sub f hf _).mp ⟨e, he, hs, rfl⟩
              refine ⟨?_, hb.2⟩
              by_contra hlt
              exact hne (hinj e he (by omega) hs)
            · rintro ⟨hle, hn⟩
              obtain ⟨e, he, hs, hen⟩ := (h.due d.sub f hf n).mpr ⟨by omega, hn⟩
              refine ⟨e, ⟨?_, he⟩, hs, hen⟩
              rintro rfl
              omega
          · rw [List.getElem?_set_ne hid] at hx
            rw [← h.due id x hx n]
            constructor
            · rintro ⟨e, ⟨-, he⟩, hs, hen⟩
              exact ⟨e, he, hs, hen⟩
            · rintro ⟨e, he, hs, hen⟩
              refine ⟨e, ⟨?_, he⟩, hs, hen⟩
              rintro rfl
              exact hid hs
        · intro x hx
          rcases List.mem_or_eq_of_mem_set hx with hx | rfl
          · exact h.tracks x hx
          · exact ⟨groups, gathered, htr'⟩
  · cases ht

theorem Inv.follow (h : Inv s) {cursor : Cursor} (ht : step s (.follow cursor) = some t)
    (hwhole : WholeReplay s (.follow cursor)) : Inv t := by
  obtain ⟨⟨replay, id, ring⟩, hsub, rfl⟩ := Option.map_eq_some_iff.mp ht
  obtain ⟨hread, rfl⟩ := subscribe_open h.opened hsub
  obtain ⟨hdrop, hnext⟩ := read_whole h.numbered h.next h.retained hread hwhole
  refine { h with subs := ?_, nextSub := ?_, flying := ?_, due := ?_, tracks := ?_ }
  · simp [h.subs, h.nextSub, List.range_succ]
  · simp [h.nextSub]
  · intro d hd
    obtain ⟨hc, hs⟩ := h.flying d hd
    exact ⟨hc, by simp only [List.length_append, List.length_singleton]; omega⟩
  · intro j x hx n
    rcases getElem?_snoc hx with hx | ⟨rfl, rfl⟩
    · exact h.due j x hx n
    · constructor
      · rintro ⟨d, hd, hs, -⟩
        have := (h.flying d hd).2
        omega
      · rintro ⟨hle, hn⟩
        have hle : s.history.length ≤ n := by simpa [hnext] using hle
        have hn : n < s.history.length := hn
        omega
  · intro x hx
    rcases List.mem_append.mp hx with hx | hx
    · exact h.tracks x hx
    · rw [List.mem_singleton.mp hx]
      refine ⟨[], [], rfl, Nat.le_refl _, ?_, ?_, ?_, nofun, ?_, hdrop, rfl⟩
      · simp [hnext]
      · simp
      · simp [hnext]
      · simp [Loop.left]

theorem step_inv (h : Inv s) {e : Event} (hok : InOrder s e) (ht : step s e = some t) : Inv t := by
  obtain ⟨hroom, hturn, hwhole⟩ := hok
  cases e with
  | append stream data => exact h.append ht
  | store i tMs => exact h.store ht
  | deliver d => exact h.deliver ht hroom hturn
  | follow cursor => exact h.follow ht hwhole
  | replay id =>
      refine h.move ht fun f g groups gathered htr hg => ?_
      refine ⟨⟨groups, gathered, htr.replayStep hg⟩, ?_⟩
      unfold Follower.replayStep at hg
      split at hg <;> cases hg <;> rfl
  | receive id => exact h.move ht fun f g groups gathered htr hg => htr.receive h.numbered hg
  | window id =>
      refine h.move ht fun f g groups gathered htr hg => ?_
      obtain ⟨groups', htr'⟩ := htr.window h.numbered hg
      refine ⟨⟨groups', [], htr'⟩, ?_⟩
      unfold Follower.window at hg
      split at hg
      · cases hg
        rfl
      · cases hg

theorem Follower.Tracks.covers (h : f.Tracks history groups gathered) :
    groups.flatten = (history.take (f.replay.nextSeq + groups.flatten.length)).drop
      f.replay.nextSeq ∧
      f.replay.nextSeq + groups.flatten.length + gathered.length = f.expectedSeq := by
  have hb := h.bounded
  have hs := h.started
  have hlen := congrArg List.length h.covered
  simp only [List.length_append, List.length_drop, List.length_take] at hlen
  have hpre : groups.flatten <+: history.drop f.replay.nextSeq := by
    have hcov := h.covered
    rw [List.drop_take] at hcov
    exact (List.prefix_append _ _).trans (hcov ▸ List.take_prefix _ _)
  refine ⟨?_, by omega⟩
  rw [List.drop_take, Nat.add_sub_cancel_left]
  exact List.prefix_iff_eq_take.mp hpre

theorem Inv.intact (h : Inv s) {id : Nat} {f : Follower} (hf : s.followers[id]? = some f) :
    Intact s id f := by
  obtain ⟨groups, gathered, htr⟩ := h.tracks f (List.mem_of_getElem? hf)
  obtain ⟨hcover, hlen⟩ := htr.covers
  have hb := htr.bounded
  refine ⟨htr.no_drop, _, groups, Nat.le_add_right _ _, by omega, hcover, htr.mergeable,
    htr.called, ?_⟩
  rintro ⟨hwait, hempty, hnone⟩
  have hg := htr.gathers
  rw [hwait] at hg
  have hg : gathered = [] := hg
  simp only [hg, List.length_nil, hempty] at hlen hb
  have hall : ¬ f.expectedSeq < s.history.length := by
    intro hlt
    obtain ⟨d, hd, hs, -⟩ := (h.due id f hf f.expectedSeq).mpr ⟨by simp [hempty], hlt⟩
    exact hnone d hd hs
  omega

/-- As long as chunks reach a subscription in the order of their numbers and no replay is cut
short, every listener gets the live output whole, in order and once. -/
theorem live_output_intact (capacityBytes maxChunkBytes : Int) (es : List Event) {s : System}
    (hrun : run step (start capacityBytes maxChunkBytes) es = some s)
    (hok : Admissible InOrder step (start capacityBytes maxChunkBytes) es) :
    ∀ (id : Nat) (f : Follower), s.followers[id]? = some f → Intact s id f := by
  have hinv : Inv s := run_invariant_of_admissible (fun s e t hi ho ht => step_inv hi ho ht)
    (inv_start capacityBytes maxChunkBytes) hok hrun
  exact fun id f hf => hinv.intact hf

def quietSession : List Event :=
  [.append .stdout [104], .follow .live, .replay 0, .store 0 5,
    .deliver ⟨0, ⟨0, 5, .stdout, [104]⟩, 0⟩, .receive 0, .window 0]

theorem live_output_intact_quietSession :
    ∃ s f, run step (start 0 0) quietSession = some s ∧ s.followers[0]? = some f ∧
      Intact s 0 f := by
  refine ⟨_, _, rfl, rfl, live_output_intact 0 0 quietSession rfl ?_ 0 _ rfl⟩
  refine ⟨⟨trivial, trivial, trivial⟩, fun t ht => ?_⟩
  cases ht
  refine ⟨⟨trivial, trivial, fun idx dropped hr => ?_⟩, fun t ht => ?_⟩
  · cases hr
    exact ⟨rfl, Or.inl (by decide)⟩
  cases ht
  refine ⟨⟨trivial, trivial, trivial⟩, fun t ht => ?_⟩
  cases ht
  refine ⟨⟨trivial, trivial, trivial⟩, fun t ht => ?_⟩
  cases ht
  refine ⟨⟨fun f hf => ?_, fun d hd _ => ?_, trivial⟩, fun t ht => ?_⟩
  · cases hf
    decide
  · cases List.mem_singleton.mp hd
    exact Nat.le_refl _
  cases ht
  refine ⟨⟨trivial, trivial, trivial⟩, fun t ht => ?_⟩
  cases ht
  exact ⟨⟨trivial, trivial, trivial⟩, fun t ht => trivial⟩

def overtaking : List Event :=
  [.append .stdout [104], .append .stderr [101], .follow .live, .replay 0, .store 0 5, .store 1 6,
    .deliver ⟨1, ⟨1, 6, .stderr, [101]⟩, 0⟩, .receive 0]

theorem overtaken_chunk_reported_dropped :
    ∃ s f, run step (start 0 0) overtaking = some s ∧
      Admissible HasRoom step (start 0 0) overtaking ∧ s.followers[0]? = some f ∧
      ¬ Intact s 0 f := by
  refine ⟨_, _, rfl, ?_, rfl, fun h => h.1 0 0 (by decide)⟩
  refine ⟨trivial, fun t ht => ?_⟩
  cases ht
  refine ⟨trivial, fun t ht => ?_⟩
  cases ht
  refine ⟨trivial, fun t ht => ?_⟩
  cases ht
  refine ⟨trivial, fun t ht => ?_⟩
  cases ht
  refine ⟨trivial, fun t ht => ?_⟩
  cases ht
  refine ⟨trivial, fun t ht => ?_⟩
  cases ht
  refine ⟨fun f hf => ?_, fun t ht => ⟨trivial, fun _ _ => trivial⟩⟩
  cases hf
  decide

end Dolgate.Ringbuf
