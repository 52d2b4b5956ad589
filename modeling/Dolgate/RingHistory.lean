import Dolgate.Ring
import Dolgate.Transition

set_option autoImplicit false

namespace Dolgate.Ringbuf
open Transition

/-- `Append`: one chunk per piece. `clock` tells when the chunk of each number is stored. -/
def Ring.append (clock : Nat → Int) (r : Ring) (stream : StreamKind) (data : List UInt8) : Ring :=
  (r.split data).foldl (fun r payload =>
    match r.appendChunk (clock r.nextSeq) stream payload with
    | none => r
    | some (_, _, r') => r') r

/-- `Close` forgets the subscriptions; closing their feeds is theirs. -/
def Ring.close (r : Ring) : Ring := if r.closed then r else { r with closed := true, subs := [] }

inductive Call where
  | append (stream : StreamKind) (data : List UInt8)
  | read (cursor : Cursor) (maxBytes : Int)
  | subscribe (cursor : Cursor)
  | close
deriving DecidableEq, Repr

structure Recorded where
  ring : Ring
  appended : List UInt8
deriving DecidableEq, Repr

def Recorded.call (clock : Nat → Int) (s : Recorded) : Call → Option Recorded
  | .append stream data =>
      some ⟨s.ring.append clock stream data,
        if s.ring.closed then s.appended else s.appended ++ data⟩
  | .read cursor maxBytes => (s.ring.read cursor maxBytes).map fun _ => s
  | .subscribe cursor => (s.ring.subscribe cursor).map fun (_, _, ring) => { s with ring := ring }
  | .close => some { s with ring := s.ring.close }

/-- Chunks are numbered one by one from `first` on. -/
def Consecutive (first : Nat) (chunks : List Chunk) : Prop :=
  ∀ (i : Nat) (c : Chunk), chunks[i]? = some c → c.seq = first + i

def byteCount (chunks : List Chunk) : Nat := (chunks.map fun c => c.bytes.length).sum

structure Represents (r : Ring) (appended : List UInt8) : Prop where
  consecutive : Consecutive r.headSeq r.chunks
  count : r.headSeq + r.chunks.length = r.nextSeq
  used : r.usedBytes = byteCount r.chunks
  bounded : r.usedBytes ≤ r.capacityBytes
  small : ∀ c ∈ r.chunks, c.bytes.length ≤ r.maxChunkBytes
  accounted : appended.length = r.usedBytes + r.droppedBytesTotal
  retained : r.chunks.flatMap Chunk.bytes <:+ appended

/-- `Read` returns, and the index that it slices at is within the chunks. -/
def Returns (r : Ring) (cursor : Cursor) (maxBytes : Int) : Prop :=
  (∃ result, r.read cursor maxBytes = some result) ∧
    ∃ idx dropped, r.resolveCursor cursor = some (idx, dropped) ∧ idx ≤ r.chunks.length

/-- A sequence cursor is less than `2 ^ 63` past the oldest chunk, so its index is an `int`. -/
def FitsInt (r : Ring) : Cursor → Prop
  | .seq seq => seq < r.headSeq + 2 ^ 63
  | _ => True

theorem Consecutive.tail {first : Nat} {c : Chunk} {chunks : List Chunk}
    (h : Consecutive first (c :: chunks)) : c.seq = first ∧ Consecutive (first + 1) chunks := by
  refine ⟨by simpa using h 0 c rfl, fun i d hd => ?_⟩
  have := h (i + 1) d (by simpa using hd)
  omega

theorem Consecutive.snoc {first : Nat} {c : Chunk} {chunks : List Chunk}
    (h : Consecutive first chunks) (hc : c.seq = first + chunks.length) :
    Consecutive first (chunks ++ [c]) := by
  intro i d hd
  rcases lt_trichotomy i chunks.length with hi | hi | hi
  · rw [List.getElem?_append_left hi] at hd
    exact h i d hd
  · subst hi
    simp only [List.getElem?_concat_length, Option.some.injEq] at hd
    rw [← hd, hc]
  · rw [List.getElem?_eq_none (by simp; omega)] at hd
    cases hd

theorem evict_spec (capacity : Nat) (chunks : List Chunk) (total head : Nat)
    (hc : Consecutive head chunks) :
    let kept := evict capacity chunks (byteCount chunks) total head
    Consecutive kept.headSeq kept.chunks ∧
      kept.headSeq + kept.chunks.length = head + chunks.length ∧
      kept.usedBytes = byteCount kept.chunks ∧ kept.usedBytes ≤ capacity ∧
      kept.usedBytes + kept.droppedBytesTotal = byteCount chunks + total := by
  induction chunks generalizing total head with
  | nil => simp [evict, byteCount, Consecutive]
  | cons front rest ih =>
      obtain ⟨hseq, hrest⟩ := hc.tail
      have hcount : byteCount (front :: rest) = front.bytes.length + byteCount rest := by
        simp [byteCount]
      simp only [evict]
      split
      · have := ih (total + front.bytes.length) (front.seq + 1) (hseq ▸ hrest)
        rw [hcount, Nat.add_sub_cancel_left]
        simp only [List.length_cons] at this ⊢
        obtain ⟨h₁, h₂, h₃, h₄, h₅⟩ := this
        exact ⟨h₁, by omega, h₃, h₄, by omega⟩
      · exact ⟨hc, rfl, rfl, not_lt.mp ‹_›, rfl⟩

theorem pieces_length {max fuel : Nat} {data : List UInt8} :
    ∀ p ∈ pieces max fuel data, p.length ≤ max := by
  induction fuel generalizing data with
  | zero => simp [pieces]
  | succ fuel ih =>
      simp only [pieces]
      split
      · simp
      · intro p hp
        rcases List.mem_cons.mp hp with rfl | hp
        · exact List.length_take_le _ _
        · exact ih p hp

theorem pieces_flatten {max fuel : Nat} (hmax : 0 < max) {data : List UInt8}
    (hf : data.length ≤ fuel) : (pieces max fuel data).flatten = data := by
  induction fuel generalizing data with
  | zero => simpa [pieces, eq_comm] using hf
  | succ fuel ih =>
      simp only [pieces]
      split
      · simp [*]
      · rename_i hne
        have hpos : 0 < data.length := List.length_pos_iff.mpr hne
        rw [List.flatten_cons, ih (by simp; omega), List.take_append_drop]

variable {r r' : Ring} {appended : List UInt8}

theorem Represents.appendChunk {tMs : Int} {stream : StreamKind} {payload : List UInt8} {c : Chunk}
    {subs : List Nat} (hr : Represents r appended) (hp : payload.length ≤ r.maxChunkBytes)
    (h : r.appendChunk tMs stream payload = some (c, subs, r')) :
    Represents r' (appended ++ payload) ∧ r.closed = false ∧ r'.closed = false ∧
      r'.maxChunkBytes = r.maxChunkBytes := by
  unfold Ring.appendChunk at h
  split at h
  · cases h
  · rename_i hopen
    simp only [Option.some.injEq, Prod.mk.injEq] at h
    obtain ⟨-, -, rfl⟩ := h
    -- an empty ring has its head at the next number already
    have hhead : (if r.chunks = [] then r.nextSeq else r.headSeq) = r.headSeq := by
      split
      · rename_i hnil
        have := hr.count
        simp [hnil] at this
        omega
      · rfl
    have hcount : byteCount (r.chunks ++ [⟨r.nextSeq, tMs, stream, payload⟩]) =
        r.usedBytes + payload.length := by
      simp [byteCount, hr.used]
    have hspec := evict_spec r.capacityBytes (r.chunks ++ [⟨r.nextSeq, tMs, stream, payload⟩])
      r.droppedBytesTotal r.headSeq (hr.consecutive.snoc hr.count.symm)
    have hsuffix := evict_suffix r.capacityBytes (r.chunks ++ [⟨r.nextSeq, tMs, stream, payload⟩])
      (r.usedBytes + payload.length) r.droppedBytesTotal r.headSeq
    rw [hcount] at hspec
    simp only [hhead]
    obtain ⟨hcons, hlen, hused, hle, hacc⟩ := hspec
    refine ⟨⟨hcons, ?_, hused, hle, ?_, ?_, ?_⟩, by simpa using hopen, by simpa using hopen,
      trivial⟩
    · simp only [List.length_append, List.length_singleton] at hlen
      have := hr.count
      simp only
      omega
    · intro c hc
      rcases List.mem_append.mp (hsuffix.subset hc) with hc | hc
      · exact hr.small c hc
      · cases List.mem_singleton.mp hc
        exact hp
    · have := hr.accounted
      simp only [List.length_append]
      omega
    · obtain ⟨before, hbefore⟩ := hsuffix
      obtain ⟨dropped, hdropped⟩ := hr.retained
      refine ⟨dropped ++ before.flatMap Chunk.bytes, ?_⟩
      rw [List.append_assoc, ← List.flatMap_append, hbefore, List.flatMap_append, ← hdropped]
      simp

theorem Represents.foldl (clock : Nat → Int) (stream : StreamKind) (payloads : List (List UInt8))
    (hr : Represents r appended) (hp : ∀ p ∈ payloads, p.length ≤ r.maxChunkBytes) :
    let r' := payloads.foldl (fun r payload =>
      match r.appendChunk (clock r.nextSeq) stream payload with
      | none => r
      | some (_, _, r') => r') r
    Represents r' (if r.closed then appended else appended ++ payloads.flatten) ∧
      r'.maxChunkBytes = r.maxChunkBytes := by
  induction payloads generalizing r appended with
  | nil => simpa using hr
  | cons payload payloads ih =>
      simp only [List.foldl_cons]
      cases h : r.appendChunk (clock r.nextSeq) stream payload with
      | none =>
          have hclosed : r.closed = true := by
            by_contra hopen
            simp [Ring.appendChunk, hopen] at h
          have := ih hr fun p hp' => hp p (List.mem_cons_of_mem _ hp')
          simpa only [hclosed, if_true] using this
      | some found =>
          obtain ⟨c, subs, r'⟩ := found
          obtain ⟨hr', hopen, hopen', hmax⟩ := hr.appendChunk (hp payload List.mem_cons_self) h
          have := ih hr' fun p hp' => hmax ▸ hp p (List.mem_cons_of_mem _ hp')
          simpa [hopen, hopen', hmax] using this

theorem Represents.append (clock : Nat → Int) (stream : StreamKind) (data : List UInt8)
    (hr : Represents r appended) (hmax : 0 < r.maxChunkBytes) :
    Represents (r.append clock stream data) (if r.closed then appended else appended ++ data) ∧
      0 < (r.append clock stream data).maxChunkBytes := by
  have := hr.foldl clock stream (r.split data) pieces_length
  rw [show (r.split data).flatten = data from pieces_flatten hmax le_rfl] at this
  exact ⟨this.1, this.2 ▸ hmax⟩

def Recorded.Sound (s : Recorded) : Prop :=
  Represents s.ring s.appended ∧ 0 < s.ring.maxChunkBytes

theorem sound_new (capacityBytes maxChunkBytes : Int) :
    Recorded.Sound ⟨Ring.new capacityBytes maxChunkBytes, []⟩ := by
  refine ⟨⟨?_, rfl, rfl, Nat.zero_le _, ?_, rfl, List.nil_suffix⟩, ?_⟩
  · simp [Consecutive, Ring.new]
  · simp [Ring.new]
  · simp only [Ring.new]
    split
    · decide
    · omega

theorem Recorded.Sound.call {clock : Nat → Int} {s t : Recorded} {c : Call} (hr : s.Sound)
    (h : s.call clock c = some t) : t.Sound := by
  obtain ⟨hr, hmax⟩ := hr
  cases c with
  | append stream data =>
      cases h
      exact hr.append clock stream data hmax
  | read cursor maxBytes =>
      obtain ⟨-, -, rfl⟩ := Option.map_eq_some_iff.mp h
      exact ⟨hr, hmax⟩
  | subscribe cursor =>
      obtain ⟨⟨replay, id, ring⟩, hs, rfl⟩ := Option.map_eq_some_iff.mp h
      unfold Ring.subscribe at hs
      split at hs
      · cases hs
      · simp only at hs
        split at hs <;> cases hs <;>
          exact ⟨⟨hr.consecutive, hr.count, hr.used, hr.bounded, hr.small, hr.accounted,
            hr.retained⟩, hmax⟩
  | close =>
      cases h
      simp only [Ring.close]
      split
      · exact ⟨hr, hmax⟩
      · exact ⟨⟨hr.consecutive, hr.count, hr.used, hr.bounded, hr.small, hr.accounted,
          hr.retained⟩, hmax⟩

theorem tailIndex_le (want : Nat) (chunks : List Chunk) (covered idx : Nat) :
    tailIndex want chunks covered idx ≤ idx := by
  induction chunks generalizing covered idx with
  | nil => exact le_rfl
  | cons c chunks ih =>
      simp only [tailIndex]
      split
      · exact le_rfl
      · exact (ih _ _).trans (Nat.sub_le _ _)

theorem resolveCursor_le {cursor : Cursor} {idx : Nat} {dropped : Option DroppedRange}
    (h : r.resolveCursor cursor = some (idx, dropped)) : idx ≤ r.chunks.length := by
  cases cursor with
  | head =>
      cases h
      exact Nat.zero_le _
  | tailBytes bytes =>
      cases h
      exact tailIndex_le _ _ _ _
  | seq seq =>
      simp only [Ring.resolveCursor] at h
      split_ifs at h <;> cases h <;> omega
  | timeMs tMs =>
      cases h
      exact List.findIdx_le_length
  | live =>
      cases h
      exact le_rfl

theorem resolveCursor_isSome (cursor : Cursor) :
    (∃ idx dropped, r.resolveCursor cursor = some (idx, dropped)) ↔ FitsInt r cursor := by
  cases cursor with
  | seq seq =>
      simp only [Ring.resolveCursor, FitsInt]
      split_ifs <;> simp <;> omega
  | _ => simp [Ring.resolveCursor, FitsInt]

theorem returns_iff (cursor : Cursor) (maxBytes : Int) :
    Returns r cursor maxBytes ↔ FitsInt r cursor := by
  rw [← resolveCursor_isSome]
  constructor
  · rintro ⟨-, idx, dropped, h, -⟩
    exact ⟨idx, dropped, h⟩
  · rintro ⟨idx, dropped, h⟩
    refine ⟨?_, idx, dropped, h, resolveCursor_le h⟩
    simp [Ring.read, h]

theorem ring_represents (capacityBytes maxChunkBytes : Int) (clock : Nat → Int) (calls : List Call)
    {s : Recorded}
    (hrun : run (Recorded.call clock) ⟨Ring.new capacityBytes maxChunkBytes, []⟩ calls = some s) :
    Represents s.ring s.appended ∧
      ∀ cursor maxBytes, Returns s.ring cursor maxBytes ↔ FitsInt s.ring cursor := by
  have hr : s.Sound := run_invariant (fun _ _ _ hr h => hr.call h)
    (sound_new capacityBytes maxChunkBytes) hrun
  exact ⟨hr.1, returns_iff⟩

/-- Five bytes in chunks of two, kept to three bytes. -/
theorem ring_represents_evicted :
    ∃ s, run (Recorded.call fun n => n) ⟨Ring.new 3 2, []⟩
        [.append .stdout [1, 2, 3, 4, 5], .read .head 0, .close] = some s ∧
      s.ring.headSeq = 1 ∧ s.ring.droppedBytesTotal = 2 ∧ Represents s.ring s.appended := by
  exact ⟨_, rfl, rfl, rfl, (ring_represents 3 2 (fun n => n)
    [.append .stdout [1, 2, 3, 4, 5], .read .head 0, .close] rfl).1⟩

theorem read_past_int_panics :
    2 ^ 63 < 2 ^ 64 ∧ ¬ Returns (Ring.new 0 0) (.seq (2 ^ 63)) 0 := by
  refine ⟨by norm_num, ?_⟩
  rintro ⟨⟨result, h⟩, -⟩
  cases h

end Dolgate.Ringbuf
