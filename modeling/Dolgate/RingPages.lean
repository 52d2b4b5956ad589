import Dolgate.RingHandover

set_option autoImplicit false

namespace Dolgate.Ringbuf
open Transition

def DroppedRange.seqs (d : DroppedRange) : List Nat :=
  List.range' d.fromSeq (d.toSeq + 1 - d.fromSeq)

inductive Report where
  | dropped (seq : Nat)
  | yielded (chunk : Chunk)
deriving DecidableEq, Repr

def Report.seq : Report → Nat
  | .dropped seq => seq
  | .yielded chunk => chunk.seq

def ReadResult.reports (result : ReadResult) : List Report :=
  ((result.dropped.map DroppedRange.seqs).getD []).map Report.dropped ++
    result.chunks.map Report.yielded

def pageBytes (maxBytes : Int) : Nat :=
  if maxBytes ≤ 0 then defaultReadMaxBytes else maxBytes.toNat

def Ring.Serves (r : Ring) (seq : Nat) (maxBytes : Int) : Prop :=
  seq = r.nextSeq ∨
    ∃ c ∈ r.chunks, c.seq = max seq r.headSeq ∧ c.bytes.length ≤ pageBytes maxBytes

instance (r : Ring) (seq : Nat) (maxBytes : Int) : Decidable (r.Serves seq maxBytes) :=
  inferInstanceAs (Decidable (_ ∨ _))

/-- A reader that goes on at `NextSeq` each time, while the ring is in use. -/
structure Pager where
  recorded : Recorded
  cursor : Nat
  log : List Report
deriving DecidableEq, Repr

inductive PagerMove where
  | call (c : Call)
  | page (maxBytes : Int)
deriving DecidableEq, Repr

def Pager.ring (p : Pager) : Ring := p.recorded.ring

def Pager.step (clock : Nat → Int) (p : Pager) : PagerMove → Option Pager
  | .call c => (p.recorded.call clock c).map fun recorded => { p with recorded := recorded }
  | .page maxBytes =>
      (p.ring.read (.seq p.cursor) maxBytes).map fun result =>
        { p with cursor := result.nextSeq, log := p.log ++ result.reports }

def Pager.Served (p : Pager) : PagerMove → Prop
  | .call _ => True
  | .page maxBytes => p.ring.Serves p.cursor maxBytes

instance (p : Pager) : DecidablePred p.Served
  | .call _ => inferInstanceAs (Decidable True)
  | .page maxBytes => inferInstanceAs (Decidable (p.ring.Serves p.cursor maxBytes))

/-- Every number since `first` is in the log once, and the chunks that are still retained are there
themselves. -/
structure Pager.Accounted (first : Nat) (p : Pager) : Prop where
  exact : p.log.map Report.seq = List.range' first (p.cursor - first)
  once : ∀ c ∈ p.ring.chunks, first ≤ c.seq → c.seq < p.cursor → p.log.count (.yielded c) = 1
  evicted : ∀ seq, Report.dropped seq ∈ p.log → seq < p.ring.headSeq

/-- Chunks hold bytes, and the capacity is an `int`. -/
structure Ring.Packed (r : Ring) : Prop where
  capacity : r.capacityBytes < 2 ^ 63
  filled : ∀ c ∈ r.chunks, c.bytes ≠ []

/-- What time does to a ring: chunks are stored behind the last one and leave in front. -/
structure Ring.Later (r r' : Ring) : Prop where
  capacity : r'.capacityBytes = r.capacityBytes
  next : r.nextSeq ≤ r'.nextSeq
  head : r.headSeq ≤ r'.headSeq
  kept : ∀ c ∈ r.chunks, r'.headSeq ≤ c.seq → c ∈ r'.chunks
  filled : (∀ c ∈ r.chunks, c.bytes ≠ []) → ∀ c ∈ r'.chunks, c.bytes ≠ []

theorem Ring.Later.refl (r : Ring) : r.Later r :=
  ⟨rfl, le_rfl, le_rfl, fun _ hc _ => hc, fun h => h⟩

theorem Ring.Later.trans {r r' r'' : Ring} (h : r.Later r') (h' : r'.Later r'') : r.Later r'' where
  capacity := h'.capacity.trans h.capacity
  next := h.next.trans h'.next
  head := h.head.trans h'.head
  kept c hc hseq := h'.kept c (h.kept c hc (h'.head.trans hseq)) hseq
  filled hf := h'.filled (h.filled hf)

variable {r r' : Ring} {appended : List UInt8}

theorem Ring.Packed.later (hp : r.Packed) (h : r.Later r') : r'.Packed :=
  ⟨h.capacity ▸ hp.capacity, h.filled hp.filled⟩

theorem evict_later (capacity : Nat) (chunks : List Chunk) (used total head : Nat)
    (hc : Consecutive head chunks) :
    head ≤ (evict capacity chunks used total head).headSeq ∧
      ∀ c ∈ chunks, (evict capacity chunks used total head).headSeq ≤ c.seq →
        c ∈ (evict capacity chunks used total head).chunks := by
  induction chunks generalizing used total head with
  | nil => simp [evict]
  | cons front rest ih =>
      obtain ⟨hseq, hrest⟩ := hc.tail
      simp only [evict]
      split
      · obtain ⟨hhead, hkept⟩ := ih (used - front.bytes.length) (total + front.bytes.length)
          (front.seq + 1) (hseq ▸ hrest)
        refine ⟨by omega, fun c hmem hle => ?_⟩
        rcases List.mem_cons.mp hmem with rfl | hmem
        · omega
        · exact hkept c hmem hle
      · exact ⟨le_rfl, fun c hmem _ => hmem⟩

theorem appendChunk_later {tMs : Int} {stream : StreamKind} {payload : List UInt8} {c : Chunk}
    {subs : List Nat} (hr : Represents r appended) (hp : payload ≠ [])
    (h : r.appendChunk tMs stream payload = some (c, subs, r')) : r.Later r' := by
  unfold Ring.appendChunk at h
  split at h
  · cases h
  · simp only [Option.some.injEq, Prod.mk.injEq] at h
    obtain ⟨-, -, rfl⟩ := h
    have hhead : (if r.chunks = [] then r.nextSeq else r.headSeq) = r.headSeq := by
      split
      · rename_i hnil
        have := hr.count
        simp only [hnil, List.length_nil] at this
        omega
      · rfl
    have hspec := evict_later r.capacityBytes (r.chunks ++ [⟨r.nextSeq, tMs, stream, payload⟩])
      (r.usedBytes + payload.length) r.droppedBytesTotal r.headSeq
      (hr.consecutive.snoc hr.count.symm)
    have hsuffix := evict_suffix r.capacityBytes (r.chunks ++ [⟨r.nextSeq, tMs, stream, payload⟩])
      (r.usedBytes + payload.length) r.droppedBytesTotal r.headSeq
    simp only [hhead]
    refine ⟨rfl, Nat.le_succ _, hspec.1, fun c hc => hspec.2 c (List.mem_append_left _ hc), ?_⟩
    intro hfilled c hc
    rcases List.mem_append.mp (hsuffix.subset hc) with hc | hc
    · exact hfilled c hc
    · cases List.mem_singleton.mp hc
      exact hp

theorem append_later (clock : Nat → Int) (stream : StreamKind) (payloads : List (List UInt8))
    (hr : Represents r appended)
    (hp : ∀ p ∈ payloads, p.length ≤ r.maxChunkBytes ∧ p ≠ []) :
    r.Later (payloads.foldl (fun r payload =>
      match r.appendChunk (clock r.nextSeq) stream payload with
      | none => r
      | some (_, _, r') => r') r) := by
  induction payloads generalizing r appended with
  | nil => exact .refl r
  | cons payload payloads ih =>
      have hfirst := hp payload List.mem_cons_self
      simp only [List.foldl_cons]
      cases h : r.appendChunk (clock r.nextSeq) stream payload with
      | none => exact ih hr fun p hp' => hp p (List.mem_cons_of_mem _ hp')
      | some found =>
          obtain ⟨c, subs, r'⟩ := found
          obtain ⟨hr', -, -, hmax⟩ := hr.appendChunk hfirst.1 h
          have hrest := ih hr' fun p hp' => hmax ▸ hp p (List.mem_cons_of_mem _ hp')
          exact (appendChunk_later hr hfirst.2 h).trans hrest

theorem Recorded.Sound.later {clock : Nat → Int} {s t : Recorded} {c : Call} (hs : s.Sound)
    (h : s.call clock c = some t) : s.ring.Later t.ring := by
  cases c with
  | append stream data =>
      cases h
      exact append_later clock stream _ hs.1 fun p hp =>
        ⟨pieces_length p hp, pieces_ne_nil hs.2 p hp⟩
  | read cursor maxBytes =>
      obtain ⟨-, -, rfl⟩ := Option.map_eq_some_iff.mp h
      exact .refl s.ring
  | subscribe cursor =>
      obtain ⟨⟨replay, id, ring⟩, hsub, rfl⟩ := Option.map_eq_some_iff.mp h
      unfold Ring.subscribe at hsub
      split at hsub
      · cases hsub
      · simp only at hsub
        split at hsub <;> cases hsub <;>
          exact ⟨rfl, le_rfl, le_rfl, fun _ hc _ => hc, fun hf => hf⟩
  | close =>
      cases h
      simp only [Ring.close]
      split
      · exact .refl s.ring
      · exact ⟨rfl, le_rfl, le_rfl, fun _ hc _ => hc, fun hf => hf⟩

theorem packed_new {capacityBytes : Int} (hcap : capacityBytes < 2 ^ 63) (maxChunkBytes : Int) :
    (Ring.new capacityBytes maxChunkBytes).Packed := by
  constructor
  · simp only [Ring.new]
    split
    · decide
    · omega
  · simp [Ring.new]

theorem length_le_byteCount {chunks : List Chunk} (h : ∀ c ∈ chunks, c.bytes ≠ []) :
    chunks.length ≤ byteCount chunks := by
  induction chunks with
  | nil => exact Nat.zero_le _
  | cons c chunks ih =>
      have hrest := ih fun d hd => h d (List.mem_cons_of_mem _ hd)
      have hc := List.length_pos_iff.mpr (h c List.mem_cons_self)
      simp only [byteCount, List.map_cons, List.sum_cons, List.length_cons] at hrest ⊢
      omega

theorem Ring.Packed.length_lt (hp : r.Packed) (hr : Represents r appended) :
    r.chunks.length < 2 ^ 63 := by
  have hlen := length_le_byteCount hp.filled
  have hused := hr.used
  have hbounded := hr.bounded
  have hcap := hp.capacity
  omega

theorem Consecutive.drop {first n : Nat} {chunks : List Chunk} (h : Consecutive first chunks) :
    Consecutive (first + n) (chunks.drop n) := by
  intro i c hc
  rw [List.getElem?_drop] at hc
  have := h (n + i) c hc
  omega

theorem Consecutive.take_left {first : Nat} {chunks out : List Chunk} (h : Consecutive first chunks)
    (hout : out <+: chunks) : Consecutive first out := by
  obtain ⟨rest, rfl⟩ := hout
  intro i c hc
  exact h i c (by rw [List.getElem?_append_left (List.getElem?_eq_some_iff.mp hc).1]; exact hc)

theorem read_seq (hr : Represents r appended) (hp : r.Packed) {seq : Nat} (hseq : seq ≤ r.nextSeq)
    (maxBytes : Int) :
    r.read (.seq seq) maxBytes =
      some ⟨takeBytes (pageBytes maxBytes) (r.chunks.drop (seq - r.headSeq)) 0,
        ((takeBytes (pageBytes maxBytes) (r.chunks.drop (seq - r.headSeq)) 0).getLast?.map
          fun c => c.seq + 1).getD r.nextSeq,
        if r.chunks ≠ [] ∧ seq < r.headSeq then some ⟨seq, r.headSeq - 1⟩ else none⟩ := by
  have hlen := hp.length_lt hr
  have hcount := hr.count
  by_cases hlt : seq < r.headSeq
  · by_cases hnil : r.chunks = []
    · simp [Ring.read, Ring.resolveCursor, hnil, hlt, pageBytes]
    · simp [Ring.read, Ring.resolveCursor, hnil, hlt, pageBytes, Nat.sub_eq_zero_of_le hlt.le]
  · have hfits : ¬ 2 ^ 63 ≤ seq - r.headSeq := by omega
    have hmin : min (seq - r.headSeq) r.chunks.length = seq - r.headSeq := by omega
    simp only [Ring.read, Ring.resolveCursor, hlt, and_false, if_false, hfits, hmin, pageBytes]

/-- What one read does with the numbers from `seq` on. -/
structure Ring.Paged (r : Ring) (seq : Nat) (maxBytes : Int) (result : ReadResult) : Prop where
  forward : seq < r.nextSeq → seq < result.nextSeq
  within : seq ≤ result.nextSeq ∧ result.nextSeq ≤ r.nextSeq
  numbers : ∃ n ≤ result.nextSeq - seq, result.reports.map Report.seq = List.range' seq n ∧
    (n = result.nextSeq - seq ↔ r.Serves seq maxBytes)
  yielded : ∀ c, Report.yielded c ∈ result.reports → c ∈ r.chunks
  evicted : ∀ n, Report.dropped n ∈ result.reports → n < r.headSeq

theorem map_seq_dropped (seqs : List Nat) :
    (seqs.map Report.dropped).map Report.seq = seqs := by
  simp [List.map_map, Function.comp_def, Report.seq]

theorem map_seq_yielded (chunks : List Chunk) :
    (chunks.map Report.yielded).map Report.seq = chunks.map Chunk.seq := by
  simp [List.map_map, Function.comp_def, Report.seq]

theorem mem_reports_dropped {result : ReadResult} {n : Nat} :
    Report.dropped n ∈ result.reports ↔ n ∈ (result.dropped.map DroppedRange.seqs).getD [] := by
  simp [ReadResult.reports]

theorem mem_reports_yielded {result : ReadResult} {c : Chunk} :
    Report.yielded c ∈ result.reports ↔ c ∈ result.chunks := by
  simp [ReadResult.reports]

theorem dropped_seqs (r : Ring) (seq : Nat) :
    (((if r.chunks ≠ [] ∧ seq < r.headSeq then some ⟨seq, r.headSeq - 1⟩ else none :
      Option DroppedRange).map DroppedRange.seqs).getD []) =
        List.range' seq (if r.chunks = [] then 0 else r.headSeq - seq) := by
  by_cases hnil : r.chunks = []
  · simp [hnil]
  · by_cases hlt : seq < r.headSeq
    · simp only [hnil, hlt, ne_eq, not_false_eq_true, and_self, if_true, if_false, Option.map_some,
        Option.getD_some, DroppedRange.seqs]
      congr 1
      omega
    · simp [hnil, hlt, Nat.sub_eq_zero_of_le (not_lt.mp hlt)]

theorem takeBytes_cons_ne_nil {max : Nat} {c : Chunk} {rest : List Chunk} :
    takeBytes max (c :: rest) 0 ≠ [] ↔ c.bytes.length ≤ max := by
  simp only [takeBytes, Nat.zero_add]
  split <;> simp <;> omega

theorem Consecutive.unique {first : Nat} {chunks : List Chunk} (h : Consecutive first chunks)
    {c d : Chunk} (hc : c ∈ chunks) (hd : d ∈ chunks) (hseq : c.seq = d.seq) : c = d := by
  obtain ⟨i, hi⟩ := List.mem_iff_getElem?.mp hc
  obtain ⟨j, hj⟩ := List.mem_iff_getElem?.mp hd
  have hic := h i c hi
  have hjd := h j d hj
  have hij : i = j := by omega
  subst hij
  exact Option.some.inj (hi.symm.trans hj)

theorem Consecutive.getLast_seq {first : Nat} {chunks : List Chunk}
    (h : Consecutive first chunks) (hne : chunks ≠ []) (n : Nat) :
    (chunks.getLast?.map fun c => c.seq + 1).getD n = first + chunks.length := by
  have hpos := List.length_pos_iff.mpr hne
  have hlast : chunks.getLast? = some (chunks.getLast hne) := List.getLast?_eq_some_getLast hne
  have hseq := h (chunks.length - 1) _ ((List.getLast?_eq_getElem? (l := chunks)).symm.trans hlast)
  rw [hlast, Option.map_some, Option.getD_some, hseq]
  omega

theorem takeBytes_due (hr : Represents r appended) (seq limit : Nat) :
    takeBytes limit (r.chunks.drop (seq - r.headSeq)) 0 ≠ [] ↔
      ∃ c ∈ r.chunks, c.seq = max seq r.headSeq ∧ c.bytes.length ≤ limit := by
  have hmax : max seq r.headSeq = r.headSeq + (seq - r.headSeq) := by omega
  rw [hmax]
  cases hdrop : r.chunks.drop (seq - r.headSeq) with
  | nil =>
      have hlen := List.drop_eq_nil_iff.mp hdrop
      simp only [takeBytes, ne_eq, not_true_eq_false, false_iff]
      rintro ⟨c, hc, hseq, -⟩
      have := (hr.consecutive.mem hc).2
      omega
  | cons c rest =>
      have hmem : c ∈ r.chunks :=
        (List.drop_suffix (seq - r.headSeq) r.chunks).subset (hdrop ▸ List.mem_cons_self)
      have hseq : c.seq = r.headSeq + (seq - r.headSeq) := by
        have hdue := hr.consecutive.drop (n := seq - r.headSeq)
        rw [hdrop] at hdue
        exact hdue.tail.1
      rw [takeBytes_cons_ne_nil]
      constructor
      · intro hfits
        exact ⟨c, hmem, hseq, hfits⟩
      · rintro ⟨d, hd, hdseq, hfits⟩
        cases hr.consecutive.unique hd hmem (hdseq.trans hseq.symm)
        exact hfits

theorem read_paged (hr : Represents r appended) (hp : r.Packed) {seq : Nat}
    (hseq : seq ≤ r.nextSeq) (maxBytes : Int) :
    ∃ result, r.read (.seq seq) maxBytes = some result ∧ r.Paged seq maxBytes result := by
  refine ⟨_, read_seq hr hp hseq maxBytes, ?_⟩
  have hcount := hr.count
  have hdue : Consecutive (r.headSeq + (seq - r.headSeq)) (r.chunks.drop (seq - r.headSeq)) :=
    hr.consecutive.drop
  have hpart := (takeBytes_spec (pageBytes maxBytes) 0 (r.chunks.drop (seq - r.headSeq))
    (Nat.zero_le _)).1
  have hserves : r.Serves seq maxBytes ↔ seq = r.nextSeq ∨
      takeBytes (pageBytes maxBytes) (r.chunks.drop (seq - r.headSeq)) 0 ≠ [] :=
    or_congr_right (takeBytes_due hr seq (pageBytes maxBytes)).symm
  generalize takeBytes (pageBytes maxBytes) (r.chunks.drop (seq - r.headSeq)) 0 = out
    at hpart hserves ⊢
  have hout := hdue.take_left hpart
  have hlen := hpart.length_le
  rw [List.length_drop] at hlen
  -- the numbers dropped, then those of the chunks
  have hnumbers : ∀ nextSeq, (ReadResult.mk out nextSeq
      (if r.chunks ≠ [] ∧ seq < r.headSeq then some ⟨seq, r.headSeq - 1⟩ else none)).reports.map
        Report.seq = List.range' seq (if r.chunks = [] then 0 else r.headSeq - seq) ++
          List.range' (seq + (r.headSeq - seq)) out.length := by
    intro nextSeq
    rw [ReadResult.reports, List.map_append, map_seq_dropped, map_seq_yielded, dropped_seqs,
      hout.map_seq]
    congr 2
    omega
  have hnext : ((out.getLast?.map fun c => c.seq + 1).getD r.nextSeq) =
      if out = [] then r.nextSeq else r.headSeq + (seq - r.headSeq) + out.length := by
    split
    · simp [*]
    · exact hout.getLast_seq ‹_› _
  rw [hnext]
  constructor
  · intro hlt
    simp only
    split
    · exact hlt
    · have := List.length_pos_iff.mpr ‹out ≠ []›
      omega
  · simp only
    split
    · exact ⟨hseq, le_rfl⟩
    · have := List.length_pos_iff.mpr ‹out ≠ []›
      omega
  · rw [hnumbers, hserves]
    simp only
    by_cases hnil : out = []
    · refine ⟨if r.chunks = [] then 0 else r.headSeq - seq, ?_, by simp [hnil], ?_⟩
      · simp only [hnil, if_true]
        split <;> omega
      · simp only [hnil, if_true, ne_eq, not_true_eq_false, or_false]
        split
        · omega
        · have := List.length_pos_iff.mpr ‹r.chunks ≠ []›
          omega
    · have hpos := List.length_pos_iff.mpr hnil
      have hchunks : r.chunks ≠ [] := by
        intro h
        rw [h, List.length_nil] at hlen
        omega
      refine ⟨r.headSeq - seq + out.length, ?_, by simp [hchunks], ?_⟩
      · simp only [hnil, if_false]
        omega
      · simp only [hnil, if_false, ne_eq, not_false_eq_true, or_true, iff_true]
        omega
  · intro c hc
    exact (List.drop_suffix _ _).subset (hpart.subset (mem_reports_yielded.mp hc))
  · intro n hn
    rw [mem_reports_dropped, dropped_seqs, List.mem_range'_1] at hn
    split at hn <;> omega

/-- What holds of a reader and its ring after any moves; `missed` numbers are in no report. -/
structure Pager.Tracks (first missed : Nat) (p : Pager) : Prop where
  sound : p.recorded.Sound
  packed : p.ring.Packed
  behind : first ≤ p.cursor ∧ p.cursor ≤ p.ring.nextSeq
  count : p.log.length + missed = p.cursor - first
  exact : missed = 0 → p.log.map Report.seq = List.range' first (p.cursor - first)
  yielded : ∀ c, Report.yielded c ∈ p.log → p.ring.headSeq ≤ c.seq → c ∈ p.ring.chunks
  evicted : ∀ seq, Report.dropped seq ∈ p.log → seq < p.ring.headSeq

theorem Pager.Tracks.represents {first missed : Nat} {p : Pager} (h : p.Tracks first missed) :
    Represents p.ring p.recorded.appended :=
  h.sound.1

theorem Pager.Tracks.call {first missed : Nat} {clock : Nat → Int} {p q : Pager} {c : Call}
    (h : p.Tracks first missed) (hq : p.step clock (.call c) = some q) : q.Tracks first missed := by
  obtain ⟨recorded, hcall, rfl⟩ := Option.map_eq_some_iff.mp hq
  have hlater : p.ring.Later recorded.ring := h.sound.later hcall
  exact
    { sound := h.sound.call hcall
      packed := h.packed.later hlater
      behind := ⟨h.behind.1, h.behind.2.trans hlater.next⟩
      count := h.count
      exact := h.exact
      yielded := fun c hc hseq => hlater.kept c (h.yielded c hc (hlater.head.trans hseq)) hseq
      evicted := fun seq hseq => (h.evicted seq hseq).trans_le hlater.head }

theorem Pager.Tracks.page {first missed : Nat} {clock : Nat → Int} {p q : Pager} {maxBytes : Int}
    (h : p.Tracks first missed) (hq : p.step clock (.page maxBytes) = some q) :
    (∃ more, q.Tracks first (missed + more) ∧ (more = 0 ↔ p.ring.Serves p.cursor maxBytes)) ∧
      (p.cursor < p.ring.nextSeq → p.cursor < q.cursor) := by
  obtain ⟨result, hread, rfl⟩ := Option.map_eq_some_iff.mp hq
  obtain ⟨result', hread', hpaged⟩ := read_paged h.represents h.packed h.behind.2 maxBytes
  cases hread.symm.trans hread'
  obtain ⟨n, hn, hseqs, hserves⟩ := hpaged.numbers
  have hlen : result.reports.length = n := by
    have hmap : (result.reports.map Report.seq).length = result.reports.length :=
      List.length_map _
    rw [← hmap, hseqs, List.length_range']
  have hbehind := h.behind
  have hwithin := hpaged.within
  have hcount := h.count
  refine ⟨⟨result.nextSeq - p.cursor - n, ?_, ?_⟩, hpaged.forward⟩
  · exact
      { sound := h.sound
        packed := h.packed
        behind := ⟨hbehind.1.trans hwithin.1, hwithin.2⟩
        count := by
          simp only [List.length_append, hlen]
          omega
        exact := fun hmissed => by
          have hall := h.exact (by omega)
          rw [List.map_append, hall, hseqs]
          have hfrom : p.cursor = first + (p.cursor - first) := by omega
          rw [show List.range' p.cursor n = List.range' (first + (p.cursor - first)) n by
            rw [← hfrom], List.range'_append_1]
          congr 1
          simp only
          omega
        yielded := fun c hc hseq => by
          rcases List.mem_append.mp hc with hc | hc
          · exact h.yielded c hc hseq
          · exact hpaged.yielded c hc
        evicted := fun seq hseq => by
          rcases List.mem_append.mp hseq with hseq | hseq
          · exact h.evicted seq hseq
          · exact hpaged.evicted seq hseq }
  · rw [← hserves]
    omega

theorem Pager.Tracks.accounted_iff {first missed : Nat} {p : Pager} (h : p.Tracks first missed) :
    p.Accounted first ↔ missed = 0 := by
  have hcount := h.count
  constructor
  · intro hp
    have hlen := congrArg List.length hp.exact
    rw [List.length_map, List.length_range'] at hlen
    omega
  · intro hmissed
    have hexact := h.exact hmissed
    refine ⟨hexact, fun c hc hfirst hlt => ?_, h.evicted⟩
    have hhead := (h.represents.consecutive.mem hc).1
    have hmem : c.seq ∈ p.log.map Report.seq := by
      rw [hexact, List.mem_range'_1]
      omega
    have hnodup : p.log.Nodup := List.Nodup.of_map Report.seq (hexact ▸ List.nodup_range')
    refine List.count_eq_one_of_mem hnodup ?_
    obtain ⟨report, hreport, hseq⟩ := List.mem_map.mp hmem
    cases report with
    | dropped seq =>
        have := h.evicted seq hreport
        simp only [Report.seq] at hseq
        omega
    | yielded d =>
        have hd := h.yielded d hreport (by simp only [Report.seq] at hseq; omega)
        cases h.represents.consecutive.unique hd hc hseq
        exact hreport

theorem Pager.Tracks.run {first missed : Nat} {clock : Nat → Int} {moves : List PagerMove}
    {p q : Pager} (h : p.Tracks first missed) (hrun : run (Pager.step clock) p moves = some q) :
    ∃ more, q.Tracks first (missed + more) ∧
      (more = 0 ↔ Admissible Pager.Served (Pager.step clock) p moves) := by
  induction moves generalizing p missed with
  | nil =>
      cases hrun
      exact ⟨0, h, by simp [Admissible]⟩
  | cons move moves ih =>
      obtain ⟨u, hu, hrest⟩ := run_cons.mp hrun
      have hnext : Admissible Pager.Served (Pager.step clock) p (move :: moves) ↔
          p.Served move ∧ Admissible Pager.Served (Pager.step clock) u moves :=
        and_congr_right fun _ => ⟨fun h => h u hu, fun h v hv => by
          cases hu.symm.trans hv
          exact h⟩
      cases move with
      | call c =>
          obtain ⟨more, hmore, hiff⟩ := ih (h.call hu) hrest
          exact ⟨more, hmore, by simpa [hnext, Pager.Served] using hiff⟩
      | page maxBytes =>
          obtain ⟨⟨here, htracks, hserved⟩, -⟩ := h.page hu
          obtain ⟨more, hmore, hiff⟩ := ih htracks hrest
          refine ⟨here + more, by rwa [← Nat.add_assoc], ?_⟩
          rw [hnext, ← hiff, Pager.Served, ← hserved]
          omega

theorem Pager.Tracks.catches_up {first : Nat} {clock : Nat → Int} (maxBytes : Int) (n : Nat)
    {missed : Nat} {p : Pager} (h : p.Tracks first missed) (hn : p.ring.nextSeq ≤ p.cursor + n) :
    ∃ q, Transition.run (Pager.step clock) p (List.replicate n (.page maxBytes)) = some q ∧
      q.recorded = p.recorded ∧ q.cursor = p.ring.nextSeq := by
  induction n generalizing p missed with
  | zero => exact ⟨p, rfl, rfl, le_antisymm h.behind.2 hn⟩
  | succ n ih =>
      obtain ⟨result, hread, hpaged⟩ := read_paged h.represents h.packed h.behind.2 maxBytes
      have hstep : p.step clock (.page maxBytes) =
          some { p with cursor := result.nextSeq, log := p.log ++ result.reports } := by
        simp only [Pager.step, hread, Option.map_some]
      obtain ⟨⟨more, htracks, -⟩, hforward⟩ := h.page hstep
      have hbehind := h.behind.2
      have hleft : p.ring.nextSeq ≤ result.nextSeq + n := by
        by_cases hlt : p.cursor < p.ring.nextSeq
        · have hmoved : p.cursor < result.nextSeq := hforward hlt
          omega
        · have hstayed : p.cursor ≤ result.nextSeq := hpaged.within.1
          omega
      obtain ⟨q, hrun, hq, hcursor⟩ := ih htracks hleft
      exact ⟨q, run_cons.mpr ⟨_, hstep, hrun⟩, hq, hcursor⟩

theorem reached_tracks {capacityBytes : Int} (hcap : capacityBytes < 2 ^ 63) {maxChunkBytes : Int}
    {clock : Nat → Int} {calls : List Call} {s : Recorded}
    (hrun : run (Recorded.call clock) ⟨Ring.new capacityBytes maxChunkBytes, []⟩ calls = some s)
    {first : Nat} (hfirst : first ≤ s.ring.nextSeq) :
    Pager.Tracks first 0 ⟨s, first, []⟩ := by
  have hreached : s.Sound ∧ s.ring.Packed :=
    run_invariant (I := fun s => s.Sound ∧ s.ring.Packed)
      (fun _ _ _ h hcall => ⟨h.1.call hcall, h.2.later (h.1.later hcall)⟩)
      ⟨sound_new capacityBytes maxChunkBytes, packed_new hcap maxChunkBytes⟩ hrun
  exact ⟨hreached.1, hreached.2, ⟨le_rfl, hfirst⟩, by simp, fun _ => by simp, by simp, by simp⟩

/-- A read accounts for the numbers up to `NextSeq` exactly if the first chunk that is due fits the
page, and so do all reads that follow one another; a ring at rest is read to its end. -/
theorem reads_account_iff (capacityBytes maxChunkBytes : Int) (hcap : capacityBytes < 2 ^ 63)
    (clock : Nat → Int) (calls : List Call) {s : Recorded}
    (hrun : run (Recorded.call clock) ⟨Ring.new capacityBytes maxChunkBytes, []⟩ calls = some s)
    (first : Nat) (hfirst : first ≤ s.ring.nextSeq) :
    (∀ maxBytes, ∃ result, s.ring.read (.seq first) maxBytes = some result ∧
      first ≤ result.nextSeq ∧
      (result.reports.map Report.seq = List.range' first (result.nextSeq - first) ↔
        s.ring.Serves first maxBytes)) ∧
    ∀ moves t, run (Pager.step clock) ⟨s, first, []⟩ moves = some t →
      (t.Accounted first ↔ Admissible Pager.Served (Pager.step clock) ⟨s, first, []⟩ moves) ∧
      ∀ maxBytes n, t.ring.nextSeq ≤ t.cursor + n →
        ∃ u, run (Pager.step clock) t (List.replicate n (.page maxBytes)) = some u ∧
          u.recorded = t.recorded ∧ u.cursor = t.ring.nextSeq := by
  have htracks := reached_tracks hcap hrun hfirst
  constructor
  · intro maxBytes
    obtain ⟨result, hread, hpaged⟩ :=
      read_paged htracks.represents htracks.packed hfirst maxBytes
    obtain ⟨n, -, hseqs, hserves⟩ := hpaged.numbers
    refine ⟨result, hread, hpaged.within.1, ?_⟩
    rw [hseqs, List.range'_inj]
    exact ⟨fun h => hserves.mp h.1, fun h => ⟨hserves.mpr h, .inr rfl⟩⟩
  · intro moves t ht
    obtain ⟨more, hmore, hiff⟩ := htracks.run ht
    refine ⟨?_, fun maxBytes n hn => hmore.catches_up maxBytes n hn⟩
    rw [hmore.accounted_iff, ← hiff]
    omega

/-- Two of five chunks are evicted; the rest is read two bytes at a time while one more comes in. -/
def evictedPages : List PagerMove :=
  [.page 2, .call (.append .stderr [6]), .page 2, .page 2]

theorem reads_account_iff_evictedPages :
    ∃ s t, run (Recorded.call fun n => n) ⟨Ring.new 3 1, []⟩ [.append .stdout [1, 2, 3, 4, 5]] =
        some s ∧ run (Pager.step fun n => n) ⟨s, 1, []⟩ evictedPages = some t ∧
      t.cursor = 6 ∧ t.Accounted 1 := by
  refine ⟨_, _, rfl, rfl, rfl, ?_⟩
  refine (((reads_account_iff 3 1 (by norm_num) (fun n => n) [.append .stdout [1, 2, 3, 4, 5]]
    rfl 1 (by decide)).2 evictedPages _ rfl).1).mpr ?_
  have hserved : ∀ (p : Pager) (move : PagerMove), decide (p.Served move) = true → p.Served move :=
    fun _ _ => of_decide_eq_true
  exact admissible_of_allows hserved (by decide)

/-- A chunk longer than the page is passed over without a word, and so is one that was evicted
together with all others. -/
theorem long_chunk_is_skipped :
    (∃ s result, run (Recorded.call fun n => n) ⟨Ring.new 0 0, []⟩ [.append .stdout [1, 2]] =
        some s ∧ s.ring.read (.seq 0) 1 = some result ∧
      result.reports = [] ∧ result.nextSeq = 1 ∧
      result.reports.map Report.seq ≠ List.range' 0 (result.nextSeq - 0)) ∧
    ∃ s result, run (Recorded.call fun n => n) ⟨Ring.new 1 0, []⟩ [.append .stdout [1, 2]] =
        some s ∧ s.ring.read (.seq 0) 0 = some result ∧
      result.reports = [] ∧ result.nextSeq = 1 ∧
      result.reports.map Report.seq ≠ List.range' 0 (result.nextSeq - 0) :=
  ⟨⟨_, _, rfl, rfl, rfl, rfl, by decide⟩, _, _, rfl, rfl, rfl, rfl, by decide⟩

end Dolgate.Ringbuf
