import Dolgate.ByteSearch

set_option autoImplicit false

/-! How a completion worker's frame is read from its stream. A read brings any number of bytes; when
there are no more the stream has ended. -/

namespace Dolgate.CompletionFrames

open GoBytes

abbrev Bytes := List UInt8

structure Reading where
  pending : Bytes := []
  output : Bytes := []
  truncated : Bool := false
  foundStart : Bool := false
  skipStartLineBreak : Bool := false

def Reading.receive (st : Reading) (chunk : Bytes) : Reading :=
  { st with pending := st.pending ++ chunk }

def appendOutput (maxBytes : Int) (st : Reading) (data : Bytes) : Reading :=
  if data = [] then st
  else if maxBytes ≤ 0 then { st with truncated := true }
  else if maxBytes - st.output.length ≤ 0 then { st with truncated := true }
  else if maxBytes - st.output.length < data.length then
    { st with
      output := st.output ++ data.take (maxBytes - st.output.length).toNat
      truncated := true }
  else { st with output := st.output ++ data }

def keepTail (value : Bytes) (limit : Nat) : Bytes :=
  if limit = 0 ∨ value = [] then []
  else if value.length ≤ limit then value
  else value.drop (value.length - limit)

def trimOneLineBreak : Bytes → Option Bytes
  | [] => none
  | [13] => none
  | 10 :: rest => some rest
  | 13 :: 10 :: rest => some rest
  | 13 :: rest => some rest
  | value => some value

inductive Step where
  | more (st : Reading)
  | done (st : Reading)

def readBody (endMarker : Bytes) (maxBytes : Int) (st : Reading) : Step :=
  match index st.pending endMarker with
  | some i => .done (appendOutput maxBytes st (st.pending.take i))
  | none =>
      let keep := endMarker.length - 1
      if keep < st.pending.length then
        .more { appendOutput maxBytes st (st.pending.take (st.pending.length - keep)) with
          pending := keepTail st.pending keep }
      else .more st

def readLineBreak (endMarker : Bytes) (maxBytes : Int) (st : Reading) : Step :=
  if st.skipStartLineBreak then
    match trimOneLineBreak st.pending with
    | none => .more st
    | some next =>
        readBody endMarker maxBytes { st with pending := next, skipStartLineBreak := false }
  else readBody endMarker maxBytes st

def readPending (startMarker endMarker : Bytes) (maxBytes : Int) (st : Reading) : Step :=
  if st.foundStart then readLineBreak endMarker maxBytes st
  else
    match index st.pending startMarker with
    | none => .more { st with pending := keepTail st.pending (startMarker.length - 1) }
    | some i =>
        readLineBreak endMarker maxBytes
          { st with
            pending := st.pending.drop (i + startMarker.length)
            foundStart := true
            skipStartLineBreak := true }

structure FrameResult where
  output : Bytes
  truncated : Bool
  failed : Bool
  deriving DecidableEq

def readCompletionFrame (startMarker endMarker : Bytes) (maxBytes : Int) :
    List Bytes → Reading → FrameResult
  | [], st => ⟨st.output, st.truncated, true⟩
  | chunk :: reads, st =>
      if chunk = [] then readCompletionFrame startMarker endMarker maxBytes reads st
      else
        match readPending startMarker endMarker maxBytes (st.receive chunk) with
        | .more st' => readCompletionFrame startMarker endMarker maxBytes reads st'
        | .done st' => ⟨st'.output, st'.truncated, false⟩

/-! ### The limit -/

structure Cut (maxBytes : Int) (total : Bytes) (st : Reading) : Prop where
  output : st.output = total.take maxBytes.toNat
  truncated : st.truncated = decide (maxBytes.toNat < total.length)

variable {startMarker endMarker : Bytes} {maxBytes : Int} {total : Bytes} {st : Reading}

theorem Cut.append (h : Cut maxBytes total st) (data : Bytes) :
    Cut maxBytes (total ++ data) (appendOutput maxBytes st data) := by
  obtain ⟨houtput, htruncated⟩ := h
  have hlength : st.output.length = min maxBytes.toNat total.length := by
    rw [houtput, List.length_take]
  rw [appendOutput]
  split_ifs with hdata hmax hfull hlong
  · simpa [hdata] using Cut.mk houtput htruncated
  · have hzero : maxBytes.toNat = 0 := by omega
    have hpos := List.length_pos_iff.mpr hdata
    constructor
    · simpa [hzero] using houtput
    · simp only [hzero, List.length_append]
      simp
      omega
  · have hover : maxBytes.toNat ≤ total.length := by omega
    have hpos := List.length_pos_iff.mpr hdata
    constructor
    · rw [houtput, List.take_append_of_le_length hover]
    · simp
      omega
  · have hunder : total.length ≤ maxBytes.toNat := by omega
    have hroom : (maxBytes - st.output.length).toNat = maxBytes.toNat - total.length := by omega
    constructor
    · rw [List.take_append, ← houtput, hroom]
    · simp
      omega
  · have hunder : total.length + data.length ≤ maxBytes.toNat := by omega
    constructor
    · rw [houtput, List.take_of_length_le (by omega),
        List.take_of_length_le (by simpa using hunder)]
    · rw [htruncated]
      simp
      omega

theorem appendOutput_foundStart (data : Bytes) :
    (appendOutput maxBytes st data).foundStart = st.foundStart := by
  rw [appendOutput]
  split_ifs <;> rfl

theorem appendOutput_skipStartLineBreak (data : Bytes) :
    (appendOutput maxBytes st data).skipStartLineBreak = st.skipStartLineBreak := by
  rw [appendOutput]
  split_ifs <;> rfl

theorem keepTail_eq (value : Bytes) (limit : Nat) :
    keepTail value limit = value.drop (value.length - limit) := by
  rw [keepTail]
  split_ifs with hzero hshort
  · rcases hzero with rfl | rfl <;> simp
  · rw [Nat.sub_eq_zero_of_le hshort, List.drop_zero]
  · rfl

/-! ### One read -/

/-- A search goes on in the kept tail of the text read, which holds any part of the marker with
which that text ends. -/
theorem index_keepTail {pending rest marker : Bytes} {i : Nat}
    (hnone : index pending marker = none) (h : index (pending ++ rest) marker = some i) :
    pending.length - (marker.length - 1) ≤ i ∧
      index (keepTail pending (marker.length - 1)) marker = none ∧
      index (keepTail pending (marker.length - 1) ++ rest) marker =
        some (i - (pending.length - (marker.length - 1))) := by
  have hsplit := List.take_append_drop (pending.length - (marker.length - 1)) pending
  have hlength : (pending.take (pending.length - (marker.length - 1))).length =
      pending.length - (marker.length - 1) := by
    rw [List.length_take]
    omega
  have hkept : pending.take (pending.length - (marker.length - 1)) = [] ∨
      marker.length ≤ (pending.drop (pending.length - (marker.length - 1))).length + 1 := by
    rw [← List.length_eq_zero_iff, hlength, List.length_drop]
    omega
  rw [keepTail_eq]
  rw [← hsplit] at hnone h
  have hle := length_le_of_index h hnone hkept
  have hnext := index_append_left (List.append_assoc _ _ rest ▸ h) hle
  rw [hlength] at hle hnext
  rw [index_eq_none_iff] at hnone ⊢
  exact ⟨hle, fun hinside => hnone (hinside.trans (List.suffix_append _ _).isInfix), hnext⟩

def cutResult (maxBytes : Int) (content : Bytes) : FrameResult :=
  ⟨content.take maxBytes.toNat, decide (maxBytes.toNat < content.length), false⟩

def proceed (startMarker endMarker : Bytes) (maxBytes : Int) (reads : List Bytes) :
    Step → FrameResult
  | .more st => readCompletionFrame startMarker endMarker maxBytes reads st
  | .done st => ⟨st.output, st.truncated, false⟩

theorem Cut.result (h : Cut maxBytes total st) (reads : List Bytes) :
    proceed startMarker endMarker maxBytes reads (.done st) = cutResult maxBytes total := by
  rw [proceed, cutResult, h.output, h.truncated]

theorem readCompletionFrame_nil_cons (reads : List Bytes) :
    readCompletionFrame startMarker endMarker maxBytes ([] :: reads) st =
      readCompletionFrame startMarker endMarker maxBytes reads st := by
  rw [readCompletionFrame, if_pos rfl]

theorem readCompletionFrame_cons {chunk : Bytes} (h : chunk ≠ []) (reads : List Bytes) :
    readCompletionFrame startMarker endMarker maxBytes (chunk :: reads) st =
      proceed startMarker endMarker maxBytes reads
        (readPending startMarker endMarker maxBytes (st.receive chunk)) := by
  rw [readCompletionFrame, if_neg h]
  split <;> rename_i heq <;> rw [heq, proceed]

structure InBody (st : Reading) : Prop where
  foundStart : st.foundStart = true
  skipStartLineBreak : st.skipStartLineBreak = false

theorem readBody_of_index {i : Nat} (h : index st.pending endMarker = some i) :
    readBody endMarker maxBytes st = .done (appendOutput maxBytes st (st.pending.take i)) := by
  rw [readBody, h]

theorem readBody_of_none {rest : Bytes} {i : Nat} (hbody : InBody st) (hcut : Cut maxBytes total st)
    (hnone : index st.pending endMarker = none)
    (h : index (st.pending ++ rest) endMarker = some i) :
    ∃ st' flushed, readBody endMarker maxBytes st = .more st' ∧ InBody st' ∧
      st.pending = flushed ++ st'.pending ∧ Cut maxBytes (total ++ flushed) st' ∧
      index st'.pending endMarker = none ∧ flushed.length ≤ i ∧
      index (st'.pending ++ rest) endMarker = some (i - flushed.length) := by
  rw [readBody, hnone]
  by_cases hlong : endMarker.length - 1 < st.pending.length
  · obtain ⟨hle, hkept, hindex⟩ := index_keepTail hnone h
    have hlength : (st.pending.take (st.pending.length - (endMarker.length - 1))).length =
        st.pending.length - (endMarker.length - 1) := by
      rw [List.length_take]
      omega
    obtain ⟨houtput, htruncated⟩ :=
      hcut.append (st.pending.take (st.pending.length - (endMarker.length - 1)))
    simp only [if_pos hlong]
    refine ⟨_, _, rfl, ⟨?_, ?_⟩, ?_, ⟨houtput, htruncated⟩, hkept, ?_, ?_⟩
    · simp only [appendOutput_foundStart, hbody.foundStart]
    · simp only [appendOutput_skipStartLineBreak, hbody.skipStartLineBreak]
    · simp only [keepTail_eq, List.take_append_drop]
    · rw [hlength]
      exact hle
    · rw [hlength]
      exact hindex
  · simp only [if_neg hlong]
    exact ⟨st, [], rfl, hbody, rfl, by simpa using hcut, hnone, Nat.zero_le i, h⟩

/-! ### The whole stream -/

theorem readPending_of_found (st : Reading) (h : st.foundStart = true) :
    readPending startMarker endMarker maxBytes st = readLineBreak endMarker maxBytes st := by
  rw [readPending, if_pos h]

theorem readPending_of_none (st : Reading) (hfound : st.foundStart = false)
    (h : index st.pending startMarker = none) :
    readPending startMarker endMarker maxBytes st =
      .more { st with pending := keepTail st.pending (startMarker.length - 1) } := by
  rw [readPending, if_neg (by simp [hfound]), h]

theorem readPending_of_index (st : Reading) {p : Nat} (hfound : st.foundStart = false)
    (h : index st.pending startMarker = some p) :
    readPending startMarker endMarker maxBytes st =
      readLineBreak endMarker maxBytes
        { st with
          pending := st.pending.drop (p + startMarker.length)
          foundStart := true
          skipStartLineBreak := true } := by
  rw [readPending, if_neg (by simp [hfound]), h]

theorem readPending_of_inBody (h : InBody st) :
    readPending startMarker endMarker maxBytes st = readBody endMarker maxBytes st := by
  rw [readPending_of_found st h.foundStart, readLineBreak, if_neg (by simp [h.skipStartLineBreak])]

theorem append_take_sub {flushed kept rest : Bytes} {i : Nat} (h : flushed.length ≤ i) :
    flushed ++ (kept ++ rest).take (i - flushed.length) = (flushed ++ kept ++ rest).take i := by
  have htake : (flushed ++ (kept ++ rest)).take i =
      flushed.take i ++ (kept ++ rest).take (i - flushed.length) := List.take_append
  rw [List.append_assoc, htake, List.take_of_length_le h]

theorem proceed_readBody {reads : List Bytes} {i : Nat} (hbody : InBody st)
    (hcut : Cut maxBytes total st) (h : index (st.pending ++ reads.flatten) endMarker = some i)
    (hlater : ∀ (st' : Reading) (total' : Bytes) (j : Nat), InBody st' →
      Cut maxBytes total' st' → index st'.pending endMarker = none →
      index (st'.pending ++ reads.flatten) endMarker = some j →
      readCompletionFrame startMarker endMarker maxBytes reads st' =
        cutResult maxBytes (total' ++ (st'.pending ++ reads.flatten).take j)) :
    proceed startMarker endMarker maxBytes reads (readBody endMarker maxBytes st) =
      cutResult maxBytes (total ++ (st.pending ++ reads.flatten).take i) := by
  cases hfound : index st.pending endMarker with
  | some j =>
      obtain rfl : j = i := Option.some.inj ((index_append_right hfound _).symm.trans h)
      have hle := index_length hfound
      rw [readBody_of_index hfound, List.take_append_of_le_length (by omega)]
      exact (hcut.append (st.pending.take j)).result reads
  | none =>
      obtain ⟨st', flushed, hmore, hbody', hpending, hcut', hnone', hle, hindex⟩ :=
        readBody_of_none hbody hcut hfound h
      rw [hmore, proceed, hlater st' (total ++ flushed) _ hbody' hcut' hnone' hindex, hpending,
        List.append_assoc, append_take_sub hle]

theorem readCompletionFrame_of_inBody {reads : List Bytes} {i : Nat} (hbody : InBody st)
    (hcut : Cut maxBytes total st) (hnone : index st.pending endMarker = none)
    (h : index (st.pending ++ reads.flatten) endMarker = some i) :
    readCompletionFrame startMarker endMarker maxBytes reads st =
      cutResult maxBytes (total ++ (st.pending ++ reads.flatten).take i) := by
  induction reads generalizing st total i with
  | nil =>
      rw [List.flatten_nil, List.append_nil, hnone] at h
      cases h
  | cons chunk reads ih =>
      by_cases hchunk : chunk = []
      · subst hchunk
        rw [readCompletionFrame_nil_cons]
        exact ih hbody hcut hnone h
      · have hreceived : InBody (st.receive chunk) := ⟨hbody.1, hbody.2⟩
        have hcut' : Cut maxBytes total (st.receive chunk) := ⟨hcut.1, hcut.2⟩
        rw [List.flatten_cons, ← List.append_assoc] at h ⊢
        rw [readCompletionFrame_cons hchunk, readPending_of_inBody hreceived]
        exact proceed_readBody hreceived hcut' h fun st' total' j => ih

structure AtLineBreak (st : Reading) : Prop where
  foundStart : st.foundStart = true
  skipStartLineBreak : st.skipStartLineBreak = true

def afterLineBreak : Bytes → Bytes
  | 10 :: rest => rest
  | value => value

theorem trimOneLineBreak_cons {b : UInt8} (hb : b ≠ 13) (rest : Bytes) :
    trimOneLineBreak (b :: rest) = some (afterLineBreak (b :: rest)) := by
  unfold trimOneLineBreak afterLineBreak
  split <;> simp_all

theorem afterLineBreak_append {b : UInt8} (value rest : Bytes) :
    afterLineBreak (b :: value) ++ rest = afterLineBreak (b :: (value ++ rest)) := by
  by_cases hb : b = 10
  · subst hb
    rfl
  · unfold afterLineBreak
    split <;> simp_all

theorem proceed_readLineBreak {reads : List Bytes} {b : UInt8} {value : Bytes} {i : Nat}
    (hat : AtLineBreak st) (hcut : Cut maxBytes total st) (hpending : st.pending = b :: value)
    (hb : b ≠ 13) (h : index (afterLineBreak (st.pending ++ reads.flatten)) endMarker = some i) :
    proceed startMarker endMarker maxBytes reads (readLineBreak endMarker maxBytes st) =
      cutResult maxBytes (total ++ (afterLineBreak (st.pending ++ reads.flatten)).take i) := by
  rw [hpending, List.cons_append, ← afterLineBreak_append] at h ⊢
  simp only [readLineBreak, hat.skipStartLineBreak, if_true, hpending, trimOneLineBreak_cons hb]
  exact proceed_readBody ⟨hat.foundStart, rfl⟩ ⟨hcut.output, hcut.truncated⟩ h
    fun _ _ _ => readCompletionFrame_of_inBody

theorem readCompletionFrame_of_atLineBreak {reads : List Bytes} {b : UInt8} {value : Bytes}
    {i : Nat} (hat : AtLineBreak st) (hcut : Cut maxBytes total st) (hpending : st.pending = [])
    (hreads : reads.flatten = b :: value) (hb : b ≠ 13)
    (h : index (afterLineBreak reads.flatten) endMarker = some i) :
    readCompletionFrame startMarker endMarker maxBytes reads st =
      cutResult maxBytes (total ++ (afterLineBreak reads.flatten).take i) := by
  induction reads with
  | nil => cases hreads
  | cons chunk reads ih =>
      cases chunk with
      | nil =>
          rw [readCompletionFrame_nil_cons]
          exact ih hreads h
      | cons c chunk =>
          obtain ⟨rfl, _⟩ := List.cons.inj hreads
          have hreceived : (st.receive (c :: chunk)).pending = c :: chunk := by
            rw [Reading.receive, hpending, List.nil_append]
          have hflatten : ((c :: chunk) :: reads).flatten =
              (st.receive (c :: chunk)).pending ++ reads.flatten := by
            rw [hreceived, List.flatten_cons]
          rw [readCompletionFrame_cons (List.cons_ne_nil c chunk),
            readPending_of_found (st.receive (c :: chunk)) hat.foundStart, hflatten]
          rw [hflatten] at h
          exact proceed_readLineBreak ⟨hat.foundStart, hat.skipStartLineBreak⟩
            ⟨hcut.output, hcut.truncated⟩ hreceived hb h

theorem proceed_of_atLineBreak {reads : List Bytes} {b : UInt8} {value : Bytes} {i : Nat}
    (hat : AtLineBreak st) (hcut : Cut maxBytes total st)
    (hrest : st.pending ++ reads.flatten = b :: value) (hb : b ≠ 13)
    (h : index (afterLineBreak (b :: value)) endMarker = some i) :
    proceed startMarker endMarker maxBytes reads (readLineBreak endMarker maxBytes st) =
      cutResult maxBytes (total ++ (afterLineBreak (b :: value)).take i) := by
  cases hpending : st.pending with
  | nil =>
      rw [hpending, List.nil_append] at hrest
      have hmore : readLineBreak endMarker maxBytes st = .more st := by
        simp only [readLineBreak, hat.skipStartLineBreak, if_true, hpending, trimOneLineBreak]
      rw [hmore, proceed, ← hrest]
      exact readCompletionFrame_of_atLineBreak hat hcut hpending hrest hb (hrest ▸ h)
  | cons c pending =>
      have hhead := hrest
      rw [hpending] at hhead
      obtain ⟨rfl, _⟩ := List.cons.inj hhead
      rw [← hrest] at h ⊢
      exact proceed_readLineBreak hat hcut hpending hb h

theorem readCompletionFrame_of_index {reads : List Bytes} {b : UInt8} {value : Bytes} {i p : Nat}
    (hfound : st.foundStart = false) (hcut : Cut maxBytes [] st)
    (hnone : index st.pending startMarker = none)
    (hstart : index (st.pending ++ reads.flatten) startMarker = some p)
    (hrest : (st.pending ++ reads.flatten).drop (p + startMarker.length) = b :: value) (hb : b ≠ 13)
    (h : index (afterLineBreak (b :: value)) endMarker = some i) :
    readCompletionFrame startMarker endMarker maxBytes reads st =
      cutResult maxBytes ((afterLineBreak (b :: value)).take i) := by
  induction reads generalizing st p with
  | nil =>
      rw [List.flatten_nil, List.append_nil, hnone] at hstart
      cases hstart
  | cons chunk reads ih =>
      by_cases hchunk : chunk = []
      · subst hchunk
        rw [readCompletionFrame_nil_cons]
        exact ih hfound hcut hnone hstart hrest
      · have hreceived : (st.receive chunk).pending ++ reads.flatten =
            st.pending ++ (chunk :: reads).flatten := by
          rw [Reading.receive, List.flatten_cons, List.append_assoc]
        rw [← hreceived] at hstart hrest
        rw [readCompletionFrame_cons hchunk]
        cases hplace : index (st.receive chunk).pending startMarker with
        | none =>
            obtain ⟨hle, hkept, hindex⟩ := index_keepTail hplace hstart
            rw [readPending_of_none (st.receive chunk) hfound hplace, proceed]
            refine ih hfound ⟨hcut.output, hcut.truncated⟩ hkept hindex ?_
            rw [← hrest, keepTail_eq, ← List.drop_append_of_le_length (Nat.sub_le _ _),
              List.drop_drop]
            congr 1
            omega
        | some q =>
            obtain rfl : q = p := Option.some.inj ((index_append_right hplace _).symm.trans hstart)
            rw [List.drop_append_of_le_length (index_length hplace)] at hrest
            rw [readPending_of_index (st.receive chunk) hfound hplace]
            rw [← List.nil_append ((afterLineBreak (b :: value)).take i)]
            exact proceed_of_atLineBreak ⟨rfl, rfl⟩ ⟨hcut.output, hcut.truncated⟩ hrest hb h

theorem readCompletionFrame_eq {reads : List Bytes} {b : UInt8} {value : Bytes} {i p : Nat}
    (hmarker : startMarker ≠ []) (hstart : index reads.flatten startMarker = some p)
    (hrest : reads.flatten.drop (p + startMarker.length) = b :: value) (hb : b ≠ 13)
    (h : index (afterLineBreak (b :: value)) endMarker = some i) :
    readCompletionFrame startMarker endMarker maxBytes reads {} =
      cutResult maxBytes ((afterLineBreak (b :: value)).take i) := by
  have hnone : index [] startMarker = none := by
    rw [index_eq_none_iff]
    exact fun hinside => hmarker (List.infix_nil.mp hinside)
  exact readCompletionFrame_of_index rfl ⟨by simp, by simp⟩ hnone hstart hrest hb h

end Dolgate.CompletionFrames
