import Dolgate.Base64
import Dolgate.JsText
import Dolgate.ReplaySeek
import Dolgate.ScreenText
import Dolgate.Segments
import Dolgate.TornLog
import Dolgate.Utf16
import Dolgate.Utf8Stream

set_option autoImplicit false

/-! Recordings of the old kind, which are not compressed: they are written anew, or read where they
are. -/

namespace Dolgate.Replay

def maxTerminalDimension : Nat := 0xffff

def newline : UInt8 := 10

def sextet (c : Char) : Option Nat :=
  if c = '-' then some 62 else if c = '_' then some 63 else Base64.value c

def joinSextets : List Nat → List UInt8
  | a :: b :: c :: d :: rest =>
      UInt8.ofNat (a * 4 + b / 16) :: UInt8.ofNat (b % 16 * 16 + c / 4) ::
        UInt8.ofNat (c % 4 * 64 + d) :: joinSextets rest
  | [a, b, c] => [UInt8.ofNat (a * 4 + b / 16), UInt8.ofNat (b % 16 * 16 + c / 4)]
  | [a, b] => [UInt8.ofNat (a * 4 + b / 16)]
  | _ => []

/-- `Buffer.from(text, "base64")` -/
def fromBase64 (text : List Char) : List UInt8 := joinSextets (text.filterMap sextet)

/-- `Buffer.byteLength(text, "base64")` -/
def base64ByteLength (text : List Char) : Nat :=
  let bytes := if text[text.length - 1]? = some '=' then text.length - 1 else text.length
  let bytes := if 1 < bytes ∧ text[bytes - 1]? = some '=' then bytes - 1 else bytes
  bytes * 3 / 4

end Dolgate.Replay

namespace Dolgate.PlainReplay

open JsText (Text trim)
open Replay (newline fromBase64 base64ByteLength maxTerminalDimension)
open ReplayPlayer (Segment Mark subarray)
open ScreenText (units)
open Utf8 (Bytes toText encode pieces)

inductive Value where
  | number (n : ℚ)
  | string (s : List UInt16)
  | other (text : Text)
  deriving DecidableEq

abbrev Fields := List (List UInt16 × Value)

/-- `JSON.parse`, which gives `some none` for what is no object, and `JSON.stringify`. -/
structure Json where
  parse : Text → Option (Option Fields)
  stringify : Fields → Text

def Fields.setNumber (fields : Fields) (key : List UInt16) (n : ℚ) : Fields :=
  fields.map fun f => if f.1 = key then (f.1, .number n) else f

structure Gzip where
  gzip : Bytes → Bytes
  gunzip : Bytes → Option Bytes

/-! ### Entries -/

inductive SessionReplayEntry where
  | output (atMs : ℚ) (dataBase64 : List UInt16)
  | resize (atMs : ℚ) (cols rows : Nat)
  deriving DecidableEq

def SessionReplayEntry.atMs : SessionReplayEntry → ℚ
  | .output atMs _ => atMs
  | .resize atMs _ _ => atMs

def isTerminalDimension : Option Value → Option Nat
  | some (.number n) =>
      if n.den = 1 ∧ 0 < n ∧ n ≤ maxTerminalDimension then some n.num.toNat else none
  | _ => none

def chars (s : List UInt16) : List Char := s.map fun unit => Char.ofNat unit.toNat

def outputBytesOf : SessionReplayEntry → Nat
  | .output _ dataBase64 => base64ByteLength (chars dataBase64)
  | .resize _ _ _ => 0

def entryOf (entry : Fields) : Option SessionReplayEntry :=
  match entry.lookup (units "atMs") with
  | some (.number atMs) =>
      if entry.lookup (units "type") = some (.string (units "output")) then
        match entry.lookup (units "dataBase64") with
        | some (.string dataBase64) => some (.output atMs dataBase64)
        | _ => none
      else if entry.lookup (units "type") = some (.string (units "resize")) then do
        let cols ← isTerminalDimension (entry.lookup (units "cols"))
        let rows ← isTerminalDimension (entry.lookup (units "rows"))
        return .resize atMs cols rows
      else none
  | _ => none

def push (segment : Segment ℚ) (clock : ℚ) : SessionReplayEntry → Segment ℚ
  | .output _ dataBase64 =>
      let data := segment.data ++ fromBase64 (chars dataBase64)
      { atMs := segment.atMs ++ [clock], dataEnd := segment.dataEnd ++ [data.length]
        cols := segment.cols ++ [0], rows := segment.rows ++ [0], data := data }
  | .resize _ cols rows =>
      { atMs := segment.atMs ++ [clock], dataEnd := segment.dataEnd ++ [segment.data.length]
        cols := segment.cols ++ [cols], rows := segment.rows ++ [rows], data := segment.data }

/-- Where a segment lies in the file. One that is `plain` is not compressed. -/
structure ReplaySegmentRecord where
  offset : Nat
  length : Nat
  startAtMs : ℚ
  endAtMs : ℚ
  entryCount : Nat
  outputBytes : Nat
  plain : Bool := false
  deriving DecidableEq

section

variable (json : Json)

def parseReplayEntry (line : Text) : Option (Fields × SessionReplayEntry) :=
  if trim line = [] then none
  else
    match json.parse line with
    | some (some fields) => (entryOf fields).map fun entry => (fields, entry)
    | _ => none

def decodeReplaySegment (text : Text) (startAtMs : ℚ) : Segment ℚ :=
  ((text.splitOn '\n').foldl (fun (acc : Segment ℚ × ℚ) line =>
    match parseReplayEntry json line with
    | some (_, entry) => (push acc.1 (max acc.2 entry.atMs) entry, max acc.2 entry.atMs)
    | none => acc) (ReplayPlayer.emptySegment, startAtMs)).1

def readReplaySegment (gzip : Gzip) (events : Bytes) (record : ReplaySegmentRecord) :
    Option (Segment ℚ) :=
  let buffer := (events.drop record.offset).take record.length
  (if record.plain then some buffer else gzip.gunzip buffer).map fun content =>
    decodeReplaySegment json (toText content) record.startAtMs

/-! ### Reading in place -/

structure Indexing where
  records : List ReplaySegmentRecord := []
  current : Option ReplaySegmentRecord := none
  currentTextBytes : Nat := 0
  clock : ℚ := 0

def Indexing.extended (s : Indexing) (entry : SessionReplayEntry) (clock : ℚ) (start stop : Nat) :
    ReplaySegmentRecord :=
  let current := s.current.getD {
    offset := start, length := 0, startAtMs := clock, endAtMs := clock, entryCount := 0
    outputBytes := 0, plain := true }
  { current with
    length := stop - current.offset, endAtMs := clock, entryCount := current.entryCount + 1
    outputBytes := current.outputBytes + outputBytesOf entry }

/-- `take` of a line between two places of the file. -/
def Indexing.take (segmentBytes : Nat) (s : Indexing) (line : Bytes) (start stop : Nat) :
    Indexing :=
  match parseReplayEntry json (toText line) with
  | none => s
  | some (_, entry) =>
      let clock := max s.clock entry.atMs
      let current := s.extended entry clock start stop
      let currentTextBytes := s.currentTextBytes + (stop - start)
      if segmentBytes ≤ currentTextBytes then
        { records := s.records ++ [current], current := none, currentTextBytes := 0, clock }
      else { s with current := some current, currentTextBytes, clock }

/-- `position` is that of the chunk. -/
structure Scan where
  indexing : Indexing := {}
  position : Nat := 0
  lineStart : Nat := 0
  carry : List Bytes := []

/-- The rest of a chunk from `first` on. -/
def scanChunk (segmentBytes : Nat) (s : Scan) (first : Nat) (rest : Bytes) : Scan :=
  let piece := rest.takeWhile (· ≠ newline)
  match _ : rest.drop piece.length with
  | [] => { s with carry := if piece = [] then s.carry else s.carry ++ [piece] }
  | _ :: after =>
      let stop := s.position + first + piece.length + 1
      let line := if s.carry ≠ [] then (s.carry ++ [piece]).flatten else piece
      scanChunk segmentBytes { s with
        indexing := s.indexing.take json segmentBytes line s.lineStart stop
        carry := [], lineStart := stop } (first + piece.length + 1) after
termination_by rest.length
decreasing_by
  rename_i hafter
  have hlength := congrArg List.length hafter
  rw [List.length_drop, List.length_cons] at hlength
  omega

def indexPlainReplayEvents (segmentBytes : Nat) (chunks : List Bytes) :
    List ReplaySegmentRecord :=
  let s := chunks.foldl (fun s chunk =>
    { scanChunk json segmentBytes s 0 chunk with position := s.position + chunk.length }) {}
  let indexing := if s.carry ≠ [] then
      s.indexing.take json segmentBytes s.carry.flatten s.lineStart s.position
    else s.indexing
  indexing.records ++ indexing.current.toList

/-! ### Writing anew -/

structure Line where
  text : Text
  atMs : ℚ
  outputBytes : Nat

def restamp (line : Text) (fields : Fields) (entry : SessionReplayEntry) (clock : ℚ) : Line :=
  { text :=
      if entry.atMs = clock then trim line
      else json.stringify (fields.setNumber (units "atMs") clock)
    atMs := clock, outputBytes := outputBytesOf entry }

def convertLines : List Text → ℚ → List Line
  | [], _ => []
  | line :: lines, clock =>
      match parseReplayEntry json line with
      | none => convertLines lines clock
      | some (fields, entry) =>
          restamp json line fields entry (max clock entry.atMs) ::
            convertLines lines (max clock entry.atMs)

structure Member where
  startAtMs : ℚ
  endAtMs : ℚ
  entryCount : Nat := 0
  outputBytes : Nat := 0
  textBytes : Nat := 0
  lines : List Line := []

/-- `members` are ended. -/
structure ReplayEventsWriter where
  members : List Member := []
  current : Option Member := none

def startMember (atMs : ℚ) : Member := { startAtMs := atMs, endAtMs := atMs }

def Member.add (member : Member) (line : Line) : Member :=
  { member with
    endAtMs := line.atMs, entryCount := member.entryCount + 1
    outputBytes := member.outputBytes + line.outputBytes
    textBytes := member.textBytes + ((Utf16.encode line.text).length + 1)
    lines := member.lines ++ [line] }

def ReplayEventsWriter.append (segmentBytes : Nat) (w : ReplayEventsWriter) (line : Line) :
    ReplayEventsWriter :=
  let member := (w.current.getD (startMember line.atMs)).add line
  if segmentBytes ≤ member.textBytes then { members := w.members ++ [member], current := none }
  else { w with current := some member }

def ReplayEventsWriter.all (w : ReplayEventsWriter) : List Member := w.members ++ w.current.toList

def Member.content (m : Member) : Bytes :=
  encode (m.lines.flatMap fun line => line.text ++ ['\n'])

def recordsFrom (gzip : Gzip) : Nat → List Member → List ReplaySegmentRecord
  | _, [] => []
  | offset, m :: members =>
      { offset, length := (gzip.gzip m.content).length, startAtMs := m.startAtMs
        endAtMs := m.endAtMs, entryCount := m.entryCount, outputBytes := m.outputBytes } ::
        recordsFrom gzip (offset + (gzip.gzip m.content).length) members

/-- The file that is written, and where its segments are. The text comes in pieces. -/
def convertReplayEvents (gzip : Gzip) (segmentBytes : Nat) (chunks : List Bytes) :
    Bytes × List ReplaySegmentRecord :=
  let lines := convertLines json (TornLog.lines '\n' [] (pieces [] chunks)) 0
  let members := (lines.foldl (·.append segmentBytes) ({} : ReplayEventsWriter)).all
  (members.flatMap fun m => gzip.gzip m.content, recordsFrom gzip 0 members)


def readEntries (gzip : Gzip) (events : Bytes) (records : List ReplaySegmentRecord) :
    Option (List (ℚ × List Mark)) :=
  (records.mapM (readReplaySegment json gzip events)).map (·.flatMap Segment.entries)

end

/-! ### Entries and their times -/

def SessionReplayEntry.marks : SessionReplayEntry → List Mark
  | .output _ dataBase64 => (fromBase64 (chars dataBase64)).map .byte
  | .resize _ cols rows => [.resize cols rows]

def SessionReplayEntry.Drawn : SessionReplayEntry → Prop
  | .output _ _ => True
  | .resize _ cols _ => cols ≠ 0

def latest (clock : ℚ) (entries : List SessionReplayEntry) : ℚ :=
  entries.foldl (fun clock entry => max clock entry.atMs) clock

def stamp : ℚ → List SessionReplayEntry → List (ℚ × List Mark)
  | _, [] => []
  | clock, entry :: entries =>
      (max clock entry.atMs, entry.marks) :: stamp (max clock entry.atMs) entries

def entryAt (json : Json) (line : Text) : Option SessionReplayEntry :=
  (parseReplayEntry json line).map (·.2)

def entriesOf (json : Json) (events : Bytes) : List SessionReplayEntry :=
  ((toText events).splitOn '\n').filterMap (entryAt json)

variable {json : Json} {gzip : Gzip} {segment : Segment ℚ} {entry : SessionReplayEntry}
  {entries entries' : List SessionReplayEntry} {clock : ℚ} {fields : Fields} {text line : Text}

theorem stamp_append : stamp clock (entries ++ entries') =
    stamp clock entries ++ stamp (latest clock entries) entries' := by
  induction entries generalizing clock with
  | nil => rfl
  | cons entry entries ih => exact congrArg _ ih

theorem latest_append : latest clock (entries ++ entries') =
    latest (latest clock entries) entries' := List.foldl_append

theorem drawn_of_entryOf (h : entryOf fields = some entry) : entry.Drawn := by
  unfold entryOf at h
  split at h
  · next atMs _ =>
    split_ifs at h
    · split at h
      · obtain rfl := Option.some.inj h
        exact trivial
      · cases h
    · obtain ⟨cols, hcols, h⟩ := Option.bind_eq_some_iff.mp h
      obtain ⟨rows, hrows, h⟩ := Option.bind_eq_some_iff.mp h
      obtain rfl := Option.some.inj h
      unfold isTerminalDimension at hcols
      split at hcols
      · next n _ =>
        split_ifs at hcols with hn
        obtain rfl := Option.some.inj hcols
        have hpos := Rat.num_pos.mpr hn.2.1
        change n.num.toNat ≠ 0
        omega
      · cases hcols
  · cases h

theorem entryAt_iff : entryAt json line = some entry ↔
    trim line ≠ [] ∧ ∃ fields, json.parse line = some (some fields) ∧
      entryOf fields = some entry := by
  unfold entryAt parseReplayEntry
  split_ifs with hblank
  · simp [hblank]
  · split
    · next fields hparse =>
      rw [hparse]
      simp [hblank]
    · next hparse =>
      refine iff_of_false (by simp) fun h => ?_
      obtain ⟨fields, hfields, _⟩ := h.2
      exact hparse fields hfields

theorem drawn_of_entryAt (h : entryAt json line = some entry) : entry.Drawn := by
  obtain ⟨_, fields, _, hentry⟩ := entryAt_iff.mp h
  exact drawn_of_entryOf hentry

/-! ### Segments -/

structure Whole (segment : Segment ℚ) : Prop where
  dataEnd : segment.dataEnd.length = segment.atMs.length
  cols : segment.cols.length = segment.atMs.length
  rows : segment.rows.length = segment.atMs.length
  runEnd_le : ∀ index, segment.dataEnd.getD index 0 ≤ segment.data.length
  runEnd : segment.runEnd segment.atMs.length = segment.data.length

theorem getD_concat_lt {α : Type} {l : List α} {a d : α} {index : Nat} (h : index < l.length) :
    (l ++ [a]).getD index d = l.getD index d := by
  rw [List.getD_append _ _ _ _ h]

theorem getD_concat_length {α : Type} {l : List α} {a d : α} {index : Nat}
    (h : l.length = index) : (l ++ [a]).getD index d = a := by
  subst h
  rw [List.getD_append_right _ _ _ _ (Nat.le_refl _), Nat.sub_self]
  rfl

theorem subarray_data {data more : Bytes} {first last : Nat} (h : last ≤ data.length) :
    subarray (data ++ more) first last = subarray data first last := by
  rw [subarray, List.take_append_of_le_length h, subarray]

theorem subarray_new {data more : Bytes} :
    subarray (data ++ more) data.length (data ++ more).length = more := by
  rw [subarray, List.take_length, List.drop_left]

theorem runEnd_append {segment pushed : Segment ℚ} {last index : Nat}
    (hdataEnd : pushed.dataEnd = segment.dataEnd ++ [last])
    (hindex : index ≤ segment.dataEnd.length) : pushed.runEnd index = segment.runEnd index := by
  unfold Segment.runEnd
  split_ifs with hzero
  · rfl
  · rw [hdataEnd, getD_concat_lt (by omega)]

theorem marks_append {segment pushed : Segment ℚ} {more : Bytes} {last cols rows index : Nat}
    (h : Whole segment) (hdata : pushed.data = segment.data ++ more)
    (hdataEnd : pushed.dataEnd = segment.dataEnd ++ [last])
    (hcols : pushed.cols = segment.cols ++ [cols]) (hrows : pushed.rows = segment.rows ++ [rows])
    (hindex : index < segment.atMs.length) : pushed.marks index = segment.marks index := by
  have hdataLt : index < segment.dataEnd.length := h.dataEnd ▸ hindex
  have hcolsLt : index < segment.cols.length := h.cols ▸ hindex
  have hrowsLt : index < segment.rows.length := h.rows ▸ hindex
  unfold Segment.marks
  rw [hcols, hrows, hdataEnd, hdata, runEnd_append hdataEnd hdataLt.le, getD_concat_lt hcolsLt,
    getD_concat_lt hdataLt, getD_concat_lt hrowsLt, subarray_data (h.runEnd_le index)]

theorem Whole.concat {pushed : Segment ℚ} {atMs : ℚ} {cols rows : Nat} (h : Whole segment)
    (more : Bytes) (hatMs : pushed.atMs = segment.atMs ++ [atMs])
    (hdata : pushed.data = segment.data ++ more)
    (hdataEnd : pushed.dataEnd = segment.dataEnd ++ [pushed.data.length])
    (hcols : pushed.cols = segment.cols ++ [cols]) (hrows : pushed.rows = segment.rows ++ [rows])
    {marks : List Mark} (hmarks : pushed.marks segment.atMs.length = marks) :
    Whole pushed ∧ pushed.entries = segment.entries ++ [(atMs, marks)] := by
  have hlength : pushed.atMs.length = segment.atMs.length + 1 := by
    rw [hatMs, List.length_append, List.length_singleton]
  constructor
  · constructor
    · rw [hdataEnd, List.length_append, List.length_singleton, h.dataEnd, hlength]
    · rw [hcols, List.length_append, List.length_singleton, h.cols, hlength]
    · rw [hrows, List.length_append, List.length_singleton, h.rows, hlength]
    · intro index
      have hle := h.runEnd_le index
      obtain hlt | heq | hgt := Nat.lt_trichotomy index segment.dataEnd.length
      · rw [hdataEnd, getD_concat_lt hlt, hdata, List.length_append]
        omega
      · rw [hdataEnd, getD_concat_length heq.symm]
      · rw [hdataEnd, List.getD_eq_default]
        · exact Nat.zero_le _
        · rw [List.length_append, List.length_singleton]
          omega
    · rw [hlength, ReplayPlayer.runEnd_succ, hdataEnd, getD_concat_length h.dataEnd]
  · unfold Segment.entries
    rw [hatMs, List.zipIdx_append, List.map_append, List.zipIdx_singleton, List.map_singleton,
      Nat.zero_add, hmarks]
    congr 1
    refine List.map_congr_left fun p hp => ?_
    rw [marks_append h hdata hdataEnd hcols hrows (List.snd_lt_of_mem_zipIdx hp)]

theorem push_spec (h : Whole segment) (hdrawn : entry.Drawn) :
    Whole (push segment clock entry) ∧
      (push segment clock entry).entries = segment.entries ++ [(clock, entry.marks)] := by
  cases entry with
  | output atMs dataBase64 =>
    refine h.concat (fromBase64 (chars dataBase64)) rfl rfl rfl rfl rfl ?_
    have hrun : (push segment clock (.output atMs dataBase64)).runEnd segment.atMs.length =
        segment.data.length := (runEnd_append rfl h.dataEnd.ge).trans h.runEnd
    unfold Segment.marks
    rw [hrun]
    unfold push
    dsimp only
    rw [getD_concat_length h.cols, if_pos rfl, getD_concat_length h.dataEnd, subarray_new]
    rfl
  | resize atMs cols rows =>
    refine h.concat [] rfl ?_ rfl rfl rfl ?_
    · exact (List.append_nil _).symm
    · unfold Segment.marks push
      dsimp only
      rw [getD_concat_length h.cols, if_neg hdrawn, getD_concat_length h.rows]
      rfl

theorem decode_entries (json : Json) (text : Text) (startAtMs : ℚ) :
    (decodeReplaySegment json text startAtMs).entries =
      stamp startAtMs ((text.splitOn '\n').filterMap (entryAt json)) := by
  suffices h : ∀ (lines : List Text) (segment : Segment ℚ) (clock : ℚ), Whole segment →
      (lines.foldl (fun (acc : Segment ℚ × ℚ) line =>
        match parseReplayEntry json line with
        | some (_, entry) => (push acc.1 (max acc.2 entry.atMs) entry, max acc.2 entry.atMs)
        | none => acc) (segment, clock)).1.entries =
        segment.entries ++ stamp clock (lines.filterMap (entryAt json)) by
    refine h (text.splitOn '\n') ReplayPlayer.emptySegment startAtMs ?_
    exact ⟨rfl, rfl, rfl, fun _ => Nat.le_refl 0, rfl⟩
  intro lines
  induction lines with
  | nil =>
    intro segment clock _
    exact (List.append_nil _).symm
  | cons line lines ih =>
    intro segment clock h
    rw [List.foldl_cons]
    cases hparse : parseReplayEntry json line with
    | none =>
      have hentry : entryAt json line = none := by rw [entryAt, hparse, Option.map_none]
      rw [List.filterMap_cons_none hentry]
      exact ih segment clock h
    | some found =>
      obtain ⟨fields, entry⟩ := found
      have hentry : entryAt json line = some entry := by rw [entryAt, hparse, Option.map_some]
      obtain ⟨hwhole, hentries⟩ := push_spec h (drawn_of_entryAt hentry)
      rw [List.filterMap_cons_some hentry, stamp]
      refine (ih _ _ hwhole).trans ?_
      rw [hentries, List.append_assoc]
      rfl

/-! ### Parts of a file -/

variable {s t events : Bytes} {record : ReplaySegmentRecord}

theorem entriesOf_eq (json : Json) (s : Bytes) :
    entriesOf json s = (s.splitOn newline).filterMap fun line => entryAt json (toText line) := by
  rw [entriesOf, Utf8.splitOn_toText, List.filterMap_map]
  rfl

theorem entriesOf_nil : entriesOf json [] = [] := by
  rw [entriesOf_eq, List.splitOn_nil]
  rfl

def Ended (json : Json) (s : Bytes) : Prop :=
  ∀ t, entriesOf json (s ++ t) = entriesOf json s ++ entriesOf json t

theorem Ended.nil : Ended json [] := by
  intro t
  rw [entriesOf_nil]
  rfl

theorem Ended.append (hs : Ended json s) (ht : Ended json t) : Ended json (s ++ t) := by
  intro more
  rw [List.append_assoc, hs, ht, hs, List.append_assoc]

theorem entries_singleton (json : Json) (line : Bytes) :
    ([line].filterMap fun line => entryAt json (toText line)) =
      (entryAt json (toText line)).toList := by
  rw [List.filterMap_cons]
  cases entryAt json (toText line) <;> rfl

theorem entriesOf_line (json : Json) {line : Bytes} (hline : newline ∉ line) :
    entriesOf json line = (entryAt json (toText line)).toList := by
  rw [entriesOf_eq, List.splitOn_eq_singleton hline, entries_singleton]

theorem entriesOf_line_append (json : Json) {line : Bytes} (hline : newline ∉ line) (t : Bytes) :
    entriesOf json (line ++ newline :: t) =
      (entryAt json (toText line)).toList ++ entriesOf json t := by
  rw [entriesOf_eq, List.splitOn_append_cons_self, List.splitOn_eq_singleton hline,
    List.filterMap_append, entries_singleton, ← entriesOf_eq]

theorem Ended.of_line {line : Bytes} (hline : newline ∉ line) : Ended json (line ++ [newline]) := by
  intro t
  rw [List.append_assoc, List.singleton_append, entriesOf_line_append json hline,
    entriesOf_line_append json hline, entriesOf_nil, List.append_nil]

theorem read_entries {content : Bytes}
    (hcontent : (if record.plain then some ((events.drop record.offset).take record.length)
      else gzip.gunzip ((events.drop record.offset).take record.length)) = some content) :
    (readReplaySegment json gzip events record).map Segment.entries =
      some (stamp record.startAtMs (entriesOf json content)) := by
  unfold readReplaySegment
  dsimp only
  rw [hcontent, Option.map_some, Option.map_some, decode_entries]
  rfl

theorem readEntries_cons {es es' : List (ℚ × List Mark)} {records : List ReplaySegmentRecord}
    (h : (readReplaySegment json gzip events record).map Segment.entries = some es)
    (h' : readEntries json gzip events records = some es') :
    readEntries json gzip events (record :: records) = some (es ++ es') := by
  obtain ⟨segment, hsegment, rfl⟩ := Option.map_eq_some_iff.mp h
  obtain ⟨segments, hsegments, rfl⟩ := Option.map_eq_some_iff.mp h'
  rw [readEntries, List.mapM_cons, hsegment, hsegments]
  rfl

theorem readEntries_append {es es' : List (ℚ × List Mark)}
    {records records' : List ReplaySegmentRecord}
    (h : readEntries json gzip events records = some es)
    (h' : readEntries json gzip events records' = some es') :
    readEntries json gzip events (records ++ records') = some (es ++ es') := by
  obtain ⟨segments, hsegments, rfl⟩ := Option.map_eq_some_iff.mp h
  obtain ⟨segments', hsegments', rfl⟩ := Option.map_eq_some_iff.mp h'
  rw [readEntries, List.mapM_append, hsegments, hsegments']
  exact congrArg some List.flatMap_append

/-! ### The index -/

theorem readPlain (hplain : record.plain = true) :
    (readReplaySegment json gzip events record).map Segment.entries =
      some (stamp record.startAtMs
        (entriesOf json ((events.drop record.offset).take record.length))) :=
  read_entries (if_pos hplain)

/-- The segment that is not full yet. Its first time does not change when there are more entries. -/
structure Opened (json : Json) (seen : Bytes) (done entries : List SessionReplayEntry)
    (record : ReplaySegmentRecord) : Prop where
  plain : record.plain = true
  inside : record.offset + record.length ≤ seen.length
  reads : entriesOf json ((seen.drop record.offset).take record.length) = entries
  starts : ∀ more, stamp record.startAtMs (entries ++ more) =
    stamp (latest 0 done) (entries ++ more)

/-- The bytes have been taken as `done`, in segments that are full, and `opened`. -/
structure Taken (json : Json) (gzip : Gzip) (seen : Bytes) (s : Indexing)
    (done opened : List SessionReplayEntry) : Prop where
  full : ∀ rest, readEntries json gzip (seen ++ rest) s.records = some (stamp 0 done)
  clock : s.clock = latest 0 (done ++ opened)
  between : s.current = none → opened = []
  within : ∀ record, s.current = some record → Opened json seen done opened record

structure Continued (json : Json) (seen : Bytes) (s : Indexing)
    (done opened : List SessionReplayEntry) : Prop where
  ended : Ended json seen
  entries : entriesOf json seen = done ++ opened
  opened : ∀ record, s.current = some record →
    Ended json (seen.drop record.offset) ∧ entriesOf json (seen.drop record.offset) = opened

variable {seen : Bytes} {s : Indexing} {done opened : List SessionReplayEntry}

theorem slice_append {rest : Bytes} {offset length : Nat} (h : offset + length ≤ seen.length) :
    ((seen ++ rest).drop offset).take length = (seen.drop offset).take length := by
  rw [List.drop_append_of_le_length (by omega), List.take_append_of_le_length]
  rw [List.length_drop]
  omega

theorem Opened.read (h : Opened json seen done opened record) (rest : Bytes) :
    (readReplaySegment json gzip (seen ++ rest) record).map Segment.entries =
      some (stamp (latest 0 done) opened) := by
  have hstarts := h.starts []
  rw [List.append_nil] at hstarts
  rw [readPlain h.plain, slice_append h.inside, h.reads, hstarts]

theorem Taken.all (h : Taken json gzip seen s done opened) (rest : Bytes) :
    readEntries json gzip (seen ++ rest) (s.records ++ s.current.toList) =
      some (stamp 0 (done ++ opened)) := by
  rw [stamp_append]
  refine readEntries_append (h.full rest) ?_
  cases hcurrent : s.current with
  | none =>
    rw [h.between hcurrent]
    rfl
  | some record =>
    have hnil : readEntries json gzip (seen ++ rest) [] = some [] := rfl
    have hread := readEntries_cons ((h.within record hcurrent).read rest) hnil
    rw [List.append_nil] at hread
    exact hread

theorem Taken.close {records : List ReplaySegmentRecord} {n : Nat}
    (h : Taken json gzip seen ⟨records, some record, n, clock⟩ done opened) :
    Taken json gzip seen ⟨records ++ [record], none, 0, clock⟩ (done ++ opened) [] := by
  constructor
  · exact h.all
  · rw [List.append_nil]
    exact h.clock
  · exact fun _ => rfl
  · intro record' hrecord
    cases hrecord

theorem Indexing.take_none {segmentBytes start stop : Nat} {line : Bytes}
    (h : entryAt json (toText line) = none) :
    s.take json segmentBytes line start stop = s := by
  have hparse : parseReplayEntry json (toText line) = none := Option.map_eq_none_iff.mp h
  rw [Indexing.take, hparse]

theorem Indexing.take_some {segmentBytes start stop : Nat} {line : Bytes}
    (h : entryAt json (toText line) = some entry) :
    ∃ current n, current = s.extended entry (max s.clock entry.atMs) start stop ∧
      (s.take json segmentBytes line start stop =
          ⟨s.records, some current, n, max s.clock entry.atMs⟩ ∨
        s.take json segmentBytes line start stop =
          ⟨s.records ++ [current], none, 0, max s.clock entry.atMs⟩) := by
  obtain ⟨⟨fields, entry⟩, hparse, rfl⟩ := Option.map_eq_some_iff.mp h
  refine ⟨_, s.currentTextBytes + (stop - start), rfl, ?_⟩
  rw [Indexing.take, hparse]
  dsimp only
  split_ifs
  · right
    rfl
  · left
    rfl

theorem stamp_cons_max : stamp (max clock entry.atMs) (entry :: entries) =
    stamp clock (entry :: entries) := by
  rw [stamp, stamp, max_assoc, max_self]

variable {bytes line : Bytes}

theorem Taken.extended (h : Taken json gzip seen s done opened)
    (hc : Continued json seen s done opened) (hbytes : entriesOf json bytes = [entry]) :
    let current :=
      s.extended entry (max s.clock entry.atMs) seen.length (seen.length + bytes.length)
    Opened json (seen ++ bytes) done (opened ++ [entry]) current ∧
      (Ended json bytes → Ended json ((seen ++ bytes).drop current.offset)) ∧
      entriesOf json ((seen ++ bytes).drop current.offset) = opened ++ [entry] := by
  intro current
  cases hcurrent : s.current with
  | none =>
    have hopened := h.between hcurrent
    have hclock := h.clock
    rw [hopened, List.append_nil] at hclock
    have hcurrent' : current = {
        offset := seen.length, length := seen.length + bytes.length - seen.length
        startAtMs := max s.clock entry.atMs, endAtMs := max s.clock entry.atMs, entryCount := 1
        outputBytes := 0 + outputBytesOf entry, plain := true } := by
      unfold current Indexing.extended
      rw [hcurrent]
      rfl
    rw [hcurrent', hopened]
    dsimp only
    rw [List.drop_left, List.nil_append]
    refine ⟨⟨rfl, ?_, ?_, fun more => ?_⟩, fun hended => hended, hbytes⟩
    · rw [List.length_append]
      dsimp only
      omega
    · dsimp only
      rw [List.drop_left, Nat.add_sub_cancel_left, List.take_length, hbytes]
    · rw [hclock]
      exact stamp_cons_max
  | some record =>
    have hrecord := h.within record hcurrent
    obtain ⟨hended, hentries⟩ := hc.opened record hcurrent
    have hinside := hrecord.inside
    have hcurrent' : current = { record with
        length := seen.length + bytes.length - record.offset
        endAtMs := max s.clock entry.atMs, entryCount := record.entryCount + 1
        outputBytes := record.outputBytes + outputBytesOf entry } := by
      unfold current Indexing.extended
      rw [hcurrent]
      rfl
    have hdrop : (seen ++ bytes).drop record.offset = seen.drop record.offset ++ bytes :=
      List.drop_append_of_le_length (by omega)
    have hall : entriesOf json (seen.drop record.offset ++ bytes) = opened ++ [entry] := by
      rw [hended, hentries, hbytes]
    rw [hcurrent']
    dsimp only
    rw [hdrop]
    refine ⟨⟨hrecord.plain, ?_, ?_, fun more => ?_⟩, hended.append, hall⟩
    · rw [List.length_append]
      dsimp only
      omega
    · dsimp only
      rw [hdrop, List.take_of_length_le, hall]
      rw [List.length_append, List.length_drop]
      omega
    · rw [List.append_assoc]
      exact hrecord.starts _

theorem Taken.more (h : Taken json gzip seen s done opened) (bytes : Bytes) :
    Taken json gzip (seen ++ bytes) s done opened := by
  constructor
  · intro rest
    rw [List.append_assoc]
    exact h.full _
  · exact h.clock
  · exact h.between
  · intro record hrecord
    have hopened := h.within record hrecord
    have hinside := hopened.inside
    refine ⟨hopened.plain, ?_, ?_, hopened.starts⟩
    · rw [List.length_append]
      omega
    · rw [slice_append hinside]
      exact hopened.reads

theorem Taken.take (h : Taken json gzip seen s done opened)
    (hc : Continued json seen s done opened) (segmentBytes : Nat)
    (hbytes : entriesOf json bytes = (entryAt json (toText line)).toList) :
    let s' := s.take json segmentBytes line seen.length (seen.length + bytes.length)
    ∃ done' opened', done' ++ opened' = done ++ opened ++ entriesOf json bytes ∧
      Taken json gzip (seen ++ bytes) s' done' opened' ∧
      (Ended json bytes → Continued json (seen ++ bytes) s' done' opened') := by
  intro s'
  have hseen : entriesOf json (seen ++ bytes) = done ++ opened ++ entriesOf json bytes := by
    rw [hc.ended, hc.entries]
  cases hentry : entryAt json (toText line) with
  | none =>
    have hs' : s' = s := Indexing.take_none hentry
    rw [hentry, Option.toList_none] at hbytes
    rw [hbytes, List.append_nil] at hseen ⊢
    rw [hs']
    refine ⟨done, opened, rfl, h.more bytes, fun hended => ⟨hc.ended.append hended, hseen, ?_⟩⟩
    intro record hrecord
    have hinside := (h.within record hrecord).inside
    obtain ⟨hopened, hentries⟩ := hc.opened record hrecord
    rw [List.drop_append_of_le_length (by omega)]
    refine ⟨hopened.append hended, ?_⟩
    rw [hopened, hentries, hbytes, List.append_nil]
  | some entry =>
    rw [hentry, Option.toList_some] at hbytes
    rw [hbytes] at hseen ⊢
    obtain ⟨hopened, hended, hentries⟩ := h.extended hc hbytes
    obtain ⟨current, n, hcurrent, htake⟩ := Indexing.take_some hentry
    rw [← hcurrent] at hopened hended hentries
    have htaken : Taken json gzip (seen ++ bytes)
        ⟨s.records, some current, n, max s.clock entry.atMs⟩ done (opened ++ [entry]) := by
      constructor
      · exact (h.more bytes).full
      · rw [← List.append_assoc, latest_append, h.clock]
        rfl
      · intro hnone
        cases hnone
      · intro record hrecord
        obtain rfl := Option.some.inj hrecord
        exact hopened
    obtain hs' | hs' := htake
    · rw [show s' = _ from hs']
      refine ⟨done, opened ++ [entry], (List.append_assoc _ _ _).symm, htaken, fun hbytes' => ?_⟩
      refine ⟨hc.ended.append hbytes', hseen.trans (List.append_assoc _ _ _), ?_⟩
      intro record hrecord
      obtain rfl := Option.some.inj hrecord
      exact ⟨hended hbytes', hentries⟩
    · rw [show s' = _ from hs']
      refine ⟨done ++ (opened ++ [entry]), [], ?_, ?_, fun hbytes' => ?_⟩
      · rw [List.append_nil, List.append_assoc]
      · exact htaken.close
      · refine ⟨hc.ended.append hbytes', ?_, ?_⟩
        · rw [List.append_nil, hseen, List.append_assoc]
        · intro record hrecord
          cases hrecord

structure Scanned (json : Json) (gzip : Gzip) (before : Bytes) (scan : Scan)
    (done opened : List SessionReplayEntry) : Prop where
  taken : Taken json gzip before scan.indexing done opened
  continued : Continued json before scan.indexing done opened
  lineStart : scan.lineStart = before.length
  carry : newline ∉ scan.carry.flatten
  pieces : [] ∉ scan.carry

variable {before : Bytes} {scan : Scan} {segmentBytes : Nat}

theorem carried_line (carry : List Bytes) (piece : Bytes) :
    (if carry ≠ [] then (carry ++ [piece]).flatten else piece) = carry.flatten ++ piece := by
  split_ifs with hcarry
  · rw [List.flatten_append, List.flatten_singleton]
  · rw [not_not.mp hcarry]
    rfl

theorem not_newline {piece : Bytes} (hpiece : newline ∉ piece) :
    ∀ b ∈ piece, decide (b ≠ newline) = true := by
  intro b hb
  exact decide_eq_true fun heq => hpiece (heq ▸ hb)

theorem scanChunk_line {piece : Bytes} (hpiece : newline ∉ piece) (first : Nat) (after : Bytes) :
    scanChunk json segmentBytes scan first (piece ++ newline :: after) =
      scanChunk json segmentBytes { scan with
        indexing := scan.indexing.take json segmentBytes (scan.carry.flatten ++ piece)
          scan.lineStart (scan.position + first + piece.length + 1)
        carry := [], lineStart := scan.position + first + piece.length + 1 }
        (first + piece.length + 1) after := by
  have htake : (piece ++ newline :: after).takeWhile (· ≠ newline) = piece := by
    rw [List.takeWhile_append_of_pos (not_newline hpiece), List.takeWhile_cons_of_neg,
      List.append_nil]
    exact fun h => of_decide_eq_true h rfl
  rw [scanChunk]
  dsimp only
  rw [htake, ← carried_line scan.carry piece]
  split
  · next hdrop =>
    rw [List.drop_left] at hdrop
    cases hdrop
  · next hdrop =>
    rw [List.drop_left] at hdrop
    obtain ⟨_, rfl⟩ := List.cons.inj hdrop
    rfl

theorem scanChunk_rest {piece : Bytes} (hpiece : newline ∉ piece) (first : Nat) :
    scanChunk json segmentBytes scan first piece = { scan with
      carry := if piece = [] then scan.carry else scan.carry ++ [piece] } := by
  have htake : piece.takeWhile (· ≠ newline) = piece :=
    List.takeWhile_eq_self_iff.mpr (not_newline hpiece)
  rw [scanChunk]
  dsimp only
  rw [htake]
  split
  · rfl
  · next hdrop =>
    rw [List.drop_length] at hdrop
    cases hdrop

theorem Scanned.whole_line (h : Scanned json gzip before scan done opened) (segmentBytes : Nat)
    {piece : Bytes} {first : Nat} (hpiece : newline ∉ piece)
    (hfirst : scan.position + first = before.length + scan.carry.flatten.length) :
    ∃ done' opened', Scanned json gzip (before ++ (scan.carry.flatten ++ piece ++ [newline]))
      { scan with
        indexing := scan.indexing.take json segmentBytes (scan.carry.flatten ++ piece)
          scan.lineStart (scan.position + first + piece.length + 1)
        carry := [], lineStart := scan.position + first + piece.length + 1 } done' opened' := by
  have hline : newline ∉ scan.carry.flatten ++ piece := by
    rw [List.mem_append]
    exact not_or.mpr ⟨h.carry, hpiece⟩
  have hbytes := entriesOf_line_append json hline []
  rw [entriesOf_nil, List.append_nil] at hbytes
  have hstop : scan.position + first + piece.length + 1 =
      before.length + (scan.carry.flatten ++ piece ++ [newline]).length := by
    rw [List.length_append, List.length_append, List.length_singleton]
    omega
  obtain ⟨done', opened', _, htaken, hcontinued⟩ :=
    h.taken.take h.continued segmentBytes hbytes
  refine ⟨done', opened', ?_, ?_, ?_, List.not_mem_nil, List.not_mem_nil⟩
  · rw [h.lineStart, hstop]
    exact htaken
  · rw [h.lineStart, hstop]
    exact hcontinued (Ended.of_line hline)
  · exact hstop.trans List.length_append.symm

theorem Scanned.chunk (h : Scanned json gzip before scan done opened) (segmentBytes : Nat)
    (first : Nat) (rest : Bytes)
    (hfirst : scan.position + first = before.length + scan.carry.flatten.length) :
    ∃ before' done' opened',
      before' ++ (scanChunk json segmentBytes scan first rest).carry.flatten =
        before ++ scan.carry.flatten ++ rest ∧
      (scanChunk json segmentBytes scan first rest).position = scan.position ∧
      Scanned json gzip before' (scanChunk json segmentBytes scan first rest) done' opened' := by
  induction hlength : rest.length using Nat.strongRecOn
    generalizing rest scan first before done opened with
  | _ length ih =>
    by_cases hnewline : newline ∈ rest
    · obtain ⟨piece, after, rfl, hpiece⟩ := List.eq_append_cons_of_mem hnewline
      have hshorter : after.length < length := by
        rw [← hlength, List.length_append, List.length_cons]
        omega
      obtain ⟨done', opened', hline⟩ := h.whole_line segmentBytes hpiece hfirst
      rw [scanChunk_line hpiece]
      have hfirst' : scan.position + (first + piece.length + 1) =
          (before ++ (scan.carry.flatten ++ piece ++ [newline])).length + 0 := by
        rw [List.length_append, List.length_append, List.length_append, List.length_singleton]
        omega
      obtain ⟨before', done', opened', hbefore, hposition, hscanned⟩ :=
        ih _ hshorter hline _ after hfirst' rfl
      refine ⟨before', done', opened', hbefore.trans ?_, hposition, hscanned⟩
      simp
    · rw [scanChunk_rest hnewline]
      refine ⟨before, done, opened, ?_, rfl, h.taken, h.continued, h.lineStart, ?_, ?_⟩
      · dsimp only
        split_ifs with hrest
        · rw [hrest, List.append_nil]
        · rw [List.flatten_append, List.flatten_singleton, List.append_assoc]
      · dsimp only
        split_ifs with hrest
        · exact h.carry
        · rw [List.flatten_append, List.flatten_singleton, List.mem_append]
          exact not_or.mpr ⟨h.carry, hnewline⟩
      · dsimp only
        split_ifs with hrest
        · exact h.pieces
        · rw [List.mem_append, List.mem_singleton]
          exact not_or.mpr ⟨h.pieces, Ne.symm hrest⟩

theorem Scanned.init (json : Json) (gzip : Gzip) : Scanned json gzip [] {} [] [] := by
  constructor
  · constructor
    · exact fun _ => rfl
    · rfl
    · exact fun _ => rfl
    · intro record hrecord
      cases hrecord
  · refine ⟨Ended.nil, entriesOf_nil, fun record hrecord => ?_⟩
    cases hrecord
  · rfl
  · exact List.not_mem_nil
  · exact List.not_mem_nil

theorem Scanned.chunks (h : Scanned json gzip before scan done opened)
    (hposition : scan.position = before.length + scan.carry.flatten.length)
    (segmentBytes : Nat) (chunks : List Bytes) :
    ∃ scan' before' done' opened', chunks.foldl (fun s chunk =>
        { scanChunk json segmentBytes s 0 chunk with position := s.position + chunk.length })
        scan = scan' ∧
      scan'.position = (before' ++ scan'.carry.flatten).length ∧
      before' ++ scan'.carry.flatten = before ++ scan.carry.flatten ++ chunks.flatten ∧
      Scanned json gzip before' scan' done' opened' := by
  induction chunks generalizing scan before done opened with
  | nil =>
    refine ⟨scan, before, done, opened, rfl, ?_, ?_, h⟩
    · rw [hposition, List.length_append]
    · rw [List.flatten_nil, List.append_nil]
  | cons chunk chunks ih =>
    obtain ⟨before', done', opened', hbefore, _, hscanned⟩ :=
      h.chunk segmentBytes 0 chunk hposition
    have hlength := congrArg List.length hbefore
    rw [List.length_append, List.length_append, List.length_append] at hlength
    have hnext : Scanned json gzip before' { scanChunk json segmentBytes scan 0 chunk with
        position := scan.position + chunk.length } done' opened' :=
      ⟨hscanned.taken, hscanned.continued, hscanned.lineStart, hscanned.carry, hscanned.pieces⟩
    have hposition' : scan.position + chunk.length = before'.length +
        (scanChunk json segmentBytes scan 0 chunk).carry.flatten.length := by omega
    obtain ⟨scan', before'', done'', opened'', hfold, hposition', hbefore', hscanned'⟩ :=
      ih hnext hposition'
    refine ⟨scan', before'', done'', opened'', hfold, hposition', hbefore'.trans ?_, hscanned'⟩
    rw [List.flatten_cons, ← List.append_assoc]
    exact congrArg (· ++ chunks.flatten) hbefore

theorem index_reads (segmentBytes : Nat) (chunks : List Bytes) :
    readEntries json gzip chunks.flatten (indexPlainReplayEvents json segmentBytes chunks) =
      some (stamp 0 (entriesOf json chunks.flatten)) := by
  obtain ⟨scan, before, done, opened, hfold, hposition, hbefore, h⟩ :=
    (Scanned.init json gzip).chunks rfl segmentBytes chunks
  rw [List.flatten_nil, List.nil_append, List.nil_append] at hbefore
  unfold indexPlainReplayEvents
  rw [hfold, ← hbefore]
  dsimp only
  have hentries := entriesOf_line json h.carry
  rw [h.continued.ended, h.continued.entries]
  by_cases hcarry : scan.carry = []
  · have hall := h.taken.all []
    rw [if_neg (not_not.mpr hcarry), hcarry, List.flatten_nil, entriesOf_nil, List.append_nil]
    rw [List.append_nil] at hall ⊢
    exact hall
  · obtain ⟨done', opened', hdone, htaken, _⟩ :=
      h.taken.take h.continued segmentBytes hentries
    have hall := htaken.all []
    rw [List.append_nil] at hall
    rw [if_pos hcarry, ← hdone, h.lineStart, hposition, List.length_append]
    exact hall

/-! ### The new file -/

def Value.Kept : Value → Prop
  | .other _ => False
  | _ => True

def Json.Given (json : Json) (n : ℚ) : Prop :=
  ∃ line fields key, json.parse line = some (some fields) ∧ fields.lookup key = some (.number n)

/-- The documented behaviour: white space around a value does not matter, and an object that has
been read is read as it was written. -/
structure Json.Standard (json : Json) : Prop where
  blank : ∀ line, trim line = [] → json.parse line = none
  trims : ∀ line value, json.parse line = some value → json.parse (trim line) = some value
  zero : json.Given 0
  keeps : ∀ line fields key n, json.parse line = some (some fields) →
    (∃ old, fields.lookup key = some (.number old)) → json.Given n →
    ∃ kept, json.parse (json.stringify (fields.setNumber key n)) = some (some kept) ∧
      ∀ key' value, value.Kept →
        (kept.lookup key' = some value ↔ (fields.setNumber key n).lookup key' = some value)
  oneLine : ∀ fields, '\n' ∉ json.stringify fields

theorem lookup_setNumber (fields : Fields) (key key' : List UInt16) (n : ℚ) :
    (fields.setNumber key n).lookup key' =
      if key' = key then (fields.lookup key').map fun _ => .number n else fields.lookup key' := by
  induction fields with
  | nil => split_ifs <;> rfl
  | cons f fields ih =>
    obtain ⟨name, value⟩ := f
    have hcons : Fields.setNumber ((name, value) :: fields) key n =
        (name, if name = key then .number n else value) :: Fields.setNumber fields key n := by
      rw [Fields.setNumber, List.map_cons]
      split_ifs <;> rfl
    rw [hcons]
    by_cases hname : key' = name
    · rw [hname, List.lookup_cons_self, List.lookup_cons_self]
      split_ifs <;> rfl
    · rw [List.lookup_cons, List.lookup_cons, beq_false_of_ne hname]
      exact ih

theorem entryOf_kept {kept : Fields} (h : entryOf fields = some entry)
    (hkept : ∀ key value, value.Kept → (kept.lookup key = some value ↔
      (fields.setNumber (units "atMs") clock).lookup key = some value)) :
    ∃ entry', entryOf kept = some entry' ∧ entry'.atMs = clock ∧ entry'.marks = entry.marks := by
  have hother : ∀ key value, key ≠ units "atMs" → value.Kept → fields.lookup key = some value →
      kept.lookup key = some value := by
    intro key value hkey hvalue hfields
    rw [hkept key value hvalue, lookup_setNumber, if_neg hkey]
    exact hfields
  have hdimension : ∀ key n, key ≠ units "atMs" →
      isTerminalDimension (fields.lookup key) = some n →
      isTerminalDimension (kept.lookup key) = some n := by
    intro key n hkey hn
    unfold isTerminalDimension at hn
    split at hn
    · next value hvalue =>
      rw [hother key (.number _) hkey trivial hvalue]
      exact hn
    · cases hn
  unfold entryOf at h
  split at h
  · next atMs hatMs =>
    have hclock : kept.lookup (units "atMs") = some (.number clock) := by
      rw [hkept _ (.number clock) trivial, lookup_setNumber, if_pos rfl, hatMs]
      rfl
    unfold entryOf
    rw [hclock]
    dsimp only
    split_ifs at h with houtput hresize
    · split at h
      · next data hdata =>
        obtain rfl := Option.some.inj h
        rw [if_pos (hother _ (.string _) (by decide) trivial houtput),
          hother _ (.string _) (by decide) trivial hdata]
        exact ⟨_, rfl, rfl, rfl⟩
      · cases h
    · obtain ⟨cols, hcols, h⟩ := Option.bind_eq_some_iff.mp h
      obtain ⟨rows, hrows, h⟩ := Option.bind_eq_some_iff.mp h
      obtain rfl := Option.some.inj h
      have htype := hother _ (.string _) (by decide) trivial hresize
      rw [if_neg, if_pos htype, hdimension _ _ (by decide) hcols, hdimension _ _ (by decide) hrows]
      · exact ⟨_, rfl, rfl, rfl⟩
      · rw [htype]
        decide
  · cases h

structure Line.Good (json : Json) (line : Line) : Prop where
  oneLine : '\n' ∉ line.text
  reads : ∃ entry, entryAt json line.text = some entry ∧ entry.atMs = line.atMs

def Line.shown (json : Json) (line : Line) : List (ℚ × List Mark) :=
  (entryAt json line.text).toList.map fun entry => (line.atMs, entry.marks)

theorem not_mem_trim {c : Char} (h : c ∉ text) : c ∉ trim text := by
  intro hmem
  exact h (((List.rdropWhile_prefix _ _).sublist.trans (List.dropWhile_suffix _).sublist).mem hmem)

theorem restamp_good (h : json.Standard) (hline : '\n' ∉ text)
    (hparse : json.parse text = some (some fields)) (hentry : entryOf fields = some entry)
    (hgiven : json.Given clock) :
    (restamp json text fields entry clock).Good json ∧
      (restamp json text fields entry clock).shown json = [(clock, entry.marks)] := by
  suffices hnew : '\n' ∉ (restamp json text fields entry clock).text ∧ ∃ entry',
      entryAt json (restamp json text fields entry clock).text = some entry' ∧
        entry'.atMs = clock ∧ entry'.marks = entry.marks by
    obtain ⟨hone, entry', hreads, hatMs, hmarks⟩ := hnew
    refine ⟨⟨hone, entry', hreads, hatMs⟩, ?_⟩
    rw [Line.shown, hreads, ← hmarks]
    rfl
  unfold restamp
  dsimp only
  split_ifs with hclock
  · have htrim := h.trims text _ hparse
    refine ⟨not_mem_trim hline, entry, entryAt_iff.mpr ⟨?_, fields, htrim, hentry⟩, hclock, rfl⟩
    intro hblank
    rw [h.blank _ hblank] at htrim
    cases htrim
  · have hold : ∃ old, fields.lookup (units "atMs") = some (.number old) := by
      unfold entryOf at hentry
      split at hentry
      · next old hold => exact ⟨old, hold⟩
      · cases hentry
    obtain ⟨kept, hkept, hvalues⟩ := h.keeps text fields _ clock hparse hold hgiven
    obtain ⟨entry', hentry', hatMs, hmarks⟩ := entryOf_kept hentry hvalues
    refine ⟨h.oneLine _, entry', entryAt_iff.mpr ⟨?_, kept, hkept, hentry'⟩, hatMs, hmarks⟩
    intro hblank
    rw [h.blank _ hblank] at hkept
    cases hkept

theorem Json.Given.max {a b : ℚ} (ha : json.Given a) (hb : json.Given b) :
    json.Given (Max.max a b) := by
  obtain h | h := max_choice a b
  · rw [h]
    exact ha
  · rw [h]
    exact hb

theorem given_atMs (hparse : json.parse text = some (some fields))
    (hentry : entryOf fields = some entry) : json.Given entry.atMs := by
  unfold entryOf at hentry
  split at hentry
  · next atMs hatMs =>
    have hgiven : json.Given atMs := ⟨text, fields, _, hparse, hatMs⟩
    split_ifs at hentry
    · split at hentry
      · obtain rfl := Option.some.inj hentry
        exact hgiven
      · cases hentry
    · obtain ⟨cols, _, hentry⟩ := Option.bind_eq_some_iff.mp hentry
      obtain ⟨rows, _, hentry⟩ := Option.bind_eq_some_iff.mp hentry
      obtain rfl := Option.some.inj hentry
      exact hgiven
  · cases hentry

/-- Lines whose times do not go back, from `clock` on. -/
structure InOrder (json : Json) (clock : ℚ) (lines : List Line) : Prop where
  good : ∀ line ∈ lines, line.Good json
  from_clock : ∀ line ∈ lines, clock ≤ line.atMs
  sorted : lines.Pairwise (·.atMs ≤ ·.atMs)

theorem InOrder.cons {line : Line} {lines : List Line} (hgood : line.Good json)
    (hclock : clock ≤ line.atMs) (h : InOrder json line.atMs lines) :
    InOrder json clock (line :: lines) := by
  constructor
  · exact List.forall_mem_cons.mpr ⟨hgood, h.good⟩
  · refine List.forall_mem_cons.mpr ⟨hclock, fun next hnext => ?_⟩
    exact hclock.trans (h.from_clock next hnext)
  · exact List.pairwise_cons.mpr ⟨h.from_clock, h.sorted⟩

theorem convertLines_spec (h : json.Standard) {lines : List Text}
    (hlines : ∀ line ∈ lines, '\n' ∉ line) (hclock : json.Given clock) :
    InOrder json clock (convertLines json lines clock) ∧
      (convertLines json lines clock).flatMap (·.shown json) =
        stamp clock (lines.filterMap (entryAt json)) := by
  induction lines generalizing clock with
  | nil => exact ⟨⟨List.forall_mem_nil _, List.forall_mem_nil _, List.Pairwise.nil⟩, rfl⟩
  | cons line lines ih =>
    obtain ⟨hline, hlines⟩ := List.forall_mem_cons.mp hlines
    rw [convertLines]
    split
    · next hparse =>
      have hentry : entryAt json line = none := by rw [entryAt, hparse, Option.map_none]
      rw [List.filterMap_cons_none hentry]
      exact ih hlines hclock
    · next fields entry hparse =>
      have hentry : entryAt json line = some entry := by rw [entryAt, hparse, Option.map_some]
      have hfields : json.parse line = some (some fields) ∧ entryOf fields = some entry := by
        unfold parseReplayEntry at hparse
        split_ifs at hparse
        split at hparse
        · next found hfound =>
          obtain ⟨entry', hentry', heq⟩ := Option.map_eq_some_iff.mp hparse
          obtain ⟨rfl, rfl⟩ := Prod.mk.inj heq
          exact ⟨hfound, hentry'⟩
        · cases hparse
      have hnext := hclock.max (given_atMs hfields.1 hfields.2)
      obtain ⟨hgood, hshown⟩ := restamp_good h hline hfields.1 hfields.2 hnext
      obtain ⟨horder, hrest⟩ := ih hlines hnext
      refine ⟨InOrder.cons hgood (le_max_left _ _) horder, ?_⟩
      rw [List.flatMap_cons, hshown, hrest, List.filterMap_cons_some hentry]
      rfl

theorem InOrder.stamp_shown {lines : List Line} (h : InOrder json clock lines) :
    stamp clock (lines.filterMap fun line => entryAt json line.text) =
      lines.flatMap (·.shown json) := by
  induction lines generalizing clock with
  | nil => rfl
  | cons line lines ih =>
    obtain ⟨hgood, hgoods⟩ := List.forall_mem_cons.mp h.good
    obtain ⟨hclock, _⟩ := List.forall_mem_cons.mp h.from_clock
    obtain ⟨hfrom, hsorted⟩ := List.pairwise_cons.mp h.sorted
    obtain ⟨entry, hentry, hatMs⟩ := hgood.reads
    rw [List.filterMap_cons, hentry]
    dsimp only
    rw [stamp, List.flatMap_cons, hatMs, max_eq_right hclock, ih ⟨hgoods, hfrom, hsorted⟩,
      Line.shown, hentry]
    rfl

theorem content_entries {lines : List Line} {m : Member} (hm : m.lines = lines)
    (h : ∀ line ∈ lines, line.Good json) :
    entriesOf json m.content = lines.filterMap fun line => entryAt json line.text := by
  have htext : (m.lines.flatMap fun line => line.text ++ ['\n']) =
      TornLog.text '\n' (lines.map (·.text)) ++ [] := by
    rw [hm, List.append_nil, TornLog.text, List.flatMap_map]
  have hlines : ∀ l ∈ lines.map (·.text), '\n' ∉ l := by
    intro l hl
    obtain ⟨line, hline, rfl⟩ := List.mem_map.mp hl
    exact (h line hline).oneLine
  rw [entriesOf, Member.content, Utf8.toText_encode, htext, TornLog.splitOn_text hlines,
    List.splitOn_nil, List.filterMap_append, List.filterMap_map]
  exact List.append_nil _

structure Gathered (w : ReplayEventsWriter) (lines : List Line) : Prop where
  all : w.all.flatMap (·.lines) = lines
  starts : ∀ m ∈ w.all, m.lines.head?.map (·.atMs) = some m.startAtMs

theorem all_append (segmentBytes : Nat) (w : ReplayEventsWriter) (line : Line) :
    (w.append segmentBytes line).all =
      w.members ++ [(w.current.getD (startMember line.atMs)).add line] := by
  unfold ReplayEventsWriter.append ReplayEventsWriter.all
  dsimp only
  split_ifs
  · exact List.append_nil _
  · rfl

theorem Gathered.append {w : ReplayEventsWriter} {lines : List Line} (h : Gathered w lines)
    (segmentBytes : Nat) (line : Line) :
    Gathered (w.append segmentBytes line) (lines ++ [line]) := by
  have hall := h.all
  have hstarts := h.starts
  unfold ReplayEventsWriter.all at hall hstarts
  rw [List.flatMap_append] at hall
  constructor
  · rw [all_append, List.flatMap_append, List.flatMap_singleton, ← hall]
    cases w.current with
    | none => simp [Member.add, startMember]
    | some current => simp [Member.add]
  · intro m hm
    rw [all_append] at hm
    obtain hm | hm := List.mem_append.mp hm
    · exact hstarts m (List.mem_append_left _ hm)
    · obtain rfl := List.mem_singleton.mp hm
      cases hcurrent : w.current with
      | none => rfl
      | some current =>
        have hstart := hstarts current (List.mem_append_right _ (by simp [hcurrent]))
        obtain ⟨first, hfirst, hatMs⟩ := Option.map_eq_some_iff.mp hstart
        change (current.lines ++ [line]).head?.map _ = some current.startAtMs
        rw [List.head?_append, hfirst, ← hatMs]
        rfl

theorem Gathered.foldl {w : ReplayEventsWriter} {lines : List Line} (h : Gathered w lines)
    (segmentBytes : Nat) (more : List Line) :
    Gathered (more.foldl (·.append segmentBytes) w) (lines ++ more) := by
  induction more generalizing w lines with
  | nil =>
    rw [List.append_nil]
    exact h
  | cons line more ih =>
    rw [List.append_cons]
    exact ih (h.append segmentBytes line)

theorem recordsFrom_read (hgzip : ∀ s, gzip.gunzip (gzip.gzip s) = some s) {members : List Member}
    (hmembers : ∀ m ∈ members, InOrder json m.startAtMs m.lines) (before : Bytes) :
    readEntries json gzip (before ++ members.flatMap fun m => gzip.gzip m.content)
        (recordsFrom gzip before.length members) =
      some ((members.flatMap (·.lines)).flatMap (·.shown json)) := by
  induction members generalizing before with
  | nil => rfl
  | cons m members ih =>
    obtain ⟨hm, hmembers⟩ := List.forall_mem_cons.mp hmembers
    have hrest := ih hmembers (before ++ gzip.gzip m.content)
    rw [List.append_assoc, List.length_append] at hrest
    rw [recordsFrom, List.flatMap_cons, List.flatMap_cons, List.flatMap_append,
      ← hm.stamp_shown, ← content_entries rfl hm.good]
    refine readEntries_cons (read_entries ?_) hrest
    dsimp only
    rw [List.drop_left, List.take_left]
    exact hgzip _

theorem Gathered.member {w : ReplayEventsWriter} {lines : List Line} (h : Gathered w lines)
    (horder : InOrder json clock lines) {m : Member} (hm : m ∈ w.all) :
    InOrder json m.startAtMs m.lines := by
  have hsub : m.lines.Sublist lines := by
    rw [← h.all, List.flatMap_def]
    exact List.sublist_flatten_of_mem (List.mem_map_of_mem hm)
  have hsorted := horder.sorted.sublist hsub
  refine ⟨fun line hline => horder.good line (hsub.mem hline), ?_, hsorted⟩
  obtain ⟨first, hfirst, hatMs⟩ := Option.map_eq_some_iff.mp (h.starts m hm)
  cases hlines : m.lines with
  | nil => exact List.forall_mem_nil _
  | cons line rest =>
    rw [hlines] at hfirst hsorted
    obtain rfl := Option.some.inj hfirst
    rw [← hatMs]
    exact List.forall_mem_cons.mpr ⟨le_refl _, (List.pairwise_cons.mp hsorted).1⟩

theorem converted_reads (h : json.Standard) (hgzip : ∀ s, gzip.gunzip (gzip.gzip s) = some s)
    (segmentBytes : Nat) (chunks : List Bytes) :
    readEntries json gzip (convertReplayEvents json gzip segmentBytes chunks).1
        (convertReplayEvents json gzip segmentBytes chunks).2 =
      some (stamp 0 (entriesOf json chunks.flatten)) := by
  have hpieces : (pieces [] chunks).flatten = toText chunks.flatten :=
    Utf8.pieces_flatten [] chunks
  have hlines : TornLog.lines '\n' [] (pieces [] chunks) =
      (toText chunks.flatten).splitOn '\n' := by
    rw [TornLog.lines_eq_splitOn _ _ List.not_mem_nil, List.nil_append, hpieces]
  obtain ⟨horder, hshown⟩ := convertLines_spec h
    (fun line hline => Segments.sep_not_mem_of_mem_splitOn hline) h.zero
  have hempty : Gathered {} [] := ⟨rfl, List.forall_mem_nil _⟩
  have hgathered := hempty.foldl segmentBytes
    (convertLines json ((toText chunks.flatten).splitOn '\n') 0)
  rw [List.nil_append] at hgathered
  have hread := recordsFrom_read hgzip (fun m hm => hgathered.member horder hm) []
  rw [hgathered.all, hshown] at hread
  unfold convertReplayEvents
  rw [hlines]
  exact hread

/-- What is read in place is what the new file has, however either reader gets the bytes. -/
theorem readers_agree (h : json.Standard) (hgzip : ∀ s, gzip.gunzip (gzip.gzip s) = some s)
    (segmentBytes segmentBytes' : Nat) {chunks chunks' : List Bytes}
    (hchunks : chunks.flatten = chunks'.flatten) :
    ∃ entries,
      readEntries json gzip chunks.flatten (indexPlainReplayEvents json segmentBytes chunks) =
        some entries ∧
      readEntries json gzip (convertReplayEvents json gzip segmentBytes' chunks').1
        (convertReplayEvents json gzip segmentBytes' chunks').2 = some entries ∧
      entries = stamp 0 (entriesOf json chunks.flatten) := by
  refine ⟨_, index_reads segmentBytes chunks, ?_, rfl⟩
  rw [hchunks]
  exact converted_reads h hgzip segmentBytes' chunks'

def lineAt (digit : Char) : Text :=
  "\x7b\"atMs\":".toList ++ digit :: ",\"type\":\"output\",\"dataBase64\":\"QQ==\"\x7d".toList

def fieldsAt (atMs : ℚ) : Fields :=
  [(units "atMs", .number atMs), (units "type", .string (units "output")),
    (units "dataBase64", .string (units "QQ=="))]

def twoLines : Json where
  parse line :=
    if line = lineAt '0' then some (some (fieldsAt 0))
    else if line = lineAt '5' then some (some (fieldsAt 5))
    else none
  stringify fields := if fields = fieldsAt 5 then lineAt '5' else lineAt '0'

theorem twoLines_parse {value : Option Fields} (h : twoLines.parse text = some value) :
    (text = lineAt '0' ∧ value = some (fieldsAt 0)) ∨
      (text = lineAt '5' ∧ value = some (fieldsAt 5)) := by
  unfold twoLines at h
  dsimp only at h
  split_ifs at h with h0 h5
  · exact .inl ⟨h0, (Option.some.inj h).symm⟩
  · exact .inr ⟨h5, (Option.some.inj h).symm⟩

theorem fieldsAt_number {atMs n : ℚ} {key : List UInt16}
    (h : (fieldsAt atMs).lookup key = some (.number n)) : key = units "atMs" ∧ n = atMs := by
  unfold fieldsAt at h
  by_cases hfirst : key = units "atMs"
  · rw [hfirst, List.lookup_cons_self] at h
    exact ⟨hfirst, (Value.number.inj (Option.some.inj h)).symm⟩
  · rw [List.lookup_cons, beq_false_of_ne hfirst] at h
    by_cases hsecond : key = units "type"
    · rw [hsecond, List.lookup_cons_self] at h
      cases Option.some.inj h
    · rw [List.lookup_cons, beq_false_of_ne hsecond] at h
      dsimp only at h
      rw [List.lookup_cons] at h
      split at h
      · cases Option.some.inj h
      · cases h

theorem setNumber_fieldsAt (atMs n : ℚ) :
    (fieldsAt atMs).setNumber (units "atMs") n = fieldsAt n := by
  unfold fieldsAt Fields.setNumber
  rw [List.map_cons, List.map_cons, List.map_cons, if_pos rfl, if_neg (by decide),
    if_neg (by decide)]
  rfl

theorem twoLines_standard : twoLines.Standard := by
  constructor
  · intro line hblank
    cases hparse : twoLines.parse line with
    | none => rfl
    | some value =>
      obtain ⟨rfl, _⟩ | ⟨rfl, _⟩ := twoLines_parse hparse
      · exact absurd hblank (by decide)
      · exact absurd hblank (by decide)
  · intro line value hparse
    obtain ⟨rfl, rfl⟩ | ⟨rfl, rfl⟩ := twoLines_parse hparse
    · decide
    · decide
  · exact ⟨lineAt '0', fieldsAt 0, units "atMs", by decide, by decide⟩
  · intro line fields key n hparse hold hgiven
    have htimes : ∀ line fields, twoLines.parse line = some (some fields) →
        fields = fieldsAt 0 ∨ fields = fieldsAt 5 := by
      intro line fields hparse
      obtain ⟨_, hfields⟩ | ⟨_, hfields⟩ := twoLines_parse hparse
      · exact .inl (Option.some.inj hfields)
      · exact .inr (Option.some.inj hfields)
    obtain ⟨line', fields', key', hparse', hn⟩ := hgiven
    obtain ⟨old, hold⟩ := hold
    have hset : fields.setNumber key n = fieldsAt n := by
      obtain rfl | rfl := htimes _ _ hparse
      · rw [(fieldsAt_number hold).1, setNumber_fieldsAt]
      · rw [(fieldsAt_number hold).1, setNumber_fieldsAt]
    rw [hset]
    refine ⟨fieldsAt n, ?_, fun _ _ _ => Iff.rfl⟩
    obtain rfl | rfl := htimes _ _ hparse'
    · rw [(fieldsAt_number hn).2]
      decide
    · rw [(fieldsAt_number hn).2]
      decide
  · intro fields
    unfold twoLines
    dsimp only
    split_ifs <;> decide

def framed : Gzip where
  gzip s := 31 :: 139 :: s
  gunzip
    | 31 :: 139 :: s => some s
    | _ => none

def tornFile : Bytes :=
  encode (lineAt '5' ++ "\n \n\x7b\"atMs\n".toList ++ lineAt '0')

theorem readers_agree_torn :
    ∃ entries,
      readEntries twoLines framed ([tornFile.take 60, tornFile.drop 60] : List Bytes).flatten
        (indexPlainReplayEvents twoLines 10 [tornFile.take 60, tornFile.drop 60]) = some entries ∧
      readEntries twoLines framed (convertReplayEvents twoLines framed 1000 [tornFile]).1
        (convertReplayEvents twoLines framed 1000 [tornFile]).2 = some entries ∧
      entries = stamp 0
        (entriesOf twoLines ([tornFile.take 60, tornFile.drop 60] : List Bytes).flatten) :=
  readers_agree twoLines_standard (fun _ => rfl) 10 1000 (by simp)

end Dolgate.PlainReplay
