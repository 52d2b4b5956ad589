import Mathlib.Data.FinEnum
import Dolgate.Chunking
import Dolgate.GoBytes

set_option autoImplicit false

namespace Dolgate.TmuxControl
open Chunking GoBytes

/-- The notifications of `tmux -CC`. -/
inductive ControlEventKind where
  | output
  | begin
  | «end»
  | error
  | windowAdd
  | windowClose
  | windowRenamed
  | layoutChange
  | sessionChanged
  | sessionRenamed
  | sessionsChanged
  | windowPaneChanged
  | exit
  | pause
  | continue
  | other
deriving DecidableEq, Repr

structure ControlEvent where
  kind : ControlEventKind
  paneID : List UInt8 := []
  windowID : List UInt8 := []
  layout : List UInt8 := []
  name : List UInt8 := []
  data : List UInt8 := []
  args : List (List UInt8) := []
deriving DecidableEq, Repr

def splitFirst (s : List UInt8) : List UInt8 × List UInt8 :=
  match indexByte s 32 with
  | none => (s, [])
  | some i => (s.take i, s.drop (i + 1))

def isOctalDigit (b : UInt8) : Bool := 48 ≤ b && b ≤ 55

def octalValue (x y z : UInt8) : UInt8 :=
  UInt8.ofNat ((x - 48).toNat <<< 6 ||| (y - 48).toNat <<< 3 ||| (z - 48).toNat)

def unescapeOutput : List UInt8 → List UInt8
  | b :: x :: y :: z :: rest =>
      if b = 92 ∧ isOctalDigit x ∧ isOctalDigit y ∧ isOctalDigit z then
        octalValue x y z :: unescapeOutput rest
      else b :: unescapeOutput (x :: y :: z :: rest)
  | b :: rest => b :: unescapeOutput rest
  | [] => []

def parseControlLine (line : List UInt8) : ControlEvent :=
  if ¬ hasPrefix line (ascii "%") then { kind := .other, args := [line] }
  else
    let (cmd, rest) := splitFirst line
    if cmd = ascii "%output" then
      let (pane, data) := splitFirst rest
      { kind := .output, paneID := pane, data := unescapeOutput data }
    else if cmd = ascii "%extended-output" then
      let (pane, after) := splitFirst rest
      let data := match index after (ascii " : ") with
        | some i => after.drop (i + 3)
        | none => after
      { kind := .output, paneID := pane, data := unescapeOutput data }
    else if cmd = ascii "%window-add" then
      { kind := .windowAdd, windowID := trimSpace rest }
    else if cmd = ascii "%window-close" ∨ cmd = ascii "%unlinked-window-close" then
      { kind := .windowClose, windowID := trimSpace rest }
    else if cmd = ascii "%window-renamed" ∨ cmd = ascii "%unlinked-window-renamed" then
      let (id, name) := splitFirst rest
      { kind := .windowRenamed, windowID := id, name := name }
    else if cmd = ascii "%layout-change" then
      let (id, after) := splitFirst rest
      { kind := .layoutChange, windowID := id, layout := (splitFirst after).1 }
    else if cmd = ascii "%session-changed" then
      let (id, name) := splitFirst rest
      { kind := .sessionChanged, windowID := id, name := name }
    else if cmd = ascii "%session-renamed" then
      let (first, after) := splitFirst rest
      if hasPrefix first (ascii "$") then
        { kind := .sessionRenamed, windowID := first, name := after }
      else { kind := .sessionRenamed, name := rest }
    else if cmd = ascii "%sessions-changed" then { kind := .sessionsChanged }
    else if cmd = ascii "%window-pane-changed" then
      let (win, pane) := splitFirst rest
      { kind := .windowPaneChanged, windowID := win, paneID := trimSpace pane }
    else if cmd = ascii "%begin" then { kind := .begin, args := fields rest }
    else if cmd = ascii "%end" then { kind := .end, args := fields rest }
    else if cmd = ascii "%error" then { kind := .error, args := fields rest }
    else if cmd = ascii "%exit" then { kind := .exit, name := trimSpace rest }
    else if cmd = ascii "%pause" then { kind := .pause, paneID := trimSpace rest }
    else if cmd = ascii "%continue" then { kind := .continue, paneID := trimSpace rest }
    else { kind := .other, args := [line] }

def parseLines (buf : List UInt8) : List ControlEvent × List UInt8 :=
  match _ : indexByte buf 10 with
  | none => ([], buf)
  | some idx =>
      let event := parseControlLine (trimSuffix (buf.take idx) (ascii "\r"))
      let (events, rest) := parseLines (buf.drop (idx + 1))
      (event :: events, rest)
termination_by buf.length
decreasing_by
  rename_i hidx
  have := indexByte_lt hidx
  simp only [List.length_drop]
  omega

theorem parseLines_of_not_mem {buf : List UInt8} (h : 10 ∉ buf) : parseLines buf = ([], buf) := by
  rw [parseLines]
  split
  · rfl
  · next idx hidx => exact absurd (hidx.symm.trans (indexByte_none.mpr h)) (by simp)

theorem parseLines_line {line rest : List UInt8} (h : 10 ∉ line) :
    parseLines (line ++ 10 :: rest) =
      (parseControlLine (trimSuffix line (ascii "\r")) :: (parseLines rest).1,
        (parseLines rest).2) := by
  rw [parseLines]
  split
  · next hidx => exact absurd (hidx.symm.trans (indexByte_append h)) (by simp)
  · next idx hidx =>
      cases hidx.symm.trans (indexByte_append h)
      simp

theorem line_cases (buf : List UInt8) :
    10 ∉ buf ∨ ∃ line rest, 10 ∉ line ∧ buf = line ++ 10 :: rest := by
  by_cases h : 10 ∈ buf
  · obtain ⟨line, rest, rfl, hline⟩ := List.eq_append_cons_of_mem h
    exact .inr ⟨line, rest, hline, rfl⟩
  · exact .inl h

theorem parseLines_rest (buf : List UInt8) : 10 ∉ (parseLines buf).2 := by
  induction h : buf.length using Nat.strongRecOn generalizing buf with
  | _ n ih =>
      rcases line_cases buf with hbuf | ⟨line, rest, hline, rfl⟩
      · rw [parseLines_of_not_mem hbuf]
        exact hbuf
      · rw [parseLines_line hline]
        exact ih rest.length (by simp at h; omega) rest rfl

theorem parseLines_append (a b : List UInt8) :
    parseLines (a ++ b) =
      ((parseLines a).1 ++ (parseLines ((parseLines a).2 ++ b)).1,
        (parseLines ((parseLines a).2 ++ b)).2) := by
  induction h : a.length using Nat.strongRecOn generalizing a with
  | _ n ih =>
      rcases line_cases a with ha | ⟨line, rest, hline, rfl⟩
      · simp [parseLines_of_not_mem ha]
      · have hrest := ih rest.length (by simp at h; omega) rest rfl
        rw [List.append_assoc, List.cons_append, parseLines_line hline, parseLines_line hline,
          hrest, List.cons_append]

structure ControlParser where
  buf : List UInt8
  unfinished : 10 ∉ buf

namespace ControlParser

def new : ControlParser := ⟨[], by simp⟩

def feed (p : ControlParser) (chunk : List UInt8) : ControlParser × List ControlEvent :=
  (⟨(parseLines (p.buf ++ chunk)).2, parseLines_rest (p.buf ++ chunk)⟩,
    (parseLines (p.buf ++ chunk)).1)

theorem feed_divisible : Divisible feed where
  nil p := by
    obtain ⟨buf, hbuf⟩ := p
    simp [feed, parseLines_of_not_mem hbuf]
  append p a b := by
    have h := parseLines_append (p.buf ++ a) b
    rw [List.append_assoc] at h
    simp [feed, h]

end ControlParser

def escapeByte (b : UInt8) : List UInt8 :=
  if b < 32 ∨ b = 92 then [92, 48 + b / 64, 48 + b / 8 % 8, 48 + b % 8] else [b]

def escapeOutput (data : List UInt8) : List UInt8 := data.flatMap escapeByte

def paneName (pane : Nat) : List UInt8 := ascii "%" ++ ascii pane.repr

/-- A notification of output as tmux writes it. `age` is there in the extended form. -/
structure OutputLine where
  pane : Nat
  data : List UInt8
  age : Option Nat
  crlf : Bool

namespace OutputLine

def text (o : OutputLine) : List UInt8 :=
  match o.age with
  | none => ascii "%output " ++ paneName o.pane ++ ascii " " ++ escapeOutput o.data
  | some age =>
      ascii "%extended-output " ++ paneName o.pane ++ ascii " " ++ ascii age.repr ++
        ascii " : " ++ escapeOutput o.data

def encode (o : OutputLine) : List UInt8 := o.text ++ ascii (if o.crlf then "\r\n" else "\n")

def event (o : OutputLine) : ControlEvent :=
  { kind := .output, paneID := paneName o.pane, data := o.data }

end OutputLine

theorem octalValue_digits : ∀ b : UInt8,
    isOctalDigit (48 + b / 64) ∧ isOctalDigit (48 + b / 8 % 8) ∧ isOctalDigit (48 + b % 8) ∧
      octalValue (48 + b / 64) (48 + b / 8 % 8) (48 + b % 8) = b := by
  decide +kernel

theorem unescapeOutput_cons {b : UInt8} (h : b ≠ 92) (rest : List UInt8) :
    unescapeOutput (b :: rest) = b :: unescapeOutput rest := by
  rcases rest with _ | ⟨x, _ | ⟨y, _ | ⟨z, rest⟩⟩⟩
  all_goals simp [unescapeOutput, h]

theorem unescapeOutput_escapeByte (b : UInt8) (rest : List UInt8) :
    unescapeOutput (escapeByte b ++ rest) = b :: unescapeOutput rest := by
  unfold escapeByte
  split
  · obtain ⟨hx, hy, hz, hb⟩ := octalValue_digits b
    simp only [List.cons_append, List.nil_append, unescapeOutput]
    rw [if_pos ⟨trivial, hx, hy, hz⟩, hb]
  · next h => exact unescapeOutput_cons (not_or.mp h).2 rest

theorem unescapeOutput_escapeOutput (data : List UInt8) :
    unescapeOutput (escapeOutput data) = data := by
  induction data with
  | nil => rfl
  | cons b data ih =>
      rw [escapeOutput, List.flatMap_cons, unescapeOutput_escapeByte]
      exact congrArg (b :: ·) ih

theorem le_of_mem_escapeOutput {data : List UInt8} {b : UInt8} (h : b ∈ escapeOutput data) :
    32 ≤ b := by
  obtain ⟨c, -, hb⟩ := List.mem_flatMap.mp h
  have hdigit : ∀ d, isOctalDigit d = true → 32 ≤ d := fun d hd => by
    simp only [isOctalDigit, Bool.and_eq_true, decide_eq_true_eq] at hd
    exact UInt8.le_trans (show (32 : UInt8) ≤ 48 by decide) hd.1
  unfold escapeByte at hb
  split at hb
  · obtain ⟨hx, hy, hz, -⟩ := octalValue_digits c
    simp only [List.mem_cons, List.not_mem_nil, or_false] at hb
    rcases hb with rfl | rfl | rfl | rfl
    · decide
    · exact hdigit _ hx
    · exact hdigit _ hy
    · exact hdigit _ hz
  · rename_i hraw
    cases List.mem_singleton.mp hb
    exact UInt8.not_lt.mp (not_or.mp hraw).1

theorem lt_of_mem_paneName {pane : Nat} {b : UInt8} (h : b ∈ paneName pane) : 32 < b := by
  rcases List.mem_append.mp h with h | h
  · cases List.mem_singleton.mp h
    decide
  · exact UInt8.lt_of_lt_of_le (show (32 : UInt8) < 48 by decide) (mem_ascii_repr h).1

theorem splitFirst_append {first : List UInt8} (h : 32 ∉ first) (rest : List UInt8) :
    splitFirst (first ++ 32 :: rest) = (first, rest) := by
  rw [splitFirst, indexByte_append h]
  simp

namespace OutputLine

theorem text_plain (pane : Nat) (data : List UInt8) (crlf : Bool) :
    text ⟨pane, data, none, crlf⟩ =
      ascii "%output" ++ 32 :: (paneName pane ++ 32 :: escapeOutput data) := by
  simp [text, ascii]

theorem text_extended (pane : Nat) (data : List UInt8) (age : Nat) (crlf : Bool) :
    text ⟨pane, data, some age, crlf⟩ =
      ascii "%extended-output" ++ 32 :: (paneName pane ++ 32 ::
        (ascii age.repr ++ (32 :: ascii ": " ++ escapeOutput data))) := by
  simp [text, ascii]

theorem le_of_mem_text (o : OutputLine) {b : UInt8} (h : b ∈ o.text) : 32 ≤ b := by
  have hwords : ∀ word ∈ [ascii "%output ", ascii "%extended-output ", ascii " ", ascii " : "],
      ∀ b ∈ word, 32 ≤ b := by
    decide +kernel
  obtain ⟨pane, data, age, crlf⟩ := o
  cases age with
  | none =>
      simp only [text, List.mem_append] at h
      rcases h with ((h | h) | h) | h
      · exact hwords _ (by simp) b h
      · exact UInt8.le_of_lt (lt_of_mem_paneName h)
      · exact hwords _ (by simp) b h
      · exact le_of_mem_escapeOutput h
  | some age =>
      simp only [text, List.mem_append] at h
      rcases h with ((((h | h) | h) | h) | h) | h
      · exact hwords _ (by simp) b h
      · exact UInt8.le_of_lt (lt_of_mem_paneName h)
      · exact hwords _ (by simp) b h
      · exact UInt8.le_trans (show (32 : UInt8) ≤ 48 by decide) (mem_ascii_repr h).1
      · exact hwords _ (by simp) b h
      · exact le_of_mem_escapeOutput h

theorem parseControlLine_text (o : OutputLine) : parseControlLine o.text = o.event := by
  obtain ⟨pane, data, age, crlf⟩ := o
  have hpane : 32 ∉ paneName pane := fun h => absurd (lt_of_mem_paneName h) (by decide)
  cases age with
  | none =>
      have hstart : hasPrefix (ascii "%output") (ascii "%") := by decide
      rw [text_plain, parseControlLine, if_neg (by simp [hasPrefix_append hstart]),
        splitFirst_append (by decide)]
      simp [splitFirst_append hpane, unescapeOutput_escapeOutput, event]
  | some age =>
      have hstart : hasPrefix (ascii "%extended-output") (ascii "%") := by decide
      have hne : ascii "%extended-output" ≠ ascii "%output" := by decide
      have hage : 32 ∉ ascii age.repr := fun h => absurd (mem_ascii_repr h).1 (by decide)
      have hindex : index (ascii age.repr ++ (32 :: ascii ": " ++ escapeOutput data))
          (ascii " : ") = some (ascii age.repr).length := index_append (ascii ": ") hage
      have hdrop : (ascii age.repr ++ (32 :: ascii ": " ++ escapeOutput data)).drop
          ((ascii age.repr).length + 3) = escapeOutput data := by
        rw [List.drop_length_add_append]
        rfl
      rw [text_extended, parseControlLine, if_neg (by simp [hasPrefix_append hstart]),
        splitFirst_append (by decide)]
      simp only [if_neg hne, splitFirst_append hpane, hindex, hdrop, if_true,
        unescapeOutput_escapeOutput, event]

theorem parseLines_encode (o : OutputLine) (rest : List UInt8) :
    parseLines (o.encode ++ rest) = (o.event :: (parseLines rest).1, (parseLines rest).2) := by
  have hlf : 10 ∉ o.text := fun h => absurd (o.le_of_mem_text h) (by decide)
  have hcr : 13 ∉ o.text := fun h => absurd (o.le_of_mem_text h) (by decide)
  cases hend : o.crlf with
  | false =>
      have hencode : o.encode ++ rest = o.text ++ 10 :: rest := by simp [encode, hend, ascii]
      rw [hencode, parseLines_line hlf, show ascii "\r" = [13] from rfl, trimSuffix_of_not_mem hcr,
        parseControlLine_text]
  | true =>
      have hencode : o.encode ++ rest = (o.text ++ [13]) ++ 10 :: rest := by
        simp [encode, hend, ascii]
      rw [hencode, parseLines_line (by simp [hlf]), show ascii "\r" = [13] from rfl,
        trimSuffix_append, parseControlLine_text]

theorem parseLines_flatMap (lines : List OutputLine) :
    parseLines (lines.flatMap encode) = (lines.map event, []) := by
  induction lines with
  | nil => exact parseLines_of_not_mem (by simp)
  | cons o lines ih => rw [List.flatMap_cons, parseLines_encode, ih, List.map_cons]

end OutputLine

namespace ControlParser
open OutputLine

theorem output_decoded :
    (∀ (lines : List OutputLine) (chunks : List (List UInt8)),
      chunks.flatten = lines.flatMap encode →
        feedAll feed new chunks = (new, lines.map event)) ∧
    ∀ (p : ControlParser) (chunks chunks' : List (List UInt8)),
      chunks.flatten = chunks'.flatten → feedAll feed p chunks = feedAll feed p chunks' := by
  constructor
  · intro lines chunks h
    rw [feed_divisible.feedAll_eq, h]
    simp [feed, new, parseLines_flatMap]
  · intro p chunks chunks' h
    rw [feed_divisible.feedAll_eq, feed_divisible.feedAll_eq, h]

def sampleLines : List OutputLine :=
  [⟨0, [104, 27, 13, 10], none, true⟩, ⟨3, [92, 32, 58, 32, 200], some 5, false⟩]

/-- Byte by byte, and cut inside of an escape. -/
theorem output_decoded_bytewise :
    feedAll feed new ((sampleLines.flatMap encode).map fun b => [b]) =
        (new, sampleLines.map event) ∧
      feedAll feed new [ascii "%output %0 \\0", ascii "33\n%exit"] =
        feedAll feed new [ascii "%output %0 \\033\n%exit"] := by
  refine ⟨output_decoded.1 sampleLines _ ?_, output_decoded.2 new _ _ (by decide)⟩
  rw [← List.flatMap_def]
  exact List.flatMap_singleton' _

end ControlParser

end Dolgate.TmuxControl
