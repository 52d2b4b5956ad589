import Mathlib.Tactic.SplitIfs
import Dolgate.GroupPaths

set_option autoImplicit false

/-! How a command's text is read from the screen. -/

namespace Dolgate.ScreenText

open GroupPaths (Text trim isSpace)

def units (text : String) : Text := text.toList.map fun c => UInt16.ofNat c.toNat

theorem isDigit_of_mem_repr {n : Nat} {c : Char} (h : c ∈ n.repr.toList) :
    48 ≤ c.toNat ∧ c.toNat ≤ 57 := by
  rw [Nat.toList_repr] at h
  have hdigit := Nat.isDigit_of_mem_toDigits (by decide) (by decide) h
  simp only [Char.isDigit, Bool.and_eq_true, decide_eq_true_eq] at hdigit
  exact hdigit

theorem units_repr_injective {i j : Nat} (h : units i.repr = units j.repr) : i = j := by
  have hchars : ∀ k : Nat, (units k.repr).map (fun c => Char.ofNat c.toNat) = k.repr.toList := by
    intro k
    rw [units, List.map_map]
    conv_rhs => rw [← List.map_id k.repr.toList]
    apply List.map_congr_left
    intro c hc
    have hrange := isDigit_of_mem_repr hc
    rw [Function.comp, UInt16.toNat_ofNat_of_lt' (by change c.toNat < 65536; omega), id,
      Char.ofNat_toNat]
  have hdigits : ∀ k : Nat, Nat.ofDigitChars 10 k.repr.toList 0 = k := fun k => by
    rw [Nat.toList_repr, Nat.ofDigitChars_ten_toDigits]
  rw [← hdigits i, ← hdigits j, ← hchars i, ← hchars j, h]

theorem mem_units_repr {n : Nat} {c : UInt16} (h : c ∈ units n.repr) : 48 ≤ c ∧ c ≤ 57 := by
  obtain ⟨d, hd, rfl⟩ := List.mem_map.mp h
  have hrange := isDigit_of_mem_repr hd
  rw [UInt16.le_iff_toNat_le, UInt16.le_iff_toNat_le,
    UInt16.toNat_ofNat_of_lt' (by change d.toNat < 65536; omega)]
  exact hrange

def newline : UInt16 := 10

def backslash : UInt16 := 92

/-- What a line of the buffer tells of itself: the text of its columns from one to another, and the
code of a column, 0 where nothing was written. -/
structure Line where
  translateToString : Nat → Nat → Text
  isWrapped : Bool
  length : Nat
  getCode : Nat → Nat

/-- The terminal at a marker. The line of the last prompt is negative once it is lost. -/
structure Screen where
  getLine : Nat → Option Line
  cursorLine : Nat
  cursorX : Nat
  promptLine : Int

def Screen.lineAt (screen : Screen) (line : Int) : Option Line :=
  if 0 ≤ line then screen.getLine line.toNat else none

def writtenColumns (getCode : Nat → Nat) : Nat → Nat
  | 0 => 0
  | column + 1 => if getCode column = 0 then writtenColumns getCode column else column + 1

def readLineText (line : Line) (startColumn : Nat) : Text :=
  let last := writtenColumns line.getCode line.length
  if last ≤ startColumn then [] else line.translateToString startColumn last

structure CommandText where
  text : Text
  unreliable : Bool
deriving DecidableEq

def maxCommandRows : Nat := 20

/-- The loop over the lines from `line` on. -/
def readLines (screen : Screen) (promptLine : Int) (promptEndX : Nat)
    (continuationEndX : List (Nat × Nat)) : Nat → Int → CommandText → CommandText
  | 0, _, read => read
  | rows + 1, line, read =>
    match screen.lineAt line with
    | none => read
    | some bufferLine =>
      let raw := readLineText bufferLine 0
      let next :=
        if line = promptLine then { read with text := readLineText bufferLine promptEndX }
        else if bufferLine.isWrapped then { read with text := read.text ++ raw }
        else if trim raw = [] then read
        else
          match continuationEndX.lookup line.toNat with
          | some start => { read with text := read.text ++ newline :: readLineText bufferLine start }
          | none => ⟨read.text ++ newline :: raw, true⟩
      readLines screen promptLine promptEndX continuationEndX rows (line + 1) next

def readCommandTextFromBuffer (screen : Screen) (promptLine : Int) (promptEndX : Nat)
    (endLineExclusive : Nat) (continuationEndX : List (Nat × Nat)) : Option CommandText :=
  let budgetLine := promptLine + maxCommandRows
  let lastLine := min (endLineExclusive : Int) budgetLine
  let read := readLines screen promptLine promptEndX continuationEndX
    (lastLine - promptLine).toNat promptLine ⟨[], budgetLine < endLineExclusive⟩
  if 0 < (trim read.text).length then some ⟨trim read.text, read.unreliable⟩ else none

def unescapeReportedCommand : Text → Text
  | [] => []
  | [c] => [c]
  | c :: next :: rest =>
    if c = backslash ∧ next = 110 then newline :: unescapeReportedCommand rest
    else if c = backslash ∧ next = backslash then backslash :: unescapeReportedCommand rest
    else c :: unescapeReportedCommand (next :: rest)

def normalizeForCompare (text : Text) : Text :=
  trim ([newline].intercalate ((text.splitOn newline).map fun line => line.rdropWhile isSpace))

theorem read_text_ne_nil {screen : Screen} {promptLine : Int} {promptEndX endLine : Nat}
    {continuationEndX : List (Nat × Nat)} {read : CommandText}
    (h : readCommandTextFromBuffer screen promptLine promptEndX endLine continuationEndX =
      some read) : read.text ≠ [] := by
  simp only [readCommandTextFromBuffer] at h
  split at h
  · next hlength =>
    rw [← Option.some.inj h]
    exact List.length_pos_iff.mp hlength
  · cases h

theorem read_of_lost {screen : Screen} {promptLine : Int} {promptEndX endLine : Nat}
    {continuationEndX : List (Nat × Nat)} (h : promptLine < 0) :
    readCommandTextFromBuffer screen promptLine promptEndX endLine continuationEndX = none := by
  have hread : ∀ rows read, readLines screen promptLine promptEndX continuationEndX rows promptLine
      read = read := by
    intro rows read
    cases rows with
    | zero => rfl
    | succ rows => rw [readLines, Screen.lineAt, if_neg (by omega)]
  simp only [readCommandTextFromBuffer, hread]
  rfl

theorem unescapeReportedCommand_eq_nil {escaped : Text} :
    unescapeReportedCommand escaped = [] ↔ escaped = [] := by
  cases escaped with
  | nil => simp [unescapeReportedCommand]
  | cons c escaped =>
    cases escaped with
    | nil => simp [unescapeReportedCommand]
    | cons next rest =>
      rw [unescapeReportedCommand]
      split_ifs <;> simp

end Dolgate.ScreenText
