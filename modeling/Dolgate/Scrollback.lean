import Dolgate.GroupPaths

set_option autoImplicit false

/-! The terminal's normal buffer: a list of lines whose head is dropped when the scrollback is full.
Columns hold one character each. -/

namespace Dolgate.Scrollback

open GroupPaths (Text)

structure Line where
  text : Text := []
  isWrapped : Bool := false
  deriving DecidableEq

/-- A character in column `x`. The columns before it that were never written read as blanks. -/
def Line.put (line : Line) (x : Nat) (c : UInt16) : Line :=
  { line with
    text := line.text.take x ++ List.replicate (x - line.text.length) 32 ++
      c :: line.text.drop (x + 1) }

structure Terminal where
  rows : Nat
  cols : Nat
  scrollback : Nat
  lines : List Line
  cursorX : Nat
  cursorY : Nat
  cursor_lt : cursorY < rows
  rows_le : rows ≤ lines.length
  length_le : lines.length ≤ rows + scrollback
  deriving DecidableEq

namespace Terminal

def fresh (rows cols scrollback : Nat) (h : 0 < rows) : Terminal where
  rows := rows
  cols := cols
  scrollback := scrollback
  lines := List.replicate rows {}
  cursorX := 0
  cursorY := 0
  cursor_lt := h
  rows_le := by simp
  length_le := by simp

def baseY (t : Terminal) : Nat := t.lines.length - t.rows

def cursorLine (t : Terminal) : Nat := t.baseY + t.cursorY

theorem cursorLine_lt (t : Terminal) : t.cursorLine < t.lines.length := by
  have hcursor := t.cursor_lt
  have hrows := t.rows_le
  simp only [cursorLine, baseY]
  omega

def AtBottom (t : Terminal) : Prop := t.cursorY + 1 = t.rows

instance (t : Terminal) : Decidable t.AtBottom := inferInstanceAs (Decidable (_ = _))

def IsFull (t : Terminal) : Prop := t.lines.length = t.rows + t.scrollback

instance (t : Terminal) : Decidable t.IsFull := inferInstanceAs (Decidable (_ = _))

def print (t : Terminal) (c : UInt16) : Terminal :=
  { t with
    lines := t.lines.modify t.cursorLine fun line => line.put t.cursorX c
    cursorX := t.cursorX + 1
    rows_le := by simpa using t.rows_le
    length_le := by simpa using t.length_le }

def down (t : Terminal) (wrapped : Bool) (h : ¬ t.AtBottom) : Terminal :=
  { t with
    lines := t.lines.modify (t.cursorLine + 1) fun line => { line with isWrapped := wrapped }
    cursorY := t.cursorY + 1
    cursor_lt := Nat.lt_of_le_of_ne t.cursor_lt h
    rows_le := by simpa using t.rows_le
    length_le := by simpa using t.length_le }

def scroll (t : Terminal) (wrapped : Bool) (h : ¬ t.IsFull) : Terminal :=
  { t with
    lines := t.lines ++ [{ isWrapped := wrapped }]
    rows_le := by simpa using Nat.le_succ_of_le t.rows_le
    length_le := by simpa using Nat.succ_le_of_lt (Nat.lt_of_le_of_ne t.length_le h) }

def recycle (t : Terminal) (wrapped : Bool) : Terminal :=
  { t with
    lines := t.lines.tail ++ [{ isWrapped := wrapped }]
    rows_le := by
      have hrows := t.rows_le
      have hcursor := t.cursor_lt
      simp only [List.length_append, List.length_tail, List.length_singleton]
      omega
    length_le := by
      have hcursor := t.cursor_lt
      have hlength := t.length_le
      simp only [List.length_append, List.length_tail, List.length_singleton]
      omega }

def Trims (t : Terminal) : Prop := t.AtBottom ∧ t.IsFull

instance (t : Terminal) : Decidable t.Trims := inferInstanceAs (Decidable (_ ∧ _))

def lineFeed (t : Terminal) (wrapped : Bool) : Terminal :=
  if hbottom : t.AtBottom then
    if hfull : t.IsFull then t.recycle wrapped else t.scroll wrapped hfull
  else t.down wrapped hbottom

def carriageReturn (t : Terminal) : Terminal := { t with cursorX := 0 }

def cursorTo (t : Terminal) (y x : Nat) (h : y < t.rows) : Terminal :=
  { t with cursorX := x, cursorY := y, cursor_lt := h }

@[simp] theorem print_lines (t : Terminal) (c : UInt16) :
    (t.print c).lines = t.lines.modify t.cursorLine fun line => line.put t.cursorX c := rfl

@[simp] theorem carriageReturn_lines (t : Terminal) : t.carriageReturn.lines = t.lines := rfl

@[simp] theorem cursorTo_lines (t : Terminal) (y x : Nat) (h : y < t.rows) :
    (t.cursorTo y x h).lines = t.lines := rfl

theorem lineFeed_of_trims {t : Terminal} (h : t.Trims) (wrapped : Bool) :
    t.lineFeed wrapped = t.recycle wrapped := by
  rw [lineFeed, dif_pos h.1, dif_pos h.2]

theorem length_lineFeed_of_trims {t : Terminal} (h : t.Trims) (wrapped : Bool) :
    (t.lineFeed wrapped).lines.length = t.lines.length := by
  have hrows := t.rows_le
  have hcursor := t.cursor_lt
  rw [lineFeed_of_trims h]
  simp only [recycle, List.length_append, List.length_tail, List.length_singleton]
  omega

theorem length_le_lineFeed (t : Terminal) (wrapped : Bool) :
    t.lines.length ≤ (t.lineFeed wrapped).lines.length := by
  by_cases htrims : t.Trims
  · rw [length_lineFeed_of_trims htrims]
  · rw [lineFeed]
    split_ifs with hbottom hfull
    · exact absurd ⟨hbottom, hfull⟩ htrims
    · simp [scroll]
    · simp [down]

theorem getElem?_lineFeed {t : Terminal} {wrapped : Bool} (h : ¬ t.Trims) {line : Nat}
    (hline : line < t.lines.length)
    (hsame : line = t.cursorLine + 1 → t.lines[line]?.map Line.isWrapped = some wrapped) :
    (t.lineFeed wrapped).lines[line]? = t.lines[line]? := by
  rw [lineFeed]
  split_ifs with hbottom hfull
  · exact absurd ⟨hbottom, hfull⟩ h
  · exact List.getElem?_append_left hline
  · simp only [down, List.getElem?_modify]
    rw [List.getElem?_eq_getElem hline] at hsame ⊢
    by_cases hat : t.cursorLine + 1 = line
    · have hflag : t.lines[line].isWrapped = wrapped := by simpa using hsame hat.symm
      simp [hat, ← hflag]
    · simp [hat]

end Terminal

abbrev Marker := Option Nat

def Marker.line : Marker → Int
  | some line => line
  | none => -1

/-- The head of the buffer is dropped: the marker moves up with its line, or goes with it. -/
def Marker.trimmed : Marker → Marker
  | some (line + 1) => some line
  | _ => none

theorem Marker.trimmed_eq_some {marker : Marker} {line : Nat} :
    marker.trimmed = some line ↔ marker = some (line + 1) := by
  rcases marker with _ | _ | n <;> simp [Marker.trimmed]

end Dolgate.Scrollback
