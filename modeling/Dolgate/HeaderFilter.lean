import Mathlib.Data.List.Basic

set_option autoImplicit false

/-! The filter that keeps the startup headers of a file transfer out of the terminal. -/

namespace Dolgate.HeaderFilter

abbrev Bytes := List UInt8

/-- What may still become a header, how much of it has been shown, and whether an XON may follow
the header before. -/
structure Matcher where
  pending : Bytes := []
  optionalXon : Bool := false
  displayedPrefix : Nat := 0
deriving DecidableEq, Repr

def headerPrefix : Bytes := [42, 42, 24, 66]

def validAt (index : Nat) (value : UInt8) : Bool :=
  if index < 4 then value == headerPrefix.getD index 0
  else if index < 18 then (48 ≤ value && value ≤ 57) || (97 ≤ value && value ≤ 102)
  else if index = 18 then value == 13
  else index == 19 && (value == 10 || value == 138)

/-- `every`, from an index on. -/
def validFrom (index : Nat) : Bytes → Bool
  | [] => true
  | value :: values => validAt index value && validFrom (index + 1) values

def valid (pending : Bytes) : Bool := validFrom 0 pending

def startup (pending : Bytes) : Bool :=
  pending.getD 4 0 == 48 && (pending.getD 5 0 == 48 || pending.getD 5 0 == 49)

/-- The `while` loop over what is pending, with what it puts out. -/
def settle (displayedPrefix : Nat) : Bytes → Matcher × Bytes
  | [] => ({ displayedPrefix }, [])
  | first :: rest =>
    if valid (first :: rest) = false then
      if displayedPrefix ≠ 0 then settle (displayedPrefix - 1) rest
      else
        let r := settle 0 rest
        (r.1, first :: r.2)
    else if (first :: rest).length = 20 then
      if startup (first :: rest) then ({ optionalXon := true }, [])
      else ({}, (first :: rest).drop displayedPrefix)
    else ({ pending := first :: rest, displayedPrefix }, [])

def scanByte (m : Matcher) (byte : UInt8) : Matcher × Bytes :=
  if m.optionalXon = true ∧ byte = 17 then ({ m with optionalXon := false }, [])
  else settle m.displayedPrefix (m.pending ++ [byte])

def scan (m : Matcher) : Bytes → Matcher × Bytes
  | [] => (m, [])
  | byte :: bytes =>
    let r := scanByte m byte
    let r' := scan r.1 bytes
    (r'.1, r.2 ++ r'.2)

/-- `timer` tells whether the timer is set. -/
structure Filter extends Matcher where
  timer : Bool := false
  writes : List Bytes := []
deriving DecidableEq, Repr

/-- `write`, of something. -/
def Filter.write (f : Filter) (bytes : Bytes) : Filter :=
  if bytes = [] then f else { f with writes := f.writes ++ [bytes] }

def Filter.flush (f : Filter) : Filter :=
  if f.pending.length < 3 ∧ f.displayedPrefix < f.pending.length then
    { f with
      writes := f.writes ++ [f.pending.drop f.displayedPrefix]
      displayedPrefix := f.pending.length }
  else f

/-- The rest of `consume`, from the first byte on that may belong to a header. -/
def Filter.scanAll (f : Filter) (bytes : Bytes) : Filter :=
  let r := scan f.toMatcher bytes
  let f := { f with toMatcher := r.1 }.write r.2
  { f with timer := f.pending ≠ [] && f.pending.length < 3 }

def Filter.consume (f : Filter) (input : Bytes) : Filter :=
  let f := { f with timer := false }
  if f.pending = [] ∧ f.optionalXon = false then
    match input.findIdx? (· == 42) with
    | none => f.write input
    | some star => (f.write (input.take star)).scanAll (input.drop star)
  else f.scanAll input

def Filter.isIdle (f : Filter) : Bool := f.pending = [] && !f.optionalXon

def Filter.held (f : Filter) : Bytes := f.pending.drop f.displayedPrefix

inductive Event where
  | consume (input : Bytes)
  | timer
deriving DecidableEq, Repr

def Filter.step (f : Filter) : Event → Filter
  | .consume input => f.consume input
  | .timer => if f.timer then { f with timer := false }.flush else f

def received (es : List Event) : Bytes :=
  es.flatMap fun
    | .consume input => input
    | .timer => []

def firings (es : List Event) : Nat := es.countP (· == .timer)

/-! What the filter is for -/

def hexDigit (b : UInt8) : Prop := (48 ≤ b ∧ b ≤ 57) ∨ (97 ≤ b ∧ b ≤ 102)

instance : DecidablePred hexDigit := fun _ => inferInstanceAs (Decidable (_ ∨ _))

/-- A hex header of type ZRQINIT or ZRINIT: its start, the type, the rest of its digits, the end of
the line. -/
def StartupHeader (bytes : Bytes) : Prop :=
  bytes.length = 20 ∧ bytes.take 4 = [42, 42, 24, 66] ∧
    ((bytes.drop 4).take 2 = [48, 48] ∨ (bytes.drop 4).take 2 = [48, 49]) ∧
    (∀ b ∈ (bytes.drop 6).take 12, hexDigit b) ∧
    (bytes.drop 18 = [13, 10] ∨ bytes.drop 18 = [13, 138])

instance : DecidablePred StartupHeader := fun _ => inferInstanceAs (Decidable (_ ∧ _))

def withoutXon : Bytes → Bytes
  | [] => []
  | byte :: bytes => if byte = 17 then bytes else byte :: bytes

theorem withoutXon_length (bytes : Bytes) : (withoutXon bytes).length ≤ bytes.length := by
  cases bytes with
  | nil => exact Nat.le_refl _
  | cons byte bytes =>
    rw [withoutXon]
    split
    · exact Nat.le_succ _
    · exact Nat.le_refl _

/-- The stream without its startup headers, from the left, and without an XON after each. `shown`
tells for each of them how many of its first bytes stay. -/
def strip (shown : List Nat) : Bytes → Bytes
  | [] => []
  | byte :: bytes =>
    if StartupHeader ((byte :: bytes).take 20) then
      ((byte :: bytes).take 20).take (shown.headD 0) ++ strip shown.tail (withoutXon (bytes.drop 19))
    else byte :: strip shown bytes
termination_by bytes => bytes.length
decreasing_by
  · have hlength := withoutXon_length (bytes.drop 19)
    rw [List.length_drop] at hlength
    rw [List.length_cons]
    omega
  · exact Nat.lt_succ_self _

end Dolgate.HeaderFilter
