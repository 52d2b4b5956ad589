import Dolgate.GoBytes
import Dolgate.CommandWords

set_option autoImplicit false

namespace Dolgate.TmuxInput
open GoBytes CommandLine

structure TmuxVersion where
  major : Nat
  minor : Nat
  /-- The letter behind the version, "a" as 1; 0 without one. -/
  patch : Nat
  known : Bool
deriving DecidableEq, Repr

/-- Whether `send-keys -H` is there: from 3.0a on. -/
def TmuxVersion.supportsSendKeysHex (v : TmuxVersion) : Bool :=
  if !v.known then true
  else if v.major ≠ 3 then v.major > 3
  else if v.minor ≠ 0 then true
  else v.patch ≥ 1

def paneID (n : Nat) : List UInt8 := ascii "%" ++ ascii n.repr

def hexDigit (n : UInt8) : UInt8 := if n < 10 then 48 + n else 87 + n

/-- `fmt.Sprintf("%02x", b)`. -/
def hexByte (b : UInt8) : List UInt8 := [hexDigit (b / 16), hexDigit (b % 16)]

def hexBytes (data : List UInt8) : List UInt8 := (ascii " ").intercalate (data.map hexByte)

/-- `strings.ReplaceAll(s, "'", by)`. -/
def replaceQuotes (s by' : List UInt8) : List UInt8 :=
  s.flatMap fun b => if b = 39 then by' else [b]

def singleQuote (s : List UInt8) : List UInt8 :=
  ascii "'" ++ replaceQuotes s (ascii "'\"'\"'") ++ ascii "'"

/-- The key that stands for a control byte. Escape has none: it goes with the text behind it. -/
def controlKeyName (b : UInt8) : Option (List UInt8) :=
  if b = 0x0d then some (ascii "Enter")
  else if b = 0x09 then some (ascii "Tab")
  else if b = 0x7f then some (ascii "BSpace")
  else if b = 0x00 then some (ascii "C-Space")
  else if b = 0x1b then none
  else if 0x01 ≤ b ∧ b ≤ 0x1a then some (ascii "C-" ++ [97 + (b - 0x01)])
  else if b = 0x1c then some (ascii "C-\\")
  else if b = 0x1d then some (ascii "C-]")
  else if b = 0x1e then some (ascii "C-^")
  else if b = 0x1f then some (ascii "C-_")
  else none

def sendKey (paneID name : List UInt8) : List UInt8 :=
  ascii "send-keys -t " ++ paneID ++ ascii " " ++ name ++ ascii "\n"

/-- The commands for a run of literal bytes; each dash in front of it is a key of its own. -/
def literalSendKeys (paneID : List UInt8) : List UInt8 → List (List UInt8)
  | [] => []
  | 45 :: rest => sendKey paneID (ascii "-") :: literalSendKeys paneID rest
  | rest => [ascii "send-keys -t " ++ paneID ++ ascii " -l " ++ singleQuote rest ++ ascii "\n"]

/-- The loop of `encodeInputLegacy`, with the run so far. -/
def encodeFrom (paneID run : List UInt8) : List UInt8 → List (List UInt8)
  | [] => literalSendKeys paneID run
  | b :: rest =>
      match controlKeyName b with
      | some name => literalSendKeys paneID run ++ sendKey paneID name :: encodeFrom paneID [] rest
      | none => encodeFrom paneID (run ++ [b]) rest

def encodeInputLegacy (paneID data : List UInt8) : List (List UInt8) := encodeFrom paneID [] data

def encodeInput (paneID data : List UInt8) (ver : TmuxVersion) : List (List UInt8) :=
  if data = [] then []
  else if ver.supportsSendKeysHex then
    [ascii "send-keys -t " ++ paneID ++ ascii " -H " ++ hexBytes data ++ ascii "\n"]
  else encodeInputLegacy paneID data

def until29 : Grammar where
  escapes := false
  special first b := b ∈ ([35, 36] : List UInt8) || first && b = 126
  plain first b h := by
    rw [Bool.eq_false_iff]
    intro hspecial
    simp only [List.mem_cons, List.not_mem_nil, or_false, Bool.or_eq_true, decide_eq_true_eq,
      Bool.and_eq_true] at hspecial
    rcases hspecial with (rfl | rfl) | ⟨-, rfl⟩ <;> revert h <;> decide

def since30 : Grammar where
  escapes := true
  special first b := b ∈ ([36, 125] : List UInt8) || first && b ∈ ([35, 123, 126] : List UInt8)
  plain first b h := by
    rw [Bool.eq_false_iff]
    intro hspecial
    simp only [List.mem_cons, List.not_mem_nil, or_false, Bool.or_eq_true, decide_eq_true_eq,
      Bool.and_eq_true] at hspecial
    rcases hspecial with (rfl | rfl) | ⟨-, rfl | rfl | rfl⟩ <;> revert h <;> decide

def hexValue (digit : UInt8) : Option UInt8 :=
  if 48 ≤ digit ∧ digit ≤ 57 then some (digit - 48)
  else if 97 ≤ digit ∧ digit ≤ 102 then some (digit - 87)
  else none

/-- The byte that an argument of `send-keys -H` stands for. -/
def pairByte : Word → Option UInt8
  | [high, low] => do some (16 * (← hexValue high) + (← hexValue low))
  | _ => none

def keyByte (name : Word) : Option UInt8 :=
  if name = ascii "Enter" then some 13
  else if name = ascii "Tab" then some 9
  else if name = ascii "BSpace" then some 127
  else if name = ascii "C-Space" then some 0
  else
    match name with
    | [b] => some b
    | [67, 45, b] =>
        if 97 ≤ b ∧ b ≤ 122 then some (b - 96)
        else if 92 ≤ b ∧ b ≤ 95 then some (b - 64)
        else none
    | _ => none

def isFlag (text : Word) : Bool := text.head? = some 45 && text ≠ [45]

/-- The bytes that the arguments of `send-keys` send. -/
def argumentBytes : List Word → Option (List UInt8)
  | [] => some []
  | first :: rest =>
      if first = ascii "-H" then rest.mapM pairByte
      else if first = ascii "-l" then if rest.head?.any isFlag then none else some rest.flatten
      else if isFlag first then none
      else (first :: rest).mapM keyByte

def commandBytes (paneID : List UInt8) : List Word → Option (List UInt8)
  | name :: flag :: target :: rest =>
      if name = ascii "send-keys" ∧ flag = ascii "-t" ∧ target = paneID then argumentBytes rest
      else none
  | _ => none

def lineBytes (g : Grammar) (paneID line : List UInt8) : Option (List UInt8) := do
  if line.getLast? ≠ some 10 ∨ 10 ∈ line.dropLast then none
  else some (← (← g.commands line.dropLast).mapM (commandBytes paneID)).flatten

def sentBytes (g : Grammar) (paneID : List UInt8) (cmds : List (List UInt8)) :
    Option (List UInt8) := do
  some (← cmds.mapM (lineBytes g paneID)).flatten

end Dolgate.TmuxInput
