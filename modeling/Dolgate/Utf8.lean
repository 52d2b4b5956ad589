import Mathlib.Data.List.Basic
import Mathlib.Tactic.SplitIfs

set_option autoImplicit false

/-! Go's reading of UTF-8. -/

namespace Dolgate.Utf8

abbrev Bytes := List UInt8

def continuation (b : UInt8) : Bool := 0x80 ≤ b && b ≤ 0xBF

/-- Whether a character that begins with `first` may go on with `b`. -/
def accepts (first b : UInt8) : Bool :=
  if first = 0xE0 then 0xA0 ≤ b && b ≤ 0xBF
  else if first = 0xED then 0x80 ≤ b && b ≤ 0x9F
  else if first = 0xF0 then 0x90 ≤ b && b ≤ 0xBF
  else if first = 0xF4 then 0x80 ≤ b && b ≤ 0x8F
  else continuation b

def runeSize : Bytes → Nat
  | [] => 0
  | first :: rest =>
    if first < 0x80 then 1
    else if first < 0xC2 then 0
    else if accepts first (rest.getD 0 0) = false then 0
    else if first < 0xE0 then 2
    else if continuation (rest.getD 1 0) = false then 0
    else if first < 0xF0 then 3
    else if first < 0xF5 ∧ continuation (rest.getD 2 0) then 4
    else 0

/-- `utf8.ValidString` -/
def valid (s : Bytes) : Bool :=
  if s = [] then true
  else if runeSize s = 0 then false
  else valid (s.drop (runeSize s))
termination_by s.length
decreasing_by
  rename_i hne hsize
  have := List.length_pos_iff.mpr hne
  rw [List.length_drop]
  omega

/-! ### Texts as bytes -/

abbrev Text := List Char

def encode (text : Text) : Bytes := text.flatMap String.utf8EncodeChar

def decodeRune (s : Bytes) : Option Char := s.toByteArray.utf8DecodeChar? 0

def runeError : Char := '\uFFFD'

theorem encode_cons (c : Char) (text : Text) :
    encode (c :: text) = String.utf8EncodeChar c ++ encode text := rfl

theorem decodeRune_encode (c : Char) (s : Bytes) :
    decodeRune (String.utf8EncodeChar c ++ s) = some c := by
  rw [decodeRune, List.toByteArray_append]
  exact ByteArray.utf8DecodeChar?_utf8EncodeChar_append

theorem eq_of_decodeRune {s : Bytes} {c : Char} (h : decodeRune s = some c) :
    ∃ rest, s = String.utf8EncodeChar c ++ rest := by
  obtain ⟨rest, hrest⟩ := ByteArray.exists_of_utf8DecodeChar?_eq_some h
  refine ⟨rest.data.toList, ?_⟩
  have hlist := congrArg (fun a : ByteArray => a.data.toList) hrest
  simpa using hlist

theorem mem_encodeChar {c : Char} {b : UInt8} (hb : b.toNat < 128) :
    b ∈ String.utf8EncodeChar c ↔ c.toNat = b.toNat := by
  have hc : c.val.toNat < 1114112 := by
    have := c.valid
    simp only [UInt32.isValidChar, Nat.isValidChar] at this
    omega
  have hval : c.toNat = c.val.toNat := rfl
  rw [hval]
  unfold String.utf8EncodeChar
  simp only
  split_ifs
  all_goals
    simp only [List.mem_cons, List.not_mem_nil, or_false, ← UInt8.toNat_inj, UInt8.toNat_ofNat']
    omega

end Dolgate.Utf8
