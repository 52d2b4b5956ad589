import Mathlib

set_option autoImplicit false

/-! Text in units of sixteen bits, where a character takes one unit or two. -/

namespace Dolgate.Utf16

def fromCodePoint (codePoint : Nat) : List UInt16 :=
  if codePoint < 0x10000 then [UInt16.ofNat codePoint]
  else [UInt16.ofNat (0xD800 + (codePoint - 0x10000) / 0x400),
    UInt16.ofNat (0xDC00 + (codePoint - 0x10000) % 0x400)]

/-- The code point that begins the text. A unit that is half of a character stands for itself. -/
def codePointAt : List UInt16 → Option Nat
  | [] => none
  | [unit] => some unit.toNat
  | high :: low :: _ =>
      if 0xD800 ≤ high.toNat ∧ high.toNat < 0xDC00 ∧ 0xDC00 ≤ low.toNat ∧ low.toNat < 0xE000 then
        some (0x10000 + (high.toNat - 0xD800) * 0x400 + (low.toNat - 0xDC00))
      else some high.toNat

def encode (text : List Char) : List UInt16 := text.flatMap fun c => fromCodePoint c.toNat

def Wide (c : Char) : Prop := 0x10000 ≤ c.toNat

instance (c : Char) : Decidable (Wide c) := inferInstanceAs (Decidable (_ ≤ _))

variable {c : Char} {codePoint : Nat} {rest : List UInt16} {a b : List Char}

theorem length_narrow (h : ¬ Wide c) : (fromCodePoint c.toNat).length = 1 := by
  rw [fromCodePoint, if_pos (Nat.not_le.mp h)]
  rfl

theorem length_wide (h : Wide c) : (fromCodePoint c.toNat).length = 2 := by
  rw [fromCodePoint, if_neg (Nat.not_lt.mpr h)]
  rfl

theorem length_eq_one_iff : (fromCodePoint c.toNat).length = 1 ↔ ¬ Wide c := by
  refine ⟨fun h hwide => ?_, length_narrow⟩
  rw [length_wide hwide] at h
  cases h

@[simp] theorem encode_nil : encode [] = [] := rfl

@[simp] theorem encode_cons : encode (c :: a) = fromCodePoint c.toNat ++ encode a :=
  List.flatMap_cons

@[simp] theorem encode_append : encode (a ++ b) = encode a ++ encode b := List.flatMap_append

theorem fromCodePoint_ne_nil : fromCodePoint codePoint ≠ [] := by
  unfold fromCodePoint
  split <;> exact List.cons_ne_nil _ _

theorem toNat_range (c : Char) : c.toNat < 0xD800 ∨ (0xDFFF < c.toNat ∧ c.toNat < 0x110000) :=
  c.valid

theorem codePointAt_narrow {unit : UInt16} (h : unit.toNat < 0xD800 ∨ 0xDBFF < unit.toNat) :
    codePointAt (unit :: rest) = some unit.toNat := by
  cases rest with
  | nil => rfl
  | cons low rest =>
    rw [codePointAt, if_neg]
    omega

theorem codePointAt_encode (c : Char) (rest : List UInt16) :
    codePointAt (fromCodePoint c.toNat ++ rest) = some c.toNat := by
  have hrange := toNat_range c
  unfold fromCodePoint
  split
  · next hsmall =>
    have htoNat : (UInt16.ofNat c.toNat).toNat = c.toNat := UInt16.toNat_ofNat_of_lt' hsmall
    rw [List.singleton_append, codePointAt_narrow (by omega), htoNat]
  · next hlarge =>
    have hhigh : (UInt16.ofNat (0xD800 + (c.toNat - 0x10000) / 0x400)).toNat =
        0xD800 + (c.toNat - 0x10000) / 0x400 := by
      apply UInt16.toNat_ofNat_of_lt'
      change _ < 65536
      omega
    have hlow : (UInt16.ofNat (0xDC00 + (c.toNat - 0x10000) % 0x400)).toNat =
        0xDC00 + (c.toNat - 0x10000) % 0x400 := by
      apply UInt16.toNat_ofNat_of_lt'
      change _ < 65536
      omega
    rw [List.cons_append, List.cons_append, codePointAt, hhigh, hlow, if_pos (by omega),
      Option.some.injEq]
    omega

theorem head_fromCodePoint {unit : UInt16} (h : unit.toNat < 0xD800)
    (hc : (fromCodePoint c.toNat).head? = some unit) : c.toNat = unit.toNat := by
  have hrange := toNat_range c
  unfold fromCodePoint at hc
  split at hc
  · next hsmall =>
    obtain rfl := Option.some.inj hc
    exact (UInt16.toNat_ofNat_of_lt' hsmall).symm
  · obtain rfl := Option.some.inj hc
    rw [UInt16.toNat_ofNat_of_lt'] at h
    · omega
    · change _ < 65536
      omega

end Dolgate.Utf16
