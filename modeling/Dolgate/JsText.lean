import Mathlib.Data.List.DropRight

set_option autoImplicit false

/-! Texts of a script: lists of characters, or of UTF-16 code units where the script counts these. -/

namespace Dolgate.JsText

abbrev Text := List Char

/-- White space and line terminators, as in `\s`. -/
def isSpace (c : Char) : Bool :=
  [9, 10, 11, 12, 13, 32, 0xa0, 0x1680, 0x2028, 0x2029, 0x202f, 0x205f, 0x3000, 0xfeff].contains
    c.toNat || (0x2000 ≤ c.toNat && c.toNat ≤ 0x200a)

def trim (text : Text) : Text := (text.dropWhile isSpace).rdropWhile isSpace

end Dolgate.JsText

namespace Dolgate.JsonText

abbrev Units := List UInt16

def units (c : Char) : Units :=
  if c.toNat < 0x10000 then [UInt16.ofNat c.toNat]
  else [UInt16.ofNat (0xd800 + (c.toNat - 0x10000) / 0x400),
    UInt16.ofNat (0xdc00 + (c.toNat - 0x10000) % 0x400)]

def text (s : String) : Units := s.toList.flatMap units

end Dolgate.JsonText
