import Dolgate.FramebufferPixels
import Dolgate.Parts

set_option autoImplicit false

/-! Pictures in colours of 24 bits, as encoders write them and as the framebuffer shows them. -/

namespace Dolgate.Vnc

structure Rgb where
  red : UInt8
  green : UInt8
  blue : UInt8
  deriving DecidableEq, Repr

def Rgb.bytes (colour : Rgb) : List UInt8 := [colour.red, colour.green, colour.blue]

def Rgb.channel (colour : Rgb) : Nat → UInt8
  | 0 => colour.red
  | 1 => colour.green
  | _ => colour.blue

def Rgb.rgba (colour : Rgb) : Rgba := ⟨colour.red, colour.green, colour.blue, 0xFF⟩

def field (bits value : Nat) : List Bool :=
  (List.range bits).map fun i => value.testBit (bits - 1 - i)

def bitsOf (bytes : List UInt8) : List Bool := bytes.flatMap fun byte => field 8 byte.toNat

structure Packed (bits : Nat) (indices : List Nat) (row : List UInt8) : Prop where
  length : row.length = (indices.length * bits + 7) / 8
  bits_eq : indices.flatMap (field bits) <+: bitsOf row

def coloursIn (picture : Nat → Nat → Rgb) (rect : Rect) : List Rgb :=
  (List.range rect.height).flatMap fun row =>
    (List.range rect.width).map fun column => picture (rect.x + column) (rect.y + row)

def rgbaBytes (colours : List Rgb) : List UInt8 := colours.flatMap fun colour => colour.rgba.bytes

def ShowsPicture (picture : Nat → Nat → Rgb) (rect : Rect) (fb : Framebuffer) : Prop :=
  ∀ x y, rect.covers x y → fb.pixel x y = (picture x y).rgba.bytes

/-! ### Bits -/

theorem length_field (bits value : Nat) : (field bits value).length = bits := by simp [field]

theorem getElem?_field {bits value i : Nat} (h : i < bits) :
    (field bits value)[i]? = some (value.testBit (bits - 1 - i)) := by
  simp [field, h]

theorem getElem?_bitsOf {row : List UInt8} (i : Nat) :
    (bitsOf row)[i]? = row[i / 8]?.map fun byte => byte.toNat.testBit (7 - i % 8) := by
  have hlen : ∀ byte ∈ row, (field 8 byte.toNat).length = 8 := fun byte _ => length_field 8 _
  have hmod : i % 8 < 8 := Nat.mod_lt i (by decide)
  rw [bitsOf, ← Nat.div_add_mod' i 8, getElem?_flatMap_const hlen hmod]
  have hdiv : (i / 8 * 8 + i % 8) / 8 = i / 8 := by omega
  have hmod' : (i / 8 * 8 + i % 8) % 8 = i % 8 := by omega
  rw [hdiv, hmod']
  cases row[i / 8]? with
  | none => rfl
  | some byte => exact getElem?_field hmod

theorem seven_bits : ∀ value, value < 128 →
    ((UInt8.ofNat value &&& 0x7F).toNat = value ∧ UInt8.ofNat value &&& 0x80 = 0) ∧
      (UInt8.ofNat (128 + value) &&& 0x7F).toNat = value ∧
        UInt8.ofNat (128 + value) &&& 0x80 ≠ 0 := by
  decide

theorem Packed.index_eq {bits : Nat} {indices : List Nat} {row : List UInt8}
    (h : Packed bits indices row) (hbits : bits = 1 ∨ bits = 2 ∨ bits = 4) {column index : Nat}
    (hindex : indices[column]? = some index) (hlt : index < 2 ^ bits) :
    ∃ byte, row[column * bits / 8]? = some byte ∧
      (byte.toNat >>> (8 - bits - column * bits % 8)) &&& ((1 <<< bits) - 1) = index := by
  have hcolumn : column < indices.length := (List.getElem?_eq_some_iff.mp hindex).1
  have hpos : 0 < bits := by omega
  have hin : column * bits / 8 < row.length := by
    rw [h.length]
    have hle : (column + 1) * bits ≤ indices.length * bits := Nat.mul_le_mul_right bits hcolumn
    rw [Nat.add_mul] at hle
    omega
  refine ⟨row[column * bits / 8], List.getElem?_eq_getElem hin, ?_⟩
  apply Nat.eq_of_testBit_eq
  intro i
  rw [Nat.testBit_and, Nat.testBit_shiftRight, Nat.one_shiftLeft, Nat.testBit_two_pow_sub_one]
  by_cases hi : i < bits
  · have hplace : (indices.flatMap (field bits))[column * bits + (bits - 1 - i)]? =
        some (index.testBit i) := by
      rw [getElem?_flatMap_const (fun a _ => length_field bits a) (by omega), hindex]
      have hback : bits - 1 - (bits - 1 - i) = i := by omega
      exact (getElem?_field (by omega)).trans (by rw [hback])
    obtain ⟨padding, hpadding⟩ := h.bits_eq
    have hbit : (bitsOf row)[column * bits + (bits - 1 - i)]? = some (index.testBit i) := by
      rw [← hpadding, List.getElem?_append_left (List.getElem?_eq_some_iff.mp hplace).1, hplace]
    have hbyte : (column * bits + (bits - 1 - i)) / 8 = column * bits / 8 ∧
        7 - (column * bits + (bits - 1 - i)) % 8 = 8 - bits - column * bits % 8 + i := by
      rcases hbits with rfl | rfl | rfl <;> omega
    rw [getElem?_bitsOf, hbyte.1, hbyte.2, List.getElem?_eq_getElem hin, Option.map_some] at hbit
    rw [Option.some.inj hbit]
    simp [hi]
  · simp [hi, Nat.testBit_lt_two_pow (hlt.trans_le (Nat.pow_le_pow_right (by decide)
      (Nat.not_lt.mp hi)))]

/-! ### Colours -/

theorem length_rgbaBytes (colours : List Rgb) : (rgbaBytes colours).length = colours.length * 4 :=
  length_flatMap_const fun colour _ => Rgba.length_bytes colour.rgba

theorem rgbaBytes_append (colours colours' : List Rgb) :
    rgbaBytes (colours ++ colours') = rgbaBytes colours ++ rgbaBytes colours' :=
  List.flatMap_append

theorem rgbaBytes_take_succ {colours : List Rgb} {i : Nat} (h : i < colours.length) :
    rgbaBytes (colours.take (i + 1)) =
      rgbaBytes (colours.take i) ++ colours[i].rgba.bytes := by
  rw [List.take_succ_eq_append_getElem h, rgbaBytes_append]
  rfl

theorem pixelAt_rgbaBytes {colours : List Rgb} {i : Nat} {colour : Rgb}
    (h : colours[i]? = some colour) : pixelAt (rgbaBytes colours) i = colour.rgba.bytes :=
  take_drop_flatMap_const (fun colour _ => Rgba.length_bytes colour.rgba) h

section

variable {picture : Nat → Nat → Rgb} {rect : Rect} {fb : Framebuffer}

theorem length_coloursIn : (coloursIn picture rect).length = rect.width * rect.height := by
  rw [coloursIn, length_flatMap_const fun row _ => (by
    rw [List.length_map, List.length_range]), List.length_range, Nat.mul_comm]

theorem getElem?_coloursIn {column row : Nat} (hcolumn : column < rect.width)
    (hrow : row < rect.height) : (coloursIn picture rect)[row * rect.width + column]? =
      some (picture (rect.x + column) (rect.y + row)) := by
  rw [coloursIn, getElem?_flatMap_const (fun row _ => by
    rw [List.length_map, List.length_range]) hcolumn]
  simp [hrow, hcolumn]

theorem shows_of_showsIn {shown : Nat → Nat → List UInt8} (h : fb.ShowsIn rect shown)
    (hshown : ∀ column row, column < rect.width → row < rect.height →
      shown column row = (picture (rect.x + column) (rect.y + row)).rgba.bytes) :
    ShowsPicture picture rect fb := by
  rintro x y ⟨⟨hleft, hright⟩, htop, hbottom⟩
  have hpixel := h (x - rect.x) (y - rect.y) (by omega) (by omega)
  rw [hshown _ _ (by omega) (by omega), Nat.add_sub_cancel' hleft, Nat.add_sub_cancel' htop]
    at hpixel
  exact hpixel

end

end Dolgate.Vnc
