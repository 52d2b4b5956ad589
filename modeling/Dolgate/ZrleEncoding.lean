import Dolgate.Pictures
import Dolgate.Zrle

set_option autoImplicit false

/-! What a ZRLE encoder may write for a picture: the tiles one after the other, each in any of the
five ways. -/

namespace Dolgate.Vnc.Zrle

def runLength (run : Nat) : List UInt8 :=
  List.replicate ((run - 1) / 255) 255 ++ [UInt8.ofNat ((run - 1) % 255)]

inductive PaletteRun (palette : List Rgb) : Rgb → Nat → List UInt8 → Prop where
  | one {index : Nat} {colour : Rgb} (h : palette[index]? = some colour) :
      PaletteRun palette colour 1 [UInt8.ofNat index]
  | more {index run : Nat} {colour : Rgb} (h : palette[index]? = some colour) (hrun : 0 < run) :
      PaletteRun palette colour run (UInt8.ofNat (128 + index) :: runLength run)

inductive Runs (written : Rgb → Nat → List UInt8 → Prop) : List Rgb → List UInt8 → Prop where
  | nil : Runs written [] []
  | cons {colour : Rgb} {run : Nat} {bytes rest : List UInt8} {colours : List Rgb}
      (h : written colour run bytes) (hrun : 0 < run) (hrest : Runs written colours rest) :
      Runs written (List.replicate run colour ++ colours) (bytes ++ rest)

inductive TileEncoding (width height : Nat) : List Rgb → List UInt8 → Prop where
  | raw {colours : List Rgb} : TileEncoding width height colours (0 :: colours.flatMap Rgb.bytes)
  | solid {colour : Rgb} :
      TileEncoding width height (List.replicate (width * height) colour) (1 :: colour.bytes)
  | packed {palette : List Rgb} {indices : Nat → List Nat} {rows : Nat → List UInt8}
      {colours : Nat → List Rgb} (hpalette : 2 ≤ palette.length ∧ palette.length ≤ 16)
      (hrows : ∀ row, row < height → Packed (indexBits palette.length) (indices row) (rows row))
      (hwidth : ∀ row, row < height → (indices row).length = width)
      (hcolours : ∀ row, row < height →
        (indices row).map (palette[·]?) = (colours row).map some) :
      TileEncoding width height ((List.range height).flatMap colours)
        (UInt8.ofNat palette.length ::
          (palette.flatMap Rgb.bytes ++ (List.range height).flatMap rows))
  | plainRle {colours : List Rgb} {bytes : List UInt8}
      (h : Runs (fun colour run bytes => bytes = colour.bytes ++ runLength run) colours bytes) :
      TileEncoding width height colours (128 :: bytes)
  | paletteRle {palette colours : List Rgb} {bytes : List UInt8}
      (hpalette : 2 ≤ palette.length ∧ palette.length ≤ 127)
      (h : Runs (PaletteRun palette) colours bytes) :
      TileEncoding width height colours
        (UInt8.ofNat (128 + palette.length) :: (palette.flatMap Rgb.bytes ++ bytes))

def tileCount (length : Nat) : Nat := (length + 63) / 64

def tileAt (rect : Rect) (column row : Nat) : Rect where
  x := rect.x + column * 64
  y := rect.y + row * 64
  width := min 64 (rect.width - column * 64)
  height := min 64 (rect.height - row * 64)

def tiles (rect : Rect) (part : Nat → Nat → List UInt8) : List UInt8 :=
  (List.range (tileCount rect.height)).flatMap fun row =>
    (List.range (tileCount rect.width)).flatMap fun column => part column row

def Encodes (picture : Nat → Nat → Rgb) (rect : Rect) (bytes : List UInt8) : Prop :=
  ∃ part : Nat → Nat → List UInt8, bytes = tiles rect part ∧
    ∀ column row, column < tileCount rect.width → row < tileCount rect.height →
      TileEncoding (tileAt rect column row).width (tileAt rect column row).height
        (coloursIn picture (tileAt rect column row)) (part column row)

/-! ### The first byte of a tile -/

theorem toNat_size {size : Nat} (h : size < 256) : (UInt8.ofNat size).toNat = size :=
  UInt8.toNat_ofNat_of_lt' h

theorem TileEncoding.uncons {width height : Nat} {colours : List Rgb} {bytes : List UInt8}
    (h : TileEncoding width height colours bytes) :
    ∃ subencoding rest, bytes = subencoding :: rest ∧ (subencoding = 1 →
      ∃ colour, colours = List.replicate (width * height) colour ∧ rest = colour.bytes) := by
  have hone : (1 : UInt8).toNat = 1 := rfl
  cases h with
  | raw => exact ⟨_, _, rfl, fun heq => absurd heq (by decide)⟩
  | @solid colour => exact ⟨_, _, rfl, fun _ => ⟨colour, rfl, rfl⟩⟩
  | @packed palette _ _ _ hpalette _ _ _ =>
    refine ⟨_, _, rfl, fun heq => ?_⟩
    have hsize : (UInt8.ofNat palette.length).toNat = palette.length := toNat_size (by omega)
    rw [heq] at hsize
    omega
  | plainRle => exact ⟨_, _, rfl, fun heq => absurd heq (by decide)⟩
  | @paletteRle palette _ _ hpalette _ =>
    refine ⟨_, _, rfl, fun heq => ?_⟩
    have hsize : (UInt8.ofNat (128 + palette.length)).toNat = 128 + palette.length :=
      toNat_size (by omega)
    rw [heq] at hsize
    omega

end Dolgate.Vnc.Zrle
