import Dolgate.Framebuffer

set_option autoImplicit false

/-! ZRLE: a rectangle is tiles of 64 by 64 pixels, from left to right and from the top down. The
first byte of a tile tells how its pixels are written. -/

namespace Dolgate.Vnc.Zrle
open Checked

def tileSide : Nat := 64

/-- What `inflate` returns of the pieces that zlib gives it, of which any may be an error. -/
def inflate (pieces : List (Except DecodeError (List UInt8))) : Decoder (List UInt8) :=
  forEach pieces (fun _ piece out =>
    match piece with
    | .error e => fail e
    | .ok bytes =>
      if maxFramebufferBytes < (out ++ bytes).length then
        fail (.corruptStream "zlib output exceeds framebuffer budget")
      else pure (out ++ bytes)) []

structure CompressedPixel where
  size : Nat
  red : Fin size
  green : Fin size
  blue : Fin size

structure Reader where
  data : List UInt8
  offset : Nat
  deriving DecidableEq, Repr

section

variable {σ : Type}

namespace CompressedPixel

def forFormat (format : PixelFormat) : Comp σ DecodeError CompressedPixel :=
  if !format.trueColour then fail (.unsupportedPixelFormat format)
  else if format = .rgba32 then pure { size := 3, red := 0, green := 1, blue := 2 }
  else fail (.unsupportedPixelFormat format)

def read (cpixel : CompressedPixel) (bytes : List UInt8) : Comp σ DecodeError Rgba := do
  return { red := ← index bytes cpixel.red, green := ← index bytes cpixel.green,
           blue := ← index bytes cpixel.blue, alpha := 0xFF }

end CompressedPixel

def rgb24 : CompressedPixel := { size := 3, red := 0, green := 1, blue := 2 }

namespace Reader

def byte (reader : Reader) : Comp σ DecodeError (UInt8 × Reader) := do
  let byte ← orFail reader.data[reader.offset]? (.corruptStream "ZRLE truncated")
  return (byte, { reader with offset := ← usize (reader.offset + 1) })

def take (reader : Reader) (count : Nat) : Comp σ DecodeError (List UInt8 × Reader) := do
  let stop ← orFail (checkedAdd reader.offset count) (.corruptStream "ZRLE length overflow")
  if reader.data.length < stop then fail (.corruptStream "ZRLE truncated")
  else
    let bytes ← slice reader.data reader.offset stop
    return (bytes, { reader with offset := stop })

end Reader

def readPixel (cpixel : CompressedPixel) (reader : Reader) :
    Comp σ DecodeError (Rgba × Reader) := do
  let (bytes, reader) ← reader.take cpixel.size
  return (← cpixel.read bytes, reader)

def readPalette (reader : Reader) (cpixel : CompressedPixel) (size : Nat) :
    Comp σ DecodeError (List Rgba × Reader) :=
  forRange size (fun _ (palette, reader) => do
    let (colour, reader) ← readPixel cpixel reader
    return (palette ++ [colour], reader)) ([], reader)

def readRunLength (reader : Reader) : Comp σ DecodeError (Nat × Reader) := do
  let (run, reader, _) ← whileLoop (fun (_, _, more) => more) (fun (run, reader, _) => do
    let (byte, reader) ← reader.byte
    let run ← usize (run + byte.toNat)
    return (run, reader, byte == 255)) (reader.data.length + 2) (1, reader, true)
  return (run, reader)

/-- A run ends where the `size` bytes of its tile are full. -/
def extendRun (colour : Rgba) (size : Nat) : Nat → List UInt8 → List UInt8
  | 0, pixels => pixels
  | run + 1, pixels =>
    let pixels := pixels ++ colour.bytes
    if size ≤ pixels.length then pixels else extendRun colour size run pixels

def rawTile (count : Nat) (cpixel : CompressedPixel) (reader : Reader) :
    Comp σ DecodeError (List UInt8 × Reader) :=
  forRange count (fun _ (pixels, reader) => do
    let (colour, reader) ← readPixel cpixel reader
    return (pixels ++ colour.bytes, reader)) ([], reader)

def indexBits (size : Nat) : Nat := if size = 2 then 1 else if size ≤ 4 then 2 else 4

def packedPixel (palette : List Rgba) (bits : Nat) (row : List UInt8) (column : Nat) :
    Comp σ DecodeError Rgba := do
  let bitOffset := column * bits
  let byte ← index row (bitOffset / 8)
  let shift ← sub (← sub 8 bits) (bitOffset % 8)
  let mask := (1 <<< bits) - 1
  orFail palette[(byte.toNat >>> shift) &&& mask]? (.corruptStream "ZRLE palette index")

def packedTile (tile : Rect) (palette : List Rgba) (bits : Nat) (reader : Reader) :
    Comp σ DecodeError (List UInt8 × Reader) :=
  forRange tile.height (fun _ (pixels, reader) => do
    let rowBytes := (tile.width * bits + 7) / 8
    let (row, reader) ← reader.take rowBytes
    let pixels ← forRange tile.width (fun column pixels => do
      let colour ← packedPixel palette bits row column
      return pixels ++ colour.bytes) pixels
    return (pixels, reader)) ([], reader)

/-- Runs, each with what `next` reads of its colour and length, until the tile is full. -/
def runsTile (next : Reader → Comp σ DecodeError ((Rgba × Nat) × Reader)) (count : Nat)
    (reader : Reader) : Comp σ DecodeError (List UInt8 × Reader) := do
  let size ← usize (count * 4)
  whileLoop (fun (pixels, _) => pixels.length < size) (fun (pixels, reader) => do
    let ((colour, run), reader) ← next reader
    return (extendRun colour size run pixels, reader)) (size + 1) ([], reader)

def plainRun (cpixel : CompressedPixel) (reader : Reader) :
    Comp σ DecodeError ((Rgba × Nat) × Reader) := do
  let (colour, reader) ← readPixel cpixel reader
  let (run, reader) ← readRunLength reader
  return ((colour, run), reader)

def paletteRun (palette : List Rgba) (reader : Reader) :
    Comp σ DecodeError ((Rgba × Nat) × Reader) := do
  let (byte, reader) ← reader.byte
  let colour ← orFail palette[(byte &&& 0x7F).toNat]? (.corruptStream "ZRLE palette index")
  if byte &&& 0x80 ≠ 0 then
    let (run, reader) ← readRunLength reader
    return ((colour, run), reader)
  else return ((colour, 1), reader)

def tilePixels (tile : Rect) (cpixel : CompressedPixel) (subencoding : UInt8) (reader : Reader) :
    Comp σ DecodeError (List UInt8 × Reader) := do
  let count ← usize (tile.width * tile.height)
  if subencoding = 0 then rawTile count cpixel reader
  else if 2 ≤ subencoding ∧ subencoding ≤ 16 then
    let (palette, reader) ← readPalette reader cpixel subencoding.toNat
    packedTile tile palette (indexBits subencoding.toNat) reader
  else if subencoding = 128 then runsTile (plainRun cpixel) count reader
  else if 130 ≤ subencoding then
    let (palette, reader) ← readPalette reader cpixel (← sub subencoding.toNat 128)
    runsTile (paletteRun palette) count reader
  else fail (.unsupportedZrleSubencoding subencoding)

end

def decodeTile (tile : Rect) (cpixel : CompressedPixel) (reader : Reader) : Decoder Reader := do
  let (subencoding, reader) ← reader.byte
  if subencoding = 1 then
    let (colour, reader) ← readPixel cpixel reader
    fill tile colour
    return reader
  else
    let (pixels, reader) ← tilePixels tile cpixel subencoding reader
    writeRgba tile pixels
    return reader

/-- The tiles between `tileY` and `tileY + height`. -/
def tileRow (rect : Rect) (cpixel : CompressedPixel) (tileY height : Nat) (reader : Reader) :
    Decoder Reader := do
  let right ← u16 (rect.x + rect.width)
  let (_, reader) ← whileLoop (fun (tileX, _) => tileX < right) (fun (tileX, reader) => do
    let width := min tileSide (← sub right tileX)
    let reader ← decodeTile { x := tileX, y := tileY, width, height } cpixel reader
    return (← u16 (tileX + width), reader)) (rect.width + 1) (rect.x, reader)
  return reader

def apply (rect : Rect) (format : PixelFormat) (data : List UInt8) : Decoder Unit := do
  let cpixel ← CompressedPixel.forFormat format
  let bottom ← u16 (rect.y + rect.height)
  let _ ← whileLoop (fun (tileY, _) => tileY < bottom) (fun (tileY, reader) => do
    let height := min tileSide (← sub bottom tileY)
    let reader ← tileRow rect cpixel tileY height reader
    return (← u16 (tileY + height), reader)) (rect.height + 1) (rect.y, ⟨data, 0⟩)
  return ()

end Dolgate.Vnc.Zrle
