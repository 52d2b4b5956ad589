import Dolgate.Checked

set_option autoImplicit false

/-! The framebuffer of the VNC core, and what it makes of a rectangle whose bytes a server sends.
Bytes are written a row of a rectangle at a time. -/

namespace Dolgate.Vnc
open Checked

def maxFramebufferPixels : Nat := 16777216

def rgbaBytesPerPixel : Nat := 4

def maxFramebufferBytes : Nat := maxFramebufferPixels * rgbaBytesPerPixel

def checkedRgbaFramebufferLen (width height : Nat) : Option Nat := do
  let pixels ← checkedMul width height
  if width = 0 ∨ height = 0 ∨ maxFramebufferPixels < pixels then none
  else
    let bytes ← checkedMul pixels rgbaBytesPerPixel
    if bytes ≤ maxFramebufferBytes then some bytes else none

structure PixelFormat where
  bitsPerPixel : Nat
  depth : Nat
  bigEndian : Bool
  trueColour : Bool
  redMax : Nat
  greenMax : Nat
  blueMax : Nat
  redShift : Nat
  greenShift : Nat
  blueShift : Nat
  deriving DecidableEq, Repr

namespace PixelFormat

/-- The format that the client asks for: the bytes of a pixel are R, G, B and a padding. -/
def rgba32 : PixelFormat where
  bitsPerPixel := 32
  depth := 24
  bigEndian := false
  trueColour := true
  redMax := 255
  greenMax := 255
  blueMax := 255
  redShift := 0
  greenShift := 8
  blueShift := 16

def bytesPerPixel (format : PixelFormat) : Nat := format.bitsPerPixel / 8

end PixelFormat

structure Rect where
  x : Nat
  y : Nat
  width : Nat
  height : Nat
  deriving DecidableEq, Repr

/-- `pixels` are `width * height * 4` bytes of RGBA. -/
structure Framebuffer where
  width : Nat
  height : Nat
  pixels : List UInt8
  deriving DecidableEq, Repr

inductive DecodeError where
  | rectOutOfBounds (rect : Rect)
  | oversizedFramebuffer (width height : Nat)
  | shortData (expected got : Nat)
  | unsupportedPixelFormat (format : PixelFormat)
  | corruptStream (what : String)
  | unsupportedZrleSubencoding (subencoding : UInt8)
  deriving DecidableEq, Repr

structure Rgba where
  red : UInt8
  green : UInt8
  blue : UInt8
  alpha : UInt8
  deriving DecidableEq, Repr

def Rgba.bytes (colour : Rgba) : List UInt8 :=
  [colour.red, colour.green, colour.blue, colour.alpha]

@[simp] theorem Rgba.length_bytes (colour : Rgba) : colour.bytes.length = 4 := rfl

abbrev Decoder : Type → Type := Comp Framebuffer DecodeError

namespace Framebuffer

def tryNew (width height : Nat) : Except DecodeError Framebuffer :=
  match checkedRgbaFramebufferLen width height with
  | some len => .ok { width, height, pixels := List.replicate len 0 }
  | none => .error (.oversizedFramebuffer width height)

def contains (fb : Framebuffer) (rect : Rect) : Bool :=
  rect.x + rect.width ≤ fb.width ∧ rect.y + rect.height ≤ fb.height

end Framebuffer

def tryResize (width height : Nat) : Decoder Unit := do
  let len ← orFail (checkedRgbaFramebufferLen width height) (.oversizedFramebuffer width height)
  put { width, height, pixels := List.replicate len 0 }

def offset (x y : Nat) : Decoder Nat := do
  let fb ← state
  usize ((y * fb.width + x) * 4)

def validateRect (rect : Rect) : Decoder Unit := do
  let fb ← state
  if fb.contains rect then pure () else fail (.rectOutOfBounds rect)

/-- `pixels[start..stop]` of the framebuffer become `bytes`. -/
def copyRow (start stop : Nat) (bytes : List UInt8) : Decoder Unit := do
  let fb ← state
  let pixels ← copyInto fb.pixels start stop bytes
  put { fb with pixels }

def fill (rect : Rect) (colour : Rgba) : Decoder Unit := do
  validateRect rect
  forRange rect.height (fun row _ => do
    let y ← u16 (rect.y + row)
    let start ← offset rect.x y
    copyRow start (start + rect.width * 4) (List.replicate rect.width colour.bytes).flatten) ()

def writeRgba (rect : Rect) (pixels : List UInt8) : Decoder Unit := do
  validateRect rect
  let expected ← usize (rect.width * rect.height * 4)
  if pixels.length ≠ expected then fail (.shortData expected pixels.length)
  else
    let rowBytes := rect.width * 4
    forRange rect.height (fun row _ => do
      let source ← usize (row * rowBytes)
      let y ← u16 (rect.y + row)
      let target ← offset rect.x y
      let bytes ← slice pixels source (source + rowBytes)
      copyRow target (target + rowBytes) bytes) ()

/-- A channel's value, from `0..=max` to `0..=255`. -/
def scale {σ : Type} (value max : Nat) : Comp σ DecodeError UInt8 :=
  if max = 0 then pure 0
  else if max = 255 then pure (UInt8.ofNat value)
  else do
    let product ← u32 (value * 255)
    pure (UInt8.ofNat (product / max))

/-- `(value >> shift & max)` of 32 bits. -/
def channel {σ : Type} (value shift max : Nat) : Comp σ DecodeError UInt8 := do
  let shift ← below 32 shift
  scale ((value >>> shift) &&& max) max

def pixelValue (bytes : List UInt8) : Nat :=
  bytes.foldl (fun value byte => (value * 256 + byte.toNat) % 2 ^ 32) 0

def convertPixel {σ : Type} (format : PixelFormat) (pixel : List UInt8) :
    Comp σ DecodeError Rgba := do
  if format = .rgba32 then
    return { red := ← index pixel 0, green := ← index pixel 1, blue := ← index pixel 2,
             alpha := 0xFF }
  else
    let value := pixelValue (if format.bigEndian then pixel else pixel.reverse)
    return { red := ← channel value format.redShift format.redMax,
             green := ← channel value format.greenShift format.greenMax,
             blue := ← channel value format.blueShift format.blueMax, alpha := 0xFF }

/-- `target` with the pixels of `source`, as far as there are any in both. -/
def convertRow {σ : Type} (source target : List UInt8) (format : PixelFormat) :
    Comp σ DecodeError (List UInt8) :=
  if !format.trueColour then fail (.unsupportedPixelFormat format)
  else do
    let pixels ← chunksExact format.bytesPerPixel source
    forEach (pixels.take (target.length / 4)) (fun i pixel target => do
      let colour ← convertPixel format pixel
      copyInto target (i * 4) (i * 4 + 4) colour.bytes) target

def toRgba {σ : Type} (source : List UInt8) (pixels : Nat) (format : PixelFormat) :
    Comp σ DecodeError (List UInt8) := do
  let expected ← usize (pixels * format.bytesPerPixel)
  if source.length < expected then fail (.shortData expected source.length)
  else
    let size ← usize (pixels * 4)
    let source ← slice source 0 expected
    convertRow source (List.replicate size 0) format

def applyRaw (rect : Rect) (format : PixelFormat) (data : List UInt8) : Decoder Unit := do
  validateRect rect
  let bytesPerPixel := format.bytesPerPixel
  let expected ← usize (rect.width * rect.height * bytesPerPixel)
  if data.length ≠ expected then fail (.shortData expected data.length)
  else
    forRange rect.height (fun row _ => do
      let sourceStart ← usize (row * rect.width * bytesPerPixel)
      let y ← u16 (rect.y + row)
      let targetStart ← offset rect.x y
      let sourceRow ← slice data sourceStart (sourceStart + rect.width * bytesPerPixel)
      let fb ← state
      let targetRow ← slice fb.pixels targetStart (targetStart + rect.width * 4)
      let converted ← convertRow sourceRow targetRow format
      copyRow targetStart (targetStart + rect.width * 4) converted) ()

/-- The row that CopyRect copies as the `i`th: downward from the last one on, so that none is
overwritten before it has been read. -/
def copiedRow (rect : Rect) (sourceY i : Nat) : Decoder Nat :=
  let downward := sourceY < rect.y
  if downward then do sub (← sub rect.height 1) i else pure i

def applyCopyRect (rect : Rect) (sourceX sourceY : Nat) : Decoder Unit := do
  let source : Rect := { rect with x := sourceX, y := sourceY }
  let fb ← state
  if !fb.contains rect || !fb.contains source then fail (.rectOutOfBounds rect)
  else
    let rowBytes := rect.width * 4
    forRange rect.height (fun i _ => do
      let row ← copiedRow rect sourceY i
      let start ← offset sourceX (← u16 (sourceY + row))
      let target ← offset rect.x (← u16 (rect.y + row))
      let fb ← state
      let bytes ← slice fb.pixels start (start + rowBytes)
      copyRow target (target + rowBytes) bytes) ()

end Dolgate.Vnc
