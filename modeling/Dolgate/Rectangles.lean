import Dolgate.Zrle
import Dolgate.Tight

set_option autoImplicit false

/-! The rectangles of a FramebufferUpdate, with the bytes that the session has read for them. -/

namespace Dolgate.Vnc
open Checked

namespace Cursor

def maxSide : Nat := 512

def maskLength (width height : Nat) : Nat := (width + 7) / 8 * height

def maskAlpha {σ : Type} (width height : Nat) (mask rgba : List UInt8) :
    Comp σ DecodeError (List UInt8) :=
  let stride := (width + 7) / 8
  forRange height (fun y => forRange width (fun x rgba => do
    let byte ← index mask (← usize (y * stride + x / 8))
    if Tight.bitOf byte x then pure rgba else store rgba ((y * width + x) * 4 + 3) 0)) rgba

end Cursor

structure Cursor where
  hotspotX : Nat
  hotspotY : Nat
  width : Nat
  height : Nat
  rgba : List UInt8
  deriving DecidableEq, Repr

/-- `x` and `y` of the rectangle are the hotspot. -/
def Cursor.decode {σ : Type} (rect : Rect) (format : PixelFormat) (body : List UInt8) :
    Comp σ DecodeError (Option Cursor) := do
  if maxSide < rect.width ∨ maxSide < rect.height then pure none
  else if rect.width = 0 ∨ rect.height = 0 then
    return some { hotspotX := rect.x, hotspotY := rect.y, width := 0, height := 0, rgba := [] }
  else
    let pixels ← usize (rect.width * rect.height)
    let pixelBytes ← usize (pixels * format.bytesPerPixel)
    let needed ← usize (pixelBytes + maskLength rect.width rect.height)
    if body.length < needed then pure none
    else
      let source ← slice body 0 pixelBytes
      match ← attempt (toRgba source pixels format) with
      | none => pure none
      | some rgba =>
        let mask ← slice body pixelBytes body.length
        let rgba ← maskAlpha rect.width rect.height mask rgba
        return some { hotspotX := rect.x, hotspotY := rect.y, width := rect.width,
                      height := rect.height, rgba }

/-- What follows the header of a rectangle: bytes as they are or as zlib gives them, in pieces of
which any may be an error, and what the JPEG decoder has made of a picture. -/
inductive Body where
  | raw (data : List UInt8)
  | copyRect (sourceX sourceY : Nat)
  | tightFill (pixel : List UInt8)
  | tightJpeg (rgb : Option (List UInt8))
  | tightBasic (filter : Tight.Filter) (palette : List Rgba) (data : List UInt8)
  | zrle (pieces : List (Except DecodeError (List UInt8)))
  | cursor (body : List UInt8)

/-- A rectangle with pixels is validated before it is decoded. That of a cursor is no part of the
screen. -/
def decodeRectangle (format : PixelFormat) (rect : Rect) : Body → Decoder (Option Cursor)
  | .raw data => do
    validateRect rect
    applyRaw rect format data
    return none
  | .copyRect sourceX sourceY => do
    validateRect rect
    applyCopyRect rect sourceX sourceY
    return none
  | .tightFill pixel => do
    validateRect rect
    Tight.applyFill rect format pixel
    return none
  | .tightJpeg rgb => do
    validateRect rect
    Tight.applyJpeg rect rgb
    return none
  | .tightBasic filter palette data => do
    validateRect rect
    Tight.applyBasic rect format filter palette data
    return none
  | .zrle pieces => do
    validateRect rect
    let plain ← Zrle.inflate pieces
    Zrle.apply rect format plain
    return none
  | .cursor body => Cursor.decode rect format body

inductive Update where
  | rectangle (rect : Rect) (body : Body)
  | desktopSize (width height : Nat)

def handleUpdate (format : PixelFormat) : Update → Decoder Unit
  | .rectangle rect body => do
    let _ ← decodeRectangle format rect body
    return ()
  | .desktopSize width height => tryResize width height

def handleUpdates (format : PixelFormat) (updates : List Update) : Decoder Unit :=
  forEach updates (fun _ update _ => handleUpdate format update) ()

end Dolgate.Vnc
