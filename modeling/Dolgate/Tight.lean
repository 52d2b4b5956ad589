import Dolgate.Framebuffer

set_option autoImplicit false

/-! Tight: a rectangle of one colour, a JPEG picture, or filtered pixels. A pixel (TPIXEL) is three
bytes. -/

namespace Dolgate.Vnc.Tight
open Checked

/-- What has been done to the pixels of a basic rectangle before they were compressed. -/
inductive Filter where
  | copy
  | palette
  | gradient
  deriving DecidableEq, Repr

def bytesPerPixel (format : PixelFormat) : Nat :=
  if format.bitsPerPixel = 32 ∧ format.redMax = 255 ∧ format.greenMax = 255 ∧ format.blueMax = 255
  then 3 else format.bytesPerPixel

section

variable {σ : Type}

def tpixel (bytes : List UInt8) (format : PixelFormat) : Comp σ DecodeError Rgba := do
  if format.redShift = 16 then
    return { red := ← index bytes 2, green := ← index bytes 1, blue := ← index bytes 0,
             alpha := 0xFF }
  else
    return { red := ← index bytes 0, green := ← index bytes 1, blue := ← index bytes 2,
             alpha := 0xFF }

/-- `rgba[i * 4..i * 4 + 4]` becomes the colour. -/
def storePixel (rgba : List UInt8) (i : Nat) (colour : Rgba) : Comp σ DecodeError (List UInt8) := do
  let start ← usize (i * 4)
  copyInto rgba start (start + 4) colour.bytes

def copyPixels (pixels : Nat) (format : PixelFormat) (data rgba : List UInt8) :
    Comp σ DecodeError (List UInt8) := do
  let stride := bytesPerPixel format
  let expected ← usize (pixels * stride)
  if data.length < expected then fail (.shortData expected data.length)
  else
    let chunks ← chunksExact stride data
    forEach (chunks.take pixels) (fun i chunk rgba => do
      storePixel rgba i (← tpixel chunk format)) rgba

/-- Whether bit `x` of a row is set: the first pixel is the highest bit of its byte. -/
def bitOf (byte : UInt8) (x : Nat) : Bool := byte &&& (0x80 >>> UInt8.ofNat (x % 8)) ≠ 0

def bitmapPixels (width height : Nat) (palette : List Rgba) (data rgba : List UInt8) :
    Comp σ DecodeError (List UInt8) := do
  let rowBytes := (width + 7) / 8
  let expected ← usize (rowBytes * height)
  if data.length < expected then fail (.shortData expected data.length)
  else
    forRange height (fun y => forRange width (fun x rgba => do
      let byte ← index data (← usize (y * rowBytes + x / 8))
      let colour ← index palette (bitOf byte x).toNat
      storePixel rgba (y * width + x) colour)) rgba

def indexedPixels (pixels : Nat) (palette : List Rgba) (data rgba : List UInt8) :
    Comp σ DecodeError (List UInt8) :=
  if data.length < pixels then fail (.shortData pixels data.length)
  else
    forEach (data.take pixels) (fun i value rgba => do
      let colour ← orFail palette[value.toNat]? (.corruptStream "Tight: 색 표 범위를 넘었다")
      storePixel rgba i colour) rgba

def leftOf (row : List Int) (x channel : Nat) : Comp σ DecodeError Int :=
  if 0 < x then do index row ((← sub x 1) * 3 + channel) else pure 0

/-- A channel is predicted as left + above - above left, and the data has the difference. -/
def gradientChannel (previous : List Int) (difference : UInt8) (x channel : Nat)
    (current : List Int) : Comp σ DecodeError (List Int) := do
  let left ← leftOf current x channel
  let above ← index previous (x * 3 + channel)
  let aboveLeft ← leftOf previous x channel
  let predicted := max 0 (min 255 (← i32 ((← i32 (left + above)) - aboveLeft)))
  let value := (← i32 (predicted + difference.toNat)) % 256
  store current (x * 3 + channel) value

def gradientPixel (format : PixelFormat) (width : Nat) (data : List UInt8) (previous : List Int)
    (y x : Nat) (row : List Int × List UInt8) : Comp σ DecodeError (List Int × List UInt8) := do
  let current ← forRange 3 (fun channel current => do
    let difference ← index data (← usize ((y * width + x) * 3 + channel))
    gradientChannel previous difference x channel current) row.1
  let wire := [← index current (x * 3), ← index current (x * 3 + 1), ← index current (x * 3 + 2)]
  let colour ← tpixel (wire.map fun value => UInt8.ofNat value.toNat) format
  return (current, ← storePixel row.2 (y * width + x) colour)

def applyGradient (width height : Nat) (format : PixelFormat) (data rgba : List UInt8) :
    Comp σ DecodeError (List UInt8) := do
  if bytesPerPixel format ≠ 3 then
    fail (.corruptStream "Tight: 그라데이션은 24비트에서만 쓸 수 있다")
  else
    let expected ← usize (width * height * 3)
    if data.length < expected then fail (.shortData expected data.length)
    else
      let zero := List.replicate (width * 3) 0
      let (_, _, rgba) ← forRange height (fun y (previous, current, rgba) => do
        let (current, rgba) ← forRange width (gradientPixel format width data previous y)
          (current, rgba)
        return (← copyInto previous 0 previous.length current, current, rgba)) (zero, zero, rgba)
      return rgba

def basicPixels (rect : Rect) (format : PixelFormat) (filter : Filter) (palette : List Rgba)
    (data : List UInt8) : Comp σ DecodeError (List UInt8) := do
  let pixels ← usize (rect.width * rect.height)
  let rgba := List.replicate (← usize (pixels * 4)) 0
  match filter with
  | .copy => copyPixels pixels format data rgba
  | .palette =>
    if palette.length = 2 then bitmapPixels rect.width rect.height palette data rgba
    else indexedPixels pixels palette data rgba
  | .gradient => applyGradient rect.width rect.height format data rgba

/-- The pixels of a picture of which the JPEG decoder has made `rgb`. -/
def jpegPixels (rect : Rect) (rgb : Option (List UInt8)) : Comp σ DecodeError (List UInt8) := do
  let rgb ← orFail rgb (.corruptStream "Tight: JPEG 를 풀 수 없다")
  let pixels ← usize (rect.width * rect.height)
  let expected ← usize (pixels * 3)
  if rgb.length < expected then fail (.shortData expected rgb.length)
  else
    let chunks ← chunksExact 3 rgb
    forEach (chunks.take pixels) (fun i chunk rgba => do
      storePixel rgba i (← tpixel chunk .rgba32)) (List.replicate (← usize (pixels * 4)) 0)

end

def applyFill (rect : Rect) (format : PixelFormat) (pixel : List UInt8) : Decoder Unit := do
  if pixel.length < bytesPerPixel format then
    fail (.shortData (bytesPerPixel format) pixel.length)
  else fill rect (← tpixel pixel format)

def applyJpeg (rect : Rect) (rgb : Option (List UInt8)) : Decoder Unit := do
  writeRgba rect (← jpegPixels rect rgb)

def applyBasic (rect : Rect) (format : PixelFormat) (filter : Filter) (palette : List Rgba)
    (data : List UInt8) : Decoder Unit := do
  writeRgba rect (← basicPixels rect format filter palette data)

end Dolgate.Vnc.Tight
