import Dolgate.Tight
import Dolgate.Zrle
import Dolgate.Pictures

set_option autoImplicit false

/-! A Tight rectangle as it comes over the connection: what kind it is, its filter and its colours,
its length, and its pixels. -/

namespace Dolgate.Vnc.Tight
open Checked

def minToCompress : Nat := 12

inductive Compression where
  | fill
  | jpeg
  | basic (stream : Fin 4) (filter : Filter)
  deriving DecidableEq, Repr

/-- A zlib stream: what `inflate` gets of some input, piece by piece, and the stream after it. -/
structure Zlib (Z : Type) where
  new : Z
  decompress : Z → List UInt8 → List (Except DecodeError (List UInt8)) × Z

/-- What the server has sent that is not read yet, the screen, and the four streams that last as
long as the session. -/
structure Connection (Z : Type) where
  input : List UInt8
  framebuffer : Framebuffer
  streams : Fin 4 → Z

inductive Failure where
  | io
  | decode (e : DecodeError)
  | bail (message : String)
  deriving DecidableEq, Repr

abbrev Reading (Z : Type) : Type → Type := Comp (Connection Z) Failure

variable {Z α : Type}

/-- `read_exact`: a connection that ends before has been read to its end. -/
def readExact (count : Nat) : Reading Z (List UInt8) := fun conn =>
  if count ≤ conn.input.length then
    (.ok (conn.input.take count), { conn with input := conn.input.drop count })
  else (.error (.error .io), { conn with input := [] })

def readByte : Reading Z UInt8 := do index (← readExact 1) 0

def readLengthByte : Reading Z UInt8 := do
  match ← attempt readByte with
  | some byte => return byte
  | none => fail (.decode (.corruptStream "Tight: 길이가 잘렸다"))

def onFramebuffer (m : Decoder α) : Reading Z α := fun conn =>
  match m conn.framebuffer with
  | (.ok a, fb) => (.ok a, { conn with framebuffer := fb })
  | (.error (.error e), fb) => (.error (.error (.decode e)), { conn with framebuffer := fb })
  | (.error .panic, fb) => (.error .panic, { conn with framebuffer := fb })

theorem streamNumber_lt (control : UInt8) : ((control >>> 4) &&& 0x03).toNat < 4 := by
  rw [UInt8.toNat_and]
  exact Nat.lt_succ_of_le Nat.and_le_right

def resetStreams (zlib : Zlib Z) (control : UInt8) (streams : Fin 4 → Z) : Fin 4 → Z := fun index =>
  if control &&& (1 <<< UInt8.ofNat index.val) ≠ 0 then zlib.new else streams index

def readControl (zlib : Zlib Z) (control : UInt8) : Reading Z Compression := do
  let conn ← state
  put { conn with streams := resetStreams zlib control conn.streams }
  let kind := control >>> 4
  if kind = 0x08 then return .fill
  else if kind = 0x09 then return .jpeg
  else if kind &&& 0x08 ≠ 0 then fail (.decode (.corruptStream "Tight: 알 수 없는 압축 종류"))
  else
    -- the filter is in the byte that comes next, and this one holds its place
    return .basic ⟨_, streamNumber_lt control⟩ (if kind &&& 0x04 ≠ 0 then .palette else .copy)

def hasFilterId (control : UInt8) : Bool :=
  let kind := control >>> 4
  kind &&& 0x08 = 0 ∧ kind &&& 0x04 ≠ 0

def filterFromId (id : UInt8) : Reading Z Filter :=
  if id = 0 then return .copy
  else if id = 1 then return .palette
  else if id = 2 then return .gradient
  else fail (.decode (.corruptStream "Tight: 알 수 없는 필터"))

/-- The length that data has, in one to three bytes: the highest bit of the first two tells that
one more comes. -/
def readCompactLength : Reading Z Nat := do
  let first ← readLengthByte
  let length := (first &&& 0x7F).toNat
  if first &&& 0x80 = 0 then return length
  else
    let second ← readLengthByte
    let length := length ||| (second &&& 0x7F).toNat <<< 7
    if second &&& 0x80 = 0 then return length
    else
      let third ← readLengthByte
      return length ||| third.toNat <<< 14

def filteredLength (rect : Rect) (format : PixelFormat) (filter : Filter) (paletteLen : Nat) :
    Nat :=
  match filter with
  | .palette =>
    if paletteLen = 2 then (rect.width + 7) / 8 * rect.height else rect.width * rect.height
  | _ => rect.width * rect.height * bytesPerPixel format

def isUncompressed (length : Nat) : Bool := length < minToCompress

/-- `inflate` on one of the streams. -/
def inflateStream (zlib : Zlib Z) (id : Fin 4) (compressed : List UInt8) :
    Reading Z (List UInt8) := do
  let conn ← state
  let (pieces, stream) := zlib.decompress (conn.streams id) compressed
  put { conn with streams := Function.update conn.streams id stream }
  onFramebuffer (Zrle.inflate pieces)

def readFilter (control : UInt8) : Reading Z (Filter × Nat) := do
  if hasFilterId control then
    let id ← readByte
    return (← filterFromId id, 1)
  else return (.copy, 0)

def readPalette (format : PixelFormat) (filter : Filter) : Reading Z (List Rgba × Nat) := do
  if filter = .palette then
    let count ← readByte
    let raw ← readExact ((count.toNat + 1) * bytesPerPixel format)
    let chunks ← chunksExact (bytesPerPixel format) raw
    let palette ← onFramebuffer
      (forEach chunks (fun _ chunk palette => do return palette ++ [← tpixel chunk format]) [])
    return (palette, 1 + raw.length)
  else return ([], 0)

def readData (zlib : Zlib Z) (id : Fin 4) (expected : Nat) : Reading Z (List UInt8 × Nat) := do
  if isUncompressed expected then
    let plain ← readExact expected
    return (plain, plain.length)
  else
    let length ← readCompactLength
    if 64 * 1024 * 1024 < length then fail (.bail s!"Tight 조각 길이가 비정상입니다({length})")
    else
      let compressed ← readExact length
      return (← inflateStream zlib id compressed, length)

/-- Reads a rectangle to the framebuffer. It returns how many bytes it counts as read. -/
def readTightRect (zlib : Zlib Z) (jpeg : List UInt8 → Option (List UInt8)) (format : PixelFormat)
    (rect : Rect) : Reading Z Nat := do
  let control ← readByte
  match ← readControl zlib control with
  | .fill =>
    let pixel ← readExact (bytesPerPixel format)
    onFramebuffer (applyFill rect format pixel)
    return 1 + pixel.length
  | .jpeg =>
    let length ← readCompactLength
    if 16 * 1024 * 1024 < length then fail (.bail s!"Tight JPEG 길이가 비정상입니다({length})")
    else
      let data ← readExact length
      onFramebuffer (applyJpeg rect (jpeg data))
      return 1 + length
  | .basic id _ =>
    let (filter, filterWire) ← readFilter control
    let (palette, paletteWire) ← readPalette format filter
    let (data, dataWire) ← readData zlib id (filteredLength rect format filter palette.length)
    onFramebuffer (applyBasic rect format filter palette data)
    return 1 + filterWire + paletteWire + dataWire

end Dolgate.Vnc.Tight

/-! What a Tight encoder may write for a picture, with any filter, on any of the four streams. -/

namespace Dolgate.Vnc.Tight

/-! ### Filters -/

def channelAt (picture : Nat → Nat → Rgb) (rect : Rect) (channel column row : Nat) : UInt8 :=
  (picture (rect.x + column) (rect.y + row)).channel channel

def bordered (value : Nat → Nat → UInt8) : Nat → Nat → Int
  | 0, _ => 0
  | _ + 1, 0 => 0
  | column + 1, row + 1 => (value column row).toNat

def predicted (value : Nat → Nat → UInt8) (column row : Nat) : Int :=
  max 0 (min 255 (bordered value column (row + 1) + bordered value (column + 1) row -
    bordered value column row))

def difference (value : Nat → Nat → UInt8) (column row : Nat) : UInt8 :=
  value column row - UInt8.ofNat (predicted value column row).toNat

def gradientBytes (picture : Nat → Nat → Rgb) (rect : Rect) : List UInt8 :=
  (List.range rect.height).flatMap fun row => (List.range rect.width).flatMap fun column =>
    (List.range 3).map fun channel => difference (channelAt picture rect channel) column row

inductive Filtered (picture : Nat → Nat → Rgb) (rect : Rect) :
    Filter → List Rgb → List UInt8 → Prop where
  | copy : Filtered picture rect .copy [] ((coloursIn picture rect).flatMap Rgb.bytes)
  | bitmap {palette : List Rgb} {indices : Nat → List Nat} {rows : Nat → List UInt8}
      (hsize : palette.length = 2) (hrows : ∀ row, row < rect.height → Packed 1 (indices row) (rows row))
      (hcolours : ∀ row, row < rect.height → (indices row).map (palette[·]?) =
        (List.range rect.width).map fun column => some (picture (rect.x + column) (rect.y + row))) :
      Filtered picture rect .palette palette ((List.range rect.height).flatMap rows)
  | indexed {palette : List Rgb} {indices : List UInt8}
      (hsize : 3 ≤ palette.length ∧ palette.length ≤ 256)
      (hcolours : indices.map (palette[·.toNat]?) = (coloursIn picture rect).map some) :
      Filtered picture rect .palette palette indices
  | gradient : Filtered picture rect .gradient [] (gradientBytes picture rect)

/-! ### What comes before the data -/

def filterId : Filter → UInt8
  | .copy => 0
  | .palette => 1
  | .gradient => 2

def paletteBytes (filter : Filter) (palette : List Rgb) : List UInt8 :=
  match filter with
  | .palette => UInt8.ofNat (palette.length - 1) :: palette.flatMap Rgb.bytes
  | _ => []

/-- Whether the control byte says that the filter follows, and what does. Only that there is none
may be left unsaid. -/
inductive Header : Filter → List Rgb → Bool → List UInt8 → Prop where
  | implicit : Header .copy [] false []
  | explicit {filter : Filter} {palette : List Rgb} :
      Header filter palette true (filterId filter :: paletteBytes filter palette)

/-- A length, in seven bits a byte from the low ones on, of which the third has eight. -/
def compactLength (length : Nat) : List UInt8 :=
  if length < 128 then [UInt8.ofNat length]
  else if length < 16384 then [UInt8.ofNat (128 + length % 128), UInt8.ofNat (length / 128)]
  else [UInt8.ofNat (128 + length % 128), UInt8.ofNat (128 + length / 128 % 128),
    UInt8.ofNat (length / 16384)]

/-! ### Streams -/

/-- The encoder's side of a zlib stream: what some data may be compressed to, and the stream then. -/
structure Deflater (S : Type) where
  new : S
  Deflates : S → List UInt8 → List UInt8 → S → Prop

section

variable {S Z : Type} (deflater : Deflater S) (zlib : Zlib Z)

inductive Synced : S → Z → Prop where
  | new : Synced deflater.new zlib.new
  | next {s s' : S} {z : Z} {data bytes : List UInt8} (h : Synced s z)
      (hdeflates : deflater.Deflates s data bytes s') :
      Synced s' (zlib.decompress z bytes).2

/-- Inflating inverts deflating: what has been compressed on a stream comes out at the other end, in
whatever pieces. -/
def Inverts : Prop :=
  ∀ s z data bytes s', Synced deflater zlib s z → deflater.Deflates s data bytes s' →
    ∃ pieces : List (List UInt8), (zlib.decompress z bytes).1 = pieces.map .ok ∧
      pieces.flatten = data

def begin (resets : Nat) (streams : Fin 4 → S) : Fin 4 → S := fun index =>
  if resets.testBit index then deflater.new else streams index

inductive Payload (s : S) (data : List UInt8) : List UInt8 → S → Prop where
  | plain (h : data.length < 12) : Payload s data data s
  | compressed {bytes : List UInt8} {s' : S} (h : 12 ≤ data.length)
      (hdeflates : deflater.Deflates s data bytes s') (hlength : bytes.length < 2 ^ 22) :
      Payload s data (compactLength bytes.length ++ bytes) s'

/-- The ways to write a picture that leave no pixel different, and the encoder's streams before and
after. -/
inductive Encodes (picture : Nat → Nat → Rgb) (rect : Rect) (streams : Fin 4 → S) :
    List UInt8 → (Fin 4 → S) → Prop where
  | fill {resets : Nat} {colour : Rgb} (hresets : resets < 16)
      (h : ∀ x y, rect.covers x y → picture x y = colour) :
      Encodes picture rect streams (UInt8.ofNat (128 + resets) :: colour.bytes)
        (begin deflater resets streams)
  | basic {resets : Nat} {stream : Fin 4} {explicit : Bool} {filter : Filter} {palette : List Rgb}
      {header data payload : List UInt8} {s : S} (hresets : resets < 16)
      (hfiltered : Filtered picture rect filter palette data)
      (hheader : Header filter palette explicit header)
      (hpayload : Payload deflater (begin deflater resets streams stream) data payload s) :
      Encodes picture rect streams
        (UInt8.ofNat (resets + 16 * stream + explicit.toNat * 64) :: (header ++ payload))
        (Function.update (begin deflater resets streams) stream s)

end

end Dolgate.Vnc.Tight
