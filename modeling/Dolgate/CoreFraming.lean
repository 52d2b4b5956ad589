import Mathlib.Algebra.Order.Ring.Nat
import Dolgate.Framing

set_option autoImplicit false

/-! The framing of the sidecars' standard streams as the Rust crate, the Go package and the desktop
each implement it. Metadata is the serialised text; the desktop's `JSON.parse` of it is a
parameter. -/

namespace Dolgate.CoreFraming

abbrev Bytes := List UInt8

structure Frame where
  kind : UInt8
  metadata : Bytes
  payload : Bytes
  deriving DecidableEq, Repr

def headerSize : Nat := 9

def kindControl : UInt8 := 1

def kindStream : UInt8 := 2

def putUint32 (n : Nat) : Bytes :=
  [UInt8.ofNat (n / 2 ^ 24), UInt8.ofNat (n / 2 ^ 16), UInt8.ofNat (n / 2 ^ 8), UInt8.ofNat n]

def uint32 (bs : Bytes) : Nat := bs.foldl (fun n b => 256 * n + b.toNat) 0

/-- A stream as the pieces that its reads return. A read blocks until there is something. -/
abbrev Reader := List Bytes

/-- Reads until `n` bytes have come, or until the stream ends. -/
def readFull : Nat → Reader → Bytes × Reader
  | _, [] => ([], [])
  | n, piece :: pieces =>
      if n ≤ piece.length then (piece.take n, piece.drop n :: pieces)
      else
        let rest := readFull (n - piece.length) pieces
        (piece ++ rest.1, rest.2)

def readFrames {ε : Type} (read : Reader → Except ε Frame × Reader) :
    Nat → Reader → List Frame × Option ε
  | 0, _ => ([], none)
  | fuel + 1, r =>
      match read r with
      | (.error e, _) => ([], some e)
      | (.ok frame, r') =>
          let rest := readFrames read fuel r'
          (frame :: rest.1, rest.2)

namespace Rust

inductive Error where
  | unexpectedEof
  | invalidData (message : String)
  | invalidInput (message : String)
  deriving DecidableEq, Repr

def maxMetadata : Nat := 8 * 1024 * 1024

def maxPayload : Nat := 256 * 1024 * 1024

def readExact (n : Nat) (r : Reader) : Except Error Bytes × Reader :=
  let (bytes, r') := readFull n r
  (if bytes.length < n then .error .unexpectedEof else .ok bytes, r')

def readFrame (r : Reader) : Except Error Frame × Reader :=
  match readExact headerSize r with
  | (.error e, r) => (.error e, r)
  | (.ok header, r) =>
      let kind := header.headD 0
      let metadataLength := uint32 ((header.drop 1).take 4)
      let payloadLength := uint32 ((header.drop 5).take 4)
      if metadataLength > maxMetadata then
        (.error (.invalidData s!"metadata length {metadataLength} exceeds cap"), r)
      else if payloadLength > maxPayload then
        (.error (.invalidData s!"payload length {payloadLength} exceeds cap"), r)
      else
        match readExact metadataLength r with
        | (.error e, r) => (.error e, r)
        | (.ok metadata, r) =>
            match readExact payloadLength r with
            | (.error e, r) => (.error e, r)
            | (.ok payload, r) => (.ok ⟨kind, metadata, payload⟩, r)

def encodeHeader (kind : UInt8) (metadataLength payloadLength : Nat) : Except Error Bytes :=
  if 2 ^ 32 ≤ metadataLength then .error (.invalidInput "metadata too large for u32")
  else if 2 ^ 32 ≤ payloadLength then .error (.invalidInput "payload too large for u32")
  else .ok (kind :: putUint32 metadataLength ++ putUint32 payloadLength)

def writeFrame (kind : UInt8) (metadata payload : Bytes) : Except Error Bytes :=
  (encodeHeader kind metadata.length payload.length).map fun header =>
    if payload = [] then header ++ metadata else header ++ metadata ++ payload

end Rust

namespace Go

inductive Error where
  | eof
  | unexpectedEof
  deriving DecidableEq, Repr

def ioReadFull (n : Nat) (r : Reader) : Except Error Bytes × Reader :=
  let (bytes, r') := readFull n r
  (if n ≤ bytes.length then .ok bytes
    else if bytes = [] then .error .eof else .error .unexpectedEof, r')

def readFrame (r : Reader) : Except Error Frame × Reader :=
  match ioReadFull headerSize r with
  | (.error e, r) => (.error e, r)
  | (.ok header, r) =>
      let metadataLength := uint32 ((header.drop 1).take 4)
      let payloadLength := uint32 ((header.drop 5).take 4)
      match ioReadFull metadataLength r with
      | (.error e, r) => (.error e, r)
      | (.ok metadata, r) =>
          match ioReadFull payloadLength r with
          | (.error e, r) => (.error e, r)
          | (.ok payload, r) => (.ok ⟨header.headD 0, metadata, payload⟩, r)

def writeFrame (kind : UInt8) (metadata payload : Bytes) : Bytes :=
  let header := kind :: putUint32 metadata.length ++ putUint32 payload.length
  if payload = [] then header ++ metadata else header ++ metadata ++ payload

def writeControlFrame (metadata : Bytes) : Bytes := writeFrame kindControl metadata []

def writeStreamFrame (metadata payload : Bytes) : Bytes := writeFrame kindStream metadata payload

end Go

/-! The desktop. -/

inductive Error where
  | outOfRange
  | unknownFrameKind (kind : UInt8)
  | invalidJson
  deriving DecidableEq, Repr

def Error.message : Error → Option String
  | .unknownFrameKind kind => some s!"Unknown core frame kind: {kind}"
  | _ => none

def writeUInt32BE (n : Nat) : Except Error Bytes :=
  if n < 2 ^ 32 then .ok (putUint32 n) else .error .outOfRange

def encodeHeader (kind : UInt8) (metadataLength payloadLength : Nat) : Except Error Bytes := do
  let metadata ← writeUInt32BE metadataLength
  let payload ← writeUInt32BE payloadLength
  return kind :: metadata ++ payload

def encodeControlFrameOf (metadata : Bytes) : Except Error Bytes := do
  let header ← encodeHeader kindControl metadata.length 0
  return header ++ metadata

def encodeControlFrameWithPayload (metadata payload : Bytes) : Except Error Bytes := do
  let header ← encodeHeader kindControl metadata.length payload.length
  return header ++ metadata ++ payload

def encodeStreamFrame (metadata payload : Bytes) : Except Error Bytes := do
  let header ← encodeHeader kindStream metadata.length payload.length
  return header ++ metadata ++ payload

/-- `source.copy(target, offset)`: what does not fit is left out. -/
def copy (source target : Bytes) (offset : Nat) : Bytes :=
  target.take offset ++ source.take (target.length - offset) ++
    target.drop (offset + source.length)

def subarray (bytes : Bytes) (start stop : Nat) : Bytes := (bytes.take stop).drop start

def readUInt8 (bytes : Bytes) (offset : Nat) : Except Error UInt8 :=
  match bytes[offset]? with
  | some b => .ok b
  | none => .error .outOfRange

def readUInt32BE (bytes : Bytes) (offset : Nat) : Except Error Nat :=
  if offset + 4 ≤ bytes.length then .ok (uint32 (subarray bytes offset (offset + 4)))
  else .error .outOfRange

/-- What the memory that `Buffer.allocUnsafe` hands out the first, second, … time holds. -/
abbrev Memory := Nat → Nat → UInt8

def allocUnsafe (memory : Memory) (allocation capacity : Nat) : Bytes :=
  (List.range capacity).map (memory allocation)

inductive ParsedFrame (J : Type) where
  | control (metadata : J)
  | stream (metadata : J) (payload : Bytes)
  deriving DecidableEq, Repr

def initialCapacity : Nat := 128 * 1024

def retainedCapacity : Nat := 4 * 1024 * 1024

structure CoreFrameParser where
  buffer : Bytes
  start : Nat
  stop : Nat
  /-- How many buffers have been allocated. -/
  allocated : Nat

namespace CoreFrameParser

variable {J : Type} (memory : Memory) (parse : Bytes → Option J)

def new : CoreFrameParser := ⟨allocUnsafe memory 0 initialCapacity, 0, 0, 1⟩

/-- `while (capacity < needed) capacity *= 2` -/
def double : Nat → Nat → Nat → Nat
  | 0, capacity, _ => capacity
  | fuel + 1, capacity, needed =>
      if capacity < needed then double fuel (capacity * 2) needed else capacity

/-- The first half of `append`: makes the room for `length` more bytes. -/
def makeRoom (p : CoreFrameParser) (length : Nat) : CoreFrameParser :=
  let pending := p.stop - p.start
  let needed := pending + length
  if needed > p.buffer.length then
    let capacity := double needed p.buffer.length needed
    let grown := allocUnsafe memory p.allocated capacity
    ⟨copy (subarray p.buffer p.start p.stop) grown 0, 0, pending, p.allocated + 1⟩
  else if p.stop + length > p.buffer.length then
    { p with
      buffer := copy (subarray p.buffer p.start p.stop) p.buffer 0
      start := 0
      stop := pending }
  else p

def append (p : CoreFrameParser) (chunk : Bytes) : CoreFrameParser :=
  let p := makeRoom memory p chunk.length
  { p with buffer := copy chunk p.buffer p.stop, stop := p.stop + chunk.length }

def reclaim (p : CoreFrameParser) : CoreFrameParser :=
  if p.start ≠ p.stop then p
  else if p.buffer.length > retainedCapacity then
    ⟨allocUnsafe memory p.allocated initialCapacity, 0, 0, p.allocated + 1⟩
  else { p with start := 0, stop := 0 }

def parsedFrame (kind : UInt8) (metadata payload : Bytes) : Except Error (ParsedFrame J) :=
  if kind = kindControl then
    match parse metadata with
    | some value => .ok (.control value)
    | none => .error .invalidJson
  else if kind = kindStream then
    match parse metadata with
    | some value => .ok (.stream value payload)
    | none => .error .invalidJson
  else .error (.unknownFrameKind kind)

/-- One pass of the loop of `push`: a frame and the parser behind it, or `none` to leave. -/
def takeFrame (p : CoreFrameParser) : Except Error (Option (ParsedFrame J × CoreFrameParser)) :=
  if p.stop - p.start < headerSize then .ok none
  else do
    let kind ← readUInt8 p.buffer p.start
    let metadataLength ← readUInt32BE p.buffer (p.start + 1)
    let payloadLength ← readUInt32BE p.buffer (p.start + 5)
    let metadataStart := p.start + headerSize
    let metadataEnd := metadataStart + metadataLength
    let payloadEnd := metadataEnd + payloadLength
    if p.stop - p.start < headerSize + metadataLength + payloadLength then return none
    else
      let frame ← parsedFrame parse kind (subarray p.buffer metadataStart metadataEnd)
        (subarray p.buffer metadataEnd payloadEnd)
      return some (frame, { p with start := payloadEnd })

/-- The loop of `push`. An error leaves it together with `frames`. -/
def takeFrames : Nat → CoreFrameParser → List (ParsedFrame J) →
    Except Error (List (ParsedFrame J)) × CoreFrameParser
  | 0, p, frames => (.ok frames, p)
  | fuel + 1, p, frames =>
      match takeFrame parse p with
      | .error e => (.error e, p)
      | .ok none => (.ok frames, p)
      | .ok (some (frame, p')) => takeFrames fuel p' (frames ++ [frame])

def push (p : CoreFrameParser) (chunk : Bytes) :
    Except Error (List (ParsedFrame J)) × CoreFrameParser :=
  let p := append memory p chunk
  match takeFrames parse (p.stop - p.start) p [] with
  | (.error e, p) => (.error e, p)
  | (.ok frames, p) => (.ok frames, reclaim memory p)

/-- The frames that the calls of `push` return up to the first that throws, and its error. -/
def pushAll : CoreFrameParser → List Bytes → List (ParsedFrame J) × Option Error
  | _, [] => ([], none)
  | p, chunk :: chunks =>
      match push memory parse p chunk with
      | (.error e, _) => ([], some e)
      | (.ok frames, p') =>
          let rest := pushAll p' chunks
          (frames ++ rest.1, rest.2)

end CoreFrameParser

end Dolgate.CoreFraming
