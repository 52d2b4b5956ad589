import Dolgate.GoBytes
import Dolgate.Segments
import Dolgate.Utf8

set_option autoImplicit false

/-! What is shown of the banners that a server sends before it lets one in. -/

namespace Dolgate.Banner
open GoBytes (ascii hasPrefix)
open Segments (join)

abbrev Bytes := List UInt8

def maxBannerLines : Nat := 12

def maxBannerBytes : Nat := 1024

/-! `bannerEscapePattern`. The three alternatives differ in the second byte, but for `]`, where the
third is left when the second has no end. -/

def parameterByte (b : UInt8) : Bool := 0x30 ≤ b && b ≤ 0x3F

def intermediateByte (b : UInt8) : Bool := 0x20 ≤ b && b ≤ 0x2F

def finalByte (b : UInt8) : Bool := 0x40 ≤ b && b ≤ 0x7E

/-- How much after `ESC [` belongs to the sequence. -/
def csi (rest : Bytes) : Option Nat :=
  let parameters := rest.takeWhile parameterByte
  let rest := rest.dropWhile parameterByte
  let intermediates := rest.takeWhile intermediateByte
  match rest.dropWhile intermediateByte with
  | [] => none
  | b :: _ => if finalByte b then some (parameters.length + intermediates.length + 1) else none

/-- The same after `ESC ]`. The body may have any bytes, also line feeds. -/
def osc (rest : Bytes) : Option Nat :=
  let body := rest.takeWhile fun b => b ≠ 0x07 && b ≠ 0x1B
  match rest.dropWhile fun b => b ≠ 0x07 && b ≠ 0x1B with
  | [] => none
  | b :: rest =>
    if b = 0x07 then some (body.length + 1)
    else if rest.head? = some 0x5C then some (body.length + 2)
    else none

def escape : Bytes → Option Nat
  | escapeByte :: b :: rest =>
    if escapeByte ≠ 0x1B then none
    else if b = 0x5B then (csi rest).map (· + 2)
    else if b = 0x5D then some (((osc rest).map (· + 2)).getD 2)
    else if 0x40 ≤ b ∧ b ≤ 0x5F then some 2
    else none
  | _ => none

/-- `ReplaceAllString` with nothing; `skip` bytes are still of the last sequence. -/
def deleteEscapes (skip : Nat) : Bytes → Bytes
  | [] => []
  | b :: rest =>
    if skip ≠ 0 then deleteEscapes (skip - 1) rest
    else
      match escape (b :: rest) with
      | some n => deleteEscapes (n - 1) rest
      | none => b :: deleteEscapes 0 rest

/-- `bannerControlPattern` -/
def control (b : UInt8) : Bool := b ≤ 0x08 || (0x0B ≤ b && b ≤ 0x1F) || b == 0x7F

def cleaned (raw : Bytes) : Bytes := (deleteEscapes 0 raw).filter fun b => !control b

def cleanLine (line : Bytes) : Bytes :=
  (line.map fun b => if b = 0x09 then 0x20 else b).rdropWhile fun b => b = 0x20

def sanitizeBanner (raw : Bytes) : Bytes :=
  join 10 (((((cleaned raw).splitOn 10).map cleanLine).dropWhile fun l => l = []).rdropWhile
    fun l => l = [])

def cutCharacter (text : Bytes) : Bytes :=
  if text = [] ∨ Utf8.valid text then text else cutCharacter text.dropLast
termination_by text.length
decreasing_by
  rename_i h
  have := List.length_pos_iff.mpr (not_or.mp h).1
  rw [List.length_dropLast]
  omega

def ellipsis : Bytes := [10, 0xE2, 0x80, 0xA6]

def truncateBanner (text : Bytes) : Bytes :=
  if text = [] then []
  else
    let lines := text.splitOn 10
    let kept := if maxBannerLines < lines.length then lines.take maxBannerLines else lines
    let text := join 10 kept
    let shown := if maxBannerBytes < text.length then cutCharacter (text.take maxBannerBytes)
      else text
    if maxBannerLines < lines.length ∨ maxBannerBytes < text.length then
      (shown.rdropWhile fun b => b = 0x20 || b = 10) ++ ellipsis
    else shown

/-! `bannerCollector`, by the banners it has got. -/

def sanitized (parts : List Bytes) : Bytes := sanitizeBanner (join 10 parts)

def text (parts : List Bytes) : Bytes := truncateBanner (sanitized parts)

/-- `bannerURLPattern`: how much of the text is the link that it begins with. -/
def linkByte (b : UInt8) : Bool :=
  b ∉ ([0x09, 0x0A, 0x0C, 0x0D, 0x20, 0x3C, 0x3E, 0x22, 0x27, 0x29] : Bytes)

def linkFrom (scheme : Bytes) (text : Bytes) : Option Nat :=
  let n := ((text.drop scheme.length).takeWhile linkByte).length
  if hasPrefix text scheme ∧ n ≠ 0 then some (scheme.length + n) else none

def link (text : Bytes) : Option Nat :=
  (linkFrom (ascii "https://") text).or (linkFrom (ascii "http://") text)

def firstLink : Bytes → Bytes
  | [] => []
  | b :: rest =>
    match link (b :: rest) with
    | some n => (b :: rest).take n
    | none => firstLink rest

def url (parts : List Bytes) : Bytes := firstLink (sanitized parts)

/-- The error of a handshake: its text, whether it is the deadline's, and what `Timeout` says where
it has one. -/
structure HandshakeError where
  message : Bytes
  deadline : Bool
  timeout : Option Bool

def utf8 (text : String) : Bytes := text.toList.flatMap String.utf8EncodeChar

def stageText (hostKeyChecked : Bool) : Bytes :=
  if hostKeyChecked then utf8 "인증 단계에서 서버 응답이 없습니다"
  else utf8 "키 교환 단계에서 서버 응답이 없습니다"

def bannerDetail (before text url : Bytes) : Bytes :=
  (if before = [] then [] else ascii ". ") ++ utf8 "서버가 보낸 안내:\n" ++ text ++
    (if url ≠ [] ∧ ¬ url <:+: text then [10] ++ url else [])

def annotateHandshakeFailure (err : Option HandshakeError) (banner : Option (List Bytes))
    (hostKeyChecked : Bool) : Option Bytes :=
  err.map fun err =>
    let stalled := err.deadline || err.timeout.getD false
    let text := (banner.map text).getD []
    let url := (banner.map url).getD []
    let stage := if stalled then stageText hostKeyChecked else []
    let detail := stage ++
      if text ≠ [] ∧ (url ≠ [] ∨ stalled = true) then bannerDetail stage text url else []
    if detail = [] then err.message else err.message ++ utf8 " — " ++ detail

end Dolgate.Banner
