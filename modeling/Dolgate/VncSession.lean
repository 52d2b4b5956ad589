import Dolgate.Rectangles
import Dolgate.Transition

set_option autoImplicit false

/-! A VNC session from its first update request on: the loop that reads server messages, the queue
of the viewer's commands and everything that goes out either way. Messages come as the reading
functions return them. -/

namespace Dolgate.Vnc

namespace Clipboard

def formatText : Nat := 1

def actionCaps : Nat := 1 <<< 24

def actionRequest : Nat := 1 <<< 25

def actionNotify : Nat := 1 <<< 27

def actionProvide : Nat := 1 <<< 28

def maxUnsolicitedText : Nat := 256 * 1024

inductive Incoming where
  | classic (text : String)
  | caps (formats actions maxUnsolicitedText : Nat)
  | provide (text : String)
  | notify (formats : Nat)
  | request (formats : Nat)
  | ignored
  deriving DecidableEq, Repr

/-- The four bytes of a `u32`. -/
def be32 (n : Nat) : List UInt8 :=
  [UInt8.ofNat (n / 2 ^ 24), UInt8.ofNat (n / 2 ^ 16), UInt8.ofNat (n / 2 ^ 8), UInt8.ofNat n]

def encodeCaps : List UInt8 :=
  be32 (actionCaps ||| actionRequest ||| actionNotify ||| actionProvide ||| formatText) ++
    be32 maxUnsolicitedText

def encodeRequest : List UInt8 := be32 (actionRequest ||| formatText)

def encodeNotify : List UInt8 := be32 (actionNotify ||| formatText)

def toCrlfFrom : Char → List Char → List Char
  | _, [] => []
  | previous, c :: rest =>
      if c = '\n' ∧ previous ≠ '\r' then '\r' :: c :: toCrlfFrom c rest
      else c :: toCrlfFrom c rest

def toCrlf (text : String) : String := String.ofList (toCrlfFrom (Char.ofNat 0) text.toList)

/-- `deflate` is the zlib encoder. -/
def encodeProvide (deflate : List UInt8 → Option (List UInt8)) (text : String) :
    Option (List UInt8) :=
  let wire := (toCrlf text).toUTF8.toList
  (deflate (be32 wire.length ++ wire)).map fun compressed =>
    be32 (actionProvide ||| formatText) ++ compressed

def countLatin1Losses (text : String) : Nat := text.toList.countP fun c => 0xFF < c.toNat

def toLatin1From : List Char → List UInt8
  | [] => []
  | '\r' :: '\n' :: rest => 10 :: toLatin1From rest
  | '\r' :: rest => 10 :: toLatin1From rest
  | c :: rest => (if c.toNat ≤ 0xFF then UInt8.ofNat c.toNat else 63) :: toLatin1From rest

def toLatin1Clipboard (text : String) : List UInt8 := toLatin1From text.toList

end Clipboard

inductive ClientMessage where
  | framebufferUpdateRequest (incremental : Bool) (x y width height : Nat)
  | enableContinuousUpdates (enable : Bool) (x y width height : Nat)
  | setDesktopSize (width height : Nat) (screenId : Nat)
  | pointerEvent (buttonMask : UInt8) (x y : UInt16)
  | keyEvent (keysym : UInt32) (pressed : Bool)
  | qemuKeyEvent (keysym keycode : UInt32) (pressed : Bool)
  | clientCutText (body : List UInt8)
  | clientCutTextExtended (body : List UInt8)
  | clientFence (flags : Nat) (payload : List UInt8)
  deriving DecidableEq, Repr

inductive InputEvent where
  | mouseMove (x y : UInt16)
  | mouseButton (button : UInt8) (pressed : Bool) (x y : UInt16)
  | wheel (vertical : Bool) (delta : Int) (x y : UInt16)
  | key (keysym : UInt32) (pressed : Bool) (keycode : UInt32)
  deriving DecidableEq, Repr

inductive Outbound where
  | input (batch : List InputEvent)
  | clipboard (text : String)
  | desktopSize (width height : UInt16)
  | refresh
  deriving DecidableEq, Repr

structure PointerState where
  buttonMask : UInt8 := 0
  x : UInt16 := 0
  y : UInt16 := 0

structure ClipboardState where
  extended : Bool := false
  peerActions : Nat := 0
  peerMaxUnsolicited : Nat := 0
  sentCaps : Bool := false
  pending : Option String := none
  offered : Option String := none
  lossyChars : Nat := 0

structure DesktopSizeState where
  supported : Bool := false
  screenId : Nat := 0
  requested : Option (UInt16 × UInt16) := none

structure ContinuousUpdates where
  supported : Bool := false
  enabled : Bool := false
  area : Option (Nat × Nat) := none

structure CapabilitiesPayload where
  extendedClipboard : Bool := false
  desktopResize : Bool := false
  cursor : Bool := false
  continuousUpdates : Bool := false
  qemuKeys : Bool := false
  tls : Bool := false
  encoding : String := ""
  deriving DecidableEq, Repr

inductive Emission where
  | connected (width height : Nat) (name : String)
  | resized (width height : Nat)
  | capabilities (payload : CapabilitiesPayload)
  | clipboard (text : String)
  | clipboardLossy (replaced : Nat)
  | frame (rect : Rect) (pixels : List UInt8)
  | cursor (shape : Cursor)

/-- What stands behind the header of a rectangle. The layout of an ExtendedDesktopSize is its whole
body. -/
inductive Content where
  | body (body : Body)
  | qemuKeyEvent
  | desktopSize
  | extendedDesktopSize (layout : List UInt8)
  | unknown (encoding : Int)

structure ServerRect where
  x : UInt16
  y : UInt16
  width : UInt16
  height : UInt16
  content : Content

def ServerRect.rect (r : ServerRect) : Rect := ⟨r.x.toNat, r.y.toNat, r.width.toNat, r.height.toNat⟩

/-- A FramebufferUpdate of which not every rectangle can be read is `complete = false`. -/
inductive ServerMessage where
  | framebufferUpdate (rects : List ServerRect) (complete : Bool)
  | bell
  | serverCutText (incoming : Clipboard.Incoming)
  | setColourMapEntries
  | endOfContinuousUpdates
  | serverFence (flags : Nat) (payload : List UInt8)
  | unknown (kind : UInt8)

inductive Entry where
  | message (m : ServerMessage)
  | rectangle (r : ServerRect)
  | sent (m : ClientMessage)
  | emitted (e : Emission)

structure Session where
  framebuffer : Framebuffer
  pointer : PointerState := {}
  desktopSize : DesktopSizeState := {}
  continuous : ContinuousUpdates := {}
  nudgedForPixels : Bool := false
  capabilities : CapabilitiesPayload
  cursorSeen : Bool := false
  pixelEncoding : String := ""
  qemuKeys : Bool := false
  hasScreen : Bool := false
  clip : ClipboardState := {}
  outbound : List Outbound := []
  log : List Entry
  ended : Bool := false

namespace Session

def send (s : Session) (m : ClientMessage) : Session := { s with log := .sent m :: s.log }

def emit (s : Session) (e : Emission) : Session := { s with log := .emitted e :: s.log }

def requestUpdate (s : Session) (incremental : Bool) : Session :=
  s.send (.framebufferUpdateRequest incremental 0 0 s.framebuffer.width s.framebuffer.height)

def requestFullUpdate (s : Session) : Session := s.requestUpdate false

def requestIncrementalUpdate (s : Session) : Session := s.requestUpdate true

def enableContinuousUpdates (s : Session) : Session :=
  if !s.continuous.supported then s
  else
    let area := (s.framebuffer.width, s.framebuffer.height)
    if s.continuous.enabled ∧ s.continuous.area = some area then s
    else
      { s.send (.enableContinuousUpdates true 0 0 area.1 area.2) with
        continuous := { s.continuous with enabled := true, area := some area } }

/-! The commands of the viewer. -/

def pointerTo (s : Session) (mask : UInt8) (x y : UInt16) : Session :=
  { s with pointer := ⟨mask, x, y⟩ }

def buttonBit (button : UInt8) : Option UInt8 :=
  if button = 0 then some 1 else if button = 1 then some 2 else if button = 2 then some 4 else none

def wheelBit (vertical : Bool) (delta : Int) : UInt8 :=
  match vertical, decide (0 < delta) with
  | true, true => 8
  | true, false => 16
  | false, false => 32
  | false, true => 64

def sendInput (s : Session) : InputEvent → Session
  | .mouseMove x y =>
      (s.pointerTo s.pointer.buttonMask x y).send (.pointerEvent s.pointer.buttonMask x y)
  | .mouseButton button pressed x y =>
      match buttonBit button with
      | none => s
      | some bit =>
          let mask := if pressed then s.pointer.buttonMask ||| bit
            else s.pointer.buttonMask &&& ~~~bit
          (s.pointerTo mask x y).send (.pointerEvent mask x y)
  | .wheel vertical delta x y =>
      if delta = 0 then s
      else
        let mask := s.pointer.buttonMask
        ((s.pointerTo mask x y).send (.pointerEvent (mask ||| wheelBit vertical delta) x y)).send
          (.pointerEvent mask x y)
  | .key keysym pressed keycode =>
      if s.qemuKeys ∧ keycode ≠ 0 then s.send (.qemuKeyEvent keysym keycode pressed)
      else s.send (.keyEvent keysym pressed)

def sendClassic (s : Session) (text : String) : Session :=
  { s with
    clip := { s.clip with lossyChars := s.clip.lossyChars + Clipboard.countLatin1Losses text }
  }.send (.clientCutText (Clipboard.toLatin1Clipboard text))

section

variable (deflate : List UInt8 → Option (List UInt8))

def sendProvide (s : Session) (text : String) : Session :=
  match Clipboard.encodeProvide deflate text with
  | some body => s.send (.clientCutTextExtended body)
  | none => s

/-- A peer that knows `notify` gets it, another one the classic message and then, unless it is too
long for it, the text itself. -/
def sendClipboardText (s : Session) (text : String) : Session :=
  if !s.clip.extended then s.sendClassic text
  else if s.clip.peerActions &&& Clipboard.actionNotify ≠ 0 then
    s.send (.clientCutTextExtended Clipboard.encodeNotify)
  else
    let tooBig := 0 < s.clip.peerMaxUnsolicited ∧
      s.clip.peerMaxUnsolicited < text.utf8ByteSize % 2 ^ 32
    if s.clip.peerActions &&& Clipboard.actionProvide ≠ 0 ∧ ¬ tooBig then
      sendProvide deflate (s.sendClassic text) text
    else s.sendClassic text

def sendCommand (s : Session) : Outbound → Session
  | .input batch => batch.foldl sendInput s
  | .clipboard text =>
      let pending := if s.clip.extended then s.clip.pending else some text
      sendClipboardText deflate
        { s with clip := { s.clip with pending := pending, offered := some text } } text
  | .desktopSize width height =>
      if !s.desktopSize.supported then s
      else if s.desktopSize.requested = some (width, height) then s
      else
        { s with desktopSize := { s.desktopSize with requested := some (width, height) } }.send
          (.setDesktopSize width.toNat height.toNat s.desktopSize.screenId)
  | .refresh => s.requestFullUpdate

def drainOutbound (s : Session) : Session :=
  { s.outbound.foldl (sendCommand deflate) s with outbound := [] }

def reportClipboardLoss (s : Session) : Session :=
  if s.clip.lossyChars = 0 then s
  else { s with clip := { s.clip with lossyChars := 0 } }.emit (.clipboardLossy s.clip.lossyChars)

/-! A FramebufferUpdate. -/

structure UpdateOutcome where
  resized : Option (Nat × Nat) := none
  drewPixels : Bool := false
  sawCursor : Bool := false
  pixelEncoding : Option String := none
  sawQemuKeys : Bool := false

def extract (fb : Framebuffer) (rect : Rect) : Option (List UInt8) :=
  if fb.contains rect then
    some ((List.range rect.height).flatMap fun row =>
      (fb.pixels.drop (((rect.y + row) * fb.width + rect.x) * 4)).take (rect.width * 4))
  else none

def sendRect (s : Session) (rect : Rect) : Session :=
  match extract s.framebuffer rect with
  | some pixels => s.emit (.frame rect pixels)
  | none => s

def encodingName : Body → Option String
  | .raw _ => some "raw"
  | .copyRect _ _ => some "copyRect"
  | .tightFill _ => some "tight"
  | .tightJpeg _ => some "tight"
  | .tightBasic _ _ _ => some "tight"
  | .zrle _ => some "zrle"
  | .cursor _ => none

def emitCursor (s : Session) : Option Cursor → Session
  | some shape => s.emit (.cursor shape)
  | none => s

/-- `none` is an error, which ends the session. The format is the one asked for. -/
def handleBody (s : Session) (o : UpdateOutcome) (rect : Rect) (body : Body) :
    Session × Option UpdateOutcome :=
  match decodeRectangle .rgba32 rect body s.framebuffer with
  | (.error _, fb) => ({ s with framebuffer := fb }, none)
  | (.ok shape, fb) =>
      let s := { s with framebuffer := fb }
      match encodingName body with
      | some name =>
          (s.sendRect rect, some { o with drewPixels := true, pixelEncoding := some name })
      | none => (s.emitCursor shape, some { o with sawCursor := true })

def resize (s : Session) (o : UpdateOutcome) (width height : Nat) :
    Session × Option UpdateOutcome :=
  match tryResize width height s.framebuffer with
  | (.error _, fb) => ({ s with framebuffer := fb }, none)
  | (.ok _, fb) => ({ s with framebuffer := fb }, some { o with resized := some (width, height) })

def reasonThisClient : UInt16 := 1

def isDesktopResize (rectSize currentSize : Nat × Nat) (reason result : UInt16) : Bool :=
  if reason = reasonThisClient ∧ result ≠ 0 then false else rectSize ≠ currentSize

def firstScreenId (layout : List UInt8) : Option Nat :=
  match layout with
  | [] => none
  | count :: _ =>
      if count = 0 ∨ layout.length < 4 + 16 then none
      else some (((layout.drop 4).take 4).foldl (fun n b => 256 * n + b.toNat) 0)

/-- Where an ExtendedDesktopSize is seen, and what a refusal makes of the last request. -/
def noteLayout (s : Session) (layout : List UInt8) (reason result : UInt16) : Session :=
  let size := match firstScreenId layout with
    | some id => { s.desktopSize with supported := true, screenId := id }
    | none => s.desktopSize
  { s with
    desktopSize :=
      if reason = reasonThisClient ∧ result ≠ 0 then { size with requested := none } else size }

def handleRectangle (s : Session) (o : UpdateOutcome) (r : ServerRect) :
    Session × Option UpdateOutcome :=
  let s := { s with log := .rectangle r :: s.log }
  match r.content with
  | .body body => s.handleBody o r.rect body
  | .qemuKeyEvent => (s, some { o with sawQemuKeys := true })
  | .desktopSize => s.resize o r.width.toNat r.height.toNat
  | .extendedDesktopSize layout =>
      let s := s.noteLayout layout r.x r.y
      if isDesktopResize (r.width.toNat, r.height.toNat)
          (s.framebuffer.width, s.framebuffer.height) r.x r.y then
        s.resize o r.width.toNat r.height.toNat
      else (s, some o)
  | .unknown _ => (s, none)

def handleRectangles : Session → UpdateOutcome → List ServerRect → Session × Option UpdateOutcome
  | s, o, [] => (s, some o)
  | s, o, r :: rs =>
      match s.handleRectangle o r with
      | (s, some o) => handleRectangles s o rs
      | (s, none) => (s, none)

/-- What `pump` notes of an update. -/
def noteOutcome (s : Session) (o : UpdateOutcome) : Session :=
  { s with
    nudgedForPixels := if o.drewPixels then false else s.nudgedForPixels
    hasScreen := if o.drewPixels then true else s.hasScreen
    cursorSeen := if o.sawCursor then true else s.cursorSeen
    pixelEncoding := o.pixelEncoding.getD s.pixelEncoding
    qemuKeys := if o.sawQemuKeys then true else s.qemuKeys }

def continueUpdates (s : Session) (resized : Option (Nat × Nat)) : Session :=
  match resized with
  | some (width, height) =>
      let s := s.emit (.resized width height)
      let s := { s with nudgedForPixels := false, hasScreen := false }
      s.requestFullUpdate.enableContinuousUpdates
  | none =>
      if s.continuous.enabled then s
      else if !s.hasScreen ∧ !s.nudgedForPixels then
        { s with nudgedForPixels := true }.requestFullUpdate
      else s.requestIncrementalUpdate

def handleFramebufferUpdate (s : Session) (rects : List ServerRect) (complete : Bool) : Session :=
  match s.handleRectangles {} rects with
  | (s, none) => { s with ended := true }
  | (s, some o) =>
      if complete then
        (((s.noteOutcome o).continueUpdates o.resized).drainOutbound deflate).reportClipboardLoss
      else { s with ended := true }

/-! The other messages. -/

def handleCutText (s : Session) : Clipboard.Incoming → Session
  | .classic text => s.emit (.clipboard text)
  | .caps formats actions limit =>
      let extended := formats &&& Clipboard.formatText ≠ 0
      let clip := { s.clip with
        extended := extended, peerActions := actions, peerMaxUnsolicited := limit }
      if extended ∧ !clip.sentCaps then
        let s := { s with clip := { clip with sentCaps := true, pending := none } }.send
          (.clientCutTextExtended Clipboard.encodeCaps)
        match clip.pending with
        | some text => s.sendClipboardText deflate text
        | none => s
      else { s with clip := clip }
  | .provide text => s.emit (.clipboard text)
  | .notify _ => s.send (.clientCutTextExtended Clipboard.encodeRequest)
  | .request _ =>
      match s.clip.offered with
      | some text => s.sendProvide deflate text
      | none => s
  | .ignored => s

def handleEndOfContinuousUpdates (s : Session) : Session :=
  if !s.continuous.supported then
    { s with continuous := { s.continuous with supported := true } }.enableContinuousUpdates
  else if s.continuous.enabled then
    let s := { s with continuous := { s.continuous with enabled := false, area := none } }
    s.requestIncrementalUpdate
  else s

def fenceRequest : Nat := 1 <<< 31

def fenceMaxPayload : Nat := 64

def handleFence (s : Session) (flags : Nat) (payload : List UInt8) : Session :=
  if fenceMaxPayload < payload.length then { s with ended := true }
  else if flags &&& fenceRequest ≠ 0 then s.send (.clientFence 0 payload)
  else s

def reportCapabilities (s : Session) : Session :=
  let next : CapabilitiesPayload :=
    { extendedClipboard := s.clip.extended
      desktopResize := s.desktopSize.supported
      continuousUpdates := s.continuous.enabled
      cursor := s.cursorSeen
      encoding := s.pixelEncoding
      qemuKeys := s.qemuKeys
      tls := s.capabilities.tls }
  if next ≠ s.capabilities then { s with capabilities := next }.emit (.capabilities next) else s

def handleMessage (s : Session) (m : ServerMessage) : Session :=
  let s := { s with log := .message m :: s.log }
  match m with
  | .framebufferUpdate rects complete => s.handleFramebufferUpdate deflate rects complete
  | .bell => s
  | .serverCutText incoming => s.handleCutText deflate incoming
  | .setColourMapEntries => s
  | .endOfContinuousUpdates => s.handleEndOfContinuousUpdates
  | .serverFence flags payload => s.handleFence flags payload
  | .unknown _ => { s with ended := true }

/-- What `SessionHandle` puts into the queue. -/
def accepts : Outbound → Bool
  | .input batch => !batch.isEmpty
  | .desktopSize width height => width ≠ 0 ∧ height ≠ 0
  | _ => true

/-- A command arrives, a read of the next message's kind times out, a message comes, or the session
ends: the viewer closes it, or reading or writing fails. -/
inductive Event where
  | command (c : Outbound)
  | idle
  | message (m : ServerMessage)
  | stop

def step (s : Session) (event : Event) : Option Session :=
  if s.ended then none
  else
    match event with
    | .command c => some (if accepts c then { s with outbound := s.outbound ++ [c] } else s)
    | .idle => some (s.drainOutbound deflate).reportClipboardLoss
    | .message m =>
        let s := s.handleMessage deflate m
        some (if s.ended then s else s.reportCapabilities)
    | .stop => some { s with ended := true }

end

/-- From the ServerInit on: the screen is announced, and the whole of it asked for. -/
def start (width height : UInt16) (name : String) (tls : Bool) : Option Session :=
  match Framebuffer.tryNew width.toNat height.toNat with
  | .error _ => none
  | .ok fb =>
      let capabilities : CapabilitiesPayload := { tls := tls }
      let s : Session :=
        { framebuffer := fb
          capabilities := capabilities
          log := [.emitted (.connected width.toNat height.toNat name)] }
      some (s.requestFullUpdate.emit (.capabilities capabilities))

end Session

end Dolgate.Vnc
