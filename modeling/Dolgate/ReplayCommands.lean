import Dolgate.CommandBlocks
import Dolgate.FirstMatch
import Dolgate.ScreenText

set_option autoImplicit false

/-! The commands of one stream of shell markers, as the live tracker lists them and as the scan of a
recording does. The lists are newest first. `number` is what JavaScript reads a text as, if that is
a finite number. -/

namespace Dolgate.ReplayCommands

open CommandBlocks (BlockState maxBlocksPerSession)
open FirstMatch (modifyFirst)
open GroupPaths (Text)
open ScreenText

inductive Marker where
  | promptStart
  | promptEnd
  | continuation
  | reported (escaped : Text)
  | start
  | finish (code : Option Text)
deriving DecidableEq

def Marker.data : Marker → Text
  | .promptStart => units "A"
  | .promptEnd => units "B"
  | .continuation => units "B;2"
  | .reported escaped => units "E;" ++ escaped
  | .start => units "C"
  | .finish none => units "D"
  | .finish (some code) => units "D;" ++ code

/-- What reaches the live tracker: the stream's markers, and what the app puts into the input. -/
inductive Event where
  | marker (m : Marker) (screen : Screen)
  | inserted (command : Text)

def semicolon : UInt16 := 59

def classifyCommandExit : Option Rat → BlockState
  | none => .ok
  | some code =>
    if code = 0 then .ok
    else if code ∈ [130, 141, -1073741510] then .interrupted
    else .failed

structure Command where
  id : Nat
  command : Option Text
  exitCode : Option Rat := none
  state : BlockState := .running
deriving DecidableEq

def Command.isRunning (c : Command) : Bool := c.state = .running

def Command.close (exitCode : Option Rat) (c : Command) : Command :=
  { c with exitCode := exitCode, state := classifyCommandExit exitCode }

structure PendingPrompt where
  promptEndX : Nat
  continuationEndX : List (Nat × Nat)

def PendingPrompt.continued (screen : Screen) (p : PendingPrompt) : PendingPrompt :=
  { p with continuationEndX := (screen.cursorLine, screen.cursorX) :: p.continuationEndX }

/-! ### The live tracker -/

structure Block extends Command where
  commandUnreliable : Bool

def Block.finished (exitCode : Option Rat) (block : Block) : Block :=
  { block with toCommand := block.toCommand.close exitCode }

structure Session where
  seq : Nat := 0
  pendingPrompt : Option PendingPrompt := none
  reportedCommand : Option Text := none
  insertedCommand : Option Text := none
  blocks : List Block := []

def closeRunningBlock (exitCode : Option Rat) (blocks : List Block) : List Block :=
  modifyFirst (fun block => block.isRunning) (Block.finished exitCode) blocks

def notePromptCommandStart (screen : Screen) (s : Session) : Session :=
  { s with reportedCommand := none, pendingPrompt := some ⟨screen.cursorX, []⟩ }

def noteContinuationPrompt (screen : Screen) (s : Session) : Session :=
  { s with pendingPrompt := s.pendingPrompt.map (PendingPrompt.continued screen) }

def noteReportedCommand (escaped : Text) (s : Session) : Session :=
  { s with reportedCommand := some (unescapeReportedCommand escaped) }

def noteInsertedCommand (command : Text) (s : Session) : Session :=
  { s with insertedCommand := some command }

def commandText (screen : Screen) (s : Session) : Option CommandText :=
  if s.reportedCommand.any (· ≠ []) then
    s.reportedCommand.map fun reported => ⟨reported, false⟩
  else
    s.pendingPrompt.bind fun pending =>
      readCommandTextFromBuffer screen screen.promptLine pending.promptEndX screen.cursorLine
        pending.continuationEndX

def trusted (inserted : Option Text) (read : CommandText) : CommandText :=
  if read.unreliable = true ∧ inserted.any fun inserted =>
      normalizeForCompare read.text = normalizeForCompare inserted then ⟨read.text, false⟩
  else read

def openCommandBlock (screen : Screen) (s : Session) : Session :=
  let read := (commandText screen s).map (trusted s.insertedCommand)
  let block : Block :=
    { id := s.seq + 1
      command := read.map CommandText.text
      commandUnreliable := (read.map CommandText.unreliable).getD false }
  { seq := s.seq + 1
    blocks := block :: closeRunningBlock none s.blocks }

def Session.capped (s : Session) : Session :=
  { s with blocks := s.blocks.take maxBlocksPerSession }

def beginCommandBlock (screen : Screen) (s : Session) : Session :=
  (openCommandBlock screen s).capped

def finishCommandBlock (exitCode : Option Rat) (s : Session) : Session :=
  { s with blocks := closeRunningBlock exitCode s.blocks }

/-- `onShellIntegration` -/
def onShellIntegration (number : Text → Option Rat) (marker : Text) (screen : Screen)
    (s : Session) : Session :=
  if marker = units "B" then notePromptCommandStart screen s
  else if marker = units "B;2" then noteContinuationPrompt screen s
  else if units "E;" <+: marker then noteReportedCommand (marker.drop 2) s
  else if marker = units "C" then beginCommandBlock screen s
  else if marker = units "D" then finishCommandBlock (some 0) s
  else if units "D;" <+: marker then
    finishCommandBlock (number (((marker.drop 2).splitOn semicolon).headD [])) s
  else s

def Session.step (number : Text → Option Rat) (s : Session) : Event → Session
  | .marker m screen => onShellIntegration number m.data screen s
  | .inserted command => noteInsertedCommand command s

def trackCommands (number : Text → Option Rat) (events : List Event) : Session :=
  events.foldl (Session.step number) {}

/-! ### The scan -/

structure Scan where
  sequence : Nat := 0
  pendingPrompt : Option PendingPrompt := none
  reportedCommand : Option Text := none
  blocks : List Command := []

def parseExitCode (number : Text → Option Rat) (data : Text) : Option Rat :=
  if (data.splitOn semicolon).length < 2 then some 0
  else number ((data.splitOn semicolon).getD 1 [])

def scannedCommand (screen : Screen) (s : Scan) : Option Text :=
  s.reportedCommand.or
    ((s.pendingPrompt.bind fun pending =>
      if 0 ≤ screen.promptLine then
        readCommandTextFromBuffer screen screen.promptLine pending.promptEndX screen.cursorLine
          pending.continuationEndX
      else none).map CommandText.text)

def onMarker (number : Text → Option Rat) (data : Text) (screen : Screen) (s : Scan) : Scan :=
  let kind := data.take 1
  if kind = units "E" then
    { s with reportedCommand := some (unescapeReportedCommand (data.drop 2)) }
  else if units "B;2" <+: data then
    { s with pendingPrompt := s.pendingPrompt.map (PendingPrompt.continued screen) }
  else if kind = units "B" then
    { s with reportedCommand := none, pendingPrompt := some ⟨screen.cursorX, []⟩ }
  else if kind = units "C" then
    { sequence := s.sequence + 1
      blocks := { id := s.sequence + 1, command := scannedCommand screen s } :: s.blocks
      reportedCommand := none
      pendingPrompt := none }
  else if kind = units "D" then
    { s with
      blocks := modifyFirst Command.isRunning (Command.close (parseExitCode number data)) s.blocks }
  else s

def Scan.step (number : Text → Option Rat) (s : Scan) : Event → Scan
  | .marker m screen => onMarker number m.data screen s
  | .inserted _ => s

def scanReplayCommands (number : Text → Option Rat) (events : List Event) : Scan :=
  events.foldl (Scan.step number) {}

end Dolgate.ReplayCommands
