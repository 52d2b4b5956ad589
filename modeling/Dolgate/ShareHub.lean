import Dolgate.Base64
import Dolgate.Outbox
import Dolgate.Transition

set_option autoImplicit false

/-! One session share of the hub. Its state changes under the hub's lock; what a lock section has to
say to connections is written after it, by the goroutine that held the lock. -/

namespace Dolgate.SessionShare
open Transition

def maxShareReplayEntries : Nat := 1024

def maxShareReplayBytes : Int := 1048576

def maxViewerInputBytes : Nat := 65536

/-- `lineHeight` is kept by its bits. -/
structure Appearance where
  fontFamily : String
  fontSize : Int
  lineHeight : UInt64
  letterSpacing : Int
deriving DecidableEq, Repr

structure Viewport where
  width : Int
  height : Int
deriving DecidableEq, Repr

structure Layout where
  cols : Int
  rows : Int
  terminalAppearance : Appearance
  viewportPx : Option Viewport
deriving DecidableEq, Repr

/-- Connections are numbered. The share outlives its removal from the hub: goroutines hold it. -/
structure Share where
  ownerUserID : String
  viewerToken : String
  ownerToken : String
  title : String
  hostLabel : String
  transport : String
  layout : Layout
  snapshot : String
  inputEnabled : Bool
  replayLog : List String
  replayBytes : Int
  owner : Option Nat
  viewers : List Nat
deriving DecidableEq, Repr

inductive Message where
  | init (title hostLabel transport : String) (layout : Layout) (inputEnabled : Bool)
      (viewerCount : Nat)
  | snapshotInit (snapshot : String) (layout : Layout)
  | snapshotResync (snapshot : String) (layout : Layout)
  | replay (entries : List String)
  | output (data : String)
  | resize (layout : Layout)
  | inputEnabled (inputEnabled : Bool)
  | viewerCount (viewerCount : Nat)
  | shareEnded (message reason : String)
  | viewerInput (encoding data : String)
  | controlSignal (signal : String)
deriving DecidableEq, Repr

inductive OwnerMessage where
  | hello (title hostLabel transport : String) (layout : Layout) (snapshot : String)
  | output (data : String)
  | resize (layout : Layout)
  | snapshot (snapshot : String) (layout : Layout) (snapshotKind : String)
  | inputEnabled (inputEnabled : Bool)
  | sessionEnded
  | other
deriving DecidableEq, Repr

inductive ViewerMessage where
  | input (encoding data : String)
  | controlSignal (signal : String)
  | other
deriving DecidableEq, Repr

def validateViewerInputMessage (encoding data : String) : Bool :=
  if data = "" then false
  else if encoding = "binary" then
    match Base64.decode data.toList with
    | none => false
    | some payload => decide (0 < payload.length ∧ payload.length ≤ maxViewerInputBytes)
  else if encoding = "utf8" then decide (data.utf8ByteSize ≤ maxViewerInputBytes)
  else false

def isValidSessionShareControlSignal (signal : String) : Bool :=
  signal = "interrupt" || signal = "suspend" || signal = "quit"

def normalizeSessionShareTransport (transport : String) : String :=
  if transport = "aws-ssm" then "aws-ssm" else "ssh"

def shareEndedReason : String := "ended"

def shareEndedMessageFor (reason : String) : String :=
  if reason = shareEndedReason then "세션 공유가 종료되었습니다." else reason

/-- The layout of a message that takes appearance and viewport from the share when it is written. -/
def Layout.relook (layout current : Layout) : Layout :=
  { layout with
    terminalAppearance := current.terminalAppearance, viewportPx := current.viewportPx }

def Message.relook (current : Layout) : Message → Message
  | .snapshotResync snapshot layout => .snapshotResync snapshot (layout.relook current)
  | .resize layout => .resize (layout.relook current)
  | m => m

/-- What a goroutine does to a connection after the lock. `send` hands the error of a failed write
on, `write` drops it, and `late` reads appearance and viewport at the write. -/
inductive Action where
  | write (conn : Nat) (m : Message)
  | send (conn : Nat) (m : Message)
  | late (conn : Nat) (m : Message)
  | close (conn : Nat)
deriving DecidableEq, Repr

def Action.conn : Action → Nat
  | .write conn _ => conn
  | .send conn _ => conn
  | .late conn _ => conn
  | .close conn => conn

namespace Share

/-- `Create`, with the tokens it makes up. -/
def create (ownerUserID viewerToken ownerToken title hostLabel transport : String)
    (layout : Layout) (snapshot : String) : Share where
  ownerUserID := ownerUserID
  viewerToken := viewerToken
  ownerToken := ownerToken
  title := title
  hostLabel := hostLabel
  transport := normalizeSessionShareTransport transport
  layout := layout
  snapshot := snapshot
  inputEnabled := false
  replayLog := []
  replayBytes := 0
  owner := none
  viewers := []

/-- As `Create` makes it. -/
structure Fresh (share : Share) : Prop where
  inputEnabled : share.inputEnabled = false
  replayLog : share.replayLog = []
  replayBytes : share.replayBytes = 0
  owner : share.owner = none
  viewers : share.viewers = []

theorem create_fresh (ownerUserID viewerToken ownerToken title hostLabel transport : String)
    (layout : Layout) (snapshot : String) :
    Fresh (create ownerUserID viewerToken ownerToken title hostLabel transport layout snapshot) :=
  ⟨rfl, rfl, rfl, rfl, rfl⟩

variable (share : Share)

def initMessage : Message :=
  .init share.title share.hostLabel share.transport share.layout share.inputEnabled
    share.viewers.length

def toViewers (act : Nat → Action) : List Action := share.viewers.map act

def toOwner (act : Nat → Action) : List Action := (share.owner.map act).toList

def trimReplay : List String → Int → List String × Int
  | [], bytes => ([], bytes)
  | removed :: rest, bytes =>
      if maxShareReplayEntries < (removed :: rest).length ∨ maxShareReplayBytes < bytes then
        trimReplay rest (bytes - removed.utf8ByteSize)
      else (removed :: rest, bytes)

def updateHello (title hostLabel transport : String) (layout : Layout) (snapshot : String) :
    Share × List Action :=
  let share := { share with
    title := title, hostLabel := hostLabel
    transport := normalizeSessionShareTransport transport
    layout := layout, snapshot := snapshot, replayLog := [], replayBytes := 0 }
  (share, share.viewers.flatMap fun viewer =>
    .write viewer share.initMessage ::
      if snapshot = "" then [] else [.write viewer (.snapshotResync snapshot layout)])

def appendOutput (data : String) : Share × List Action :=
  let (replayLog, replayBytes) :=
    trimReplay (share.replayLog ++ [data]) (share.replayBytes + data.utf8ByteSize)
  ({ share with replayLog := replayLog, replayBytes := replayBytes },
    share.toViewers (.write · (.output data)))

def updateResize (layout : Layout) : Share × List Action :=
  ({ share with layout := layout }, share.toViewers (.late · (.resize layout)))

def updateSnapshot (snapshot : String) (layout : Layout) (snapshotKind : String) :
    Share × List Action :=
  ({ share with layout := layout, snapshot := snapshot, replayLog := [], replayBytes := 0 },
    if snapshotKind = "refresh" then []
    else share.toViewers (.late · (.snapshotResync snapshot layout)))

def setInputEnabled (inputEnabled : Bool) : Share × List Action :=
  ({ share with inputEnabled := inputEnabled },
    share.toOwner (.write · (.inputEnabled inputEnabled)) ++
      share.toViewers (.write · (.inputEnabled inputEnabled)))

def setInputEnabledForOwnerMessage (inputEnabled : Bool) : Share × List Action :=
  ({ share with inputEnabled := inputEnabled },
    share.toViewers (.write · (.inputEnabled inputEnabled)) ++
      share.toOwner (.write · (.inputEnabled inputEnabled)))

/-- What is told and closed once the share is removed, in `Delete` and in `DeleteByShareID`. -/
def ended (reason : String) : List Action :=
  let farewell := fun conn =>
    [.write conn (.shareEnded (shareEndedMessageFor reason) reason), .close conn]
  (share.owner.map farewell).getD [] ++ share.viewers.flatMap farewell

def broadcastViewerCount : List Action :=
  share.toOwner (.write · (.viewerCount share.viewers.length)) ++
    share.toViewers (.write · (.viewerCount share.viewers.length))

def join (viewer : Nat) : Share × List Action :=
  let share := { share with viewers := share.viewers ++ [viewer] }
  (share,
    .write viewer share.initMessage ::
      ((if share.snapshot = "" then [] else
          [.write viewer (.snapshotInit share.snapshot share.layout)]) ++
        if share.replayLog = [] then [] else [.write viewer (.replay share.replayLog)]))

def viewerInput (encoding data : String) : List Action :=
  if validateViewerInputMessage encoding data && share.inputEnabled then
    share.toOwner (.send · (.viewerInput encoding data))
  else []

def controlSignal (signal : String) : List Action :=
  if isValidSessionShareControlSignal signal && share.inputEnabled then
    share.toOwner (.send · (.controlSignal signal))
  else []

end Share

/-- What a goroutine still has to do: lock sections, and reads and writes without the lock. -/
inductive Op where
  | broadcastViewerCount
  | tellViewerCount (owner viewerCount : Nat)
  | greet (owner : Nat)
  | returned (set : Nat)
  | leave (viewer : Nat)
  | delete
deriving DecidableEq, Repr

inductive Role where
  | owner (conn : Nat)
  | viewer (conn : Nat)
  | request
deriving DecidableEq, Repr

/-- A goroutine. One that is `reading` is in its read loop, or gets there after `ops`. -/
structure Thread where
  role : Role
  ops : List Op
  reading : Bool
deriving DecidableEq, Repr

/-- What happens at a share: an owner's message is handled, a message is written to a connection, and
`SetInputEnabled` changes the flag for the `n`th time or returns from that. -/
inductive Seen where
  | accepted (m : OwnerMessage)
  | wrote (conn : Nat) (m : Message)
  | set (n : Nat) (inputEnabled : Bool)
  | returned (n : Nat)
deriving DecidableEq, Repr

/-- `pending` are the actions left by lock sections, in the order of these, each with its goroutine.
The hub has closed the connections in `closed`, the other side those in `dropped`. `log` is what has
happened, oldest first. -/
structure System where
  share : Share
  registered : Bool
  conns : Nat
  sets : Nat
  threads : List Thread
  pending : List (Nat × Action)
  closed : List Nat
  dropped : List Nat
  log : List Seen
deriving DecidableEq, Repr

inductive Event where
  | connectOwner (token : String)
  | connectViewer (token : String)
  | setInputEnabled (userID : String) (inputEnabled : Bool)
  | delete (userID reason : String)
  | receiveOwner (t : Nat) (m : OwnerMessage)
  | receiveViewer (t : Nat) (m : ViewerMessage)
  | hangup (t : Nat)
  | op (t : Nat)
  | perform (i : Nat)
  | drop (conn : Nat)
deriving DecidableEq, Repr

namespace System

def init (share : Share) : System := ⟨share, true, 0, 0, [], [], [], [], []⟩

def enqueue (s : System) (t : Nat) (actions : List Action) : System :=
  { s with pending := s.pending ++ actions.map fun a => (t, a) }

def setThread (s : System) (t : Nat) (thread : Thread) : System :=
  { s with threads := s.threads.set t thread }

def shut (s : System) (conn : Nat) : Bool := s.closed.contains conn || s.dropped.contains conn

def record (s : System) (e : Seen) : System := { s with log := s.log ++ [e] }

def flushed (s : System) (t : Nat) : Bool := s.pending.all fun e => e.1 ≠ t

def leaveLoop (s : System) (t : Nat) (thread : Thread) : System :=
  s.setThread t { thread with
    reading := false
    ops := thread.ops ++ match thread.role with
      | .owner _ => [.delete]
      | .viewer conn => [.leave conn, .broadcastViewerCount]
      | .request => [] }

def remove (s : System) (t : Nat) (reason : String) : System :=
  if s.registered then { s with registered := false }.enqueue t (s.share.ended reason) else s

/-- Until the read loop. The connection of an earlier owner is closed under the lock. -/
def connectOwner (s : System) (token : String) : System :=
  let conn := s.conns
  let t := s.threads.length
  if s.registered && decide (s.share.ownerToken = token) then
    enqueue { s with
      conns := conn + 1
      closed := s.share.owner.toList ++ s.closed
      share := { s.share with owner := some conn }
      threads := s.threads ++ [⟨.owner conn, [.greet conn], true⟩] } t
        [.write conn (.viewerCount s.share.viewers.length)]
  else { s with conns := conn + 1, closed := conn :: s.closed }

def connectViewer (s : System) (token : String) : System :=
  let conn := s.conns
  let t := s.threads.length
  if s.registered && decide (s.share.viewerToken = token) then
    let (share, actions) := s.share.join conn
    enqueue { s with
      conns := conn + 1
      share := share
      threads := s.threads ++ [⟨.viewer conn,
        .broadcastViewerCount ::
          (share.owner.map fun owner => Op.tellViewerCount owner share.viewers.length).toList,
        true⟩] } t actions
  else { s with conns := conn + 1, closed := conn :: s.closed }

/-- `SetInputEnabled` returns when all is written. -/
def setInputEnabled (s : System) (userID : String) (inputEnabled : Bool) : System :=
  if s.registered && decide (s.share.ownerUserID = userID) then
    let (share, actions) := s.share.setInputEnabled inputEnabled
    (enqueue { s with
      share := share
      sets := s.sets + 1
      threads := s.threads ++ [⟨.request, [.returned s.sets], false⟩] } s.threads.length
        actions).record (.set s.sets inputEnabled)
  else s

def delete (s : System) (userID reason : String) : System :=
  if s.share.ownerUserID = userID then
    remove { s with threads := s.threads ++ [⟨.request, [], false⟩] } s.threads.length reason
  else s

def changed (s : System) (t : Nat) (m : OwnerMessage) (r : Share × List Action) : System :=
  ({ s with share := r.1 }.enqueue t r.2).record (.accepted m)

/-- `handleOwnerPayload`. A share that is gone is an error, which ends the read loop. -/
def handleOwnerPayload (s : System) (t : Nat) (thread : Thread) (m : OwnerMessage) : System :=
  match m with
  | .sessionEnded => s.remove t shareEndedReason
  | .other => s
  | _ =>
    if s.registered then
      match m with
      | .hello title hostLabel transport layout snapshot =>
        s.changed t m (s.share.updateHello title hostLabel transport layout snapshot)
      | .output data => s.changed t m (s.share.appendOutput data)
      | .resize layout => s.changed t m (s.share.updateResize layout)
      | .snapshot snapshot layout snapshotKind =>
        s.changed t m (s.share.updateSnapshot snapshot layout snapshotKind)
      | .inputEnabled inputEnabled =>
        ((({ s with sets := s.sets + 1 }.setThread t { thread with ops := [.returned s.sets] }).changed
          t m (s.share.setInputEnabledForOwnerMessage inputEnabled)).record
            (.set s.sets inputEnabled))
      | _ => s
    else s.leaveLoop t thread

section OwnerPayload

variable (s : System) (t : Nat) (thread : Thread)

theorem handleOwnerPayload_hello (title hostLabel transport : String) (layout : Layout)
    (snapshot : String) :
    s.handleOwnerPayload t thread (.hello title hostLabel transport layout snapshot) =
      if s.registered then
        s.changed t (.hello title hostLabel transport layout snapshot)
          (s.share.updateHello title hostLabel transport layout snapshot)
      else s.leaveLoop t thread := rfl

theorem handleOwnerPayload_output (data : String) :
    s.handleOwnerPayload t thread (.output data) =
      if s.registered then s.changed t (.output data) (s.share.appendOutput data)
      else s.leaveLoop t thread := rfl

theorem handleOwnerPayload_resize (layout : Layout) :
    s.handleOwnerPayload t thread (.resize layout) =
      if s.registered then s.changed t (.resize layout) (s.share.updateResize layout)
      else s.leaveLoop t thread := rfl

theorem handleOwnerPayload_snapshot (snapshot : String) (layout : Layout) (kind : String) :
    s.handleOwnerPayload t thread (.snapshot snapshot layout kind) =
      if s.registered then
        s.changed t (.snapshot snapshot layout kind) (s.share.updateSnapshot snapshot layout kind)
      else s.leaveLoop t thread := rfl

theorem handleOwnerPayload_inputEnabled (b : Bool) :
    s.handleOwnerPayload t thread (.inputEnabled b) =
      if s.registered then
        (({ s with sets := s.sets + 1 }.setThread t { thread with ops := [.returned s.sets] }).changed
          t (.inputEnabled b) (s.share.setInputEnabledForOwnerMessage b)).record (.set s.sets b)
      else s.leaveLoop t thread := rfl

end OwnerPayload

def handleViewerPayload (s : System) (t : Nat) (thread : Thread) (m : ViewerMessage) : System :=
  match m with
  | .input encoding data =>
    if s.registered then s.enqueue t (s.share.viewerInput encoding data)
    else if validateViewerInputMessage encoding data then s.leaveLoop t thread
    else s
  | .controlSignal signal =>
    if s.registered then s.enqueue t (s.share.controlSignal signal)
    else if isValidSessionShareControlSignal signal then s.leaveLoop t thread
    else s
  | .other => s

def runOp (s : System) (t : Nat) : Op → System
  | .broadcastViewerCount =>
      if s.registered then s.enqueue t s.share.broadcastViewerCount else s
  | .tellViewerCount owner viewerCount => s.enqueue t [.write owner (.viewerCount viewerCount)]
  | .greet owner => s.enqueue t [.write owner (.inputEnabled s.share.inputEnabled)]
  | .returned n => s.record (.returned n)
  | .leave viewer =>
      if s.registered then
        { s with share := { s.share with viewers := s.share.viewers.filter (· ≠ viewer) } }.enqueue t
          [.close viewer]
      else s.enqueue t [.close viewer]
  | .delete => s.remove t shareEndedReason

def act (s : System) (t : Nat) : Action → System
  | .write conn m => if s.shut conn then s else s.record (.wrote conn m)
  | .late conn m =>
      if s.shut conn then s else s.record (.wrote conn (m.relook s.share.layout))
  | .send conn m =>
      if s.shut conn then
        match s.threads[t]? with
        | none => s
        | some thread => s.leaveLoop t thread
      else s.record (.wrote conn m)
  | .close conn => { s with closed := conn :: s.closed }

/-- The read loops take a message when all is written that the one before has left. The actions of a
goroutine for one connection keep their order; a `range` over the viewers goes in any. -/
def step (s : System) : Event → Option System
  | .connectOwner token => some (s.connectOwner token)
  | .connectViewer token => some (s.connectViewer token)
  | .setInputEnabled userID inputEnabled => some (s.setInputEnabled userID inputEnabled)
  | .delete userID reason => some (s.delete userID reason)
  | .receiveOwner t m => do
      let thread ← s.threads[t]?
      match thread with
      | ⟨.owner _, [], true⟩ =>
        if s.flushed t then some (s.handleOwnerPayload t thread m) else none
      | _ => none
  | .receiveViewer t m => do
      let thread ← s.threads[t]?
      match thread with
      | ⟨.viewer _, [], true⟩ =>
        if s.flushed t then some (s.handleViewerPayload t thread m) else none
      | _ => none
  | .hangup t => do
      let thread ← s.threads[t]?
      match thread with
      | ⟨_, [], true⟩ => if s.flushed t then some (s.leaveLoop t thread) else none
      | _ => none
  | .op t => do
      let thread ← s.threads[t]?
      match thread.ops with
      | [] => none
      | op :: ops =>
        if s.flushed t then some ((s.setThread t { thread with ops := ops }).runOp t op) else none
  | .perform i => do
      let (t, a) ← s.pending[i]?
      if (s.pending.take i).any fun e => e.1 = t && e.2.conn = a.conn then none
      else some ({ s with pending := s.pending.eraseIdx i }.act t a)
  | .drop conn => if conn < s.conns then some { s with dropped := conn :: s.dropped } else none

section
variable (s : System) (t : Nat) (actions : List Action) (thread : Thread) (e : Seen)

@[simp] theorem enqueue_share : (s.enqueue t actions).share = s.share := rfl

@[simp] theorem enqueue_registered : (s.enqueue t actions).registered = s.registered := rfl

@[simp] theorem enqueue_threads : (s.enqueue t actions).threads = s.threads := rfl

@[simp] theorem enqueue_pending :
    (s.enqueue t actions).pending = s.pending ++ actions.map fun a => (t, a) := rfl

@[simp] theorem enqueue_log : (s.enqueue t actions).log = s.log := rfl

@[simp] theorem record_share : (s.record e).share = s.share := rfl

@[simp] theorem record_registered : (s.record e).registered = s.registered := rfl

@[simp] theorem record_threads : (s.record e).threads = s.threads := rfl

@[simp] theorem record_pending : (s.record e).pending = s.pending := rfl

@[simp] theorem record_log : (s.record e).log = s.log ++ [e] := rfl

@[simp] theorem setThread_share : (s.setThread t thread).share = s.share := rfl

@[simp] theorem setThread_registered : (s.setThread t thread).registered = s.registered := rfl

@[simp] theorem setThread_pending : (s.setThread t thread).pending = s.pending := rfl

@[simp] theorem setThread_log : (s.setThread t thread).log = s.log := rfl

@[simp] theorem leaveLoop_share : (s.leaveLoop t thread).share = s.share := rfl

@[simp] theorem leaveLoop_registered : (s.leaveLoop t thread).registered = s.registered := rfl

@[simp] theorem leaveLoop_pending : (s.leaveLoop t thread).pending = s.pending := rfl

@[simp] theorem leaveLoop_log : (s.leaveLoop t thread).log = s.log := rfl

end

end System

end Dolgate.SessionShare
