import Dolgate.MessageBuffer
import Dolgate.Transaction
import Dolgate.Transition

set_option autoImplicit false

namespace Dolgate.Ssm
open Transaction Transition

abbrev Bytes : Type := List UInt8

structure SessionEncryption where
  kmsKeyID : String
  cipherTextBlob : Bytes
  plainTextKey : Bytes
deriving DecidableEq, Repr

structure PayloadCrypto where
  encrypt : Bytes
  decrypt : Bytes
deriving DecidableEq, Repr

inductive ActionType where
  | sessionType
  | kmsEncryption
  | other (name : String)
deriving DecidableEq, Repr

/-- `kmsKeyID` is what the action's parameters say, if they can be read. -/
structure RequestedClientAction where
  actionType : ActionType
  kmsKeyID : Option String
deriving DecidableEq, Repr

inductive ActionError where
  | parameters
  | noDataKey (kmsKeyID : String)
  | otherKey (generated required : String)
  | keyLength (length : Nat)
deriving DecidableEq, Repr

inductive ActionStatus where
  | success
  | failed (error : ActionError)
  | unsupported
deriving DecidableEq, Repr

structure ProcessedClientAction where
  actionType : ActionType
  actionStatus : ActionStatus
deriving DecidableEq, Repr

inductive Err where
  | bufferFull
  | write
  | payloadTooShort (length : Nat)
  | decrypt
  | challengeWithoutEncryption
  | challenge
  | handshakeRequest
  | kmsEncryption (status : ActionStatus)
  | unsupportedAction (action : ActionType)
  | failedAction (action : ActionType) (status : ActionStatus)
  | channelClosed
  | eof (output : Bytes)
  | unknownMessageType (messageType : MessageType)
deriving DecidableEq, Repr

/-- What `encoding/json` reads out of a payload, and AES-GCM. -/
structure Codec where
  handshakeRequest : Bytes → Option (List RequestedClientAction)
  challengeRequest : Bytes → Option Bytes
  channelClosed : Bytes → Option Bytes
  acknowledged : Bytes → Option Int
  aeadOpen : Bytes → Bytes → Bytes → Option Bytes

structure Socket where
  ack : AgentMessage → Bool
  response : AgentMessage → Bool

structure Session where
  enc : Option PayloadCrypto
  encMaterial : Option SessionEncryption
  handshakeDone : Bool
deriving DecidableEq, Repr

structure Channel where
  session : Session
  inSeqNum : Int
  inMsgBuf : Option MessageBuffer
  outMsgBuf : Option MessageBuffer

def dataChannelBufferSize : Nat := 10000

def encryptionNonceSize : Nat := 12

def openSealed (codec : Codec) (crypto : PayloadCrypto) (sealed : Bytes) : Except Err Bytes :=
  if sealed.length < encryptionNonceSize then .error (.payloadTooShort sealed.length)
  else
    match codec.aeadOpen crypto.decrypt (sealed.take encryptionNonceSize)
      (sealed.drop encryptionNonceSize) with
    | some plain => .ok plain
    | none => .error .decrypt

def isAesKey (key : Bytes) : Bool := key.length == 16 || key.length == 24 || key.length == 32

/-- The first half of the data key opens what the agent sends, the second seals what we send. -/
def newPayloadCrypto (plainTextKey : Bytes) : Except ActionError PayloadCrypto :=
  let half := plainTextKey.length / 2
  if plainTextKey.length = 0 ∨ plainTextKey.length % 2 ≠ 0 then
    .error (.keyLength plainTextKey.length)
  else if isAesKey (plainTextKey.take half) && isAesKey (plainTextKey.drop half) then
    .ok ⟨plainTextKey.drop half, plainTextKey.take half⟩
  else .error (.keyLength half)

def processKMSEncryptionAction (action : RequestedClientAction) (s : Session) :
    Except ActionError PayloadCrypto :=
  match action.kmsKeyID with
  | none => .error .parameters
  | some required =>
      match s.encMaterial with
      | none => .error (.noDataKey required)
      | some material =>
          if required ≠ "" ∧ material.kmsKeyID ≠ "" ∧ required ≠ material.kmsKeyID then
            .error (.otherKey material.kmsKeyID required)
          else newPayloadCrypto material.plainTextKey

def processAction (action : RequestedClientAction) (s : Session) :
    ProcessedClientAction × Session :=
  match action.actionType with
  | .sessionType => (⟨.sessionType, .success⟩, s)
  | .kmsEncryption =>
      match processKMSEncryptionAction action s with
      | .error e => (⟨.kmsEncryption, .failed e⟩, s)
      | .ok crypto => (⟨.kmsEncryption, .success⟩, { s with enc := some crypto })
  | .other name => (⟨.other name, .unsupported⟩, s)

def buildHandshakeResponse : List RequestedClientAction → Session →
    List ProcessedClientAction × Session
  | [], s => ([], s)
  | action :: rest, s =>
      let (processed, s) := processAction action s
      let (more, s) := buildHandshakeResponse rest s
      (processed :: more, s)

def unsupportedHandshakeError : List ProcessedClientAction → Option Err
  | [] => none
  | action :: rest =>
      if action.actionStatus = .success then unsupportedHandshakeError rest
      else if action.actionType = .kmsEncryption then some (.kmsEncryption action.actionStatus)
      else if action.actionStatus = .unsupported then some (.unsupportedAction action.actionType)
      else some (.failedAction action.actionType action.actionStatus)

/-- Answers the agent first and fails afterwards, so that it learns what was refused. -/
def processHandshakeRequest (codec : Codec) (respond : Bool) (payload : Bytes) :
    Tx Session Err Unit := do
  let actions ← take (fun _ => codec.handshakeRequest payload) .handshakeRequest
  let processed ← fun s =>
    let (processed, s') := buildHandshakeResponse actions s
    (.ok processed, s')
  require (respond = true) .write
  match unsupportedHandshakeError processed with
  | some err => fail err
  | none => pure ()

def answerEncryptionChallenge (codec : Codec) (respond : Bool) (payload : Bytes) :
    Tx Session Err Unit := do
  let crypto ← take (fun s => s.enc) .challengeWithoutEncryption
  let sealed ← take (fun _ => codec.challengeRequest payload) .challenge
  match openSealed codec crypto sealed with
  | .error err => fail err
  | .ok _ => require (respond = true) .write

def openPayload (codec : Codec) (payload : Bytes) : Tx Session Err Bytes := do
  match ← read fun s => s.enc with
  | none => pure payload
  | some crypto =>
      match openSealed codec crypto payload with
      | .error err => fail err
      | .ok plain => pure plain

def processPayload (codec : Codec) (respond : Bool) (payloadType : PayloadType)
    (payload : Bytes) : Tx Session Err Bytes :=
  match payloadType with
  | .output => openPayload codec payload
  | .stdErr => openPayload codec payload
  | .exitCode => do
      let _ ← openPayload codec payload
      pure []
  | .encChallengeRequest => do
      answerEncryptionChallenge codec respond payload
      pure []
  | .handshakeRequest => do
      processHandshakeRequest codec respond payload
      pure []
  | .handshakeComplete => do
      write fun s => { s with handshakeDone := true }
      pure []
  | _ => pure []

def onSession {α : Type} (x : Tx Session Err α) : Tx Channel Err α := fun c =>
  match x c.session with
  | (r, s) => (r, { c with session := s })

def sendAcknowledgeMessage (socket : Socket) (msg : AgentMessage) : Tx Channel Err Unit :=
  require (socket.ack msg = true) .write

def processOutputStreamMessage (codec : Codec) (socket : Socket) (msg : AgentMessage)
    (acknowledge : Bool) : Tx Channel Err Bytes := do
  let payload ← onSession
    (processPayload codec (socket.response msg) msg.payloadType msg.payload)
  if acknowledge then sendAcknowledgeMessage socket msg else pure ()
  write fun c => { c with inSeqNum := c.inSeqNum + 1 }
  pure payload

/-- Takes the messages that have become due. Every turn removes one, so the buffer's length
bounds the turns. -/
def processInboundQueue (codec : Codec) (socket : Socket) : Nat → Tx Channel Err Bytes
  | 0 => pure []
  | fuel + 1 => do
      match ← read fun c => c.inMsgBuf.bind fun b => b.get c.inSeqNum with
      | none => pure []
      | some msg =>
          let payload ← processOutputStreamMessage codec socket msg false
          write fun c => { c with inMsgBuf := c.inMsgBuf.map fun b => b.remove msg.sequenceNumber }
          let more ← processInboundQueue codec socket fuel
          pure (payload ++ more)

def acknowledgedMessageSequenceNumber (codec : Codec) (msg : AgentMessage) : Int :=
  if msg.payload = [] then msg.sequenceNumber
  else (codec.acknowledged msg.payload).getD msg.sequenceNumber

def handleMsg (codec : Codec) (socket : Socket) (m : AgentMessage) : Tx Channel Err Bytes :=
  match m.messageType with
  | .acknowledge => do
      write fun c =>
        { c with
          outMsgBuf := c.outMsgBuf.map fun b =>
            b.remove (acknowledgedMessageSequenceNumber codec m) }
      pure []
  | .pausePublication => pure []
  | .startPublication => pure []
  | .outputStreamData => do
      match ← read fun c => c.inMsgBuf with
      | none => processOutputStreamMessage codec socket m true
      | some inBuf =>
          let expectedSeq ← read fun c => c.inSeqNum
          -- an old message is acknowledged again, whether or not that write goes through
          if m.sequenceNumber < expectedSeq then pure []
          else if expectedSeq < m.sequenceNumber then
            match inBuf.add m with
            | none => fail .bufferFull
            | some added =>
                write fun c => { c with inMsgBuf := some added }
                sendAcknowledgeMessage socket m
                pure []
          else
            let payload ← processOutputStreamMessage codec socket m true
            let buffered ← processInboundQueue codec socket (inBuf.buf.length + 1)
            pure (payload ++ buffered)
  | .channelClosed =>
      match codec.channelClosed m.payload with
      | none => fail .channelClosed
      | some output => fail (.eof output)
  | messageType => fail (.unknownMessageType messageType)

theorem handleMsg_data (codec : Codec) (socket : Socket) {c : Channel} {m : AgentMessage}
    {buf : MessageBuffer} (hdata : m.messageType = .outputStreamData) (hbuf : c.inMsgBuf = some buf) :
    handleMsg codec socket m c =
      (if m.sequenceNumber < c.inSeqNum then pure []
      else if c.inSeqNum < m.sequenceNumber then
        match buf.add m with
        | none => fail .bufferFull
        | some added => do
            write fun c => { c with inMsgBuf := some added }
            sendAcknowledgeMessage socket m
            pure []
      else do
        let payload ← processOutputStreamMessage codec socket m true
        let buffered ← processInboundQueue codec socket (buf.buf.length + 1)
        pure (payload ++ buffered) : Tx Channel Err Bytes) c := by
  simp only [handleMsg, hdata, bind, Transaction.read, hbuf]

end Dolgate.Ssm
