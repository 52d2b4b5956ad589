import Mathlib
import Dolgate.DataChannel
import Dolgate.GoBytes

set_option autoImplicit false

namespace Dolgate.Ssm
open Transition GoBytes

def MessageType.bytes : MessageType → Bytes
  | .acknowledge => ascii "acknowledge"
  | .channelClosed => ascii "channel_closed"
  | .outputStreamData => ascii "output_stream_data"
  | .inputStreamData => ascii "input_stream_data"
  | .pausePublication => ascii "pause_publication"
  | .startPublication => ascii "start_publication"
  | .other name => name.toUTF8.data.toList

def PayloadType.code : PayloadType → Nat
  | .undefined => 0
  | .output => 1
  | .error => 2
  | .size => 3
  | .parameter => 4
  | .handshakeRequest => 5
  | .handshakeResponse => 6
  | .handshakeComplete => 7
  | .encChallengeRequest => 8
  | .encChallengeResponse => 9
  | .flag => 10
  | .stdErr => 11
  | .exitCode => 12
  | .unknown code => code

structure Slice where
  array : Nat
  length : Nat
deriving DecidableEq, Repr

/-- The fields of an outgoing message beside those of `AgentMessage`, and the slice that its
payload is. `createdDate` is in nanoseconds and `none` is the zero time. -/
structure Envelope where
  headerLength : Nat
  schemaVersion : Nat
  createdDate : Option Int
  flags : Nat
  payload : Slice
deriving DecidableEq, Repr

def agentMsgHeaderLen : Nat := 116

def validateMessage (env : Envelope) (msg : AgentMessage) : Bool :=
  env.headerLength ≤ agentMsgHeaderLen && agentMsgHeaderLen - 4 ≤ env.headerLength &&
    1 ≤ env.schemaVersion && 10 ≤ msg.messageType.bytes.length && env.createdDate.isSome &&
    msg.messageID.length == 16 && msg.payload.length == msg.payload.length % 2 ^ 32

def bigEndian (width : Nat) (n : Int) : Bytes :=
  (List.range width).reverse.map fun i => UInt8.ofNat ((n / 256 ^ i) % 256).toNat

def convertMessageType (messageType : MessageType) : Bytes :=
  (messageType.bytes ++ List.replicate (32 - messageType.bytes.length) 32).take 32

def formatUUIDBytes (data : Bytes) : Bytes := data.drop 8 ++ data.take 8

section Marshal

variable (sha256 : Bytes → Bytes)

def marshalBinary (env : Envelope) (msg : AgentMessage) : Option Bytes :=
  if validateMessage env msg then
    some (bigEndian 4 env.headerLength ++ convertMessageType msg.messageType ++
      bigEndian 4 env.schemaVersion ++ bigEndian 8 ((env.createdDate.getD 0).tdiv 1000000) ++
      bigEndian 8 msg.sequenceNumber ++ bigEndian 8 env.flags ++ formatUUIDBytes msg.messageID ++
      sha256 msg.payload ++ bigEndian 4 msg.payloadType.code ++ bigEndian 4 msg.payload.length ++
      msg.payload)
  else none

/-- What is written to the socket, with the stream number of a message that has one. -/
structure Frame where
  stream : Option Int
  bytes : Bytes
deriving DecidableEq, Repr

/-- Where the loop of `processOutboundQueue` stands. -/
inductive Resender where
  | ticking
  | chosen (msg : AgentMessage)
  | marshalled (frame : Frame)
  | stopped
deriving DecidableEq, Repr

/-- The sending side of a channel. The messages of the buffer show their payload as it was when
they were added; what they refer to is in `memory`. `assigned`, `acknowledged` and `wire` record
the past. -/
structure Outbound where
  seqNum : Int
  outMsgBuf : MessageBuffer
  outSentAt : Int → Option Int
  outAttempts : Int → Nat
  envelopes : Int → Envelope
  memory : Nat → Bytes
  waiting : List (AgentMessage × Bytes)
  sending : List Frame
  resender : Resender
  assigned : List Int
  acknowledged : List Int
  wire : List Frame

namespace Outbound

def opened (size : Nat) (memory : Nat → Bytes) : Outbound where
  seqNum := 0
  outMsgBuf := .new size
  outSentAt _ := none
  outAttempts _ := 0
  envelopes _ := ⟨0, 0, none, 0, ⟨0, 0⟩⟩
  memory := memory
  waiting := []
  sending := []
  resender := .ticking
  assigned := []
  acknowledged := []
  wire := []

def read (s : Outbound) (slice : Slice) : Bytes := (s.memory slice.array).take slice.length

def current (s : Outbound) (msg : AgentMessage) : AgentMessage :=
  { msg with payload := s.read (s.envelopes msg.sequenceNumber).payload }

/-- One pass of the loop around `Add` in `WriteMsg`: the message is buffered and on its way to the
socket, or its writer waits. -/
def addOutbound (s : Outbound) (now : Int) (msg : AgentMessage) (data : Bytes) : Outbound :=
  match s.outMsgBuf.add msg with
  | some buf =>
      { s with
        outMsgBuf := buf
        outSentAt := Function.update s.outSentAt msg.sequenceNumber (some now)
        outAttempts := Function.update s.outAttempts msg.sequenceNumber 0
        sending := s.sending ++ [⟨some msg.sequenceNumber, data⟩] }
  | none => { s with waiting := s.waiting ++ [(msg, data)] }

def writeMsg (s : Outbound) (now : Int) (msg : AgentMessage) (env : Envelope) : Outbound :=
  let mirrorsPeerSeq := msg.messageType = .acknowledge
  let msg := { msg with payload := s.read env.payload }
  if mirrorsPeerSeq then
    match marshalBinary sha256 env msg with
    | none => s
    | some data => { s with sending := s.sending ++ [⟨none, data⟩] }
  else
    let msg := { msg with sequenceNumber := s.seqNum }
    let s :=
      { s with
        seqNum := s.seqNum + 1
        envelopes := Function.update s.envelopes s.seqNum env
        assigned := s.assigned ++ [s.seqNum] }
    match marshalBinary sha256 env msg with
    | none => s
    | some data => s.addOutbound now msg data

def removeOutboundTracking (s : Outbound) (seqNum : Int) : Outbound :=
  { s with
    outMsgBuf := s.outMsgBuf.remove seqNum
    outSentAt := Function.update s.outSentAt seqNum none
    outAttempts := Function.update s.outAttempts seqNum 0 }

def acknowledge (s : Outbound) (seqNum : Int) : Outbound :=
  { s.removeOutboundTracking seqNum with
    acknowledged :=
      if (s.outMsgBuf.get seqNum).isSome then s.acknowledged ++ [seqNum] else s.acknowledged }

def dataChannelRetransmitAfter : Int := 1000

def dataChannelResendMaxAttempts : Nat := 300

def processTick (s : Outbound) (now : Int) : Outbound :=
  match s.outMsgBuf.oldest with
  | none => s
  | some msg =>
      match s.outSentAt msg.sequenceNumber with
      | none => s
      | some sentAt =>
          if now - sentAt < dataChannelRetransmitAfter then s
          else if dataChannelResendMaxAttempts ≤ s.outAttempts msg.sequenceNumber then
            { s with resender := .stopped }
          else
            { s with
              outAttempts := Function.update s.outAttempts msg.sequenceNumber
                (s.outAttempts msg.sequenceNumber + 1)
              outSentAt := Function.update s.outSentAt msg.sequenceNumber (some now)
              resender := .chosen msg }

/-- The first half of `resendMsg`. -/
def resendMsg (s : Outbound) (msg : AgentMessage) : Outbound :=
  match marshalBinary sha256 (s.envelopes msg.sequenceNumber) (s.current msg) with
  | none => { s with resender := .stopped }
  | some data => { s with resender := .marshalled ⟨some msg.sequenceNumber, data⟩ }

inductive Event where
  | writeMsg (now : Int) (msg : AgentMessage) (env : Envelope)
  | retry (now : Int) (writer : Nat)
  | send (writer : Nat)
  | acknowledge (seqNum : Int)
  | tick (now : Int)
  | resend
  | sendAgain
  | overwrite (array : Nat) (bytes : Bytes)
deriving DecidableEq, Repr

def step (s : Outbound) : Event → Option Outbound
  | .writeMsg now msg env => some (s.writeMsg sha256 now msg env)
  | .retry now writer =>
      s.waiting[writer]?.map fun (msg, data) =>
        { s with waiting := s.waiting.eraseIdx writer }.addOutbound now msg data
  | .send writer =>
      s.sending[writer]?.map fun frame =>
        { s with sending := s.sending.eraseIdx writer, wire := s.wire ++ [frame] }
  | .acknowledge seqNum => some (s.acknowledge seqNum)
  | .tick now =>
      match s.resender with
      | .ticking => some (s.processTick now)
      | _ => none
  | .resend =>
      match s.resender with
      | .chosen msg => some (s.resendMsg sha256 msg)
      | _ => none
  | .sendAgain =>
      match s.resender with
      | .marshalled frame => some { s with resender := .ticking, wire := s.wire ++ [frame] }
      | _ => none
  | .overwrite array bytes => some { s with memory := Function.update s.memory array bytes }

structure Reliable (s : Outbound) : Prop where
  numbered : s.assigned = (List.range s.assigned.length).map fun n : Nat => (n : Int)
  next : s.seqNum = s.assigned.length
  tracked : ∀ n ∈ s.assigned, n ∉ s.acknowledged →
    (s.outMsgBuf.get n).isSome ∨ ∃ w ∈ s.waiting, w.1.sequenceNumber = n
  repeats : ∀ f ∈ s.wire, ∀ g ∈ s.wire, f.stream.isSome → f.stream = g.stream → f.bytes = g.bytes

def SmallestUnacknowledged (s : Outbound) (n : Int) : Prop :=
  n ∈ s.assigned ∧ n ∉ s.acknowledged ∧ ∀ k ∈ s.assigned, k ∉ s.acknowledged → n ≤ k

def Retains (s : Outbound) (n : Int) : Prop :=
  (s.outMsgBuf.get n).isSome ∨ (∃ w ∈ s.waiting, w.1.sequenceNumber = n) ∨
    ∃ msg, s.resender = .chosen msg ∧ msg.sequenceNumber = n

/-- Messages are valid, no array is written to while a message lies in it, and the resender finds
no number in the buffer that has overtaken a waiting one. -/
def Undisturbed (s : Outbound) : Event → Prop
  | .writeMsg _ msg env =>
      msg.messageType = .acknowledge ∨ validateMessage env { msg with payload := s.read env.payload }
  | .overwrite array _ => ∀ n, s.Retains n → (s.envelopes n).payload.array ≠ array
  | .tick _ => ∀ msg, s.outMsgBuf.oldest = some msg →
      ∀ w ∈ s.waiting, msg.sequenceNumber < w.1.sequenceNumber
  | _ => True

def Holds (s : Outbound) (msg : AgentMessage) : Prop :=
  s.outMsgBuf.get msg.sequenceNumber = some msg ∨ (∃ data, (msg, data) ∈ s.waiting) ∨
    s.resender = .chosen msg

def Sends (s : Outbound) (f : Frame) : Prop :=
  f ∈ s.sending ∨ f ∈ s.wire ∨ s.resender = .marshalled f

/-- Every number is tracked in one place, and stands for the bytes that `first` gives it. -/
structure Coherent (first : Int → Bytes) (s : Outbound) : Prop where
  numbered : s.assigned = (List.range s.assigned.length).map fun n : Nat => (n : Int)
  next : s.seqNum = s.assigned.length
  valid : s.outMsgBuf.Valid
  ordered : s.outMsgBuf.Ordered
  tracked : ∀ n ∈ s.assigned, n ∉ s.acknowledged →
    (s.outMsgBuf.get n).isSome ∨ ∃ w ∈ s.waiting, w.1.sequenceNumber = n
  buffered : ∀ n, (s.outMsgBuf.get n).isSome →
    n ∉ s.acknowledged ∧ ∀ w ∈ s.waiting, w.1.sequenceNumber ≠ n
  waits : ∀ w ∈ s.waiting, w.1.sequenceNumber ∉ s.acknowledged ∧ w.2 = first w.1.sequenceNumber
  distinct : (s.waiting.map fun w => w.1.sequenceNumber).Nodup
  acknowledged : ∀ n ∈ s.acknowledged, n ∈ s.assigned
  holds : ∀ msg, s.Holds msg → msg.sequenceNumber ∈ s.assigned ∧
    marshalBinary sha256 (s.envelopes msg.sequenceNumber) (s.current msg) =
      some (first msg.sequenceNumber)
  sends : ∀ f, s.Sends f → ∀ n, f.stream = some n → n ∈ s.assigned ∧ f.bytes = first n

variable {sha256} {s t : Outbound} {first : Int → Bytes}

theorem Coherent.lt_seqNum (h : Coherent sha256 first s) {n : Int} (hn : n ∈ s.assigned) :
    n < s.seqNum := by
  rw [h.numbered, List.mem_map] at hn
  obtain ⟨k, hk, rfl⟩ := hn
  have := List.mem_range.mp hk
  rw [h.next]
  omega

theorem Coherent.reliable (h : Coherent sha256 first s) : s.Reliable where
  numbered := h.numbered
  next := h.next
  tracked := h.tracked
  repeats f hf g hg hsome heq := by
    obtain ⟨n, hn⟩ := Option.isSome_iff_exists.mp hsome
    rw [(h.sends f (.inr (.inl hf)) n hn).2, (h.sends g (.inr (.inl hg)) n (heq ▸ hn)).2]

theorem Coherent.smallest (h : Coherent sha256 first s) {msg : AgentMessage}
    (ho : s.outMsgBuf.oldest = some msg)
    (hw : ∀ w ∈ s.waiting, msg.sequenceNumber < w.1.sequenceNumber) :
    s.SmallestUnacknowledged msg.sequenceNumber := by
  obtain ⟨e, he, rfl⟩ := MessageBuffer.oldest_mem ho
  have hget : s.outMsgBuf.get e.value.sequenceNumber = some e.value :=
    h.valid.get_eq.mpr ⟨e, he, rfl, rfl⟩
  refine ⟨(h.holds e.value (.inl hget)).1, (h.buffered _ (by simp [hget])).1, fun k hk hack => ?_⟩
  rcases h.tracked k hk hack with hsome | ⟨w, hmem, rfl⟩
  · obtain ⟨x, hx⟩ := Option.isSome_iff_exists.mp hsome
    obtain ⟨e', he', rfl, rfl⟩ := h.valid.get_eq.mp hx
    exact h.ordered.oldest_le ho he'
  · exact (hw w hmem).le

theorem coherent_opened (size : Nat) (memory : Nat → Bytes) :
    Coherent sha256 first (opened size memory) where
  numbered := rfl
  next := rfl
  valid := MessageBuffer.valid_new size
  ordered := List.Pairwise.nil
  tracked := nofun
  buffered n h := by simp [opened, MessageBuffer.get, MessageBuffer.new] at h
  waits := nofun
  distinct := List.nodup_nil
  acknowledged := nofun
  holds msg h := by simp [Holds, opened, MessageBuffer.get, MessageBuffer.new] at h
  sends f h := by simp [Sends, opened] at h

theorem Coherent.overwrite (h : Coherent sha256 first s) {array : Nat} (bytes : Bytes)
    (hfree : ∀ n, s.Retains n → (s.envelopes n).payload.array ≠ array) :
    Coherent sha256 first { s with memory := Function.update s.memory array bytes } :=
  { h with
    holds := fun msg hm => by
      obtain ⟨hassigned, hmarshal⟩ := h.holds msg hm
      have hretained : s.Retains msg.sequenceNumber := by
        rcases hm with hm | ⟨data, hm⟩ | hm
        · exact .inl (by rw [hm]; rfl)
        · exact .inr (.inl ⟨_, hm, rfl⟩)
        · exact .inr (.inr ⟨msg, hm, rfl⟩)
      refine ⟨hassigned, ?_⟩
      simp only [current, read, Function.update_of_ne (hfree _ hretained)]
      exact hmarshal }

theorem Coherent.sendAcknowledge (h : Coherent sha256 first s) (data : Bytes) :
    Coherent sha256 first { s with sending := s.sending ++ [⟨none, data⟩] } :=
  { h with
    sends := fun f hf n hn => by
      refine h.sends f ?_ n hn
      rcases hf with hf | hf
      · rcases List.mem_append.mp hf with hf | hf
        · exact .inl hf
        · cases List.mem_singleton.mp hf
          cases hn
      · exact .inr hf }

theorem Coherent.assign (h : Coherent sha256 first s) {msg : AgentMessage} {env : Envelope}
    {data : Bytes} (hseq : msg.sequenceNumber = s.seqNum)
    (hpayload : msg.payload = s.read env.payload)
    (hdata : marshalBinary sha256 env msg = some data) :
    Coherent sha256 (Function.update first s.seqNum data)
      { s with
        seqNum := s.seqNum + 1
        envelopes := Function.update s.envelopes s.seqNum env
        assigned := s.assigned ++ [s.seqNum]
        waiting := (msg, data) :: s.waiting } := by
  have hold : ∀ n ∈ s.assigned, n ≠ s.seqNum := fun n hn => (h.lt_seqNum hn).ne
  have hheld : ∀ msg, s.Holds msg → msg.sequenceNumber ≠ s.seqNum :=
    fun msg hm => hold _ (h.holds msg hm).1
  have hwait : ∀ w ∈ s.waiting, w.1.sequenceNumber ≠ s.seqNum :=
    fun w hw => hheld w.1 (.inr (.inl ⟨w.2, hw⟩))
  refine
    { numbered := ?_, next := ?_, valid := h.valid, ordered := h.ordered, tracked := ?_,
      buffered := ?_, waits := ?_, distinct := ?_, acknowledged := ?_, holds := ?_, sends := ?_ }
  · simp only [List.length_append, List.length_singleton, List.range_succ, List.map_append,
      List.map_singleton, ← h.numbered, h.next]
  · simp [h.next]
  · intro n hn hack
    rcases List.mem_append.mp hn with hn | hn
    · rcases h.tracked n hn hack with hb | ⟨w, hw, rfl⟩
      · exact .inl hb
      · exact .inr ⟨w, List.mem_cons_of_mem _ hw, rfl⟩
    · cases List.mem_singleton.mp hn
      exact .inr ⟨_, List.mem_cons_self, hseq⟩
  · intro n hn
    obtain ⟨hack, hw⟩ := h.buffered n hn
    obtain ⟨x, hx⟩ := Option.isSome_iff_exists.mp hn
    obtain ⟨e, he, rfl, rfl⟩ := h.valid.get_eq.mp hx
    refine ⟨hack, fun w hmem => ?_⟩
    rcases List.mem_cons.mp hmem with rfl | hmem
    · rw [hseq]
      exact (hheld e.value (.inl hx)).symm
    · exact hw w hmem
  · intro w hmem
    rcases List.mem_cons.mp hmem with rfl | hmem
    · refine ⟨fun hack => hold _ (h.acknowledged _ hack) hseq, ?_⟩
      rw [hseq, Function.update_self]
    · rw [Function.update_of_ne (hwait w hmem)]
      exact h.waits w hmem
  · refine List.nodup_cons.mpr ⟨fun hmem => ?_, h.distinct⟩
    obtain ⟨w, hw, hws⟩ := List.mem_map.mp hmem
    exact hwait w hw (hws.trans hseq)
  · exact fun n hn => List.mem_append_left _ (h.acknowledged n hn)
  · intro m hm
    have hcases : m = msg ∨ s.Holds m := by
      rcases hm with hm | ⟨d, hm⟩ | hm
      · exact .inr (.inl hm)
      · rcases List.mem_cons.mp hm with hm | hm
        · cases hm
          exact .inl rfl
        · exact .inr (.inr (.inl ⟨d, hm⟩))
      · exact .inr (.inr (.inr hm))
    rcases hcases with rfl | hm
    · refine ⟨by simp [hseq], ?_⟩
      simp only [current, read, hseq, Function.update_self]
      rw [← hdata]
      congr 1
      cases m
      simp_all [read]
    · obtain ⟨hassigned, hmarshal⟩ := h.holds m hm
      refine ⟨List.mem_append_left _ hassigned, ?_⟩
      simp only [current, read, Function.update_of_ne (hheld m hm)]
      exact hmarshal
  · intro f hf n hn
    obtain ⟨hassigned, hbytes⟩ := h.sends f hf n hn
    rw [Function.update_of_ne (hold n hassigned)]
    exact ⟨List.mem_append_left _ hassigned, hbytes⟩

theorem Coherent.perm (h : Coherent sha256 first s) {ws : List (AgentMessage × Bytes)}
    (hp : s.waiting.Perm ws) : Coherent sha256 first { s with waiting := ws } :=
  { h with
    tracked := fun n hn hack => (h.tracked n hn hack).imp_right fun ⟨w, hw, hs⟩ =>
      ⟨w, hp.mem_iff.mp hw, hs⟩
    buffered := fun n hn => ⟨(h.buffered n hn).1, fun w hw =>
      (h.buffered n hn).2 w (hp.mem_iff.mpr hw)⟩
    waits := fun w hw => h.waits w (hp.mem_iff.mpr hw)
    distinct := ((hp.map _).nodup_iff).mp h.distinct
    holds := fun msg hm => h.holds msg (hm.imp_right fun hm => hm.imp_left fun ⟨d, hd⟩ =>
      ⟨d, hp.mem_iff.mpr hd⟩) }

theorem Coherent.addOutbound {msg : AgentMessage} {data : Bytes}
    (h : Coherent sha256 first { s with waiting := (msg, data) :: s.waiting }) (now : Int) :
    Coherent sha256 first (s.addOutbound now msg data) := by
  have hmine := h.waits (msg, data) List.mem_cons_self
  have hothers := List.nodup_cons.mp h.distinct
  have hfree : s.outMsgBuf.get msg.sequenceNumber = none := by
    cases hget : s.outMsgBuf.get msg.sequenceNumber with
    | none => rfl
    | some x =>
        have := (h.buffered msg.sequenceNumber (by simp [hget])).2 (msg, data) List.mem_cons_self
        exact absurd rfl this
  unfold Outbound.addOutbound
  cases hadd : s.outMsgBuf.add msg with
  | none => exact h.perm ( List.perm_append_singleton _ _).symm
  | some buf =>
      have hget := fun n => h.valid.get_add (n := n) hadd
      refine
        { numbered := h.numbered, next := h.next, valid := h.valid.add hadd,
          ordered := h.ordered.add_new (h.valid.get_none.mp hfree) hadd, tracked := ?_,
          buffered := ?_, waits := fun w hw => h.waits w (List.mem_cons_of_mem _ hw),
          distinct := hothers.2, acknowledged := h.acknowledged, holds := ?_, sends := ?_ }
      · intro n hn hack
        simp only [hget]
        rcases h.tracked n hn hack with hb | ⟨w, hw, rfl⟩
        · refine .inl ?_
          split
          · rfl
          · exact hb
        · rcases List.mem_cons.mp hw with rfl | hw
          · exact .inl (by simp)
          · exact .inr ⟨w, hw, rfl⟩
      · intro n hn
        simp only [hget] at hn
        split at hn
        · rename_i hs
          subst hs
          exact ⟨hmine.1, fun w hw hs => hothers.1 (List.mem_map.mpr ⟨w, hw, hs⟩)⟩
        · obtain ⟨hack, hw⟩ := h.buffered n hn
          exact ⟨hack, fun w hmem => hw w (List.mem_cons_of_mem _ hmem)⟩
      · intro m hm
        refine h.holds m ?_
        rcases hm with hm | ⟨d, hm⟩ | hm
        · simp only [hget] at hm
          split at hm
          · cases hm
            exact .inr (.inl ⟨data, List.mem_cons_self⟩)
          · exact .inl hm
        · exact .inr (.inl ⟨d, List.mem_cons_of_mem _ hm⟩)
        · exact .inr (.inr hm)
      · intro f hf n hn
        have hcases : f = ⟨some msg.sequenceNumber, data⟩ ∨ s.Sends f := by
          rcases hf with hf | hf
          · rcases List.mem_append.mp hf with hf | hf
            · exact .inr (.inl hf)
            · exact .inl (List.mem_singleton.mp hf)
          · exact .inr (.inr hf)
        rcases hcases with rfl | hf
        · cases hn
          exact ⟨(h.holds msg (.inr (.inl ⟨data, List.mem_cons_self⟩))).1, hmine.2⟩
        · exact h.sends f hf n hn

theorem Coherent.acknowledge (h : Coherent sha256 first s) (n : Int) :
    Coherent sha256 first (s.acknowledge n) := by
  have hget := fun k => h.valid.get_remove n k
  have hacked : ∀ k, k ∈ (s.acknowledge n).acknowledged ↔
      k ∈ s.acknowledged ∨ (k = n ∧ (s.outMsgBuf.get n).isSome) := by
    intro k
    simp only [Outbound.acknowledge]
    split
    · simp_all
    · simp_all
  refine
    { numbered := h.numbered, next := h.next, valid := h.valid.remove n,
      ordered := h.ordered.remove n, tracked := ?_, buffered := ?_, waits := ?_,
      distinct := h.distinct, acknowledged := ?_, holds := ?_, sends := h.sends }
  · intro k hk hack
    rw [hacked, not_or] at hack
    rcases h.tracked k hk hack.1 with hb | hw
    · refine .inl ?_
      simp only [Outbound.acknowledge, removeOutboundTracking, hget]
      rw [if_neg]
      · exact hb
      · rintro rfl
        exact hack.2 ⟨rfl, hb⟩
    · exact .inr hw
  · intro k hk
    simp only [Outbound.acknowledge, removeOutboundTracking, hget] at hk
    split at hk
    · cases hk
    · rename_i hne
      obtain ⟨hack, hw⟩ := h.buffered k hk
      refine ⟨?_, hw⟩
      rw [hacked, not_or]
      exact ⟨hack, fun hk' => hne hk'.1⟩
  · intro w hw
    refine ⟨?_, (h.waits w hw).2⟩
    rw [hacked, not_or]
    exact ⟨(h.waits w hw).1, fun hn => (h.buffered n hn.2).2 w hw hn.1⟩
  · intro k hk
    rcases (hacked k).mp hk with hk | ⟨rfl, hk⟩
    · exact h.acknowledged k hk
    · obtain ⟨x, hx⟩ := Option.isSome_iff_exists.mp hk
      obtain ⟨e, he, rfl, rfl⟩ := h.valid.get_eq.mp hx
      exact (h.holds e.value (.inl hx)).1
  · intro m hm
    refine h.holds m (hm.imp_left fun hm => ?_)
    simp only [Outbound.acknowledge, removeOutboundTracking, hget] at hm
    split at hm
    · cases hm
    · exact hm

theorem Coherent.written (h : Coherent sha256 first s) {frame : Frame} (hf : s.Sends frame) :
    Coherent sha256 first { s with wire := s.wire ++ [frame] } :=
  { h with
    sends := fun f hs => by
      refine h.sends f ?_
      rcases hs with hs | hs | hs
      · exact .inl hs
      · rcases List.mem_append.mp hs with hs | hs
        · exact .inr (.inl hs)
        · cases List.mem_singleton.mp hs
          exact hf
      · exact .inr (.inr hs) }

theorem Coherent.send (h : Coherent sha256 first s) {writer : Nat} {frame : Frame}
    (hf : s.sending[writer]? = some frame) :
    Coherent sha256 first
      { s with sending := s.sending.eraseIdx writer, wire := s.wire ++ [frame] } :=
  { h.written (.inl (List.mem_of_getElem? hf)) with
    sends := fun f hs => (h.written (.inl (List.mem_of_getElem? hf))).sends f
      (hs.imp_left List.mem_of_mem_eraseIdx) }

theorem Coherent.turn (h : Coherent sha256 first s) {r : Resender}
    (hheld : ∀ msg, r = .chosen msg → s.Holds msg)
    (hframe : ∀ f, r = .marshalled f → ∀ n, f.stream = some n → n ∈ s.assigned ∧ f.bytes = first n)
    (sentAt : Int → Option Int) (attempts : Int → Nat) :
    Coherent sha256 first
      { s with outSentAt := sentAt, outAttempts := attempts, resender := r } :=
  { h with
    holds := fun m hm => by
      refine h.holds m ?_
      rcases hm with hm | hm | hm
      · exact .inl hm
      · exact .inr (.inl hm)
      · exact hheld m hm
    sends := fun f hf => by
      rcases hf with hf | hf | hf
      · exact h.sends f (.inl hf)
      · exact h.sends f (.inr (.inl hf))
      · exact hframe f hf }

theorem processTick_cases (s : Outbound) (now : Int) :
    s.processTick now = s ∨ s.processTick now = { s with resender := .stopped } ∨
      ∃ msg sentAt attempts, s.outMsgBuf.oldest = some msg ∧
        s.processTick now =
          { s with outSentAt := sentAt, outAttempts := attempts, resender := .chosen msg } := by
  unfold processTick
  split
  · exact .inl rfl
  · rename_i msg ho
    split
    · exact .inl rfl
    · split
      · exact .inl rfl
      · split
        · exact .inr (.inl rfl)
        · exact .inr (.inr ⟨msg, _, _, ho, rfl⟩)

theorem Coherent.processTick (h : Coherent sha256 first s) (now : Int) :
    Coherent sha256 first (s.processTick now) := by
  rcases processTick_cases s now with ht | ht | ⟨msg, sentAt, attempts, ho, ht⟩
  · rw [ht]
    exact h
  · rw [ht]
    exact h.turn (by simp) (by simp) s.outSentAt s.outAttempts
  · rw [ht]
    obtain ⟨e, he, rfl⟩ := MessageBuffer.oldest_mem ho
    refine h.turn (fun m hm => ?_) (by simp) sentAt attempts
    cases hm
    exact .inl (h.valid.get_eq.mpr ⟨e, he, rfl, rfl⟩)

theorem Coherent.resendMsg (h : Coherent sha256 first s) {msg : AgentMessage}
    (hr : s.resender = .chosen msg) : Coherent sha256 first (s.resendMsg sha256 msg) := by
  obtain ⟨hassigned, hmarshal⟩ := h.holds msg (.inr (.inr hr))
  unfold Outbound.resendMsg
  rw [hmarshal]
  refine h.turn (by simp) (fun f hf n hn => ?_) s.outSentAt s.outAttempts
  cases hf
  cases hn
  exact ⟨hassigned, rfl⟩

theorem Coherent.writeMsg (h : Coherent sha256 first s) (now : Int) {msg : AgentMessage}
    {env : Envelope} (hv : msg.messageType = .acknowledge ∨
      validateMessage env { msg with payload := s.read env.payload }) :
    ∃ first', Coherent sha256 first' (s.writeMsg sha256 now msg env) := by
  unfold Outbound.writeMsg
  by_cases hack : msg.messageType = .acknowledge
  · simp only [if_pos hack]
    cases marshalBinary sha256 env { msg with payload := s.read env.payload } with
    | none => exact ⟨first, h⟩
    | some data => exact ⟨first, h.sendAcknowledge data⟩
  · simp only [if_neg hack]
    have hvalid := hv.resolve_left hack
    cases hdata : marshalBinary sha256 env
        { msg with payload := s.read env.payload, sequenceNumber := s.seqNum } with
    | none =>
        have hv' : validateMessage env
          { msg with payload := s.read env.payload, sequenceNumber := s.seqNum } := hvalid
        simp [marshalBinary, hv'] at hdata
    | some data => exact ⟨_, (h.assign rfl rfl hdata).addOutbound now⟩

variable (sha256) in
def Consistent (s : Outbound) : Prop := ∃ first, Coherent sha256 first s

theorem step_consistent {e : Event} (h : Consistent sha256 s) (he : s.Undisturbed e)
    (hs : s.step sha256 e = some t) : Consistent sha256 t := by
  obtain ⟨first, h⟩ := h
  cases e with
  | writeMsg now msg env =>
      cases hs
      exact h.writeMsg now he
  | retry now writer =>
      obtain ⟨⟨msg, data⟩, hw, rfl⟩ := Option.map_eq_some_iff.mp hs
      obtain ⟨hi, hget⟩ := List.getElem?_eq_some_iff.mp hw
      have hperm := List.getElem_cons_eraseIdx_perm hi
      rw [hget] at hperm
      exact ⟨first, Coherent.addOutbound (s := { s with waiting := s.waiting.eraseIdx writer })
        (h.perm hperm.symm) now⟩
  | send writer =>
      obtain ⟨frame, hf, rfl⟩ := Option.map_eq_some_iff.mp hs
      exact ⟨first, h.send hf⟩
  | acknowledge n =>
      cases hs
      exact ⟨first, h.acknowledge n⟩
  | tick now =>
      simp only [step] at hs
      split at hs
      · cases hs
        exact ⟨first, h.processTick now⟩
      · cases hs
  | resend =>
      simp only [step] at hs
      split at hs
      · rename_i msg hr
        cases hs
        exact ⟨first, h.resendMsg hr⟩
      · cases hs
  | sendAgain =>
      simp only [step] at hs
      split at hs
      · rename_i frame hr
        cases hs
        have hw := h.written (.inr (.inr hr))
        exact ⟨first, hw.turn (by simp) (by simp) s.outSentAt s.outAttempts⟩
      · cases hs
  | overwrite array bytes =>
      cases hs
      exact ⟨first, h.overwrite bytes he⟩

theorem writeMsg_acknowledge {msg : AgentMessage} (h : msg.messageType = .acknowledge) (now : Int)
    (env : Envelope) :
    (s.writeMsg sha256 now msg env).seqNum = s.seqNum ∧
      (s.writeMsg sha256 now msg env).assigned = s.assigned := by
  unfold Outbound.writeMsg
  simp only [if_pos h]
  split
  · exact ⟨rfl, rfl⟩
  · exact ⟨rfl, rfl⟩

theorem tick_chooses {now : Int} {msg : AgentMessage} (hs : s.step sha256 (.tick now) = some t)
    (hr : t.resender = .chosen msg) : s.outMsgBuf.oldest = some msg := by
  simp only [step] at hs
  split at hs
  · rename_i hticking
    cases hs
    rcases processTick_cases s now with ht | ht | ⟨m, sentAt, attempts, ho, ht⟩
    · rw [ht, hticking] at hr
      cases hr
    · rw [ht] at hr
      cases hr
    · rw [ht] at hr
      cases hr
      exact ho
  · cases hs

theorem outbound_reliable (sha256 : Bytes → Bytes) (size : Nat) (memory : Nat → Bytes)
    (events : List Event)
    (ha : Admissible Undisturbed (step sha256) (opened size memory) events)
    (ht : run (step sha256) (opened size memory) events = some t) :
    t.Reliable ∧
      (∀ now msg env u, msg.messageType = .acknowledge →
        t.step sha256 (.writeMsg now msg env) = some u →
          u.seqNum = t.seqNum ∧ u.assigned = t.assigned) ∧
      ∀ now msg u, t.Undisturbed (.tick now) → t.step sha256 (.tick now) = some u →
        u.resender = .chosen msg → t.SmallestUnacknowledged msg.sequenceNumber := by
  obtain ⟨first, h⟩ : Consistent sha256 t :=
    run_invariant_of_admissible (fun _ _ _ hi hok hs => step_consistent hi hok hs)
      ⟨fun _ => [], coherent_opened size memory⟩ ha ht
  refine ⟨h.reliable, ?_, ?_⟩
  · intro now msg env u hack hu
    cases hu
    exact writeMsg_acknowledge hack now env
  · intro now msg u hw hu hr
    have ho := tick_chooses hu hr
    exact h.smallest ho (hw msg ho)

/-- The digests of the two payloads of `reusedBuffer`. -/
def sampleSha256 (payload : Bytes) : Bytes :=
  if payload = ascii "a" then
    [202, 151, 129, 18, 202, 27, 189, 202, 250, 194, 49, 179, 154, 35, 220, 77, 167, 134, 239, 248,
      20, 124, 78, 114, 185, 128, 119, 133, 175, 238, 72, 187]
  else if payload = ascii "b" then
    [62, 35, 232, 22, 0, 57, 89, 74, 51, 137, 79, 101, 100, 225, 177, 52, 139, 189, 122, 0, 136,
      212, 44, 74, 203, 115, 238, 174, 213, 156, 0, 157]
  else List.replicate 32 0

/-- A write of one byte that lies in `array`. -/
def inputWrite (now : Int) (id : UInt8) (array : Nat) : Event :=
  .writeMsg now ⟨.inputStreamData, 0, List.replicate 16 id, .output, []⟩
    ⟨116, 1, some 1714521600000000000, 0, ⟨array, 1⟩⟩

def separateBuffers : List Event :=
  [.overwrite 0 (ascii "a"), .overwrite 1 (ascii "b"), inputWrite 0 1 0, inputWrite 1 2 1, .send 0,
    .tick 1000, .resend, .sendAgain, .acknowledge 0, .acknowledge 7]

theorem opened_not_retains {size : Nat} {memory : Nat → Bytes} {n : Int} :
    ¬ (opened size memory).Retains n := by
  simp [Retains, opened, MessageBuffer.get, MessageBuffer.new]

theorem undisturbed_tick (hw : s.waiting = []) (now : Int) : s.Undisturbed (.tick now) := by
  intro msg _ w hmem
  rw [hw] at hmem
  cases hmem

theorem outbound_reliable_separateBuffers :
    ∃ t, run (step sampleSha256) (opened dataChannelBufferSize fun _ => []) separateBuffers =
        some t ∧ t.wire.length = 2 ∧ t.Reliable := by
  have hwire : (run (step sampleSha256) (opened dataChannelBufferSize fun _ => [])
      separateBuffers).map (fun t => t.wire.length) = some 2 := by
    decide
  obtain ⟨t, ht, hwire⟩ := Option.map_eq_some_iff.mp hwire
  refine ⟨t, ht, hwire, (outbound_reliable sampleSha256 _ _ separateBuffers ?_ ht).1⟩
  refine ⟨fun n hn => absurd hn opened_not_retains, fun _ h => ?_⟩
  cases h
  refine ⟨fun n hn => absurd hn opened_not_retains, fun _ h => ?_⟩
  cases h
  refine ⟨.inr (by decide), fun _ h => ?_⟩
  cases h
  refine ⟨.inr (by decide), fun _ h => ?_⟩
  cases h
  refine ⟨trivial, fun _ h => ?_⟩
  cases h
  refine ⟨undisturbed_tick (by decide) 1000, fun _ h => ?_⟩
  cases h
  refine ⟨trivial, fun _ h => ?_⟩
  cases h
  refine ⟨trivial, fun _ h => ?_⟩
  cases h
  refine ⟨trivial, fun _ h => ?_⟩
  cases h
  refine ⟨trivial, fun _ h => ?_⟩
  cases h
  trivial

/-- `ReadFrom` reads each chunk into the same array, and the first write is sent once more. -/
def reusedBuffer : List Event :=
  [.overwrite 0 (ascii "a"), inputWrite 0 1 0, .send 0, .overwrite 0 (ascii "b"), inputWrite 1 2 0,
    .tick 1000, .resend, .sendAgain]

theorem reused_buffer_changes_resend :
    ∃ t, run (step sampleSha256) (opened dataChannelBufferSize fun _ => []) reusedBuffer =
        some t ∧ ¬ t.Reliable := by
  have hwire : (run (step sampleSha256) (opened dataChannelBufferSize fun _ => [])
      reusedBuffer).map (fun t => t.wire.map fun f => (f.stream, f.bytes.getLast?)) =
        some [(some 0, some 97), (some 0, some 98)] := by
    decide
  obtain ⟨t, ht, hwire⟩ := Option.map_eq_some_iff.mp hwire
  refine ⟨t, ht, fun h => ?_⟩
  match hw : t.wire with
  | [f, g] =>
      rw [hw] at hwire
      simp only [List.map_cons, List.map_nil, List.cons.injEq, Prod.mk.injEq, and_true] at hwire
      obtain ⟨⟨hf, hfb⟩, hg, hgb⟩ := hwire
      have heq := h.repeats f (by simp [hw]) g (by simp [hw]) (by simp [hf]) (hf.trans hg.symm)
      rw [heq, hgb] at hfb
      cases hfb
  | [] => simp [hw] at hwire
  | [f] => simp [hw] at hwire
  | f :: g :: k :: rest => simp [hw] at hwire

end Outbound

end Marshal

end Dolgate.Ssm
