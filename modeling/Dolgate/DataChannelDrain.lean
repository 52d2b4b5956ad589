import Dolgate.DataChannelOrder

set_option autoImplicit false

/-! What a call does not return of the messages that it has taken. -/

namespace Dolgate.Ssm
open Transaction Transition

/-- What each message put on the screen that the drain has taken, whether or not it ends in an
error. -/
def drained (codec : Codec) (socket : Socket) : Nat → Channel → List Bytes
  | 0, _ => []
  | fuel + 1, c =>
      match c.inMsgBuf.bind fun b => b.get c.inSeqNum with
      | none => []
      | some msg =>
          match processOutputStreamMessage codec socket msg false c with
          | (.error _, _) => []
          | (.ok payload, c) =>
              payload :: drained codec socket fuel
                { c with inMsgBuf := c.inMsgBuf.map fun b => b.remove msg.sequenceNumber }

/-- The same for a call of `handleMsg`: one payload for each number that `inSeqNum` advances by. -/
def advanced (codec : Codec) (socket : Socket) (m : AgentMessage) (c : Channel) : List Bytes :=
  if m.messageType = .outputStreamData ∧ (c.inMsgBuf.isSome → m.sequenceNumber = c.inSeqNum) then
    match processOutputStreamMessage codec socket m true c with
    | (.error _, _) => []
    | (.ok payload, c') =>
        match c.inMsgBuf with
        | none => [payload]
        | some inBuf => payload :: drained codec socket (inBuf.buf.length + 1) c'
  else []

def advancedBy (codec : Codec) : Channel → List Arrival → Bytes
  | _, [] => []
  | c, a :: arrivals =>
      (advanced codec a.socket a.message c).flatten ++
        advancedBy codec (handleMsg codec a.socket a.message c).2 arrivals

def Drainable (codec : Codec) (socket : Socket) : Nat → Session → Int → MessageBuffer → Prop
  | 0, _, _, _ => True
  | fuel + 1, session, n, buf =>
      match buf.get n with
      | none => True
      | some msg =>
          match processPayload codec (socket.response msg) msg.payloadType msg.payload session with
          | (.error _, _) => False
          | (.ok _, session) => Drainable codec socket fuel session (n + 1)
              (buf.remove msg.sequenceNumber)

/-- The message that is due lets a whole run of messages be taken, or nothing is on the screen
before one that cannot be processed. -/
def DrainsWhole (codec : Codec) (s : Delivered) (a : Arrival) : Prop :=
  a.message.messageType = .outputStreamData → a.message.sequenceNumber = s.channel.inSeqNum →
    ∀ buf, s.channel.inMsgBuf = some buf → ∀ payload session,
      processPayload codec (a.socket.response a.message) a.message.payloadType a.message.payload
        s.channel.session = (.ok payload, session) → a.socket.ack a.message = true →
      Drainable codec a.socket (buf.buf.length + 1) session (s.channel.inSeqNum + 1) buf ∨
        (advanced codec a.socket a.message s.channel).flatten = []

variable {codec : Codec} {socket : Socket} {c c' : Channel} {m : AgentMessage}

theorem processOutputStreamMessage_error (ack : Bool) {e : Err} {session : Session}
    (h : processPayload codec (socket.response m) m.payloadType m.payload c.session =
      (.error e, session)) :
    processOutputStreamMessage codec socket m ack c = (.error e, { c with session }) := by
  simp [processOutputStreamMessage, bind, onSession, h]

theorem processOutputStreamMessage_ok (ack : Bool) {payload : Bytes} {session : Session}
    (h : processPayload codec (socket.response m) m.payloadType m.payload c.session =
      (.ok payload, session)) (hack : ack = true → socket.ack m = true) :
    processOutputStreamMessage codec socket m ack c =
      (.ok payload, { c with session, inSeqNum := c.inSeqNum + 1 }) := by
  cases ack with
  | false => simp [processOutputStreamMessage, bind, pure, write, onSession, h]
  | true =>
      simp [processOutputStreamMessage, sendAcknowledgeMessage, require, bind, pure, write,
        onSession, h, hack rfl]

theorem processOutputStreamMessage_unwritten {payload : Bytes} {session : Session}
    (h : processPayload codec (socket.response m) m.payloadType m.payload c.session =
      (.ok payload, session)) (hack : socket.ack m = false) :
    processOutputStreamMessage codec socket m true c = (.error .write, { c with session }) := by
  simp [processOutputStreamMessage, sendAcknowledgeMessage, require, bind, fail, onSession, h, hack]

theorem processOutputStreamMessage_cases (codec : Codec) (socket : Socket) (m : AgentMessage)
    (c : Channel) :
    (∃ e session, processOutputStreamMessage codec socket m true c =
        (.error e, { c with session })) ∨
      ∃ payload session, processPayload codec (socket.response m) m.payloadType m.payload c.session =
          (.ok payload, session) ∧ socket.ack m = true ∧
        processOutputStreamMessage codec socket m true c =
          (.ok payload, { c with session, inSeqNum := c.inSeqNum + 1 }) := by
  cases hp : processPayload codec (socket.response m) m.payloadType m.payload c.session with
  | mk result session =>
      cases result with
      | error e => exact .inl ⟨e, session, processOutputStreamMessage_error true hp⟩
      | ok payload =>
          cases hack : socket.ack m with
          | false => exact .inl ⟨.write, session, processOutputStreamMessage_unwritten hp hack⟩
          | true =>
              exact .inr ⟨payload, session, rfl, rfl,
                processOutputStreamMessage_ok true hp fun _ => hack⟩

variable {fuel : Nat} {msg : AgentMessage} {payload more : Bytes} {e : Err}

theorem processInboundQueue_stop (h : (c.inMsgBuf.bind fun b => b.get c.inSeqNum) = none) :
    processInboundQueue codec socket (fuel + 1) c = (.ok [], c) := by
  simp [processInboundQueue, bind, Transaction.read, pure, h]

theorem processInboundQueue_fail (h : (c.inMsgBuf.bind fun b => b.get c.inSeqNum) = some msg)
    (hp : processOutputStreamMessage codec socket msg false c = (.error e, c')) :
    processInboundQueue codec socket (fuel + 1) c = (.error e, c') := by
  simp [processInboundQueue, bind, Transaction.read, h, hp]

def Channel.taken (c : Channel) (msg : AgentMessage) : Channel :=
  { c with inMsgBuf := c.inMsgBuf.map fun b => b.remove msg.sequenceNumber }

theorem processInboundQueue_next {rest : Except Err Bytes × Channel}
    (h : (c.inMsgBuf.bind fun b => b.get c.inSeqNum) = some msg)
    (hp : processOutputStreamMessage codec socket msg false c = (.ok payload, c'))
    (hrest : processInboundQueue codec socket fuel (c'.taken msg) = rest) :
    processInboundQueue codec socket (fuel + 1) c =
      (rest.1.map fun more => payload ++ more, rest.2) := by
  obtain ⟨result, last⟩ := rest
  rw [Channel.taken] at hrest
  cases result <;>
    simp [processInboundQueue, bind, Transaction.read, write, pure, h, hp, hrest, Except.map]

theorem processInboundQueue_spec {buf : MessageBuffer} (hbuf : c.inMsgBuf = some buf) :
    ((Drainable codec socket fuel c.session c.inSeqNum buf ∧
        (processInboundQueue codec socket fuel c).1 = .ok (drained codec socket fuel c).flatten) ∨
      ¬ Drainable codec socket fuel c.session c.inSeqNum buf ∧
        ∃ e, (processInboundQueue codec socket fuel c).1 = .error e) ∧
      (processInboundQueue codec socket fuel c).2.inSeqNum =
        c.inSeqNum + (drained codec socket fuel c).length := by
  induction fuel generalizing c buf with
  | zero => exact ⟨.inl ⟨trivial, rfl⟩, by simp [processInboundQueue, pure, drained]⟩
  | succ fuel ih =>
      cases hget : buf.get c.inSeqNum with
      | none =>
          have hnone : (c.inMsgBuf.bind fun b => b.get c.inSeqNum) = none := by rw [hbuf]; exact hget
          rw [processInboundQueue_stop hnone, drained, hnone, Drainable, hget]
          exact ⟨.inl ⟨trivial, rfl⟩, by simp⟩
      | some msg =>
          have hsome : (c.inMsgBuf.bind fun b => b.get c.inSeqNum) = some msg := by
            rw [hbuf]
            exact hget
          cases hp : processPayload codec (socket.response msg) msg.payloadType msg.payload
            c.session with
          | mk result session =>
              cases result with
              | error e =>
                  have hstep := processOutputStreamMessage_error false hp
                  rw [processInboundQueue_fail hsome hstep, drained, hsome, Drainable, hget]
                  simp only [hp, hstep]
                  exact ⟨.inr ⟨id, e, rfl⟩, by simp⟩
              | ok payload =>
                  have hstep := processOutputStreamMessage_ok false hp (by simp)
                  have hbuf' : (Channel.taken { c with session, inSeqNum := c.inSeqNum + 1 }
                      msg).inMsgBuf = some (buf.remove msg.sequenceNumber) := by
                    rw [Channel.taken, hbuf]
                    rfl
                  obtain ⟨hrest, hseq⟩ := ih hbuf'
                  rw [processInboundQueue_next hsome hstep rfl, drained, hsome, Drainable, hget]
                  simp only [hp, hstep]
                  refine ⟨?_, ?_⟩
                  · rcases hrest with ⟨hdrain, hok⟩ | ⟨hdrain, e, herr⟩
                    · refine .inl ⟨hdrain, ?_⟩
                      rw [hok]
                      rfl
                    · refine .inr ⟨hdrain, e, ?_⟩
                      rw [herr]
                      rfl
                  · rw [hseq, List.length_cons]
                    simp only [Channel.taken]
                    push_cast
                    omega

def payloadOf : Except Err Bytes → Bytes
  | .ok payload => payload
  | .error _ => []

theorem step_eq (s : Delivered) (a : Arrival) : step codec s a =
    some ⟨(handleMsg codec a.socket a.message s.channel).2,
      s.returned ++ payloadOf (handleMsg codec a.socket a.message s.channel).1⟩ := by
  unfold step
  cases handleMsg codec a.socket a.message s.channel with
  | mk result c => cases result <;> simp [payloadOf]

theorem handleMsg_other (h : m.messageType ≠ .outputStreamData) :
    payloadOf (handleMsg codec socket m c).1 = [] ∧
      (handleMsg codec socket m c).2.inSeqNum = c.inSeqNum := by
  unfold handleMsg
  cases htype : m.messageType with
  | outputStreamData => exact absurd htype h
  | channelClosed =>
      simp only
      cases codec.channelClosed m.payload <;> exact ⟨rfl, rfl⟩
  | _ => exact ⟨rfl, rfl⟩

theorem handleMsg_undue {buf : MessageBuffer} (h : m.messageType = .outputStreamData)
    (hbuf : c.inMsgBuf = some buf) (hseq : m.sequenceNumber ≠ c.inSeqNum) :
    payloadOf (handleMsg codec socket m c).1 = [] ∧
      (handleMsg codec socket m c).2.inSeqNum = c.inSeqNum := by
  rw [handleMsg_data codec socket h hbuf]
  split
  · exact ⟨rfl, rfl⟩
  · next hold =>
      rw [if_pos (by omega)]
      cases buf.add m with
      | none => exact ⟨rfl, rfl⟩
      | some added =>
          cases hack : socket.ack m <;>
            simp [bind, write, sendAcknowledgeMessage, require, fail, pure, hack, payloadOf]

theorem handleMsg_due {buf : MessageBuffer} (h : m.messageType = .outputStreamData)
    (hbuf : c.inMsgBuf = some buf) (hseq : m.sequenceNumber = c.inSeqNum) :
    handleMsg codec socket m c =
      (do
        let payload ← processOutputStreamMessage codec socket m true
        let buffered ← processInboundQueue codec socket (buf.buf.length + 1)
        pure (payload ++ buffered) : Tx Channel Err Bytes) c := by
  rw [handleMsg_data codec socket h hbuf, if_neg (by omega), if_neg (by omega)]

theorem handleMsg_due_error {buf : MessageBuffer} (h : m.messageType = .outputStreamData)
    (hbuf : c.inMsgBuf = some buf) (hseq : m.sequenceNumber = c.inSeqNum)
    (hp : processOutputStreamMessage codec socket m true c = (.error e, c')) :
    handleMsg codec socket m c = (.error e, c') := by
  rw [handleMsg_due h hbuf hseq]
  simp only [bind, hp]

theorem handleMsg_due_ok {buf : MessageBuffer} (h : m.messageType = .outputStreamData)
    (hbuf : c.inMsgBuf = some buf) (hseq : m.sequenceNumber = c.inSeqNum)
    (hp : processOutputStreamMessage codec socket m true c = (.ok payload, c')) :
    handleMsg codec socket m c =
      ((processInboundQueue codec socket (buf.buf.length + 1) c').1.map fun more => payload ++ more,
        (processInboundQueue codec socket (buf.buf.length + 1) c').2) := by
  rw [handleMsg_due h hbuf hseq]
  simp only [bind, hp, pure]
  cases processInboundQueue codec socket (buf.buf.length + 1) c' with
  | mk result c'' => cases result <;> rfl

structure Accounts (codec : Codec) (socket : Socket) (m : AgentMessage) (c : Channel) : Prop where
  inSeqNum : (handleMsg codec socket m c).2.inSeqNum =
    c.inSeqNum + (advanced codec socket m c).length
  returns : payloadOf (handleMsg codec socket m c).1 = (advanced codec socket m c).flatten ∨
    payloadOf (handleMsg codec socket m c).1 = []
  whole : payloadOf (handleMsg codec socket m c).1 = (advanced codec socket m c).flatten ↔
    ∀ returned, DrainsWhole codec ⟨c, returned⟩ ⟨m, socket⟩

theorem Accounts.of_nothing (hadvanced : advanced codec socket m c = [])
    (hpayload : payloadOf (handleMsg codec socket m c).1 = [])
    (hseq : (handleMsg codec socket m c).2.inSeqNum = c.inSeqNum) :
    Accounts codec socket m c where
  inSeqNum := by simp [hadvanced, hseq]
  returns := .inr hpayload
  whole := by
    constructor
    · intro _ returned _ _ buf _ payload session _ _
      exact .inr (by rw [hadvanced]; rfl)
    · intro _
      rw [hpayload, hadvanced]
      rfl

theorem advanced_error (hp : processOutputStreamMessage codec socket m true c = (.error e, c')) :
    advanced codec socket m c = [] := by
  rw [advanced, hp]
  split <;> rfl

theorem advanced_due {buf : MessageBuffer} (h : m.messageType = .outputStreamData)
    (hbuf : c.inMsgBuf = some buf) (hseq : m.sequenceNumber = c.inSeqNum)
    (hp : processOutputStreamMessage codec socket m true c = (.ok payload, c')) :
    advanced codec socket m c = payload :: drained codec socket (buf.buf.length + 1) c' := by
  rw [advanced, if_pos ⟨h, fun _ => hseq⟩, hp, hbuf]

theorem accounts_drain {buf : MessageBuffer} {session : Session}
    (h : m.messageType = .outputStreamData) (hbuf : c.inMsgBuf = some buf)
    (hseq : m.sequenceNumber = c.inSeqNum)
    (hp : processPayload codec (socket.response m) m.payloadType m.payload c.session =
      (.ok payload, session)) (hack : socket.ack m = true)
    (hstep : processOutputStreamMessage codec socket m true c =
      (.ok payload, { c with session, inSeqNum := c.inSeqNum + 1 })) :
    Accounts codec socket m c := by
  have hadvanced := advanced_due h hbuf hseq hstep
  have hhandle := handleMsg_due_ok h hbuf hseq hstep
  have hbuf' : ({ c with session, inSeqNum := c.inSeqNum + 1 } : Channel).inMsgBuf = some buf := hbuf
  obtain ⟨hdrain, hnext⟩ : (_ ∨ _) ∧ (processInboundQueue codec socket (buf.buf.length + 1)
    { c with session, inSeqNum := c.inSeqNum + 1 }).2.inSeqNum = _ := processInboundQueue_spec hbuf'
  have hcount : (handleMsg codec socket m c).2.inSeqNum =
      c.inSeqNum + (advanced codec socket m c).length := by
    rw [hhandle, hadvanced, hnext, List.length_cons]
    push_cast
    omega
  rcases hdrain with ⟨hdrain, hok⟩ | ⟨hdrain, e, herr⟩
  · have hreturned : payloadOf (handleMsg codec socket m c).1 =
        (advanced codec socket m c).flatten := by
      rw [hhandle, hadvanced, hok]
      rfl
    refine ⟨hcount, .inl hreturned, ?_⟩
    constructor
    · intro _ returned _ _ buf' hbuf' payload' session' hp' _
      cases hbuf.symm.trans hbuf'
      cases hp.symm.trans hp'
      exact .inl hdrain
    · exact fun _ => hreturned
  · have hreturned : payloadOf (handleMsg codec socket m c).1 = [] := by
      rw [hhandle, herr]
      rfl
    refine ⟨hcount, .inr hreturned, ?_⟩
    constructor
    · intro hwhole returned _ _ buf' _ payload' session' _ _
      exact .inr (hwhole ▸ hreturned)
    · intro hwhole
      rw [hreturned]
      exact ((hwhole [] h hseq buf hbuf payload session hp hack).resolve_left hdrain).symm

theorem accounts_unbuffered (h : m.messageType = .outputStreamData) (hbuf : c.inMsgBuf = none) :
    Accounts codec socket m c := by
  have hhandle : handleMsg codec socket m c = processOutputStreamMessage codec socket m true c := by
    unfold handleMsg
    simp only [h, bind, Transaction.read, hbuf]
  rcases processOutputStreamMessage_cases codec socket m c with
    ⟨e, session, hstep⟩ | ⟨payload, session, hp, hack, hstep⟩
  · rw [hstep] at hhandle
    exact .of_nothing (advanced_error hstep) (by rw [hhandle]; rfl) (by rw [hhandle])
  · have hadvanced : advanced codec socket m c = [payload] := by
      rw [advanced, if_pos ⟨h, by simp [hbuf]⟩, hstep, hbuf]
    rw [hstep] at hhandle
    have hreturned : payloadOf (handleMsg codec socket m c).1 =
        (advanced codec socket m c).flatten := by
      rw [hhandle, hadvanced]
      simp [payloadOf]
    refine ⟨by rw [hhandle, hadvanced]; rfl, .inl hreturned, fun _ => ?_, fun _ => hreturned⟩
    intro returned _ _ buf' hbuf'
    cases hbuf.symm.trans hbuf'

theorem accounts (codec : Codec) (socket : Socket) (m : AgentMessage) (c : Channel) :
    Accounts codec socket m c := by
  by_cases h : m.messageType = .outputStreamData
  · cases hbuf : c.inMsgBuf with
    | none => exact accounts_unbuffered h hbuf
    | some buf =>
        by_cases hseq : m.sequenceNumber = c.inSeqNum
        · rcases processOutputStreamMessage_cases codec socket m c with
            ⟨e, session, hstep⟩ | ⟨payload, session, hp, hack, hstep⟩
          · have hhandle := handleMsg_due_error h hbuf hseq hstep
            exact .of_nothing (advanced_error hstep) (by rw [hhandle]; rfl) (by rw [hhandle])
          · exact accounts_drain h hbuf hseq hp hack hstep
        · have hundue : payloadOf (handleMsg codec socket m c).1 = [] ∧
              (handleMsg codec socket m c).2.inSeqNum = c.inSeqNum := handleMsg_undue h hbuf hseq
          refine .of_nothing ?_ hundue.1 hundue.2
          rw [advanced, if_neg]
          rintro ⟨-, hdue⟩
          exact hseq (hdue (by rw [hbuf]; rfl))
  · have hother : payloadOf (handleMsg codec socket m c).1 = [] ∧
        (handleMsg codec socket m c).2.inSeqNum = c.inSeqNum := handleMsg_other h
    refine .of_nothing ?_ hother.1 hother.2
    rw [advanced, if_neg fun hdue => h hdue.1]

theorem run_returned_length {arrivals : List Arrival} {s t : Delivered}
    (hrun : run (step codec) s arrivals = some t) :
    t.returned.length ≤ s.returned.length + (advancedBy codec s.channel arrivals).length := by
  induction arrivals generalizing s with
  | nil =>
      cases hrun
      simp [advancedBy]
  | cons a arrivals ih =>
      obtain ⟨u, hu, hrun⟩ := run_cons.mp hrun
      rw [step_eq] at hu
      cases hu
      have hrest := ih hrun
      have hcall : (payloadOf (handleMsg codec a.socket a.message s.channel).1).length ≤
          (advanced codec a.socket a.message s.channel).flatten.length := by
        rcases (accounts codec a.socket a.message s.channel).returns with h | h <;> simp [h]
      simp only [advancedBy, List.length_append] at hrest ⊢
      omega

/-- All that the calls take comes back to their callers exactly if no drain fails behind something
that is to be displayed. -/
theorem taken_is_returned_iff (codec : Codec) (arrivals : List Arrival) {s t : Delivered}
    (hrun : run (step codec) s arrivals = some t) :
    t.returned = s.returned ++ advancedBy codec s.channel arrivals ↔
      Admissible (DrainsWhole codec) (step codec) s arrivals := by
  induction arrivals generalizing s with
  | nil =>
      cases hrun
      simp [advancedBy, Admissible]
  | cons a arrivals ih =>
      obtain ⟨u, hu, hrun⟩ := run_cons.mp hrun
      have hcall := accounts codec a.socket a.message s.channel
      have hlength := run_returned_length hrun
      have hrest := ih hrun
      have hnext : Admissible (DrainsWhole codec) (step codec) s (a :: arrivals) ↔
          DrainsWhole codec s a ∧ Admissible (DrainsWhole codec) (step codec) u arrivals :=
        and_congr_right fun _ => ⟨fun h => h u hu, fun h v hv => by
          cases hu.symm.trans hv
          exact h⟩
      rw [step_eq] at hu
      cases hu
      have hwhole : DrainsWhole codec s a ↔
          payloadOf (handleMsg codec a.socket a.message s.channel).1 =
            (advanced codec a.socket a.message s.channel).flatten :=
        ⟨fun h => hcall.whole.mpr fun _ => h, fun h => hcall.whole.mp h s.returned⟩
      rw [hnext, ← hrest, hwhole, advancedBy]
      constructor
      · intro h
        have hflat : payloadOf (handleMsg codec a.socket a.message s.channel).1 =
            (advanced codec a.socket a.message s.channel).flatten := by
          rcases hcall.returns with hreturns | hreturns
          · exact hreturns
          · have hle := run_returned_length hrun
            rw [h, hreturns] at hle
            simp only [List.length_append, List.length_nil] at hle
            rw [hreturns]
            exact (List.eq_nil_of_length_eq_zero (by omega)).symm
        refine ⟨hflat, ?_⟩
        rw [h, hflat, List.append_assoc]
      · intro h
        rw [h.2, h.1, List.append_assoc]

theorem taken_is_returned_iff_shuffled :
    ∃ t, run (step plainCodec) (opened dataChannelBufferSize ⟨none, none, false⟩)
        shuffledArrivals = some t ∧
      Admissible (DrainsWhole plainCodec) (step plainCodec)
        (opened dataChannelBufferSize ⟨none, none, false⟩) shuffledArrivals := by
  have hreturned : (run (step plainCodec) (opened dataChannelBufferSize ⟨none, none, false⟩)
      shuffledArrivals).map Delivered.returned = some [0, 1, 2] := by
    decide
  have hadvanced : advancedBy plainCodec
      (opened dataChannelBufferSize ⟨none, none, false⟩).channel shuffledArrivals = [0, 1, 2] := by
    decide
  obtain ⟨t, ht, hreturned⟩ := Option.map_eq_some_iff.mp hreturned
  refine ⟨t, ht, (taken_is_returned_iff plainCodec shuffledArrivals ht).mp ?_⟩
  rw [hreturned, hadvanced]
  rfl

def failingDrain : List Arrival :=
  [⟨⟨.outputStreamData, 1, [], .encChallengeRequest, []⟩, openSocket⟩, outputArrival 0 [97]]

/-- The output is taken, and no call returns it. -/
theorem failing_drain_loses_output :
    (run (step plainCodec) (opened dataChannelBufferSize ⟨none, none, false⟩) failingDrain).map
        Delivered.returned = some [] ∧
      advancedBy plainCodec (opened dataChannelBufferSize ⟨none, none, false⟩).channel
        failingDrain = [97] :=
  ⟨by decide, by decide⟩

end Dolgate.Ssm
