import Dolgate.DataChannel

set_option autoImplicit false

namespace Dolgate.Ssm
open Transaction Transition

structure Arrival where
  message : AgentMessage
  socket : Socket

/-- The channel and the concatenation of everything `handleMsg` has returned. -/
structure Delivered where
  channel : Channel
  returned : Bytes

def step (codec : Codec) (s : Delivered) (a : Arrival) : Option Delivered :=
  match handleMsg codec a.socket a.message s.channel with
  | (.ok payload, c) => some ⟨c, s.returned ++ payload⟩
  | (.error _, c) => some ⟨c, s.returned⟩

def opened (size : Nat) (session : Session) : Delivered :=
  ⟨⟨session, 0, some (MessageBuffer.new size), some (MessageBuffer.new size)⟩, []⟩

abbrev Stream : Type := Int → PayloadType × Bytes

/-- The displayable payloads of messages `0..k-1` in order, and the session they leave. -/
def display (codec : Codec) (stream : Stream) (session : Session) : Nat → Except Err (Bytes × Session)
  | 0 => .ok ([], session)
  | k + 1 =>
      match display codec stream session k with
      | .error e => .error e
      | .ok (shown, s) =>
          match processPayload codec true (stream k).1 (stream k).2 s with
          | (.ok payload, s') => .ok (shown ++ payload, s')
          | (.error e, _) => .error e

def Received (arrivals : List Arrival) (n : Int) : Prop :=
  ∃ a ∈ arrivals, a.message.sequenceNumber = n

/-- `k` is the length of the longest prefix received without a gap. -/
def GapFree (arrivals : List Arrival) (k : Nat) : Prop :=
  (∀ j : Nat, j < k → Received arrivals j) ∧ ¬ Received arrivals k

/-- The received numbers ahead of `k`. -/
def outstanding (arrivals : List Arrival) (k : Nat) : Finset Int :=
  (arrivals.map fun a => a.message.sequenceNumber).toFinset.filter fun n => (k : Int) < n

/-- The buffer holds exactly the received messages above `k`. -/
def Holds (buf : MessageBuffer) (arrivals : List Arrival) (k : Nat) : Prop :=
  (∀ n, (k : Int) < n ∧ Received arrivals n ↔ ∃ x, buf.get n = some x) ∧
    ∀ n x, buf.get n = some x → x.sequenceNumber = n ∧ ∃ a ∈ arrivals, a.message = x

/-- Output-stream messages with one content for each number, every acknowledge written, and never
more messages ahead of the expected one than the buffer takes. -/
structure Orderly (size : Nat) (stream : Stream) (arrivals : List Arrival) : Prop where
  data : ∀ a ∈ arrivals, a.message.messageType = .outputStreamData
  fixed : ∀ a ∈ arrivals, (a.message.payloadType, a.message.payload) =
    stream a.message.sequenceNumber
  acked : ∀ a ∈ arrivals, ∀ m, a.socket.ack m = true
  fits : ∀ pre, pre <+: arrivals → ∀ k, GapFree pre k → (outstanding pre k).card ≤ size

def InOrder (codec : Codec) (size : Nat) (stream : Stream) (session : Session)
    (arrivals : List Arrival) (s : Delivered) : Prop :=
  ∃ (k : Nat) (buf : MessageBuffer), GapFree arrivals k ∧ s.channel.inSeqNum = k ∧
    display codec stream session k = .ok (s.returned, s.channel.session) ∧
    s.channel.inMsgBuf = some buf ∧ Holds buf arrivals k ∧ buf.Valid ∧ buf.size = size

structure Processable (codec : Codec) (stream : Stream) (session : Session)
    (arrivals : List Arrival) : Prop where
  responses : ∀ a ∈ arrivals, ∀ m, a.socket.response m = true
  payloads : ∀ k : Nat, (∀ j : Nat, j < k → Received arrivals j) →
    ∃ shown s, display codec stream session k = .ok (shown, s)

variable {codec : Codec} {stream : Stream} {session : Session} {socket : Socket} {c : Channel}

theorem processOutputStreamMessage_due (ack : Bool) {msg : AgentMessage} {k : Nat}
    {shown shown' : Bytes} {s' : Session}
    (hfixed : (msg.payloadType, msg.payload) = stream k)
    (hack : socket.ack msg = true) (hresp : socket.response msg = true)
    (hk : display codec stream session k = .ok (shown, c.session))
    (hk' : display codec stream session (k + 1) = .ok (shown', s')) :
    ∃ payload, shown' = shown ++ payload ∧
      processOutputStreamMessage codec socket msg ack c =
        (.ok payload, { c with session := s', inSeqNum := c.inSeqNum + 1 }) := by
  simp only [display, hk, ← hfixed] at hk'
  cases hp : processPayload codec true msg.payloadType msg.payload c.session with
  | mk r s =>
      rw [hp] at hk'
      cases r with
      | error e => cases hk'
      | ok payload =>
          cases hk'
          refine ⟨payload, rfl, ?_⟩
          cases ack <;>
            simp [processOutputStreamMessage, onSession, sendAcknowledgeMessage, require, bind,
              pure, write, hresp, hp, hack]

variable {arrivals : List Arrival}

theorem processInboundQueue_drains {fuel j : Nat} {buf : MessageBuffer} {shown : Bytes}
    (hfixed : ∀ a ∈ arrivals, (a.message.payloadType, a.message.payload) =
      stream a.message.sequenceNumber)
    (hsocket : ∀ m, socket.ack m = true ∧ socket.response m = true)
    (hproc : ∀ k : Nat, (∀ i : Nat, i < k → Received arrivals i) →
      ∃ shown s, display codec stream session k = .ok (shown, s))
    (hbuf : c.inMsgBuf = some buf) (hvalid : buf.Valid) (hlen : buf.buf.length < fuel)
    (hseq : c.inSeqNum = j) (hbelow : ∀ i : Nat, i < j → Received arrivals i)
    (hall : ∀ n, (j : Int) ≤ n ∧ Received arrivals n ↔ ∃ x, buf.get n = some x)
    (hfrom : ∀ n x, buf.get n = some x → x.sequenceNumber = n ∧ ∃ a ∈ arrivals, a.message = x)
    (hshown : display codec stream session j = .ok (shown, c.session)) :
    ∃ (more : Bytes) (c' : Channel) (k : Nat) (buf' : MessageBuffer),
      processInboundQueue codec socket fuel c = (.ok more, c') ∧ GapFree arrivals k ∧
      c'.inSeqNum = k ∧ display codec stream session k = .ok (shown ++ more, c'.session) ∧
      c'.inMsgBuf = some buf' ∧ Holds buf' arrivals k ∧ buf'.Valid ∧ buf'.size = buf.size := by
  induction fuel generalizing c j buf shown with
  | zero => omega
  | succ fuel ih =>
      cases hget : buf.get j with
      | none =>
          have hnot : ¬ Received arrivals j := fun hr => by
            obtain ⟨x, hx⟩ := (hall j).mp ⟨le_rfl, hr⟩
            rw [hget] at hx
            cases hx
          refine ⟨[], c, j, buf, ?_, ⟨hbelow, hnot⟩, hseq, by simpa using hshown, hbuf,
            ⟨fun n => ?_, hfrom⟩, hvalid, rfl⟩
          · exact bind_ok.mpr ⟨none, c, read_ok.mpr ⟨by simp [hbuf, hseq, hget], rfl⟩,
              pure_ok.mpr ⟨rfl, rfl⟩⟩
          · rw [← hall n]
            constructor
            · rintro ⟨hlt, hr⟩
              exact ⟨hlt.le, hr⟩
            · rintro ⟨hle, hr⟩
              refine ⟨lt_of_le_of_ne hle fun he => ?_, hr⟩
              exact hnot (he ▸ hr)
      | some msg =>
          obtain ⟨hnum, a, ha, rfl⟩ := hfrom j msg hget
          have hrecv : Received arrivals j := ((hall j).mpr ⟨_, hget⟩).2
          have hbelow' : ∀ i : Nat, i < j + 1 → Received arrivals i := by
            intro i hi
            rcases Nat.lt_succ_iff_lt_or_eq.mp hi with hi | rfl
            · exact hbelow i hi
            · exact hrecv
          obtain ⟨shown', s', hnext⟩ := hproc (j + 1) hbelow'
          obtain ⟨payload, rfl, hstep⟩ := processOutputStreamMessage_due false
            (hnum ▸ hfixed a ha) (hsocket a.message).1 (hsocket a.message).2 hshown hnext
          obtain ⟨more, c', k, buf', hrun, hgap, hk, hdis, hbuf', hhold, hv', hsz⟩ := ih
            (c := { c with session := s', inSeqNum := c.inSeqNum + 1,
                           inMsgBuf := some (buf.remove j) })
            rfl (hvalid.remove j) (by have := hvalid.remove_length hget; omega)
            (j := j + 1) (by simp [hseq]) hbelow'
            (fun n => by
              rw [hvalid.get_remove]
              by_cases hn : n = j
              · rw [if_pos hn]
                refine ⟨fun ⟨hle, _⟩ => ?_, nofun⟩
                push_cast at hle
                omega
              · rw [if_neg hn, ← hall n]
                constructor
                · rintro ⟨hle, hr⟩
                  exact ⟨by push_cast at hle; omega, hr⟩
                · rintro ⟨hle, hr⟩
                  exact ⟨by push_cast; omega, hr⟩)
            (fun n x hx => by
              rw [hvalid.get_remove] at hx
              split at hx
              · cases hx
              · exact hfrom n x hx)
            hnext
          refine ⟨payload ++ more, c', k, buf', ?_, hgap, hk, by simpa using hdis, hbuf', hhold, hv',
            hsz.trans (MessageBuffer.remove_size _)⟩
          refine bind_ok.mpr ⟨some a.message, c, read_ok.mpr ⟨by simp [hbuf, hseq, hget], rfl⟩, ?_⟩
          refine bind_ok.mpr ⟨payload, _, hstep, bind_ok.mpr ⟨(), _, write_ok.mpr rfl, ?_⟩⟩
          refine bind_ok.mpr ⟨more, c', ?_, pure_ok.mpr ⟨rfl, rfl⟩⟩
          simpa [hbuf, hnum] using hrun

theorem received_snoc {a : Arrival} {n : Int} : Received (arrivals ++ [a]) n ↔
    Received arrivals n ∨ a.message.sequenceNumber = n := by
  simp [Received, or_and_right, exists_or]

theorem Holds.snoc_old {a : Arrival} {k : Nat} {buf : MessageBuffer} (h : Holds buf arrivals k)
    (hlt : a.message.sequenceNumber < k) : Holds buf (arrivals ++ [a]) k := by
  refine ⟨fun n => ?_, fun n x hx => ?_⟩
  · rw [← h.1 n, received_snoc]
    refine and_congr_right fun hn => or_iff_left fun he => ?_
    omega
  · obtain ⟨hn, b, hb, hbx⟩ := h.2 n x hx
    exact ⟨hn, b, List.mem_append_left _ hb, hbx⟩

theorem Holds.snoc_added {a : Arrival} {k : Nat} {buf buf' : MessageBuffer}
    (h : Holds buf arrivals k) (hv : buf.Valid) (hlt : (k : Int) < a.message.sequenceNumber)
    (hadd : buf.add a.message = some buf') : Holds buf' (arrivals ++ [a]) k := by
  refine ⟨fun n => ?_, fun n x hx => ?_⟩
  · rw [hv.get_add hadd, received_snoc]
    by_cases hn : n = a.message.sequenceNumber
    · simp [hn, hlt]
    · rw [if_neg hn, ← h.1 n]
      exact and_congr_right fun _ => or_iff_left fun he => hn he.symm
  · rw [hv.get_add hadd] at hx
    split at hx
    · rename_i hn
      cases hx
      exact ⟨hn.symm, a, List.mem_append_right _ (by simp), rfl⟩
    · obtain ⟨hn, b, hb, hbx⟩ := h.2 n x hx
      exact ⟨hn, b, List.mem_append_left _ hb, hbx⟩

theorem GapFree.snoc {a : Arrival} {k : Nat} (h : GapFree arrivals k)
    (hne : a.message.sequenceNumber ≠ k) : GapFree (arrivals ++ [a]) k :=
  ⟨fun j hj => received_snoc.mpr (Or.inl (h.1 j hj)),
    fun hr => (received_snoc.mp hr).elim h.2 hne⟩

theorem Holds.add_isSome {a : Arrival} {k size : Nat} {buf : MessageBuffer}
    (h : Holds buf arrivals k) (hv : buf.Valid) (hsize : buf.size = size)
    (hlt : (k : Int) < a.message.sequenceNumber)
    (hfits : (outstanding (arrivals ++ [a]) k).card ≤ size) :
    ∃ buf', buf.add a.message = some buf' := by
  cases hadd : buf.add a.message with
  | some buf' => exact ⟨buf', rfl⟩
  | none =>
      obtain ⟨hnone, hfull⟩ := hv.add_none hadd
      have hmem : a.message.sequenceNumber ∈ outstanding (arrivals ++ [a]) k := by
        simp [outstanding, hlt]
      have hle : buf.buf.length ≤
          ((outstanding (arrivals ++ [a]) k).erase a.message.sequenceNumber).card := by
        refine hv.length_le_card fun n hn => ?_
        obtain ⟨x, hx⟩ := Option.ne_none_iff_exists'.mp hn
        obtain ⟨hkn, b, hb, hbn⟩ := (h.1 n).mpr ⟨x, hx⟩
        refine Finset.mem_erase.mpr ⟨fun he => ?_, ?_⟩
        · rw [he, hnone] at hx
          cases hx
        · simp only [outstanding, Finset.mem_filter, List.mem_toFinset, List.mem_map]
          exact ⟨⟨b, List.mem_append_left _ hb, hbn⟩, hkn⟩
      rw [Finset.card_erase_of_mem hmem] at hle
      have hpos := Finset.card_pos.mpr ⟨_, hmem⟩
      omega

theorem step_inOrder {size : Nat} {a : Arrival} {s : Delivered}
    (h : InOrder codec size stream session arrivals s)
    (hok : Orderly size stream (arrivals ++ [a]))
    (hproc : Processable codec stream session (arrivals ++ [a])) :
    ∃ s', step codec s a = some s' ∧ InOrder codec size stream session (arrivals ++ [a]) s' := by
  obtain ⟨k, buf, hgap, hseq, hshown, hbuf, hhold, hvalid, hsize⟩ := h
  have hmem : a ∈ arrivals ++ [a] := by simp
  have hhandle := handleMsg_data codec a.socket (hok.data a hmem) hbuf
  have hsocket : ∀ m, a.socket.ack m = true ∧ a.socket.response m = true :=
    fun m => ⟨hok.acked a hmem m, hproc.responses a hmem m⟩
  rcases lt_trichotomy a.message.sequenceNumber k with hlt | heq | hgt
  · refine ⟨⟨s.channel, s.returned⟩, ?_, k, buf, hgap.snoc hlt.ne, hseq, hshown, hbuf,
      hhold.snoc_old hlt, hvalid, hsize⟩
    rw [if_pos (hseq ▸ hlt)] at hhandle
    simp [step, hhandle, pure]
  · have hbelow : ∀ j : Nat, j < k + 1 → Received (arrivals ++ [a]) j := by
      intro j hj
      rcases Nat.lt_succ_iff_lt_or_eq.mp hj with hj | rfl
      · exact received_snoc.mpr (Or.inl (hgap.1 j hj))
      · exact received_snoc.mpr (Or.inr heq)
    obtain ⟨shown', s', hnext⟩ := hproc.payloads (k + 1) hbelow
    obtain ⟨payload, rfl, hstep⟩ := processOutputStreamMessage_due true
      (heq ▸ hok.fixed a hmem) (hsocket a.message).1 (hsocket a.message).2 hshown hnext
    obtain ⟨more, c', k', buf', hrun, hgap', hk', hdis, hbuf', hhold', hv', hsz⟩ :=
      processInboundQueue_drains
        (c := { s.channel with session := s', inSeqNum := s.channel.inSeqNum + 1 })
        (j := k + 1) hok.fixed hsocket hproc.payloads hbuf hvalid (Nat.lt_succ_self _)
        (by simp [hseq]) hbelow
        (fun n => by
          rw [← hhold.1 n, received_snoc, heq]
          constructor
          · rintro ⟨hle, hr | hn⟩
            · exact ⟨by push_cast at hle; omega, hr⟩
            · push_cast at hle
              omega
          · rintro ⟨hn, hr⟩
            exact ⟨by push_cast; omega, Or.inl hr⟩)
        (fun n x hx => by
          obtain ⟨hn, b, hb, hbx⟩ := hhold.2 n x hx
          exact ⟨hn, b, List.mem_append_left _ hb, hbx⟩)
        hnext
    rw [hseq, heq, if_neg (lt_irrefl _), if_neg (lt_irrefl _)] at hhandle
    have hret : handleMsg codec a.socket a.message s.channel = (.ok (payload ++ more), c') := by
      rw [hhandle]
      exact bind_ok.mpr ⟨payload, _, hstep, bind_ok.mpr ⟨more, c', hrun, pure_ok.mpr ⟨rfl, rfl⟩⟩⟩
    refine ⟨⟨c', s.returned ++ (payload ++ more)⟩, by simp [step, hret], k', buf', hgap', hk',
      by simpa using hdis, hbuf', hhold', hv', hsz.trans hsize⟩
  · have hgap' := hgap.snoc (a := a) hgt.ne'
    obtain ⟨buf', hadd⟩ := hhold.add_isSome hvalid hsize hgt
      (hok.fits _ (List.prefix_refl _) k hgap')
    rw [hseq, if_neg hgt.not_gt, if_pos hgt, hadd] at hhandle
    have hret : handleMsg codec a.socket a.message s.channel =
        (.ok [], { s.channel with inMsgBuf := some buf' }) := by
      rw [hhandle]
      exact bind_ok.mpr ⟨(), _, write_ok.mpr rfl, bind_ok.mpr ⟨(), _,
        require_ok.mpr ⟨(hsocket a.message).1, rfl⟩, pure_ok.mpr ⟨rfl, rfl⟩⟩⟩
    refine ⟨⟨{ s.channel with inMsgBuf := some buf' }, s.returned⟩, by simp [step, hret], k, buf',
      hgap', hseq, hshown, rfl, hhold.snoc_added hvalid hgt hadd, hvalid.add hadd,
      (MessageBuffer.add_size hadd).trans hsize⟩

theorem Orderly.append_left {size : Nat} {bs : List Arrival} (h : Orderly size stream (arrivals ++ bs)) :
    Orderly size stream arrivals where
  data a ha := h.data a (List.mem_append_left _ ha)
  fixed a ha := h.fixed a (List.mem_append_left _ ha)
  acked a ha := h.acked a (List.mem_append_left _ ha)
  fits pre hpre := h.fits pre (hpre.trans (List.prefix_append _ _))

theorem Processable.append_left {bs : List Arrival}
    (h : Processable codec stream session (arrivals ++ bs)) :
    Processable codec stream session arrivals where
  responses a ha := h.responses a (List.mem_append_left _ ha)
  payloads k hk := h.payloads k fun j hj => by
    obtain ⟨a, ha, haj⟩ := hk j hj
    exact ⟨a, List.mem_append_left _ ha, haj⟩

theorem inOrder_opened (codec : Codec) (size : Nat) (stream : Stream) (session : Session) :
    InOrder codec size stream session [] (opened size session) := by
  refine ⟨0, MessageBuffer.new size, ⟨nofun, nofun⟩, rfl, rfl, rfl, ⟨fun n => ?_, nofun⟩,
    MessageBuffer.valid_new size, rfl⟩
  simp [Received, MessageBuffer.new, MessageBuffer.get]

/-- Whatever the order of arrival and however often a message comes, each is shown once and in
its turn. -/
theorem delivers_in_order (codec : Codec) (size : Nat) (stream : Stream) (session : Session)
    {arrivals : List Arrival} (hok : Orderly size stream arrivals)
    (hproc : Processable codec stream session arrivals) :
    ∀ pre, pre <+: arrivals → ∃ s, run (step codec) (opened size session) pre = some s ∧
      InOrder codec size stream session pre s := by
  rintro pre ⟨suf, rfl⟩
  replace hok := hok.append_left
  replace hproc := hproc.append_left
  induction pre using List.reverseRecOn with
  | nil => exact ⟨_, rfl, inOrder_opened codec size stream session⟩
  | append_singleton pre a ih =>
      obtain ⟨s, hrun, hs⟩ := ih hok.append_left hproc.append_left
      obtain ⟨s', hstep, hs'⟩ := step_inOrder hs hok hproc
      exact ⟨s', run_append.mpr ⟨s, hrun, run_cons.mpr ⟨s', hstep, rfl⟩⟩, hs'⟩

theorem card_outstanding_le (arrivals : List Arrival) (k : Nat) :
    (outstanding arrivals k).card ≤ arrivals.length := by
  refine (Finset.card_filter_le _ _).trans ((List.toFinset_card_le _).trans ?_)
  simp

def plainCodec : Codec where
  handshakeRequest _ := none
  challengeRequest _ := none
  channelClosed _ := none
  acknowledged _ := none
  aeadOpen _ _ _ := none

def openSocket : Socket := ⟨fun _ => true, fun _ => true⟩

def outputArrival (n : Int) (payload : Bytes) : Arrival :=
  ⟨⟨.outputStreamData, n, [], .output, payload⟩, openSocket⟩

def countingStream : Stream := fun n => (.output, [UInt8.ofNat n.toNat])

def shuffledArrivals : List Arrival :=
  [outputArrival 1 [1], outputArrival 0 [0], outputArrival 1 [1], outputArrival 2 [2]]

theorem display_countingStream (k : Nat) :
    ∃ shown, display plainCodec countingStream ⟨none, none, false⟩ k =
      .ok (shown, ⟨none, none, false⟩) := by
  induction k with
  | zero => exact ⟨_, rfl⟩
  | succ k ih =>
      obtain ⟨shown, hs⟩ := ih
      refine ⟨shown ++ (countingStream k).2, ?_⟩
      simp only [display, hs]
      rfl

theorem delivers_in_order_shuffled :
    ∃ s, run (step plainCodec) (opened dataChannelBufferSize ⟨none, none, false⟩)
        shuffledArrivals = some s ∧
      InOrder plainCodec dataChannelBufferSize countingStream ⟨none, none, false⟩
        shuffledArrivals s := by
  have hall : ∀ a ∈ shuffledArrivals, a.message.messageType = .outputStreamData ∧
      (a.message.payloadType, a.message.payload) = countingStream a.message.sequenceNumber ∧
      a.socket = openSocket := by
    simp [shuffledArrivals, outputArrival, countingStream]
  refine delivers_in_order plainCodec dataChannelBufferSize countingStream ⟨none, none, false⟩
    ⟨fun a ha => (hall a ha).1, fun a ha => (hall a ha).2.1, fun a ha m => ?_,
      fun pre hpre k _ => ?_⟩ ⟨fun a ha m => ?_, fun k _ => ?_⟩ _ (List.prefix_refl _)
  · rw [(hall a ha).2.2]
    rfl
  · refine (card_outstanding_le pre k).trans (hpre.length_le.trans ?_)
    decide
  · rw [(hall a ha).2.2]
    rfl
  · obtain ⟨shown, hs⟩ := display_countingStream k
    exact ⟨shown, _, hs⟩

def challengeArrival : Arrival :=
  ⟨⟨.outputStreamData, 0, [], .encChallengeRequest, []⟩, openSocket⟩

/-- A challenge in a session without encryption is an error and stays the expected message. -/
theorem challenge_stays_expected :
    Orderly dataChannelBufferSize (fun _ => (.encChallengeRequest, [])) [challengeArrival] ∧
      GapFree [challengeArrival] 1 ∧
      ∃ s, run (step plainCodec) (opened dataChannelBufferSize ⟨none, none, false⟩)
        [challengeArrival] = some s ∧ s.channel.inSeqNum ≠ 1 := by
  refine ⟨⟨?_, ?_, ?_, fun pre hpre k _ => ?_⟩, ⟨fun j hj => ?_, ?_⟩, _, rfl, ?_⟩
  · simp [challengeArrival]
  · simp [challengeArrival]
  · simp [challengeArrival, openSocket]
  · refine (card_outstanding_le pre k).trans (hpre.length_le.trans ?_)
    decide
  · obtain rfl : j = 0 := by omega
    exact ⟨challengeArrival, by simp, rfl⟩
  · simp [Received, challengeArrival]
  · decide

end Dolgate.Ssm
