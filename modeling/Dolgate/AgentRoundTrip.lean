import Dolgate.AgentFrames

set_option autoImplicit false

namespace Dolgate.AgentFrames
open GoBytes GoSlices
open Ssm (Bytes bigEndian agentMsgHeaderLen)

theorem convertMessageType_length (messageType : Bytes) :
    (convertMessageType messageType).length = 32 := by
  rw [convertMessageType]
  split_ifs with hlong
  · exact List.length_take_of_le hlong
  · rw [List.length_append, List.length_replicate]
    omega

theorem convertMessageType_eq {messageType : Bytes} (h : messageType.length ≤ 32) :
    convertMessageType messageType =
      messageType ++ List.replicate (32 - messageType.length) 32 := by
  rw [convertMessageType]
  split_ifs with hlong
  · rw [List.take_of_length_le h, Nat.sub_eq_zero_of_le hlong, List.replicate_zero,
      List.append_nil]
  · rfl

theorem parseMessageType_convertMessageType {messageType : Bytes} (hleast : 3 ≤ messageType.length)
    (hmost : messageType.length ≤ 32) (htrim : trimSpace messageType = messageType)
    (hnul : messageType.getLast? ≠ some 0) :
    parseMessageType (convertMessageType messageType) = messageType := by
  rw [convertMessageType_eq hmost, parseMessageType]
  have hkept : (messageType ++ List.replicate (32 - messageType.length) 32).rdropWhile (· == 0) =
      messageType ++ List.replicate (32 - messageType.length) 32 := by
    rw [List.rdropWhile_eq_self_iff]
    intro hne hlast
    have hzero : (messageType ++ List.replicate (32 - messageType.length) 32).getLast? = some 0 := by
      rw [List.getLast?_eq_some_getLast hne, eq_of_beq hlast]
    cases hpad : 32 - messageType.length with
    | zero =>
        rw [hpad, List.replicate_zero, List.append_nil] at hzero
        exact hnul hzero
    | succ n =>
        rw [hpad, List.replicate_succ', ← List.append_assoc, List.getLast?_concat] at hzero
        cases hzero
  rw [hkept, trimSpace_append_blanks htrim hleast]

theorem ofNat_uint_bigEndian_uint32 (n : UInt32) :
    UInt32.ofNat (uint (bigEndian 4 n.toNat)) = n := by
  have hlt : n.toNat < 256 ^ 4 := n.toNat_lt
  rw [uint_bigEndian, Nat.mod_eq_of_lt hlt, UInt32.ofNat_toNat]

theorem ofNat_uint_bigEndian_uint64 (n : UInt64) :
    UInt64.ofNat (uint (bigEndian 8 n.toNat)) = n := by
  have hlt : n.toNat < 256 ^ 8 := n.toNat_lt
  rw [uint_bigEndian, Nat.mod_eq_of_lt hlt, UInt64.ofNat_toNat]

namespace AgentMessage

def parts (m : AgentMessage) (digest : Bytes) : List Bytes :=
  [bigEndian 4 m.headerLength.toNat, convertMessageType m.messageType,
    bigEndian 4 m.schemaVersion.toNat, bigEndian 8 ((m.createdDate.getD 0) / 1000000).toUInt64.toNat,
    bigEndian 8 m.sequenceNumber.toUInt64.toNat, bigEndian 8 m.flags.toNat,
    field m.messageID.toList 8 16, field m.messageID.toList 0 8, digest,
    bigEndian 4 m.payloadType.toNat, bigEndian 4 m.payloadLength.toNat, m.payload]

variable (sha256 : Bytes → Vector UInt8 32)

/-- The message as `marshalBinary` leaves it. -/
def marshalled (m : AgentMessage) : AgentMessage :=
  { m with
    payloadDigest := (sha256 m.payload).toList
    payloadLength := UInt32.ofNat m.payload.length }

theorem marshalBinary_valid {m : AgentMessage} (h : (m.marshalled sha256).Valid) :
    m.marshalBinary sha256 =
      some (.ok ((m.marshalled sha256).parts (sha256 m.payload).toList).flatten,
        m.marshalled sha256) := by
  have hvalidate : (m.marshalled sha256).validateMessage sha256 = (none, m.marshalled sha256) :=
    validateMessage_valid sha256 h
  have hwhole : Slice.whole m.messageID.toList =
      .part m.messageID.toList 0 16 (Nat.zero_le _) (by simp) := by
    simp [Slice.whole, Slice.part]
  obtain ⟨id, hformat, helements⟩ := formatUUIDBytes_part m.messageID.toList 0 (by simp)
  have hid : formatUUIDBytes (.whole m.messageID.toList) = some (id, _) := hwhole ▸ hformat
  have helements : id.elements = field m.messageID.toList 8 16 ++ field m.messageID.toList 0 8 :=
    helements
  have hdigest : (Slice.whole (sha256 m.payload).toList).sub 0 sha256Size =
      some (.part (sha256 m.payload).toList 0 32 (by decide) (by simp)) := Slice.sub_whole _ _
  have hbytes : field (sha256 m.payload).toList 0 32 = (sha256 m.payload).toList := by
    simp [field]
  simp only [marshalled] at hvalidate
  simp only [marshalBinary, sha256PayloadDigest, hvalidate, bind, hid, hdigest, Option.bind_some,
    Slice.elements_part, hbytes, helements, pure, parts, marshalled, List.flatten_cons,
    List.flatten_nil, List.append_nil, List.append_assoc]

/-- A message of `NewAgentMessage` whose exported fields have been filled in. -/
def filled (now : Int64) (messageID : Vector UInt8 16) (messageType : Bytes)
    (sequenceNumber : Int64) (flags : UInt64) (payloadType : UInt32) (payload : Bytes) :
    AgentMessage :=
  { new now messageID with messageType, sequenceNumber, flags, payloadType, payload }

def toMillisecond (date : Int64) : Int64 := date / 1000000 * 1000000

theorem toInt_toMillisecond (date : Int64) :
    (toMillisecond date).toInt = date.toInt.tdiv 1000000 * 1000000 := by
  have hlow := date.le_toInt
  have hhigh := date.toInt_lt
  have hquotient : (date / 1000000).toInt = date.toInt.tdiv 1000000 :=
    Int64.toInt_div_of_ne_right date 1000000 (by decide)
  have hmul : (toMillisecond date).toInt = (date.toInt.tdiv 1000000 * 1000000).bmod (2 ^ 64) := by
    rw [toMillisecond, Int64.toInt_mul, hquotient]
    rfl
  have hwithin : -2 ^ 63 ≤ date.toInt.tdiv 1000000 * 1000000 ∧
      date.toInt.tdiv 1000000 * 1000000 < 2 ^ 63 := by
    rcases le_total 0 date.toInt with hpos | hneg
    · rw [Int.tdiv_eq_ediv_of_nonneg hpos]
      omega
    · have hopposite : date.toInt.tdiv 1000000 = -(-date.toInt / 1000000) := by
        rw [← Int.tdiv_eq_ediv_of_nonneg (by omega), Int.neg_tdiv, neg_neg]
      rw [hopposite]
      omega
  rw [hmul, Int.bmod_eq_of_le]
  · omega
  · omega

/-- The frame of a message is read as the message that `marshalBinary` has left, its date cut
down to the millisecond. -/
def RoundTrips (m : AgentMessage) : Prop :=
  ∃ frame sent, m.marshalBinary sha256 = some (.ok frame, sent) ∧ ∀ receiver : AgentMessage,
    ∃ data, receiver.unmarshalBinary sha256 frame =
      some ⟨{ sent with createdDate := sent.createdDate.map toMillisecond }, data, none⟩

section Parts

variable {m : AgentMessage} {digest : Bytes}

theorem field_parts (before : List Bytes) {part : Bytes} {after : List Bytes} {low high : Nat}
    (hparts : m.parts digest = before ++ part :: after) (hlow : before.flatten.length = low)
    (hhigh : low + part.length = high) : field (m.parts digest).flatten low high = part := by
  rw [hparts]
  exact field_flatten before part after hlow hhigh

theorem parts_length (h : digest.length = 32) :
    (m.parts digest).flatten.length = 120 + m.payload.length := by
  simp [parts, convertMessageType_length, h, field_length]
  omega

theorem declaredHeader_parts : declaredHeader (m.parts digest).flatten = m.headerLength := by
  have hfield : field (m.parts digest).flatten 0 4 = bigEndian 4 m.headerLength.toNat :=
    field_parts [] rfl rfl (by simp)
  rw [declaredHeader, hfield, ofNat_uint_bigEndian_uint32]

theorem messageID_parts {id : Vector UInt8 16}
    (hid : id.toList = field (m.parts digest).flatten 72 80 ++
      field (m.parts digest).flatten 64 72) : id = m.messageID := by
  have hhigh : field (m.parts digest).flatten 64 72 = field m.messageID.toList 8 16 :=
    field_parts ((m.parts digest).take 6) rfl (by simp [parts, convertMessageType_length])
      (by simp [field_length])
  have hlow : field (m.parts digest).flatten 72 80 = field m.messageID.toList 0 8 :=
    field_parts ((m.parts digest).take 7) rfl
      (by simp [parts, convertMessageType_length, field_length]) (by simp [field_length])
  have hall : field m.messageID.toList 0 16 = m.messageID.toList := by
    simp [field]
  rw [hlow, hhigh, field_append (by decide) (by decide), hall] at hid
  exact Vector.toList_inj.mp hid

variable (hheader : m.headerLength = 116) (hdigest : digest.length = 32)
include hheader

theorem payloadStart_parts : payloadStart (m.parts digest).flatten = 120 := by
  rw [payloadStart, declaredHeader_parts, hheader]
  rfl

include hdigest

theorem declaredPayload_parts : declaredPayload (m.parts digest).flatten = m.payloadLength := by
  have hfield : field (m.parts digest).flatten 116 120 = bigEndian 4 m.payloadLength.toNat :=
    field_parts ((m.parts digest).take 10) rfl
      (by simp [parts, convertMessageType_length, hdigest, field_length]) (by simp)
  have hdeclared : (declaredHeader (m.parts digest).flatten).toNat = 116 := by
    rw [declaredHeader_parts, hheader]
    rfl
  rw [declaredPayload, hdeclared, payloadStart_parts hheader, hfield, ofNat_uint_bigEndian_uint32]

theorem payload_parts (hpayload : m.payload.length = m.payloadLength.toNat) :
    field (m.parts digest).flatten (payloadStart (m.parts digest).flatten)
      (payloadEnd (m.parts digest).flatten) = m.payload := by
  rw [payloadEnd, payloadStart_parts hheader, declaredPayload_parts hheader hdigest]
  exact field_parts ((m.parts digest).take 11) rfl
    (by simp [parts, convertMessageType_length, hdigest, field_length]) (by rw [hpayload])

theorem framed_parts (hpayload : m.payload.length = m.payloadLength.toNat) :
    Framed (m.parts digest).flatten where
  least := by
    rw [parts_length hdigest]
    exact (by decide : 116 ≤ 120).trans (Nat.le_add_right _ _)
  low := by
    rw [declaredHeader_parts, hheader]
    decide
  high := by
    rw [declaredHeader_parts, hheader]
    decide
  body := by
    rw [payloadEnd, payloadStart_parts hheader, declaredPayload_parts hheader hdigest,
      parts_length hdigest, hpayload]

theorem received_parts (receiver : AgentMessage) (hdate : m.createdDate ≠ none)
    (hpayload : m.payload.length = m.payloadLength.toNat)
    (htype : parseMessageType (convertMessageType m.messageType) = m.messageType)
    (digest' : Bytes) :
    receiver.received (m.parts digest).flatten m.messageID digest' =
      { m with payloadDigest := digest', createdDate := m.createdDate.map toMillisecond } := by
  have hmessageType : field (m.parts digest).flatten 4 36 = convertMessageType m.messageType :=
    field_parts ((m.parts digest).take 1) rfl (by simp [parts]) (by rw [convertMessageType_length])
  have hschema : field (m.parts digest).flatten 36 40 = bigEndian 4 m.schemaVersion.toNat :=
    field_parts ((m.parts digest).take 2) rfl (by simp [parts, convertMessageType_length])
      (by simp)
  have hcreated : field (m.parts digest).flatten 40 48 =
      bigEndian 8 ((m.createdDate.getD 0) / 1000000).toUInt64.toNat :=
    field_parts ((m.parts digest).take 3) rfl (by simp [parts, convertMessageType_length])
      (by simp)
  have hsequence : field (m.parts digest).flatten 48 56 =
      bigEndian 8 m.sequenceNumber.toUInt64.toNat :=
    field_parts ((m.parts digest).take 4) rfl (by simp [parts, convertMessageType_length])
      (by simp)
  have hflags : field (m.parts digest).flatten 56 64 = bigEndian 8 m.flags.toNat :=
    field_parts ((m.parts digest).take 5) rfl (by simp [parts, convertMessageType_length])
      (by simp)
  have hpayloadType : field (m.parts digest).flatten 112 116 = bigEndian 4 m.payloadType.toNat :=
    field_parts ((m.parts digest).take 9) rfl
      (by simp [parts, convertMessageType_length, hdigest, field_length]) (by simp)
  have hfull : m.headerLength.toNat = agentMsgHeaderLen := by
    rw [hheader]
    rfl
  have hbody := payload_parts hheader hdigest hpayload
  obtain ⟨date, hsome⟩ := Option.ne_none_iff_exists'.mp hdate
  rw [hsome, Option.getD_some] at hcreated
  simp only [received, hmessageType, htype, hschema, hcreated, hsequence, hflags, hpayloadType,
    if_pos hfull, hbody, declaredHeader_parts, declaredPayload_parts hheader hdigest,
    ofNat_uint_bigEndian_uint32, ofNat_uint_bigEndian_uint64, Int64.toInt64_toUInt64, hsome]
  rfl

end Parts

theorem filled_valid {m : AgentMessage} (hheader : m.headerLength = 116) (hschema : m.schemaVersion = 1)
    (hdate : m.createdDate ≠ none) (htype : 10 ≤ m.messageType.length)
    (hpayload : m.payload.length < 2 ^ 32) : (m.marshalled sha256).Valid where
  low := by
    simp [marshalled, hheader, agentMsgMinHeaderLen, agentMsgHeaderLen]
  high := by
    simp [marshalled, hheader, agentMsgHeaderLen]
  schema := by
    simp [marshalled, hschema]
  messageType := htype
  date := hdate
  payload := (UInt32.toNat_ofNat_of_lt' hpayload).symm

theorem unmarshalBinary_parts {m : AgentMessage} {digest : Bytes} (hheader : m.headerLength = 116)
    (hdigest : digest.length = 32) (hvalid : m.Valid)
    (htype : parseMessageType (convertMessageType m.messageType) = m.messageType)
    (receiver : AgentMessage) :
    ∃ data, receiver.unmarshalBinary sha256 (m.parts digest).flatten =
      some ⟨{ m with
        payloadDigest := (sha256 m.payload).toList
        createdDate := m.createdDate.map toMillisecond }, data, none⟩ := by
  obtain ⟨id, hid, hread⟩ := receiver.unmarshalBinary_framed sha256
    (framed_parts hheader hdigest hvalid.payload)
  cases messageID_parts hid
  have hpayload := payload_parts hheader hdigest hvalid.payload
  have hreceived := received_parts hheader hdigest receiver hvalid.date hvalid.payload htype
  rw [hpayload, hreceived, hreceived] at hread
  rcases hread with ⟨-, hread⟩ | ⟨hinvalid, -⟩
  · exact ⟨_, hread⟩
  · refine absurd ⟨hvalid.low, hvalid.high, hvalid.schema, hvalid.messageType, ?_, hvalid.payload⟩
      hinvalid
    simpa using hvalid.date

theorem round_trips {m : AgentMessage} (hheader : m.headerLength = 116)
    (hschema : m.schemaVersion = 1) (hdate : m.createdDate ≠ none)
    (hleast : 10 ≤ m.messageType.length) (hmost : m.messageType.length ≤ 32)
    (htrim : trimSpace m.messageType = m.messageType) (hnul : m.messageType.getLast? ≠ some 0)
    (hpayload : m.payload.length < 2 ^ 32) : m.RoundTrips sha256 := by
  have hvalid := filled_valid sha256 hheader hschema hdate hleast hpayload
  have hdigest : (sha256 m.payload).toList.length = 32 := by
    simp
  have htype := parseMessageType_convertMessageType (by omega) hmost htrim hnul
  exact ⟨_, _, marshalBinary_valid sha256 hvalid,
    unmarshalBinary_parts sha256 (m := m.marshalled sha256) hheader hdigest hvalid htype⟩

/-- `RoundTrips` for the messages that a frame has room for, and no panic on any bytes. -/
theorem agent_message_round_trip (now : Int64) (messageID : Vector UInt8 16) {messageType : Bytes}
    (sequenceNumber : Int64) (flags : UInt64) (payloadType : UInt32) {payload : Bytes}
    (hleast : 10 ≤ messageType.length) (hmost : messageType.length ≤ 32)
    (htrim : trimSpace messageType = messageType) (hnul : messageType.getLast? ≠ some 0)
    (hpayload : payload.length < 2 ^ 32) :
    (filled now messageID messageType sequenceNumber flags payloadType payload).RoundTrips sha256 ∧
      (toMillisecond now).toInt = now.toInt.tdiv 1000000 * 1000000 ∧
      ∀ (receiver : AgentMessage) (data : Bytes), (receiver.unmarshalBinary sha256 data).isSome :=
  ⟨round_trips sha256 rfl rfl (Option.some_ne_none _) hleast hmost htrim hnul hpayload,
    toInt_toMillisecond now, unmarshalBinary_isSome sha256⟩

theorem agent_message_round_trip_acknowledge :
    (filled 1714521600123456789 (Vector.replicate 16 1) (ascii "acknowledge") 3 0 1
      []).RoundTrips (fun _ => emptyDigest) :=
  (agent_message_round_trip (fun _ => emptyDigest) 1714521600123456789 (Vector.replicate 16 1) 3 0 1
    (by decide) (by decide) (by decide +kernel) (by decide) (by decide)).1

theorem short_message_type_not_sent :
    (ascii "flag").length ≤ 32 ∧ trimSpace (ascii "flag") = ascii "flag" ∧
      ¬ (filled 0 (Vector.replicate 16 1) (ascii "flag") 0 0 1 []).RoundTrips
        fun _ => emptyDigest := by
  refine ⟨by decide, by decide +kernel, ?_⟩
  intro ⟨frame, sent, hsent, _⟩
  have hrefused : ((filled 0 (Vector.replicate 16 1) (ascii "flag") 0 0 1 []).marshalBinary
      fun _ => emptyDigest).map (fun r => r.1.isOk) = some false := by
    decide
  rw [hsent] at hrefused
  cases hrefused

end AgentMessage

end Dolgate.AgentFrames
