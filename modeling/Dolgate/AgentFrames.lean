import Dolgate.DataChannelOutbound
import Dolgate.GoSlices

set_option autoImplicit false

namespace Dolgate.AgentFrames
open GoBytes GoSlices
open Ssm (Bytes bigEndian agentMsgHeaderLen)

def agentMsgMinHeaderLen : Nat := agentMsgHeaderLen - 4

def payloadLengthFieldLen : Nat := 4

def sha256Size : Nat := 32

/-- `createdDate` is in nanoseconds, and `none` is the zero time. -/
structure AgentMessage where
  headerLength : UInt32
  messageType : Bytes
  schemaVersion : UInt32
  createdDate : Option Int64
  sequenceNumber : Int64
  flags : UInt64
  messageID : Vector UInt8 16
  payloadDigest : Bytes
  payloadType : UInt32
  payloadLength : UInt32
  payload : Bytes
deriving DecidableEq, Repr

def uint (data : Bytes) : Nat := data.foldl (fun n b => 256 * n + b.toNat) 0

/-- `binary.BigEndian.Uint32`, which panics where bytes are missing. -/
def uint32 (s : Slice UInt8) : Option UInt32 := do
  let s ← s.sub 0 4
  return UInt32.ofNat (uint s.elements)

def uint64 (s : Slice UInt8) : Option UInt64 := do
  let s ← s.sub 0 8
  return UInt64.ofNat (uint s.elements)

def parseMessageType (data : Bytes) : Bytes := trimSpace (data.rdropWhile (· == 0))

def parseTime (s : Slice UInt8) : Option Int64 := do
  let ts ← uint64 s
  return ts.toInt64 * 1000000

/-- The result, and the array of `data` as it is afterwards. -/
def formatUUIDBytes (data : Slice UInt8) : Option (Slice UInt8 × Bytes) := do
  let low ← data.sub 8 data.length
  let high ← data.sub 0 8
  return low.append high.elements

/-- `uuid.Must(uuid.FromBytes(b))` -/
def uuidOf (b : Bytes) : Option (Vector UInt8 16) :=
  if h : b.length = 16 then some ⟨b.toArray, h⟩ else none

def convertMessageType (messageType : Bytes) : Bytes :=
  if 32 ≤ messageType.length then messageType.take 32
  else messageType ++ List.replicate (32 - messageType.length) 32

namespace AgentMessage

def new (now : Int64) (messageID : Vector UInt8 16) : AgentMessage where
  headerLength := UInt32.ofNat agentMsgHeaderLen
  messageType := []
  schemaVersion := 1
  createdDate := some now
  sequenceNumber := 0
  flags := 0
  messageID := messageID
  payloadDigest := []
  payloadType := 0
  payloadLength := 0
  payload := []

section Digest

variable (sha256 : Bytes → Vector UInt8 32)

def sha256PayloadDigest (m : AgentMessage) : Bytes × AgentMessage :=
  ((sha256 m.payload).toList, { m with payloadDigest := (sha256 m.payload).toList })

def validateMessage (m : AgentMessage) : Option String × AgentMessage :=
  if agentMsgHeaderLen < m.headerLength.toNat ∨ m.headerLength.toNat < agentMsgHeaderLen - 4 then
    (some "invalid message header length", m)
  else if m.schemaVersion < 1 then (some "invalid schema version", m)
  else if m.messageType.length < 10 then (some "invalid message type", m)
  else if m.createdDate = none then (some "invalid message date", m)
  else if m.messageID.toList.length ≠ 16 then (some "invalid message id", m)
  else if m.payload.length ≠ m.payloadLength.toNat then
    (some ("payload length mismatch, WANT: " ++ toString m.payloadLength.toNat ++ ", GOT: " ++
      toString m.payload.length), m)
  else
    -- The field is read after the call beside it. Read before, it would hold the digest of the
    -- frame with half of the message id in it, and no frame that is in order would be accepted.
    let (digest, m) := m.sha256PayloadDigest sha256
    if digest ≠ m.payloadDigest then (some "payload digest mismatch", m) else (none, m)

/-- The fields of the receiver, taken from a frame whose lengths are right, and the frame as it
is afterwards. `none` is a panic. -/
def assign (m : AgentMessage) (data : Bytes) (headerLength payloadLength : UInt32) :
    Option (AgentMessage × Bytes) := do
  let frame := Slice.whole data
  let messageType := parseMessageType (← frame.sub 4 36).elements
  let schemaVersion ← uint32 (← frame.sub 36 40)
  let createdDate ← parseTime (← frame.sub 40 48)
  let sequenceNumber ← uint64 (← frame.sub 48 56)
  let flags ← uint64 (← frame.sub 56 64)
  let (id, data) ← formatUUIDBytes (← frame.sub 64 80)
  let frame := Slice.whole data
  let messageID ← uuidOf id.elements
  let payloadDigest ← frame.sub 80 (80 + sha256Size)
  let payloadType ←
    if headerLength.toNat = agentMsgHeaderLen then
      uint32 (← frame.sub 112 headerLength.toNat)
    else some m.payloadType
  let payloadLenEnd := headerLength.toNat + payloadLengthFieldLen
  let payload ← frame.sub payloadLenEnd (payloadLenEnd + payloadLength.toNat)
  return ({
    headerLength, messageType, schemaVersion, createdDate := some createdDate
    sequenceNumber := sequenceNumber.toInt64
    flags, messageID, payloadDigest := payloadDigest.elements, payloadType, payloadLength
    payload := payload.elements }, data)

structure Unmarshalled where
  message : AgentMessage
  data : Bytes
  error : Option String
deriving DecidableEq, Repr

def unmarshalBinary (m : AgentMessage) (data : Bytes) : Option Unmarshalled :=
  let refused (error : String) : Option Unmarshalled := some ⟨m, data, some error⟩
  if data.length < agentMsgMinHeaderLen + payloadLengthFieldLen then
    refused ("ssm frame too short: " ++ toString data.length ++ " bytes")
  else do
    let headerLength ← uint32 (.whole data)
    if headerLength.toNat < agentMsgMinHeaderLen ∨ agentMsgHeaderLen < headerLength.toNat then
      refused ("invalid message header length: " ++ toString headerLength.toNat)
    else
      let payloadLenEnd := headerLength.toNat + payloadLengthFieldLen
      if data.length < payloadLenEnd then
        refused ("ssm frame too short for its " ++ toString headerLength.toNat ++
          " byte header: " ++ toString data.length ++ " bytes")
      else do
        let payloadLength ← uint32 (← (Slice.whole data).sub headerLength.toNat payloadLenEnd)
        if data.length < payloadLenEnd + payloadLength.toNat then
          refused ("payload length mismatch, WANT: " ++ toString payloadLength.toNat ++ ", GOT: " ++
            toString (data.length - payloadLenEnd))
        else do
          let (message, data) ← m.assign data headerLength payloadLength
          let (error, message) := message.validateMessage sha256
          return ⟨message, data, error⟩

def marshalBinary (m : AgentMessage) : Option (Except String Bytes × AgentMessage) :=
  let (_, m) := m.sha256PayloadDigest sha256
  let m := { m with payloadLength := UInt32.ofNat m.payload.length }
  match m.validateMessage sha256 with
  | (some error, m) => some (.error error, m)
  | (none, m) => do
      let (id, _) ← formatUUIDBytes (.whole m.messageID.toList)
      let digest ← (Slice.whole m.payloadDigest).sub 0 sha256Size
      return (.ok (bigEndian 4 m.headerLength.toNat ++ convertMessageType m.messageType ++
        bigEndian 4 m.schemaVersion.toNat ++
        bigEndian 8 ((m.createdDate.getD 0) / 1000000).toUInt64.toNat ++
        bigEndian 8 m.sequenceNumber.toUInt64.toNat ++ bigEndian 8 m.flags.toNat ++
        id.elements ++ digest.elements ++ bigEndian 4 m.payloadType.toNat ++
        bigEndian 4 m.payloadLength.toNat ++ m.payload), m)

end Digest

end AgentMessage

theorem foldl_uint (data : Bytes) (n : Nat) :
    data.foldl (fun n b => 256 * n + b.toNat) n = n * 256 ^ data.length + uint data := by
  induction data generalizing n with
  | nil => simp [uint]
  | cons b rest ih =>
      have hzero := ih (256 * 0 + b.toNat)
      rw [uint, List.foldl_cons, List.foldl_cons, ih, hzero, List.length_cons]
      ring

theorem uint_cons (b : UInt8) (rest : Bytes) :
    uint (b :: rest) = b.toNat * 256 ^ rest.length + uint rest := by
  rw [uint, List.foldl_cons, foldl_uint]
  simp

theorem uint_lt (data : Bytes) : uint data < 256 ^ data.length := by
  induction data with
  | nil => decide
  | cons b rest ih =>
      have hb := b.toNat_lt
      rw [uint_cons, List.length_cons, pow_succ]
      calc b.toNat * 256 ^ rest.length + uint rest
          < b.toNat * 256 ^ rest.length + 256 ^ rest.length := Nat.add_lt_add_left ih _
        _ = (b.toNat + 1) * 256 ^ rest.length := (Nat.succ_mul _ _).symm
        _ ≤ 256 * 256 ^ rest.length := Nat.mul_le_mul_right _ hb
        _ = 256 ^ rest.length * 256 := Nat.mul_comm _ _

theorem uint32_lt_one_iff (data : Bytes) (h : data.length = 4) :
    UInt32.ofNat (uint data) < 1 ↔ uint data = 0 := by
  have hlt := uint_lt data
  rw [h] at hlt
  rw [UInt32.lt_iff_toNat_lt, UInt32.toNat_ofNat_of_lt' hlt]
  exact Nat.lt_one_iff

theorem bigEndian_succ (width : Nat) (n : Int) :
    bigEndian (width + 1) n =
      UInt8.ofNat ((n / 256 ^ width) % 256).toNat :: bigEndian width n := by
  simp [bigEndian, List.range_succ]

@[simp] theorem bigEndian_length (width : Nat) (n : Int) : (bigEndian width n).length = width := by
  simp [bigEndian]

theorem uint_bigEndian (width n : Nat) : uint (bigEndian width n) = n % 256 ^ width := by
  induction width with
  | zero => simp [bigEndian, uint, Nat.mod_one]
  | succ width ih =>
      have hbyte : (UInt8.ofNat (((n : Int) / 256 ^ width) % 256).toNat).toNat =
          n / 256 ^ width % 256 := by
        have hcast : ((n : Int) / 256 ^ width) % 256 = ((n / 256 ^ width % 256 : Nat) : Int) := by
          push_cast
          rfl
        rw [hcast, Int.toNat_natCast, UInt8.toNat_ofNat']
        omega
      rw [bigEndian_succ, uint_cons, hbyte, ih, bigEndian_length, pow_succ, Nat.mod_mul]
      ring

theorem uint32_part (data : Bytes) {low high : Nat} (h : low ≤ high) (hhigh : high ≤ data.length)
    (hroom : low + 4 ≤ data.length) :
    uint32 (.part data low high h hhigh) = some (.ofNat (uint (field data low (low + 4)))) := by
  rw [uint32, Slice.sub_part h hhigh (Nat.zero_le 4) hroom]
  rfl

theorem uint64_part (data : Bytes) {low high : Nat} (h : low ≤ high) (hhigh : high ≤ data.length)
    (hroom : low + 8 ≤ data.length) :
    uint64 (.part data low high h hhigh) = some (.ofNat (uint (field data low (low + 8)))) := by
  rw [uint64, Slice.sub_part h hhigh (Nat.zero_le 8) hroom]
  rfl

theorem uuidOf_eq {b : Bytes} (h : b.length = 16) :
    ∃ id, uuidOf b = some id ∧ id.toList = b :=
  ⟨_, dif_pos h, by simp⟩

/-- The halves of an id change places; where there is room, the first is written behind the
second. -/
theorem formatUUIDBytes_part (data : Bytes) (low : Nat) (h : low + 16 ≤ data.length) :
    ∃ id, formatUUIDBytes (.part data low (low + 16) (Nat.le_add_right _ _) h) =
        some (id, if low + 24 ≤ data.length then
          overwritten data (low + 16) (field data low (low + 8)) else data) ∧
      id.elements = field data (low + 8) (low + 16) ++ field data low (low + 8) := by
  have hlength : (Slice.part data low (low + 16) (Nat.le_add_right _ _) h).length = 16 := by
    simp [Slice.part, Slice.length]
  have hhalf : (field data low (low + 8)).length = 8 := by
    rw [field_length (by omega)]
    omega
  have hformat : formatUUIDBytes (.part data low (low + 16) (Nat.le_add_right _ _) h) =
      some ((Slice.part data (low + 8) (low + 16) (Nat.add_le_add_left (by decide) low) h).append
        (field data low (low + 8))) := by
    rw [formatUUIDBytes, hlength, Slice.sub_part _ h (by decide) h,
      Slice.sub_part _ h (Nat.zero_le 8) (by omega)]
    rfl
  refine ⟨_, hformat.trans (congrArg some (Prod.ext rfl ?_)), Slice.append_part_elements _ _⟩
  rw [Slice.append_part_array, hhalf]

def declaredHeader (data : Bytes) : UInt32 := .ofNat (uint (field data 0 4))

def payloadStart (data : Bytes) : Nat := (declaredHeader data).toNat + payloadLengthFieldLen

def declaredPayload (data : Bytes) : UInt32 :=
  .ofNat (uint (field data (declaredHeader data).toNat (payloadStart data)))

def payloadEnd (data : Bytes) : Nat := payloadStart data + (declaredPayload data).toNat

theorem payloadStart_le (data : Bytes) : payloadStart data ≤ payloadEnd data :=
  Nat.le_add_right _ _

structure Framed (data : Bytes) : Prop where
  least : agentMsgMinHeaderLen + payloadLengthFieldLen ≤ data.length
  low : agentMsgMinHeaderLen ≤ (declaredHeader data).toNat
  high : (declaredHeader data).toNat ≤ agentMsgHeaderLen
  body : payloadEnd data ≤ data.length

def patched (data : Bytes) : Bytes := overwritten data 80 (field data 64 72)

theorem Framed.least_length {data : Bytes} (h : Framed data) : 116 ≤ data.length := h.least

theorem field_patched {data : Bytes} (h : Framed data) {low high : Nat} (hlow : 88 ≤ low) :
    field (patched data) low high = field data low high := by
  have hfirst : (field data 64 72).length = 8 := field_length (by have := h.least_length; omega)
  have := h.least_length
  exact field_overwritten_of_ge (by omega) (by omega)

theorem patched_length {data : Bytes} (h : Framed data) :
    (patched data).length = data.length := by
  have hfirst : (field data 64 72).length = 8 := field_length (by have := h.least_length; omega)
  have := h.least_length
  exact overwritten_length (by omega)

theorem payloadType_eq {data : Bytes} (h : Framed data)
    (hfull : (declaredHeader data).toNat = agentMsgHeaderLen) :
    ((Slice.whole (patched data)).sub 112 (declaredHeader data).toNat).bind uint32 =
      some (.ofNat (uint (field data 112 116))) := by
  have hlen : 116 ≤ (patched data).length := h.least_length.trans (patched_length h).ge
  have hsub : (Slice.whole (patched data)).sub 112 116 =
      some (.part (patched data) 112 116 (by decide) hlen) := Slice.sub_whole _ _
  rw [hfull, agentMsgHeaderLen, hsub, Option.bind_some, uint32_part _ _ _ hlen,
    field_patched h (by decide)]

namespace AgentMessage

def received (m : AgentMessage) (data : Bytes) (messageID : Vector UInt8 16)
    (payloadDigest : Bytes) : AgentMessage where
  headerLength := declaredHeader data
  messageType := parseMessageType (field data 4 36)
  schemaVersion := .ofNat (uint (field data 36 40))
  createdDate := some ((UInt64.ofNat (uint (field data 40 48))).toInt64 * 1000000)
  sequenceNumber := (UInt64.ofNat (uint (field data 48 56))).toInt64
  flags := .ofNat (uint (field data 56 64))
  messageID := messageID
  payloadDigest := payloadDigest
  payloadType :=
    if (declaredHeader data).toNat = agentMsgHeaderLen then .ofNat (uint (field data 112 116))
    else m.payloadType
  payloadLength := declaredPayload data
  payload := field data (payloadStart data) (payloadEnd data)

theorem assign_eq (m : AgentMessage) {data : Bytes} (h : Framed data) :
    ∃ messageID, messageID.toList = field data 72 80 ++ field data 64 72 ∧
      m.assign data (declaredHeader data) (declaredPayload data) =
        some (m.received data messageID (field (patched data) 80 112), patched data) := by
  have hlen : 116 ≤ data.length := h.least_length
  have hpatched := patched_length h
  have hsub : ∀ {i j : Nat} (hij : i ≤ j) (hj : j ≤ data.length),
      (Slice.whole data).sub i j = some (.part data i j hij hj) := Slice.sub_whole
  have hschema := uint32_part data (by decide : 36 ≤ 40) (by omega) (by omega)
  have hdate := uint64_part data (by decide : 40 ≤ 48) (by omega) (by omega)
  have hsequence := uint64_part data (by decide : 48 ≤ 56) (by omega) (by omega)
  have hflags := uint64_part data (by decide : 56 ≤ 64) (by omega) (by omega)
  obtain ⟨id, hid, helements⟩ := formatUUIDBytes_part data 64 (by omega)
  rw [if_pos (by omega)] at hid
  have hid : formatUUIDBytes (.part data 64 80 (by decide) (by omega)) = some (id, patched data) :=
    hid
  obtain ⟨messageID, huuid, hbytes⟩ := uuidOf_eq (b := id.elements) (by
    rw [helements, List.length_append, field_length (by omega), field_length (by omega)])
  have hdigest : (Slice.whole (patched data)).sub 80 (80 + sha256Size) =
      some (.part (patched data) 80 112 (by decide) (by omega)) := Slice.sub_whole _ _
  have hpayload : (Slice.whole (patched data)).sub
      ((declaredHeader data).toNat + payloadLengthFieldLen)
      ((declaredHeader data).toNat + payloadLengthFieldLen + (declaredPayload data).toNat) =
      some (.part (patched data) (payloadStart data) (payloadEnd data)
        (payloadStart_le data) (h.body.trans hpatched.ge)) := Slice.sub_whole _ _
  have hbody : field (patched data) (payloadStart data) (payloadEnd data) =
      field data (payloadStart data) (payloadEnd data) := field_patched h (by
    have hlow : 112 ≤ (declaredHeader data).toNat := h.low
    simp only [payloadStart]
    omega)
  refine ⟨messageID, hbytes.trans helements, ?_⟩
  rw [assign, hsub (by decide) (by omega : 36 ≤ data.length),
    hsub (by decide) (by omega : 40 ≤ data.length), hsub (by decide) (by omega : 48 ≤ data.length),
    hsub (by decide) (by omega : 56 ≤ data.length), hsub (by decide) (by omega : 64 ≤ data.length),
    hsub (by decide) (by omega : 80 ≤ data.length)]
  simp only [bind, Option.bind_some, parseTime, hschema, hdate, hsequence, hflags, hid, huuid, pure]
  rw [hdigest, Option.bind_some]
  by_cases hfull : (declaredHeader data).toNat = agentMsgHeaderLen
  · rw [if_pos hfull, ← Option.bind_assoc, payloadType_eq h hfull, Option.bind_some, hpayload,
      Option.bind_some]
    simp only [Slice.elements_part, hbody, received, if_pos hfull]
  · rw [if_neg hfull, hpayload, Option.bind_some]
    simp only [Slice.elements_part, hbody, received, if_neg hfull]

/-- What `validateMessage` finds in order. The digest always is. -/
structure Valid (m : AgentMessage) : Prop where
  low : agentMsgMinHeaderLen ≤ m.headerLength.toNat
  high : m.headerLength.toNat ≤ agentMsgHeaderLen
  schema : ¬ m.schemaVersion < 1
  messageType : 10 ≤ m.messageType.length
  date : m.createdDate ≠ none
  payload : m.payload.length = m.payloadLength.toNat

variable (sha256 : Bytes → Vector UInt8 32)

theorem validateMessage_valid {m : AgentMessage} (h : m.Valid) :
    m.validateMessage sha256 =
      (none, { m with payloadDigest := (sha256 m.payload).toList }) := by
  have hlow : ¬ m.headerLength.toNat < agentMsgHeaderLen - 4 := not_lt.mpr h.low
  have hid : ¬ m.messageID.toList.length ≠ 16 := by simp
  rw [validateMessage, if_neg (by simpa [hlow] using h.high), if_neg h.schema,
    if_neg (not_lt.mpr h.messageType), if_neg h.date, if_neg hid, if_neg (not_not.mpr h.payload)]
  exact if_neg (not_not.mpr rfl)

theorem validateMessage_invalid {m : AgentMessage} (h : ¬ m.Valid) :
    ∃ error, m.validateMessage sha256 = (some error, m) := by
  rw [validateMessage]
  split_ifs with hheader hschema htype hdate hid hpayload
  · exact ⟨_, rfl⟩
  · exact ⟨_, rfl⟩
  · exact ⟨_, rfl⟩
  · exact ⟨_, rfl⟩
  · exact ⟨_, rfl⟩
  · exact ⟨_, rfl⟩
  · rw [not_or, not_lt, not_lt] at hheader
    exact absurd ⟨hheader.2, hheader.1, hschema, not_lt.mp htype, hdate, not_not.mp hpayload⟩ h

theorem uint32_whole {data : Bytes} (h : 4 ≤ data.length) :
    uint32 (.whole data) = some (declaredHeader data) :=
  uint32_part data (Nat.zero_le _) le_rfl (by omega)

theorem unmarshalBinary_cases (m : AgentMessage) (data : Bytes) :
    (Framed data ∧ m.unmarshalBinary sha256 data =
      (m.assign data (declaredHeader data) (declaredPayload data)).bind fun r =>
        some ⟨(r.1.validateMessage sha256).2, r.2, (r.1.validateMessage sha256).1⟩) ∨
    (¬ Framed data ∧ ∃ error, m.unmarshalBinary sha256 data = some ⟨m, data, some error⟩) := by
  rw [unmarshalBinary]
  by_cases hleast : data.length < agentMsgMinHeaderLen + payloadLengthFieldLen
  · rw [if_pos hleast]
    exact .inr ⟨fun h => absurd h.least (not_le.mpr hleast), _, rfl⟩
  have hlen : 116 ≤ data.length := not_lt.mp hleast
  rw [if_neg hleast, uint32_whole (by omega)]
  simp only [bind, Option.bind_some]
  by_cases hheader : (declaredHeader data).toNat < agentMsgMinHeaderLen ∨
      agentMsgHeaderLen < (declaredHeader data).toNat
  · rw [if_pos hheader]
    refine .inr ⟨fun h => ?_, _, rfl⟩
    exact hheader.elim (not_lt.mpr h.low) (not_lt.mpr h.high)
  have hstart : (declaredHeader data).toNat + payloadLengthFieldLen = payloadStart data := rfl
  rw [if_neg hheader, hstart]
  by_cases hshort : data.length < payloadStart data
  · rw [if_pos hshort]
    exact .inr ⟨fun h => absurd ((payloadStart_le data).trans h.body) (not_le.mpr hshort), _, rfl⟩
  have hle : (declaredHeader data).toNat ≤ payloadStart data := Nat.le_add_right _ _
  have hpayload : uint32 (.part data (declaredHeader data).toNat (payloadStart data) hle
      (not_lt.mp hshort)) = some (declaredPayload data) :=
    uint32_part data _ _ (not_lt.mp hshort)
  have hend : payloadStart data + (declaredPayload data).toNat = payloadEnd data := rfl
  rw [if_neg hshort, Slice.sub_whole hle (not_lt.mp hshort), Option.bind_some, hpayload,
    Option.bind_some, hend]
  by_cases hbody : data.length < payloadEnd data
  · rw [if_pos hbody]
    exact .inr ⟨fun h => absurd h.body (not_le.mpr hbody), _, rfl⟩
  · rw [if_neg hbody]
    rw [not_or, not_lt, not_lt] at hheader
    exact .inl ⟨⟨hlen, hheader.1, hheader.2, not_lt.mp hbody⟩, rfl⟩

theorem received_valid_iff (m : AgentMessage) {data : Bytes} (h : Framed data)
    (id : Vector UInt8 16) (digest : Bytes) :
    (m.received data id digest).Valid ↔
      ¬ UInt32.ofNat (uint (field data 36 40)) < 1 ∧
        10 ≤ (parseMessageType (field data 4 36)).length := by
  have hpayload : (m.received data id digest).payload.length =
      (m.received data id digest).payloadLength.toNat := by
    rw [received, field_length h.body]
    exact Nat.add_sub_cancel_left _ _
  exact ⟨fun hv => ⟨hv.schema, hv.messageType⟩, fun hv =>
    ⟨h.low, h.high, hv.1, hv.2, Option.some_ne_none _, hpayload⟩⟩

theorem unmarshalBinary_framed (m : AgentMessage) {data : Bytes} (h : Framed data) :
    ∃ messageID, messageID.toList = field data 72 80 ++ field data 64 72 ∧
      ((m.received data messageID []).Valid ∧ m.unmarshalBinary sha256 data =
          some ⟨m.received data messageID
            (sha256 (field data (payloadStart data) (payloadEnd data))).toList, patched data, none⟩ ∨
        ¬ (m.received data messageID []).Valid ∧ ∃ message error,
          m.unmarshalBinary sha256 data = some ⟨message, patched data, some error⟩) := by
  obtain ⟨id, hid, hassign⟩ := m.assign_eq h
  have hread : m.unmarshalBinary sha256 data = (m.assign data (declaredHeader data)
      (declaredPayload data)).bind fun r =>
        some ⟨(r.1.validateMessage sha256).2, r.2, (r.1.validateMessage sha256).1⟩ :=
    (m.unmarshalBinary_cases sha256 data).elim And.right fun hrefused => absurd h hrefused.1
  rw [hassign, Option.bind_some] at hread
  refine ⟨id, hid, ?_⟩
  by_cases hvalid : (m.received data id []).Valid
  · have hdigest : (m.received data id (field (patched data) 80 112)).Valid :=
      (received_valid_iff m h id _).mpr ((received_valid_iff m h id _).mp hvalid)
    rw [validateMessage_valid sha256 hdigest] at hread
    exact .inl ⟨hvalid, hread⟩
  · have hdigest : ¬ (m.received data id (field (patched data) 80 112)).Valid := fun hd =>
      hvalid ((received_valid_iff m h id _).mpr ((received_valid_iff m h id _).mp hd))
    obtain ⟨error, herror⟩ := validateMessage_invalid sha256 hdigest
    rw [herror] at hread
    exact .inr ⟨hvalid, _, error, hread⟩

theorem unmarshalBinary_isSome (m : AgentMessage) (data : Bytes) :
    (m.unmarshalBinary sha256 data).isSome := by
  rcases m.unmarshalBinary_cases sha256 data with ⟨h, -⟩ | ⟨-, error, hread⟩
  · obtain ⟨id, -, ⟨-, hread⟩ | ⟨-, message, error, hread⟩⟩ := m.unmarshalBinary_framed sha256 h
    · rw [hread]
      rfl
    · rw [hread]
      rfl
  · rw [hread]
    rfl

/-- A call leaves the caller's bytes as they are, and accepts them only with the right digest. -/
def KeepsFrame (m : AgentMessage) (data : Bytes) : Prop :=
  ∀ r, m.unmarshalBinary sha256 data = some r →
    r.data = data ∧ (r.error = none →
      field data 80 112 = (sha256 (field data (payloadStart data) (payloadEnd data))).toList)

theorem patched_eq_iff {data : Bytes} (h : Framed data) :
    patched data = data ↔ field data 80 88 = field data 64 72 := by
  have hlen := h.least_length
  have hfirst : (field data 64 72).length = 8 := field_length (by omega)
  have hwritten : patched data = data ↔
      field data 80 (80 + (field data 64 72).length) = field data 64 72 :=
    overwritten_eq_iff (by omega)
  rwa [hfirst] at hwritten

theorem keepsFrame_iff (m : AgentMessage) (data : Bytes) :
    m.KeepsFrame sha256 data ↔
      ¬ Framed data ∨
        field data 80 88 = field data 64 72 ∧
          (uint (field data 36 40) = 0 ∨ (parseMessageType (field data 4 36)).length < 10 ∨
            field data 80 112 =
              (sha256 (field data (payloadStart data) (payloadEnd data))).toList) := by
  by_cases h : Framed data
  · have hschema := uint32_lt_one_iff (field data 36 40) (by
      rw [field_length (by have := h.least_length; omega)])
    obtain ⟨id, -, ⟨hvalid, hread⟩ | ⟨hinvalid, message, error, hread⟩⟩ :=
      m.unmarshalBinary_framed sha256 h
    · rw [received_valid_iff m h, hschema] at hvalid
      simp [KeepsFrame, hread, h, patched_eq_iff, hvalid.1, hvalid.2]
    · rw [received_valid_iff m h, hschema] at hinvalid
      have hbroken : uint (field data 36 40) = 0 ∨
          (parseMessageType (field data 4 36)).length < 10 :=
        (not_and_or.mp hinvalid).imp not_not.mp not_le.mp
      simp [KeepsFrame, hread, h, patched_eq_iff, ← or_assoc, hbroken]
  · obtain ⟨error, hread⟩ := ((m.unmarshalBinary_cases sha256 data).resolve_left fun hf => h hf.1).2
    simp [KeepsFrame, hread, h]

def emptyDigest : Vector UInt8 32 :=
  #v[0xe3, 0xb0, 0xc4, 0x42, 0x98, 0xfc, 0x1c, 0x14, 0x9a, 0xfb, 0xf4, 0xc8, 0x99, 0x6f, 0xb9, 0x24,
    0x27, 0xae, 0x41, 0xe4, 0x64, 0x9b, 0x93, 0x4c, 0xa4, 0x95, 0x99, 0x1b, 0x78, 0x52, 0xb8, 0x55]

def forgedFrame : Bytes :=
  bigEndian 4 116 ++ convertMessageType (ascii "output_stream_data") ++ bigEndian 4 1 ++
    bigEndian 8 1714521600000 ++ bigEndian 8 0 ++ bigEndian 8 0 ++ bigEndian 8 7 ++
    bigEndian 8 5 ++ List.replicate 32 0 ++ bigEndian 4 1 ++ bigEndian 4 0

theorem forged_frame_accepted :
    ∃ r, (new 0 (Vector.replicate 16 0)).unmarshalBinary (fun _ => emptyDigest) forgedFrame =
      some r ∧ r.error = none ∧ field forgedFrame 80 112 ≠ emptyDigest.toList ∧
      r.data ≠ forgedFrame ∧ ¬ (new 0 (Vector.replicate 16 0)).KeepsFrame (fun _ => emptyDigest) forgedFrame := by
  have hread : ((new 0 (Vector.replicate 16 0)).unmarshalBinary (fun _ => emptyDigest)
      forgedFrame).map (fun r => (r.error, decide (r.data = forgedFrame))) = some (none, false) := by
    decide +kernel
  obtain ⟨r, hr, hresult⟩ := Option.map_eq_some_iff.mp hread
  obtain ⟨herror, hdata⟩ := Prod.mk.inj hresult
  have hchanged : r.data ≠ forgedFrame := of_decide_eq_false hdata
  exact ⟨r, hr, herror, by decide, hchanged, fun hkeeps => hchanged (hkeeps r hr).1⟩

end AgentMessage

end Dolgate.AgentFrames
