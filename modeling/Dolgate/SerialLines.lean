import Mathlib

set_option autoImplicit false

namespace Dolgate.SerialLines

structure SerialConnectPayload where
  localEcho : Bool
  localLineEditing : Bool
  transmitLineEnding : String
deriving DecidableEq, Repr

structure Port where
  sent : List UInt8
  failing : Option String
deriving DecidableEq, Repr

/-- `shown` are the stream frames emitted for the session. -/
structure Session where
  payload : SerialConnectPayload
  lineBuffer : List UInt8
  port : Port
  shown : List (List UInt8)
deriving DecidableEq, Repr

def normalizeTransmitLineEnding (value : String) : String :=
  if value = "cr" ∨ value = "lf" ∨ value = "crlf" then value else "none"

def lineEndingBytesFor (value : String) : List UInt8 :=
  if value = "cr" then [13]
  else if value = "lf" then [10]
  else if value = "crlf" then [13, 10]
  else [13]

/-- The loop of `applyTransmitLineEnding`. -/
def replaceEndings (lineEndingBytes : List UInt8) : List UInt8 → List UInt8
  | [] => []
  | 13 :: 10 :: rest => lineEndingBytes ++ replaceEndings lineEndingBytes rest
  | 13 :: rest => lineEndingBytes ++ replaceEndings lineEndingBytes rest
  | 10 :: rest => lineEndingBytes ++ replaceEndings lineEndingBytes rest
  | value :: rest => value :: replaceEndings lineEndingBytes rest

def applyTransmitLineEnding (data : List UInt8) (lineEnding : String) : List UInt8 :=
  let normalized := normalizeTransmitLineEnding lineEnding
  if normalized = "none" ∨ data = [] then data
  else replaceEndings (lineEndingBytesFor normalized) data

def resolveTransmitLineEndingBytes (value : UInt8) (lineEnding : String) : List UInt8 :=
  let normalized := normalizeTransmitLineEnding lineEnding
  if normalized = "none" then [value] else lineEndingBytesFor normalized

namespace Session

def writeAll (data : List UInt8) (s : Session) : Option String × Session :=
  if data = [] then (none, s)
  else
    match s.port.failing with
    | some e => (some e, s)
    | none => (none, { s with port := { s.port with sent := s.port.sent ++ data } })

def emitData (data : List UInt8) (s : Session) : Session :=
  if data = [] then s else { s with shown := s.shown ++ [data] }

def flush (s : Session) : Option String × Session :=
  if s.lineBuffer = [] then (none, s)
  else
    match s.writeAll s.lineBuffer with
    | (some e, s) => (some e, s)
    | (none, s) => (none, { s with lineBuffer := [] })

def enter (value : UInt8) (s : Session) : Option String × Session :=
  match s.flush with
  | (some e, s) => (some e, s)
  | (none, s) =>
      match s.writeAll (resolveTransmitLineEndingBytes value s.payload.transmitLineEnding) with
      | (some e, s) => (some e, s)
      | (none, s) => (none, s.emitData [value])

/-- The switch of `writeWithLocalLineEditing` on one byte. -/
def key (value : UInt8) (s : Session) : Option String × Session :=
  if value = 8 ∨ value = 127 then
    if s.lineBuffer ≠ [] then
      (none, { s with lineBuffer := s.lineBuffer.dropLast }.emitData [8, 32, 8])
    else s.writeAll [value]
  else if value = 13 ∨ value = 10 then s.enter value
  else if value < 32 then s.writeAll [value]
  else (none, { s with lineBuffer := s.lineBuffer ++ [value] }.emitData [value])

def writeWithLocalLineEditing : List UInt8 → Session → Option String × Session
  | [], s => (none, s)
  | 13 :: 10 :: rest, s =>
      match s.key 13 with
      | (some e, s) => (some e, s)
      | (none, s) => writeWithLocalLineEditing rest s
  | value :: rest, s =>
      match s.key value with
      | (some e, s) => (some e, s)
      | (none, s) => writeWithLocalLineEditing rest s

def writeBytes (data : List UInt8) (s : Session) : Option String × Session :=
  if s.payload.localLineEditing then writeWithLocalLineEditing data s
  else
    let s := if s.payload.localEcho then s.emitData data else s
    s.writeAll (applyTransmitLineEnding data s.payload.transmitLineEnding)

/-- Successive calls of `WriteBytes`. -/
def writeCalls : List (List UInt8) → Session → Session
  | [], s => s
  | data :: parts, s => writeCalls parts (s.writeBytes data).2

end Session

def CutsPair (parts : List (List UInt8)) : Prop :=
  ∃ before after, parts = before ++ after ∧
    before.flatten.getLast? = some 13 ∧ after.flatten.head? = some 10

def unpaired : Bool → List UInt8 → List UInt8
  | _, [] => []
  | afterCr, value :: rest =>
      if afterCr ∧ value = 10 then unpaired false rest
      else value :: unpaired (value == 13) rest

theorem unpaired_append (afterCr : Bool) (a b : List UInt8) :
    unpaired afterCr (a ++ b) =
      unpaired afterCr a ++ unpaired (a.foldl (fun _ value => value == 13) afterCr) b := by
  induction a generalizing afterCr with
  | nil => rfl
  | cons value a ih =>
      simp only [List.cons_append, unpaired, List.foldl_cons, ih]
      split
      · rename_i h
        rw [h.2]
        rfl
      · rfl

theorem foldl_cr (a : List UInt8) :
    a.foldl (fun _ value => value == 13) false = true ↔ a.getLast? = some 13 := by
  induction a using List.reverseRecOn with
  | nil => simp
  | append_singleton a value _ => simp [beq_iff_eq]

theorem unpaired_start (b : List UInt8) (h : b.head? ≠ some 10) :
    unpaired true b = unpaired false b := by
  cases b with
  | nil => rfl
  | cons value b =>
      have hvalue : value ≠ 10 := by simpa using h
      simp [unpaired, hvalue]

theorem unpaired_append_of_not {a b : List UInt8}
    (h : ¬ (a.getLast? = some 13 ∧ b.head? = some 10)) :
    unpaired false (a ++ b) = unpaired false a ++ unpaired false b := by
  rw [unpaired_append]
  cases hcr : a.foldl (fun _ value => value == 13) false with
  | false => rfl
  | true => rw [unpaired_start b fun hb => h ⟨(foldl_cr a).mp hcr, hb⟩]

theorem unpaired_append_lf {a : List UInt8} (ha : a.getLast? = some 13) (b : List UInt8) :
    unpaired false (a ++ 10 :: b) = unpaired false a ++ unpaired false b := by
  rw [unpaired_append, (foldl_cr a).mpr ha]
  rfl

theorem unpaired_cr {a : List UInt8} (ha : a.getLast? = some 13) :
    ∃ init, unpaired false a = init ++ [13] := by
  obtain ⟨init, rfl⟩ := List.getLast?_eq_some_iff.mp ha
  refine ⟨unpaired false init, ?_⟩
  rw [unpaired_append]
  simp [unpaired]

theorem CutsPair.cons_iff (part : List UInt8) (parts : List (List UInt8)) :
    CutsPair (part :: parts) ↔
      part.getLast? = some 13 ∧ parts.flatten.head? = some 10 ∨ CutsPair parts := by
  constructor
  · rintro ⟨before, after, hparts, hcr, hlf⟩
    cases before with
    | nil => simp at hcr
    | cons first before =>
        rw [List.cons_append, List.cons.injEq] at hparts
        obtain ⟨rfl, rfl⟩ := hparts
        rw [List.flatten_cons, List.getLast?_append] at hcr
        cases hlast : before.flatten.getLast? with
        | none =>
            rw [hlast, Option.none_or] at hcr
            rw [List.getLast?_eq_none_iff] at hlast
            exact .inl ⟨hcr, by rw [List.flatten_append, hlast]; exact hlf⟩
        | some value =>
            rw [hlast, Option.some_or] at hcr
            exact .inr ⟨before, after, rfl, hlast.trans hcr, hlf⟩
  · rintro (⟨hcr, hlf⟩ | ⟨before, after, rfl, hcr, hlf⟩)
    · exact ⟨[part], parts, rfl, by simpa using hcr, hlf⟩
    · refine ⟨part :: before, after, rfl, ?_, hlf⟩
      rw [List.flatten_cons, List.getLast?_append, hcr, Option.some_or]

theorem unpaired_parts {parts : List (List UInt8)} (h : ¬ CutsPair parts) :
    parts.flatMap (unpaired false) = unpaired false parts.flatten := by
  induction parts with
  | nil => rfl
  | cons part parts ih =>
      rw [CutsPair.cons_iff, not_or] at h
      rw [List.flatMap_cons, List.flatten_cons, unpaired_append_of_not h.1, ih h.2]

section

variable {σ : Type} (emit : σ → UInt8 → List UInt8) (next : σ → UInt8 → σ)

def sends : σ → List UInt8 → List UInt8
  | _, [] => []
  | s, value :: rest => emit s value ++ sends (next s value) rest

theorem sends_append (s : σ) (a b : List UInt8) :
    sends emit next s (a ++ b) = sends emit next s a ++ sends emit next (a.foldl next s) b := by
  induction a generalizing s with
  | nil => rfl
  | cons value a ih => simp only [List.cons_append, sends, ih, List.foldl_cons, List.append_assoc]

variable {emit next} (hquiet : ∀ s, next (next s 13) 10 = next s 13)
  (hloud : ∀ s, emit (next s 13) 10 ≠ [])

include hquiet hloud

theorem sends_parts_length (parts : List (List UInt8)) (s : σ) :
    (sends emit next s (unpaired false parts.flatten)).length ≤
        (sends emit next s (parts.flatMap (unpaired false))).length ∧
      (CutsPair parts → (sends emit next s (unpaired false parts.flatten)).length <
        (sends emit next s (parts.flatMap (unpaired false))).length) := by
  induction parts generalizing s with
  | nil => exact ⟨le_rfl, by rintro ⟨before, after, hparts, hcr, -⟩; simp_all⟩
  | cons part parts ih =>
      rw [CutsPair.cons_iff, List.flatMap_cons, List.flatten_cons, sends_append]
      by_cases hcut : part.getLast? = some 13 ∧ parts.flatten.head? = some 10
      · obtain ⟨hcr, hlf⟩ := hcut
        obtain ⟨rest, hrest⟩ := List.head?_eq_some_iff.mp hlf
        obtain ⟨init, hinit⟩ := unpaired_cr hcr
        have hmore := (ih ((unpaired false part).foldl next s)).1
        have hpos := List.length_pos_iff.mpr (hloud (init.foldl next s))
        rw [hrest, unpaired_append_lf hcr, sends_append]
        rw [hrest] at hmore
        simp only [unpaired, Bool.false_eq_true, false_and, if_false, sends, List.length_append,
          hinit, List.foldl_append, List.foldl_cons, List.foldl_nil, hquiet] at hmore hpos ⊢
        have hfalse : ((10 : UInt8) == 13) = false := rfl
        rw [hfalse] at hmore
        constructor <;> intros <;> omega
      · have hmore := ih ((unpaired false part).foldl next s)
        rw [unpaired_append_of_not hcut, sends_append]
        simp only [List.length_append]
        refine ⟨by omega, fun h => ?_⟩
        have := hmore.2 (h.resolve_left hcut)
        omega

theorem sends_parts_iff (parts : List (List UInt8)) (s : σ) :
    sends emit next s (parts.flatMap (unpaired false)) =
        sends emit next s (unpaired false parts.flatten) ↔ ¬ CutsPair parts := by
  constructor
  · intro h hcut
    have hlt := (sends_parts_length hquiet hloud parts s).2 hcut
    rw [h] at hlt
    exact lt_irrefl _ hlt
  · intro h
    rw [unpaired_parts h]

end

def isEnding (value : UInt8) : Bool := value == 13 || value == 10

def sent (payload : SerialConnectPayload) (line : List UInt8) (value : UInt8) : List UInt8 :=
  if payload.localLineEditing then
    if value = 8 ∨ value = 127 then if line = [] then [value] else []
    else if isEnding value then
      line ++ resolveTransmitLineEndingBytes value payload.transmitLineEnding
    else if value < 32 then [value] else []
  else if isEnding value then
    resolveTransmitLineEndingBytes value payload.transmitLineEnding
  else [value]

def typed (payload : SerialConnectPayload) (line : List UInt8) (value : UInt8) : List UInt8 :=
  if payload.localLineEditing then
    if value = 8 ∨ value = 127 then line.dropLast
    else if isEnding value then []
    else if value < 32 then line else line ++ [value]
  else line

theorem resolve_ne_nil (value : UInt8) (ending : String) :
    resolveTransmitLineEndingBytes value ending ≠ [] := by
  simp only [resolveTransmitLineEndingBytes, lineEndingBytesFor]
  split_ifs <;> simp

theorem typed_quiet (payload : SerialConnectPayload) (line : List UInt8) :
    typed payload (typed payload line 13) 10 = typed payload line 13 := by
  simp only [typed]
  split <;> rfl

theorem sent_loud (payload : SerialConnectPayload) (line : List UInt8) :
    sent payload (typed payload line 13) 10 ≠ [] := by
  have hne := resolve_ne_nil 10 payload.transmitLineEnding
  simp only [sent]
  split <;> simp [isEnding, hne]

namespace Session

variable {s : Session}

/-- The session after bytes of the line discipline, when the port takes what is written. -/
structure Sent (s t : Session) (bytes line : List UInt8) : Prop where
  sent : t.port.sent = s.port.sent ++ bytes
  failing : t.port.failing = none
  line : t.lineBuffer = line
  payload : t.payload = s.payload

theorem writeAll_sent (hport : s.port.failing = none) (data : List UInt8) :
    ∃ t, s.writeAll data = (none, t) ∧ Sent s t data s.lineBuffer := by
  rw [writeAll]
  split
  · rename_i h
    exact ⟨s, rfl, by simp [h], hport, rfl, rfl⟩
  · rw [hport]
    exact ⟨_, rfl, rfl, hport, rfl, rfl⟩

theorem emitData_sent (hport : s.port.failing = none) (line data : List UInt8) :
    Sent s ({ s with lineBuffer := line }.emitData data) [] line := by
  rw [emitData]
  split <;> exact ⟨(List.append_nil _).symm, hport, rfl, rfl⟩

theorem Sent.trans {s t u : Session} {first second line line' : List UInt8}
    (h : Sent s t first line) (h' : Sent t u second line') :
    Sent s u (first ++ second) line' :=
  ⟨by rw [h'.sent, h.sent, List.append_assoc], h'.failing, h'.line, h'.payload.trans h.payload⟩

theorem flush_sent (hport : s.port.failing = none) :
    ∃ t, s.flush = (none, t) ∧ Sent s t s.lineBuffer [] := by
  rw [flush]
  split
  · rename_i h
    exact ⟨s, rfl, by simp [h], hport, h, rfl⟩
  · obtain ⟨t, hwrite, hsent⟩ := writeAll_sent hport s.lineBuffer
    rw [hwrite]
    exact ⟨_, rfl, hsent.sent, hsent.failing, rfl, hsent.payload⟩

theorem enter_sent (hport : s.port.failing = none) (value : UInt8) :
    ∃ t, s.enter value = (none, t) ∧ Sent s t
      (s.lineBuffer ++ resolveTransmitLineEndingBytes value s.payload.transmitLineEnding) [] := by
  obtain ⟨t, hflush, hline⟩ := flush_sent hport
  obtain ⟨u, hwrite, hending⟩ := writeAll_sent hline.failing
    (resolveTransmitLineEndingBytes value t.payload.transmitLineEnding)
  have hshown : Sent u (u.emitData [value]) [] u.lineBuffer :=
    emitData_sent hending.failing u.lineBuffer [value]
  refine ⟨u.emitData [value], by simp only [enter, hflush, hwrite], ?_⟩
  have hall := (hline.trans hending).trans hshown
  rwa [List.append_nil, hline.payload, hending.line, hline.line] at hall

theorem key_sent (hport : s.port.failing = none) (hediting : s.payload.localLineEditing = true)
    (value : UInt8) :
    ∃ t, s.key value = (none, t) ∧
      Sent s t (SerialLines.sent s.payload s.lineBuffer value)
        (typed s.payload s.lineBuffer value) := by
  simp only [key, SerialLines.sent, typed, hediting, if_true]
  by_cases hback : value = 8 ∨ value = 127
  · simp only [hback, if_true]
    by_cases hline : s.lineBuffer = []
    · obtain ⟨t, hwrite, hsent⟩ := writeAll_sent hport [value]
      exact ⟨t, by simp [hline, hwrite], by simpa [hline] using hsent⟩
    · simp only [hline, ne_eq, not_false_eq_true, if_true, if_false]
      exact ⟨_, rfl, emitData_sent hport s.lineBuffer.dropLast [8, 32, 8]⟩
  · by_cases hending : isEnding value
    · have hvalue : value = 13 ∨ value = 10 := by simpa [isEnding] using hending
      simp only [hback, hvalue, hending, if_true, if_false]
      exact enter_sent hport value
    · have hvalue : ¬ (value = 13 ∨ value = 10) := by simpa [isEnding] using hending
      simp only [hback, hvalue, hending, if_false]
      by_cases hcontrol : value < 32
      · obtain ⟨t, hwrite, hsent⟩ := writeAll_sent hport [value]
        exact ⟨t, by simp [hcontrol, hwrite], by simpa [hcontrol] using hsent⟩
      · simp only [hcontrol, if_false]
        exact ⟨_, rfl, emitData_sent hport (s.lineBuffer ++ [value]) [value]⟩

theorem Sent.then_key {t u : Session} {value : UInt8} {rest : List UInt8}
    (h : Sent s t (SerialLines.sent s.payload s.lineBuffer value)
      (typed s.payload s.lineBuffer value))
    (h' : Sent t u (sends (SerialLines.sent t.payload) (typed t.payload) t.lineBuffer rest)
      (rest.foldl (typed t.payload) t.lineBuffer)) :
    Sent s u (sends (SerialLines.sent s.payload) (typed s.payload) s.lineBuffer (value :: rest))
      ((value :: rest).foldl (typed s.payload) s.lineBuffer) := by
  rw [h.payload, h.line] at h'
  exact h.trans h'

theorem unpaired_cons {value : UInt8} {rest : List UInt8}
    (hpair : ∀ more, value = 13 → rest = 10 :: more → False) :
    unpaired false (value :: rest) = value :: unpaired false rest := by
  rw [unpaired, if_neg (by simp)]
  by_cases hcr : value = 13
  · have hhead : rest.head? ≠ some 10 := fun h => by
      obtain ⟨more, hmore⟩ := List.head?_eq_some_iff.mp h
      exact hpair more hcr hmore
    rw [beq_iff_eq.mpr hcr, unpaired_start rest hhead]
  · rw [beq_false_of_ne hcr]

theorem editing_sent {data : List UInt8} (hport : s.port.failing = none)
    (hediting : s.payload.localLineEditing = true) :
    ∃ t, writeWithLocalLineEditing data s = (none, t) ∧
      Sent s t (sends (SerialLines.sent s.payload) (typed s.payload) s.lineBuffer
        (unpaired false data)) ((unpaired false data).foldl (typed s.payload) s.lineBuffer) := by
  fun_induction writeWithLocalLineEditing data s with
  | case1 s => exact ⟨s, rfl, (List.append_nil _).symm, hport, rfl, rfl⟩
  | case2 rest s e t hkey =>
      obtain ⟨u, hu, -⟩ := key_sent hport hediting 13
      cases hkey.symm.trans hu
  | case3 rest s t hkey ih =>
      obtain ⟨u, hu, hsent⟩ := key_sent hport hediting 13
      cases hkey.symm.trans hu
      obtain ⟨v, hv, hrest⟩ := ih hsent.failing (hsent.payload ▸ hediting)
      exact ⟨v, hv, hsent.then_key hrest⟩
  | case4 value rest s hpair e t hkey =>
      obtain ⟨u, hu, -⟩ := key_sent hport hediting value
      cases hkey.symm.trans hu
  | case5 value rest s hpair t hkey ih =>
      obtain ⟨u, hu, hsent⟩ := key_sent hport hediting value
      cases hkey.symm.trans hu
      obtain ⟨v, hv, hrest⟩ := ih hsent.failing (hsent.payload ▸ hediting)
      refine ⟨v, hv, ?_⟩
      rw [unpaired_cons hpair]
      exact hsent.then_key hrest

theorem replaceEndings_eq {payload : SerialConnectPayload}
    (hediting : payload.localLineEditing = false)
    (hminds : normalizeTransmitLineEnding payload.transmitLineEnding ≠ "none")
    (line data : List UInt8) :
    replaceEndings
        (lineEndingBytesFor (normalizeTransmitLineEnding payload.transmitLineEnding)) data =
      sends (SerialLines.sent payload) (typed payload) line (unpaired false data) := by
  have hending : ∀ value, isEnding value = true → SerialLines.sent payload line value =
      lineEndingBytesFor (normalizeTransmitLineEnding payload.transmitLineEnding) := by
    intro value hvalue
    simp [SerialLines.sent, hediting, hvalue, resolveTransmitLineEndingBytes, hminds]
  have htyped : ∀ value, typed payload line value = line := by
    simp [typed, hediting]
  fun_induction replaceEndings
      (lineEndingBytesFor (normalizeTransmitLineEnding payload.transmitLineEnding)) data with
  | case1 => rfl
  | case2 rest ih =>
      change _ = sends _ _ line (13 :: unpaired false rest)
      rw [sends, hending 13 rfl, htyped, ih]
  | case3 rest hpair ih =>
      rw [unpaired_cons (fun more _ hmore => hpair more hmore), sends, hending 13 rfl, htyped, ih]
  | case4 rest ih =>
      rw [unpaired_cons (by simp), sends, hending 10 rfl, htyped, ih]
  | case5 value rest _ hcr hlf ih =>
      have hplain : SerialLines.sent payload line value = [value] := by
        have : isEnding value = false := by simpa [isEnding] using ⟨hcr, hlf⟩
        simp [SerialLines.sent, hediting, this]
      rw [unpaired_cons (fun _ h _ => hcr h), sends, hplain, htyped, ih, List.singleton_append]

theorem foldl_typed_plain {payload : SerialConnectPayload}
    (hediting : payload.localLineEditing = false) (line data : List UInt8) :
    data.foldl (typed payload) line = line := by
  induction data with
  | nil => rfl
  | cons value data ih => simpa [typed, hediting] using ih

theorem plain_sent (hport : s.port.failing = none) (hediting : s.payload.localLineEditing = false)
    (data : List UInt8) :
    Sent s (s.writeBytes data).2
      (applyTransmitLineEnding data s.payload.transmitLineEnding) s.lineBuffer := by
  rw [writeBytes, if_neg (by simp [hediting])]
  have hecho : Sent s (if s.payload.localEcho then s.emitData data else s) [] s.lineBuffer := by
    split
    · exact emitData_sent hport s.lineBuffer data
    · exact ⟨(List.append_nil _).symm, hport, rfl, rfl⟩
  obtain ⟨t, hwrite, hsent⟩ := writeAll_sent hecho.failing (applyTransmitLineEnding data
    (if s.payload.localEcho then s.emitData data else s).payload.transmitLineEnding)
  simp only [hwrite]
  have hall := hecho.trans hsent
  rwa [List.nil_append, hecho.payload, hecho.line] at hall

theorem writeBytes_sent (hport : s.port.failing = none)
    (hminds : s.payload.localLineEditing = true ∨
      normalizeTransmitLineEnding s.payload.transmitLineEnding ≠ "none") (data : List UInt8) :
    Sent s (s.writeBytes data).2 (sends (SerialLines.sent s.payload) (typed s.payload)
      s.lineBuffer (unpaired false data))
      ((unpaired false data).foldl (typed s.payload) s.lineBuffer) := by
  cases hediting : s.payload.localLineEditing with
  | true =>
      obtain ⟨t, hwrite, hsent⟩ : ∃ t, writeWithLocalLineEditing data s = (none, t) ∧
          Sent s t (sends (SerialLines.sent s.payload) (typed s.payload) s.lineBuffer
            (unpaired false data)) ((unpaired false data).foldl (typed s.payload) s.lineBuffer) :=
        editing_sent hport hediting
      rwa [writeBytes, if_pos hediting, hwrite]
  | false =>
      have hnone := hminds.resolve_left (by simp [hediting])
      have happly : applyTransmitLineEnding data s.payload.transmitLineEnding =
          sends (SerialLines.sent s.payload) (typed s.payload) s.lineBuffer
            (unpaired false data) := by
        rw [applyTransmitLineEnding, ← replaceEndings_eq hediting hnone]
        by_cases hdata : data = []
        · simp [hdata, replaceEndings]
        · simp [hdata, hnone]
      rw [foldl_typed_plain hediting, ← happly]
      exact plain_sent hport hediting data

theorem writeCalls_sent (parts : List (List UInt8)) (hport : s.port.failing = none)
    (hminds : s.payload.localLineEditing = true ∨
      normalizeTransmitLineEnding s.payload.transmitLineEnding ≠ "none") :
    (s.writeCalls parts).port.sent = s.port.sent ++
      sends (SerialLines.sent s.payload) (typed s.payload) s.lineBuffer
        (parts.flatMap (unpaired false)) := by
  induction parts generalizing s with
  | nil => exact (List.append_nil _).symm
  | cons data parts ih =>
      have hcall := writeBytes_sent hport hminds data
      rw [writeCalls, ih hcall.failing (by rwa [hcall.payload]), hcall.sent, hcall.payload,
        hcall.line, List.flatMap_cons, sends_append, List.append_assoc]

theorem writeCalls_plain (parts : List (List UInt8)) (hport : s.port.failing = none)
    (hediting : s.payload.localLineEditing = false)
    (hnone : normalizeTransmitLineEnding s.payload.transmitLineEnding = "none") :
    (s.writeCalls parts).port.sent = s.port.sent ++ parts.flatten := by
  induction parts generalizing s with
  | nil => exact (List.append_nil _).symm
  | cons data parts ih =>
      have hcall := plain_sent hport hediting data
      have happly : applyTransmitLineEnding data s.payload.transmitLineEnding = data := by
        simp [applyTransmitLineEnding, hnone]
      rw [writeCalls, ih hcall.failing (by rwa [hcall.payload]) (by rwa [hcall.payload]),
        hcall.sent, happly, List.flatten_cons, List.append_assoc]

theorem writeAll_failing {e : String} {data : List UInt8} (hport : s.port.failing = some e) :
    (s.writeAll data).2 = s ∧ (data ≠ [] → s.writeAll data = (some e, s)) := by
  rw [writeAll, hport]
  by_cases h : data = []
  · exact ⟨by rw [if_pos h], fun hne => absurd h hne⟩
  · exact ⟨by rw [if_neg h], fun _ => by rw [if_neg h]⟩

theorem enter_failing {e : String} (hport : s.port.failing = some e) (value : UInt8) :
    s.enter value = (some e, s) := by
  rw [enter, flush]
  by_cases h : s.lineBuffer = []
  · simp only [h, if_true, (writeAll_failing hport).2 (resolve_ne_nil value _)]
  · simp only [h, if_false, (writeAll_failing hport).2 h]

theorem key_failing {e : String} (hport : s.port.failing = some e) (value : UInt8) :
    (s.key value).2.port = s.port := by
  have hshown : ∀ line data, ({ s with lineBuffer := line }.emitData data).port = s.port := by
    intro line data
    rw [emitData]
    split <;> rfl
  rw [key]
  split_ifs
  · exact hshown _ _
  · rw [(writeAll_failing hport).1]
  · rw [enter_failing hport]
  · rw [(writeAll_failing hport).1]
  · exact hshown _ _

theorem editing_failing {e : String} (hport : s.port.failing = some e) (data : List UInt8) :
    (writeWithLocalLineEditing data s).2.port = s.port := by
  fun_induction writeWithLocalLineEditing data s with
  | case1 s => rfl
  | case2 rest s e t hkey => exact hkey ▸ key_failing hport 13
  | case3 rest s t hkey ih =>
      have ht := key_failing hport 13
      rw [hkey] at ht
      rw [ih (ht ▸ hport), ht]
  | case4 value rest s hpair e t hkey => exact hkey ▸ key_failing hport value
  | case5 value rest s hpair t hkey ih =>
      have ht := key_failing hport value
      rw [hkey] at ht
      rw [ih (ht ▸ hport), ht]

theorem writeBytes_failing {e : String} (hport : s.port.failing = some e) (data : List UInt8) :
    (s.writeBytes data).2.port = s.port := by
  rw [writeBytes]
  split
  · exact editing_failing hport data
  · have hecho : (if s.payload.localEcho then s.emitData data else s).port = s.port := by
      rw [emitData]
      split_ifs <;> rfl
    simp only
    rw [(writeAll_failing (hecho ▸ hport)).1, hecho]

theorem writeCalls_failing {e : String} (parts : List (List UInt8))
    (hport : s.port.failing = some e) : (s.writeCalls parts).port = s.port := by
  induction parts generalizing s with
  | nil => rfl
  | cons data parts ih =>
      have hcall := writeBytes_failing hport data
      rw [writeCalls, ih (by rwa [hcall]), hcall]

end Session

/-- The calls send the bytes of one call exactly if none of the cuts falls into a pair, or line
endings are not minded, or nothing is sent at all. -/
theorem calls_send_as_one_iff (s : Session) (parts : List (List UInt8)) :
    (s.writeCalls parts).port.sent = (s.writeBytes parts.flatten).2.port.sent ↔
      s.port.failing ≠ none ∨
        (s.payload.localLineEditing = false ∧
          normalizeTransmitLineEnding s.payload.transmitLineEnding = "none") ∨
        ¬ CutsPair parts := by
  cases hport : s.port.failing with
  | some e =>
      rw [Session.writeCalls_failing parts hport, Session.writeBytes_failing hport]
      simp
  | none =>
      by_cases hplain : s.payload.localLineEditing = false ∧
          normalizeTransmitLineEnding s.payload.transmitLineEnding = "none"
      · have hcall := Session.plain_sent hport hplain.1 parts.flatten
        rw [Session.writeCalls_plain parts hport hplain.1 hplain.2, hcall.sent]
        simp [applyTransmitLineEnding, hplain]
      · have hminds : s.payload.localLineEditing = true ∨
            normalizeTransmitLineEnding s.payload.transmitLineEnding ≠ "none" := by
          rw [not_and_or, Bool.not_eq_false] at hplain
          exact hplain
        rw [Session.writeCalls_sent parts hport hminds,
          (Session.writeBytes_sent hport hminds parts.flatten).sent, List.append_cancel_left_eq,
          sends_parts_iff (typed_quiet s.payload) (sent_loud s.payload)]
        simp [hplain]

/-- A pair cut in two is sent as two line endings, with line editing even when none is asked for. -/
theorem cut_pair_is_sent_twice :
    let raw : Session := ⟨⟨false, false, "crlf"⟩, [], ⟨[], none⟩, []⟩
    let edited : Session := ⟨⟨false, true, "none"⟩, [], ⟨[], none⟩, []⟩
    (raw.writeBytes [13, 10]).2.port.sent = [13, 10] ∧
      (raw.writeCalls [[13], [10]]).port.sent = [13, 10, 13, 10] ∧
      (edited.writeBytes [13, 10]).2.port.sent = [13] ∧
      (edited.writeCalls [[13], [10]]).port.sent = [13, 10] := by
  decide


end Dolgate.SerialLines
