import Dolgate.Base64
import Dolgate.DesktopSync
import Dolgate.Segments
import Dolgate.Transition

set_option autoImplicit false

/-! A push of a desktop on which nothing has changed, with the texts that the server compares. -/

namespace Dolgate.UnchangedPush

open DesktopSync SyncServer Transition

structure Envelope where
  iv : List UInt8
  tag : List UInt8
  ciphertext : List UInt8
  deriving DecidableEq, Repr

/-- `JSON.stringify` of the envelope. Base64 has nothing to escape. -/
def Envelope.text (e : Envelope) : List Char :=
  "\x7b\"v\":1,\"iv\":\"".toList ++ Base64.encode e.iv ++
    "\",\"tag\":\"".toList ++ Base64.encode e.tag ++
    "\",\"ciphertext\":\"".toList ++ Base64.encode e.ciphertext ++ "\"\x7d".toList

/-- What Node does, and the key of the vault: `aesGcm` gives the ciphertext and the tag, and
`randomBytes n` the bytes of the draw `n`. -/
structure Node (α : Type) where
  stringify : Key → Stored α → List UInt8
  aesGcm : List UInt8 → List UInt8 → List UInt8 → List UInt8 × List UInt8
  vaultKey : List UInt8
  randomBytes : Nat → List UInt8

variable {α : Type}

def encodeEncryptedPayload (node : Node α) (plaintext : List UInt8) (draw : Nat) : Envelope :=
  let iv := node.randomBytes draw
  let (ciphertext, tag) := node.aesGcm node.vaultKey iv plaintext
  { iv, tag, ciphertext }

def rowText (node : Node α) (k : Key) (row : Wire α) : Row (List Char) where
  encryptedPayload :=
    match row.encryptedPayload with
    | none => []
    | some payload => (encodeEncryptedPayload node (node.stringify k payload.record) payload.iv).text
  updatedAt := row.updatedAt
  deletedAt := row.deletedAt

def payloadText (node : Node α) (snapshot : Snapshot α) : List (Σ _ : Key, Row (List Char)) :=
  snapshot.payload.map fun e => ⟨e.1, rowText node e.1 e.2⟩

inductive Event (α : Type) where
  | start (choice : Choice α)
  | resume (choice : Choice α)

def step (systemTheme : α) (d : Desktop α) : Event α → Option (Desktop α)
  | .start choice => DesktopSync.start choice d
  | .resume choice => DesktopSync.resume systemTheme choice d

def StoredOn (server : Server Key (List Char)) (d : Desktop α) : Prop :=
  ∀ (k : Key) (record : Stored α), d.records.lookup k = some record →
    ∃ e : Envelope, server.rows.lookup k = some ⟨e.text, record.updatedAt, none⟩

def Fresh (node : Node α) (server : Server Key (List Char)) : Prop :=
  ∀ (draw : Nat) (k : Key) (e : Envelope) (updatedAt : Int),
    server.rows.lookup k = some ⟨e.text, updatedAt, none⟩ → node.randomBytes draw ≠ e.iv

theorem encode_mem (bytes : List UInt8) :
    ∀ c ∈ Base64.encode bytes, c = '=' ∨ ∃ n, n < 64 ∧ c = Base64.alphabet n := by
  induction bytes using Base64.encode.induct with
  | case1 => simp [Base64.encode]
  | case2 a =>
      have ha := a.toNat_lt
      simp only [Base64.encode, List.mem_cons, List.not_mem_nil, or_false]
      rintro c (rfl | rfl | rfl | rfl)
      · exact .inr ⟨_, by omega, rfl⟩
      · exact .inr ⟨_, by omega, rfl⟩
      · exact .inl rfl
      · exact .inl rfl
  | case3 a b =>
      have ha := a.toNat_lt
      have hb := b.toNat_lt
      simp only [Base64.encode, List.mem_cons, List.not_mem_nil, or_false]
      rintro c (rfl | rfl | rfl | rfl)
      · exact .inr ⟨_, by omega, rfl⟩
      · exact .inr ⟨_, by omega, rfl⟩
      · exact .inr ⟨_, by omega, rfl⟩
      · exact .inl rfl
  | case4 a b c rest ih =>
      have ha := a.toNat_lt
      have hb := b.toNat_lt
      have hc := c.toNat_lt
      simp only [Base64.encode, List.mem_cons]
      rintro d (rfl | rfl | rfl | rfl | hd)
      · exact .inr ⟨_, by omega, rfl⟩
      · exact .inr ⟨_, by omega, rfl⟩
      · exact .inr ⟨_, by omega, rfl⟩
      · exact .inr ⟨_, by omega, rfl⟩
      · exact ih d hd

theorem quote_not_mem_encode (bytes : List UInt8) : '"' ∉ Base64.encode bytes := by
  intro h
  obtain h | ⟨n, hn, h⟩ := encode_mem bytes _ h
  · cases h
  · have hall : ∀ m : Fin 64, '"' ≠ Base64.alphabet m := by decide
    exact hall ⟨n, hn⟩ h

theorem encode_injective {a b : List UInt8} (h : Base64.encode a = Base64.encode b) : a = b := by
  have ha := Base64.decodeQuanta_encode a
  rw [h, Base64.decodeQuanta_encode b] at ha
  exact (Option.some.inj ha).symm

theorem iv_eq_of_text {e f : Envelope} (h : e.text = f.text) : e.iv = f.iv := by
  unfold Envelope.text at h
  simp only [List.append_assoc] at h
  have hiv := List.append_cancel_left h
  have htag : "\",\"tag\":\"".toList = '"' :: ",\"tag\":\"".toList := rfl
  rw [htag, List.cons_append, List.cons_append] at hiv
  exact encode_injective
    (Segments.eq_of_append_sep (quote_not_mem_encode e.iv) (quote_not_mem_encode f.iv) hiv)

variable {systemTheme : α} {d t : Desktop α}

def Reads (row : Stored α) : Phase α → Prop
  | .loading .pushDirty records refs =>
      (∃ draw, records.lookup preferencesKey = some (toSyncRecord draw row)) ∧
      preferencesKey ∉ refs
  | .built .pushDirty snapshot =>
      ∃ draw, snapshot.records.lookup preferencesKey = some (toSyncRecord draw row)
  | .posting .pushDirty snapshot =>
      ∃ draw, snapshot.records.lookup preferencesKey = some (toSyncRecord draw row)
  | _ => False

theorem reads_loadSecrets {row : Stored α} {iv : Key → Nat} {records : Table Key (Wire α)}
    {refs : List Key} (hrow : ∃ draw, records.lookup preferencesKey = some (toSyncRecord draw row))
    (hrefs : preferencesKey ∉ refs) : Reads row (loadSecrets iv d .pushDirty records refs) := by
  cases refs with
  | nil => exact hrow
  | cons ref rest =>
      have hne : preferencesKey ≠ ref := fun heq => hrefs (heq ▸ List.mem_cons_self)
      have hrest : preferencesKey ∉ rest := fun hmem => hrefs (List.mem_cons_of_mem _ hmem)
      cases hsecret : d.records.lookup ref with
      | none =>
          simp only [loadSecrets, hsecret]
          exact ⟨hrow, hrest⟩
      | some secret =>
          simp only [loadSecrets, hsecret]
          obtain ⟨draw, hdraw⟩ := hrow
          exact ⟨⟨draw, by rw [AList.lookup_insert_ne hne, hdraw]⟩, hrest⟩

theorem reads_start {row : Stored α} {choice : Choice α}
    (hrow : d.records.lookup preferencesKey = some row) :
    Reads row (startPushRound choice d).phase := by
  unfold startPushRound buildEncryptedSnapshot
  obtain ⟨records, unpushed, heq⟩ :=
    materialize_eq choice.groups { d with queuedPush := false, pendingPush := true }
  have hlookup : records.lookup preferencesKey = some row := by
    obtain ⟨hsame, -⟩ | ⟨hnone, -⟩ :=
      materialize_lookup choice.groups { d with queuedPush := false, pendingPush := true }
        preferencesKey
    · rw [heq] at hsame
      exact hsame.trans hrow
    · rw [hrow] at hnone
      cases hnone
  simp only [heq]
  apply reads_loadSecrets
  · refine ⟨choice.iv preferencesKey, ?_⟩
    rw [plainRecords_lookup, if_neg (by decide), hlookup]
    rfl
  · intro hmem
    obtain ⟨-, hkind⟩ := mem_secretRefs.mp hmem
    cases hkind

theorem reads_resume {row : Stored α} {choice : Choice α} (h : Reads row d.phase)
    (he : resume systemTheme choice d = some t) : Reads row t.phase := by
  unfold resume at he
  cases hphase : d.phase with
  | loading purpose records refs =>
      rw [hphase] at he h
      cases purpose with
      | pushDirty =>
          cases he
          exact reads_loadSecrets h.1 h.2
      | bootstrap => cases h
      | recover etag => cases h
  | built purpose snapshot =>
      rw [hphase] at he h
      cases purpose with
      | pushDirty =>
          cases he
          exact h
      | bootstrap => cases h
      | recover etag => cases h
  | posting purpose snapshot =>
      rw [hphase] at he
      cases he
  | _ =>
      rw [hphase] at h
      cases h

def Pushing (row : Stored α) (d : Desktop α) : Prop :=
  Reads row d.phase ∨ (d.phase = .idle ∧ d.queue = [.pushDirty] ∧
    d.records.lookup preferencesKey = some row)

theorem Pushing.step {row : Stored α} {e : Event α} (h : Pushing row d)
    (he : step systemTheme d e = some t) : Pushing row t := by
  cases e with
  | start choice =>
      simp only [UnchangedPush.step, DesktopSync.start] at he
      obtain h | ⟨hidle, hqueue, hrow⟩ := h
      · split at he
        · next hidle _ =>
          rw [hidle] at h
          cases h
        · next hidle _ =>
          rw [hidle] at h
          cases h
        · cases he
      · rw [hidle, hqueue] at he
        cases he
        exact .inl (reads_start hrow)
  | resume choice =>
      obtain h | ⟨hidle, -, -⟩ := h
      · exact .inl (reads_resume h he)
      · simp [UnchangedPush.step, DesktopSync.resume, hidle] at he

/-- A further push of a desktop whose records are all stored raises the revision, whatever is drawn
for its IVs as long as it is fresh. -/
theorem unchanged_push_raises_revision (node : Node α) (server : Server Key (List Char))
    (d t : Desktop α) (systemTheme : α) (events : List (Event α)) (snapshot : Snapshot α)
    (hidle : d.phase = .idle) (hqueue : d.queue = []) (htask : d.pushTask = false)
    (hpreferences : (d.records.lookup preferencesKey).isSome) (hstored : StoredOn server d)
    (hfresh : Fresh node server)
    (hr : run (step systemTheme) (pushDirty d) events = some t)
    (hposting : t.phase = .posting .pushDirty snapshot) :
    (applyPushRecords server (payloadText node snapshot)).revision = server.revision + 1 := by
  obtain ⟨row, hrow⟩ := Option.isSome_iff_exists.mp hpreferences
  have hbefore : Pushing row (pushDirty d) := by
    refine .inr ?_
    simp [pushDirty, htask, hidle, hqueue, hrow]
  have hafter : Pushing row t :=
    run_invariant (fun _ _ _ hs he => Pushing.step hs he) hbefore hr
  have hreads : ∃ draw, snapshot.records.lookup preferencesKey = some (toSyncRecord draw row) := by
    obtain hreads | ⟨hphase, -, -⟩ := hafter
    · rw [hposting] at hreads
      exact hreads
    · rw [hposting] at hphase
      cases hphase
  obtain ⟨draw, hdraw⟩ := hreads
  obtain ⟨e, hserver⟩ := hstored preferencesKey row hrow
  have hmem : (⟨preferencesKey, rowText node preferencesKey (toSyncRecord draw row)⟩ :
      Σ _ : Key, Row (List Char)) ∈ payloadText node snapshot :=
    List.mem_map.mpr ⟨⟨preferencesKey, toSyncRecord draw row⟩, mem_payload.mpr (.inl hdraw), rfl⟩
  have hwritten : keepsCurrent (server.rows.lookup preferencesKey)
      (rowText node preferencesKey (toSyncRecord draw row)) = false := by
    have hne : e.text ≠
        (encodeEncryptedPayload node (node.stringify preferencesKey row) draw).text := by
      intro heq
      exact hfresh draw preferencesKey e row.updatedAt hserver (iv_eq_of_text heq).symm
    rw [hserver]
    simp [keepsCurrent, rowText, toSyncRecord, hne]
  obtain ⟨-, hkept⟩ | ⟨hrevision, -⟩ := applyPushRecords_cases server (payloadText node snapshot)
  · have hkeeps := hkept _ hmem
    rw [hwritten] at hkeeps
    cases hkeeps
  · exact hrevision

def preferencesText : List UInt8 :=
  ("\x7b\"id\":\"global-terminal\",\"globalTerminalThemeId\":\"system\"," ++
    "\"updatedAt\":\"1970-01-01T00:00:00.000Z\"\x7d").toList.map fun c => UInt8.ofNat c.toNat

/-- A vault key of zeros, with what the cipher gives for `preferencesText` under it and an IV of
ones. -/
def sampleNode : Node String where
  stringify _ _ := preferencesText
  aesGcm _ _ _ := (
    [14, 98, 170, 14, 88, 179, 90, 154, 14, 217, 134, 231, 215, 2, 8, 12, 206, 8, 133, 53, 110, 138,
      23, 26, 45, 210, 125, 223, 157, 142, 203, 184, 229, 90, 202, 52, 148, 26, 128, 183, 32, 247,
      129, 27, 213, 12, 226, 66, 192, 39, 153, 77, 198, 219, 16, 173, 73, 6, 13, 13, 42, 186, 206,
      107, 172, 106, 145, 155, 27, 160, 229, 197, 67, 118, 151, 17, 235, 101, 199, 81, 76, 95, 82,
      118, 118, 26, 214, 191, 149, 115, 114, 153, 88, 223, 71, 223],
    [77, 142, 38, 221, 133, 101, 137, 241, 109, 152, 11, 150, 41, 35, 145, 84])
  vaultKey := List.replicate 32 0
  randomBytes _ := List.replicate 12 1

def storedEnvelope : Envelope where
  iv := List.replicate 12 0
  tag := [247, 237, 159, 195, 186, 162, 145, 153, 47, 118, 62, 176, 54, 66, 142, 84]
  ciphertext :=
    [181, 133, 41, 89, 111, 90, 73, 9, 107, 33, 167, 178, 214, 222, 233, 125, 0, 13, 106, 164, 86,
      202, 8, 88, 243, 197, 153, 225, 23, 103, 89, 218, 184, 56, 220, 65, 35, 43, 141, 47, 41, 141,
      52, 65, 14, 104, 20, 205, 101, 50, 178, 146, 245, 222, 18, 18, 77, 94, 104, 147, 207, 109, 78,
      122, 180, 133, 251, 81, 27, 138, 28, 14, 87, 165, 129, 208, 112, 188, 87, 145, 232, 159, 121,
      138, 240, 254, 156, 29, 214, 146, 44, 86, 100, 4, 63, 208]

def sampleServer : Server Key (List Char) where
  rows := AList.singleton preferencesKey ⟨storedEnvelope.text, 0, none⟩
  revision := 1

theorem sampleServer_lookup {k : Key} {row : Row (List Char)}
    (h : sampleServer.rows.lookup k = some row) :
    k = preferencesKey ∧ row = ⟨storedEnvelope.text, 0, none⟩ := by
  obtain hk | hk := Decidable.em (k = preferencesKey)
  · subst hk
    exact ⟨rfl, (Option.some.inj h).symm⟩
  · have hnone : sampleServer.rows.lookup k = none := by
      rw [AList.lookup_eq_none]
      simpa [sampleServer, AList.mem_keys] using hk
    rw [hnone] at h
    cases h

theorem sampleServer_stored : StoredOn sampleServer freshDesktop := by
  intro k record hrecord
  obtain hk | hk := Decidable.em (k = preferencesKey)
  · subst hk
    cases hrecord
    exact ⟨storedEnvelope, rfl⟩
  · have hnone : freshDesktop.records.lookup k = none := by
      rw [AList.lookup_eq_none]
      simpa [freshDesktop, AList.mem_keys] using hk
    rw [hnone] at hrecord
    cases hrecord

theorem sampleServer_fresh : Fresh sampleNode sampleServer := by
  intro draw k e updatedAt h hiv
  obtain ⟨-, hrow⟩ := sampleServer_lookup h
  have htext : e.text = storedEnvelope.text := congrArg Row.encryptedPayload hrow
  rw [iv_eq_of_text htext] at hiv
  have hdraw : sampleNode.randomBytes draw = List.replicate 12 1 := rfl
  rw [hdraw] at hiv
  exact absurd hiv (by decide)

def samplePush : List (Event String) := [.start (sampleChoice 1), .resume (sampleChoice 1)]

def sampleSnapshot : Snapshot String where
  records := plainRecords (fun _ => 1) freshDesktop.records
  deletions := ∅

theorem sample_posting : ∃ t, run (step "system") (pushDirty freshDesktop) samplePush = some t ∧
    t.phase = .posting .pushDirty sampleSnapshot := ⟨_, rfl, rfl⟩

theorem sample_push_raises_revision : ∃ t,
    run (step "system") (pushDirty freshDesktop) samplePush = some t ∧
    (applyPushRecords sampleServer (payloadText sampleNode sampleSnapshot)).revision = 2 := by
  obtain ⟨t, hr, hposting⟩ := sample_posting
  exact ⟨t, hr, unchanged_push_raises_revision sampleNode sampleServer freshDesktop t "system"
    samplePush sampleSnapshot rfl rfl rfl rfl sampleServer_stored sampleServer_fresh hr hposting⟩

theorem unchanged_push_is_no_no_op : ¬ ∀ (node : Node String) (server : Server Key (List Char))
    (d t : Desktop String) (systemTheme : String) (events : List (Event String))
    (snapshot : Snapshot String), d.phase = .idle → d.queue = [] → d.pushTask = false →
    (d.records.lookup preferencesKey).isSome → StoredOn server d → Fresh node server →
    run (step systemTheme) (pushDirty d) events = some t →
    t.phase = .posting .pushDirty snapshot →
    (applyPushRecords server (payloadText node snapshot)).revision = server.revision := by
  intro h
  obtain ⟨t, hr, hposting⟩ := sample_posting
  have hsame := h sampleNode sampleServer freshDesktop t "system" samplePush sampleSnapshot rfl rfl
    rfl rfl sampleServer_stored sampleServer_fresh hr hposting
  have hraised := unchanged_push_raises_revision sampleNode sampleServer freshDesktop t "system"
    samplePush sampleSnapshot rfl rfl rfl rfl sampleServer_stored sampleServer_fresh hr hposting
  omega

end Dolgate.UnchangedPush
