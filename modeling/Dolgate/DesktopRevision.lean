import Dolgate.DesktopSync
import Dolgate.Transition

set_option autoImplicit false

namespace Dolgate.DesktopSync
open SyncServer Transition

variable {α : Type}

/-- The local store is the live part of these rows, but for what is still unpushed. -/
def Agrees (rows : Table Key (Wire α)) (d : Desktop α) : Prop :=
  ∀ k, d.unpushed k = false → d.records.lookup k = (rows.lookup k).bind decodeLive

def Names (server : Remote α) (d : Desktop α) (revision : Nat) : Prop :=
  revision ≤ server.revision ∧ (revision = server.revision → Agrees server.rows d)

def HasPreferences (rows : Table Key (Wire α)) : Prop :=
  ∃ record, (rows.lookup preferencesKey).bind decodeLive = some record

/-- What a build has read so far; `refs` are the secrets it has yet to load. -/
structure Read (d : Desktop α) (records : Table Key (Wire α)) (refs : List Key) : Prop where
  sound : ∀ k row, records.lookup k = some row → ∃ iv record, row = toSyncRecord iv record ∧
    (d.unpushed k = false → d.records.lookup k = some record)
  complete : ∀ k record, d.unpushed k = false → k ∉ refs → d.records.lookup k = some record →
    ∃ iv, records.lookup k = some (toSyncRecord iv record)
  preferences : ∃ row, records.lookup preferencesKey = some row

def PhaseInv (server : Remote α) (d : Desktop α) : Phase α → Prop
  | .loading _ records refs => Read d records refs
  | .built _ snapshot | .posting _ snapshot =>
      Read d snapshot.records [] ∧ snapshot.deletions.lookup preferencesKey = none
  | .posted _ _ revision => HasPreferences server.rows ∧
      ∀ last, d.lastSyncRevision = some last → revision ≤ last + 1 → Names server d revision
  | .pushed _ _ => HasPreferences server.rows
  | .getting refetch ifNoneMatch => ifNoneMatch = d.lastSyncRevision ∧
      (refetch = true → HasPreferences server.rows)
  | .got refetch (some remote) => remote.revision ≤ server.revision ∧
      (∀ last, d.lastSyncRevision = some last → last < remote.revision) ∧
      (remote.revision = server.revision → remote.rows = server.rows) ∧
      (HasPreferences remote.rows ∨ refetch = false ∧ ∀ k, remote.rows.lookup k = none)
  | .applied etag _ => (∀ last, d.lastSyncRevision = some last → last < etag) ∧ Names server d etag
  | _ => True

structure ClientInv (server : Remote α) (d : Desktop α) : Prop where
  preferences : (d.records.lookup preferencesKey).isSome
  no_deletion : d.outbox.lookup preferencesKey = none
  revision : ∀ last, d.lastSyncRevision = some last → Names server d last
  phase : PhaseInv server d d.phase

def ServerInv (server : Remote α) : Prop :=
  HasPreferences server.rows ∨ ∀ k, server.rows.lookup k = none

def Advances (server server' : Remote α) : Prop :=
  (server' = server ∨ server.revision < server'.revision) ∧
    (HasPreferences server.rows → HasPreferences server'.rows)

structure Touches (d d' : Desktop α) : Prop where
  records : ∀ k, d'.unpushed k = false →
    d.unpushed k = false ∧ d'.records.lookup k = d.records.lookup k
  preferences : (d.records.lookup preferencesKey).isSome →
    (d'.records.lookup preferencesKey).isSome
  no_deletion : d.outbox.lookup preferencesKey = none → d'.outbox.lookup preferencesKey = none
  revision : d'.lastSyncRevision = d.lastSyncRevision

section Frames

variable {server server' : Remote α} {d d' : Desktop α}

theorem Advances.refl (server : Remote α) : Advances server server := ⟨.inl rfl, id⟩

theorem Names.advance {revision : Nat} (h : Names server d revision)
    (hs : Advances server server') : Names server' d revision := by
  rcases hs.1 with rfl | hlt
  · exact h
  · exact ⟨by have := h.1; omega, fun he => absurd h.1 (by omega)⟩

theorem ClientInv.advance (h : ClientInv server d) (hs : Advances server server') :
    ClientInv server' d := by
  refine ⟨h.preferences, h.no_deletion, fun last hl => (h.revision last hl).advance hs, ?_⟩
  have hphase := h.phase
  generalize d.phase = phase at hphase ⊢
  cases phase with
  | posted purpose snapshot revision =>
      exact ⟨hs.2 hphase.1, fun last hl hle => (hphase.2 last hl hle).advance hs⟩
  | pushed purpose snapshot => exact hs.2 hphase
  | getting refetch ifNoneMatch => exact ⟨hphase.1, fun hr => hs.2 (hphase.2 hr)⟩
  | got refetch reply =>
      cases reply with
      | none => trivial
      | some remote =>
          obtain ⟨hle, hlast, hrows, hpref⟩ := hphase
          rcases hs.1 with rfl | hlt
          · exact ⟨hle, hlast, hrows, hpref⟩
          · exact ⟨by omega, hlast, fun he => absurd hle (by omega), hpref⟩
  | applied etag changed => exact ⟨hphase.1, hphase.2.advance hs⟩
  | _ => exact hphase

theorem Touches.agrees {rows : Table Key (Wire α)} (h : Touches d d') (ha : Agrees rows d) :
    Agrees rows d' := by
  intro k hk
  obtain ⟨hu, hr⟩ := h.records k hk
  rw [hr]
  exact ha k hu

theorem Touches.names {revision : Nat} (h : Touches d d') (hn : Names server d revision) :
    Names server d' revision :=
  ⟨hn.1, fun he => h.agrees (hn.2 he)⟩

theorem Touches.read {records : Table Key (Wire α)} {refs : List Key} (h : Touches d d')
    (hr : Read d records refs) : Read d' records refs where
  sound k row hrow := by
    obtain ⟨iv, record, rfl, hsame⟩ := hr.sound k row hrow
    refine ⟨iv, record, rfl, fun hu => ?_⟩
    obtain ⟨hu, heq⟩ := h.records k hu
    rw [heq]
    exact hsame hu
  complete k record hu hk hrec := by
    obtain ⟨hu, heq⟩ := h.records k hu
    exact hr.complete k record hu hk (heq ▸ hrec)
  preferences := hr.preferences

theorem Touches.phaseInv {phase : Phase α} (h : Touches d d') (hp : PhaseInv server d phase) :
    PhaseInv server d' phase := by
  cases phase with
  | loading purpose records refs => exact h.read hp
  | built purpose snapshot => exact ⟨h.read hp.1, hp.2⟩
  | posting purpose snapshot => exact ⟨h.read hp.1, hp.2⟩
  | posted purpose snapshot revision =>
      refine ⟨hp.1, fun last hl hle => h.names (hp.2 last ?_ hle)⟩
      rw [← h.revision, hl]
  | getting refetch ifNoneMatch => exact ⟨hp.1.trans h.revision.symm, hp.2⟩
  | got refetch reply =>
      cases reply with
      | none => trivial
      | some remote =>
          refine ⟨hp.1, fun last hl => hp.2.1 last ?_, hp.2.2⟩
          rw [← h.revision, hl]
  | applied etag changed =>
      refine ⟨fun last hl => hp.1 last ?_, h.names hp.2⟩
      rw [← h.revision, hl]
  | _ => exact hp

theorem Touches.clientInv (h : Touches d d') (hi : ClientInv server d)
    (hp : PhaseInv server d' d'.phase) : ClientInv server d' where
  preferences := h.preferences hi.preferences
  no_deletion := h.no_deletion hi.no_deletion
  revision last hl := h.names (hi.revision last (by rw [← h.revision, hl]))
  phase := hp

theorem Touches.keeps (h : Touches d d') (hi : ClientInv server d) (hp : d'.phase = d.phase) :
    ClientInv server d' :=
  h.clientInv hi (hp ▸ h.phaseInv hi.phase)

theorem Touches.trans {d'' : Desktop α} (h : Touches d d') (h' : Touches d' d'') :
    Touches d d'' where
  records k hk := by
    obtain ⟨hu, hr⟩ := h'.records k hk
    obtain ⟨hu', hr'⟩ := h.records k hu
    exact ⟨hu', hr.trans hr'⟩
  preferences hp := h'.preferences (h.preferences hp)
  no_deletion hp := h'.no_deletion (h.no_deletion hp)
  revision := h'.revision.trans h.revision

theorem touches_pushDirty (d : Desktop α) : Touches d (pushDirty d) := by
  unfold pushDirty
  split <;> exact ⟨fun _ h => ⟨h, rfl⟩, id, id, rfl⟩

theorem touches_upsertRecord (d : Desktop α) (k : Key) (record : Stored α) :
    Touches d (upsertRecord d k record) where
  records j hj := by
    have hne : j ≠ k := by
      rintro rfl
      simp [upsertRecord] at hj
    obtain ⟨hr, hu⟩ := upsertRecord_lookup d record hne
    exact ⟨hu ▸ hj, hr⟩
  preferences h := by
    by_cases hk : preferencesKey = k
    · subst hk
      simp [upsertRecord]
    · rwa [(upsertRecord_lookup d record hk).1]
  no_deletion := id
  revision := rfl

theorem touches_upsertDeletion (d : Desktop α) {k : Key} (deletedAt : Int)
    (hk : preferencesKey ≠ k) : Touches d (upsertDeletion d k deletedAt) where
  records j hj := by
    have hne : j ≠ k := by
      rintro rfl
      simp [upsertDeletion] at hj
    obtain ⟨hr, -, hu⟩ := upsertDeletion_lookup d deletedAt hne
    exact ⟨hu ▸ hj, hr⟩
  preferences h := by rwa [(upsertDeletion_lookup d deletedAt hk).1]
  no_deletion h := by rwa [(upsertDeletion_lookup d deletedAt hk).2.1]
  revision := rfl

theorem touches_materialize (groups : List (String × Stored α)) (d : Desktop α) :
    Touches d (materializeImplicitHostGroups groups d) where
  records k hk := by
    rcases materialize_lookup groups d k with ⟨hr, hu⟩ | ⟨-, hu, -⟩
    · exact ⟨hu ▸ hk, hr⟩
    · rw [hu] at hk
      cases hk
  preferences h := by
    rcases materialize_lookup groups d preferencesKey with ⟨hr, -⟩ | ⟨hnone, -⟩
    · rwa [hr]
    · rw [hnone] at h
      cases h
  no_deletion h := by
    obtain ⟨records, unpushed, he⟩ := materialize_eq groups d
    rw [he]
    exact h
  revision := by
    obtain ⟨records, unpushed, he⟩ := materialize_eq groups d
    rw [he]

theorem touches_phase (d : Desktop α) (phase : Phase α) : Touches d { d with phase := phase } :=
  ⟨fun _ h => ⟨h, rfl⟩, id, id, rfl⟩

theorem read_start (iv : Key → Nat) (h : (d.records.lookup preferencesKey).isSome) :
    Read d (plainRecords iv d.records) (secretRefs d.records) where
  sound k row hrow := by
    rw [plainRecords_lookup] at hrow
    split at hrow
    · cases hrow
    · obtain ⟨record, hrec, rfl⟩ := Option.map_eq_some_iff.mp hrow
      exact ⟨iv k, record, rfl, fun _ => hrec⟩
  complete k record _ hk hrec := by
    have hkind : k.1 ≠ .secrets := fun hs => hk (mem_secretRefs.mpr ⟨⟨record, hrec⟩, hs⟩)
    exact ⟨iv k, by simp [plainRecords_lookup, hkind, hrec]⟩
  preferences := by
    obtain ⟨record, hrec⟩ := Option.isSome_iff_exists.mp h
    have hkind : preferencesKey.1 ≠ Kind.secrets := nofun
    exact ⟨_, by rw [plainRecords_lookup, if_neg hkind, hrec]; rfl⟩

theorem read_load {records : Table Key (Wire α)} {ref : Key} {rest : List Key} {secret : Stored α}
    (iv : Nat) (h : Read d records (ref :: rest)) (hs : d.records.lookup ref = some secret) :
    Read d (records.insert ref (toSyncRecord iv secret)) rest where
  sound k row hrow := by
    by_cases hk : k = ref
    · subst hk
      rw [AList.lookup_insert] at hrow
      cases hrow
      exact ⟨iv, secret, rfl, fun _ => hs⟩
    · rw [AList.lookup_insert_ne hk] at hrow
      exact h.sound k row hrow
  complete k record hu hk hrec := by
    by_cases hkr : k = ref
    · subst hkr
      cases hs.symm.trans hrec
      exact ⟨iv, AList.lookup_insert _⟩
    · rw [AList.lookup_insert_ne hkr]
      exact h.complete k record hu (by simp [hkr, hk]) hrec
  preferences := by
    by_cases hk : preferencesKey = ref
    · subst hk
      exact ⟨_, AList.lookup_insert _⟩
    · rw [AList.lookup_insert_ne hk]
      exact h.preferences

theorem read_skip {records : Table Key (Wire α)} {ref : Key} {rest : List Key}
    (h : Read d records (ref :: rest)) (hs : d.records.lookup ref = none) : Read d records rest where
  sound := h.sound
  complete k record hu hk hrec := by
    refine h.complete k record hu (fun hmem => ?_) hrec
    rcases List.mem_cons.mp hmem with rfl | hmem
    · rw [hs] at hrec
      cases hrec
    · exact hk hmem
  preferences := h.preferences

theorem phaseInv_loadSecrets (server : Remote α) (iv : Key → Nat) (purpose : Purpose)
    {records : Table Key (Wire α)} {refs : List Key} (h : Read d records refs)
    (hdel : d.outbox.lookup preferencesKey = none) :
    PhaseInv server d (loadSecrets iv d purpose records refs) := by
  cases refs with
  | nil => exact ⟨h, hdel⟩
  | cons ref rest =>
      cases hs : d.records.lookup ref with
      | none =>
          simp only [loadSecrets, hs]
          exact read_skip h hs
      | some secret =>
          simp only [loadSecrets, hs]
          exact read_load (iv ref) h hs

theorem ClientInv.load (hi : ClientInv server d) (iv : Key → Nat) (purpose : Purpose)
    {records : Table Key (Wire α)} {refs : List Key} (h : Read d records refs) :
    ClientInv server { d with phase := loadSecrets iv d purpose records refs } :=
  (touches_phase d _).clientInv hi
    ((touches_phase d _).phaseInv (phaseInv_loadSecrets server iv purpose h hi.no_deletion))

theorem ClientInv.build (hi : ClientInv server d) (choice : Choice α) (purpose : Purpose) :
    ClientInv server (buildEncryptedSnapshot choice purpose d) := by
  have hphase : (materializeImplicitHostGroups choice.groups d).phase = d.phase := by
    obtain ⟨records, unpushed, he⟩ := materialize_eq choice.groups d
    rw [he]
  have hm := (touches_materialize choice.groups d).keeps hi hphase
  exact hm.load choice.iv purpose (read_start choice.iv hm.preferences)

theorem ClientInv.startPushRound (hi : ClientInv server d) (choice : Choice α) :
    ClientInv server (startPushRound choice d) := by
  have ht : Touches d { d with queuedPush := false, pendingPush := true } :=
    ⟨fun _ h => ⟨h, rfl⟩, id, id, rfl⟩
  exact (ht.keeps hi rfl).build choice .pushDirty

theorem ClientInv.fetch (hi : ClientInv server d) {refetch : Bool}
    (h : refetch = true → HasPreferences server.rows) :
    ClientInv server (fetchRemoteSnapshot refetch d) :=
  (touches_phase d _).clientInv hi ⟨rfl, h⟩

theorem HasPreferences.withPreferences {rows : Table Key (Wire α)} (h : HasPreferences rows)
    (systemTheme : α) (now : Int) :
    withPreferences systemTheme now (liveRecords rows) = liveRecords rows := by
  obtain ⟨record, hrec⟩ := h
  unfold DesktopSync.withPreferences
  rw [if_neg]
  simp [hrec]

theorem applyRemoteSnapshot_agrees {remote : Remote α} (h : HasPreferences remote.rows)
    (systemTheme : α) (choice : Choice α) :
    Agrees remote.rows (applyRemoteSnapshot systemTheme choice remote d) := by
  intro k hk
  simp only [applyRemoteSnapshot, h.withPreferences, List.any_eq_false, beq_iff_eq] at hk ⊢
  rw [Table.lookup_insertAll_of_notMem hk, liveRecords_lookup]

theorem ClientInv.apply (hi : ClientInv server d) {remote : Remote α}
    (hle : remote.revision ≤ server.revision)
    (hlast : ∀ last, d.lastSyncRevision = some last → last < remote.revision)
    (hrows : remote.revision = server.revision → remote.rows = server.rows)
    (hpref : HasPreferences remote.rows) (systemTheme : α) (choice : Choice α) :
    ClientInv server (applyRemoteSnapshot systemTheme choice remote d) where
  preferences := by
    refine Table.lookup_insertAll_isSome ?_
    obtain ⟨record, hrec⟩ := hpref
    simp [HasPreferences.withPreferences ⟨record, hrec⟩, hrec]
  no_deletion := hi.no_deletion
  revision last hl := by
    have := hlast last hl
    exact ⟨by omega, fun he => absurd hle (by omega)⟩
  phase := by
    refine ⟨hlast, hle, fun he => ?_⟩
    rw [← hrows he]
    exact applyRemoteSnapshot_agrees hpref systemTheme choice

theorem ClientInv.finish (hi : ClientInv server d) (changed : Bool) :
    ClientInv server (finishBootstrap changed d) := by
  have ht : Touches d (finishBootstrap changed d) :=
    ⟨fun _ h => ⟨h, rfl⟩, id, fun _ => AList.lookup_empty _, rfl⟩
  exact ht.clientInv hi trivial

theorem ClientInv.afterFetch (hi : ClientInv server d) {refetch : Bool}
    {reply : Option (Remote α)} (hp : PhaseInv server d (.got refetch reply)) (systemTheme : α)
    (choice : Choice α) : ClientInv server (afterFetch systemTheme choice refetch d reply) := by
  cases reply with
  | none => exact hi.finish false
  | some remote =>
      obtain ⟨hle, hlast, hrows, hpref⟩ := hp
      simp only [DesktopSync.afterFetch]
      split
      · exact hi.build choice _
      · rename_i hempty
        rcases hpref with hpref | ⟨rfl, hnone⟩
        · exact hi.apply hle hlast hrows hpref systemTheme choice
        · simp [Table.entries_eq_nil.mpr hnone] at hempty

theorem ClientInv.endPushRound (hi : ClientInv server d) (snapshot : Snapshot α)
    (choice : Choice α) : ClientInv server (endPushRound choice snapshot d) := by
  have hout : (clearMany d.outbox snapshot.deletions).lookup preferencesKey = none := by
    rw [clearMany_lookup, hi.no_deletion]
    split <;> rfl
  have ht : Touches d { d with outbox := clearMany d.outbox snapshot.deletions } :=
    ⟨fun _ h => ⟨h, rfl⟩, id, fun _ => hout, rfl⟩
  unfold DesktopSync.endPushRound
  simp only
  split
  · exact (ht.keeps hi rfl).startPushRound choice
  · have hs : Touches d { d with
        outbox := clearMany d.outbox snapshot.deletions
        pendingPush := false
        phase := .settling .pushDirty } :=
      ⟨fun _ h => ⟨h, rfl⟩, id, fun _ => hout, rfl⟩
    exact hs.clientInv hi trivial

theorem ClientInv.storePushRevision (hi : ClientInv server d) {purpose : Purpose}
    {snapshot : Snapshot α} {revision : Nat}
    (hp : PhaseInv server d (.posted purpose snapshot revision)) :
    ClientInv server { storePushRevision revision d with phase := .pushed purpose snapshot } := by
  unfold DesktopSync.storePushRevision
  cases hl : d.lastSyncRevision with
  | none => exact (touches_phase d _).clientInv hi hp.1
  | some last =>
      simp only
      split
      · rename_i hle
        refine ⟨hi.preferences, hi.no_deletion, ?_, hp.1⟩
        rintro _ ⟨⟩
        exact hp.2 last hl hle
      · exact (touches_phase d _).clientInv hi hp.1

theorem ClientInv.resume (hi : ClientInv server d) {systemTheme : α} {choice : Choice α}
    (h : resume systemTheme choice d = some d') : ClientInv server d' := by
  have hp := hi.phase
  unfold DesktopSync.resume at h
  cases hphase : d.phase with
  | idle => simp [hphase] at h
  | info hadPending =>
      simp only [hphase, Option.some.injEq] at h
      subst h
      split
      · exact hi.build choice _
      · exact hi.fetch nofun
  | loading purpose records refs =>
      rw [hphase] at h hp
      cases h
      exact hi.load choice.iv purpose hp
  | built purpose snapshot =>
      rw [hphase] at h hp
      cases h
      have hne : snapshot.payload.isEmpty = false := by
        obtain ⟨row, hrow⟩ := hp.1.preferences
        have hmem := mem_payload.mpr (.inl hrow)
        cases hlist : snapshot.payload with
        | nil => simp [hlist] at hmem
        | cons e rest => rfl
      have hpost (purpose : Purpose) :
          ClientInv server { d with phase := .posting purpose snapshot } :=
        (touches_phase d _).clientInv hi ((touches_phase d _).phaseInv hp)
      cases purpose <;> simp only [afterBuild, hne] <;> exact hpost _
  | posting purpose snapshot => simp [hphase] at h
  | posted purpose snapshot revision =>
      rw [hphase] at h hp
      cases h
      exact hi.storePushRevision hp
  | pushed purpose snapshot =>
      rw [hphase] at h hp
      cases h
      cases purpose with
      | bootstrap => exact hi.fetch fun _ => hp
      | recover etag => exact hi.fetch fun _ => hp
      | pushDirty => exact hi.endPushRound snapshot choice
  | getting refetch ifNoneMatch => simp [hphase] at h
  | got refetch reply =>
      rw [hphase] at h hp
      cases h
      exact hi.afterFetch hp systemTheme choice
  | applied etag changed =>
      rw [hphase] at h hp
      cases h
      have : ClientInv server { d with lastSyncRevision := some etag, phase := .idle } := by
        refine ⟨hi.preferences, hi.no_deletion, ?_, trivial⟩
        rintro _ ⟨⟩
        exact hp.2
      exact this.finish changed
  | settling op =>
      rw [hphase] at h
      cases h
      cases op
      · have ht : Touches d (settle d .bootstrap) := ⟨fun _ h => ⟨h, rfl⟩, id, id, rfl⟩
        exact ht.clientInv hi trivial
      · have ht : Touches d (settle d .pushDirty) := ⟨fun _ h => ⟨h, rfl⟩, id, id, rfl⟩
        exact ht.clientInv hi trivial

theorem ClientInv.start (hi : ClientInv server d) {choice : Choice α}
    (h : start choice d = some d') : ClientInv server d' := by
  unfold DesktopSync.start at h
  split at h
  · cases h
    have ht (pending : Bool) (rest : List Op) : Touches d
        { d with queue := rest, pendingPush := pending, phase := .info pending } :=
      ⟨fun _ h => ⟨h, rfl⟩, id, id, rfl⟩
    exact (ht _ _).clientInv hi trivial
  · rename_i rest _ _
    cases h
    have ht : Touches d { d with queue := rest } := ⟨fun _ h => ⟨h, rfl⟩, id, id, rfl⟩
    exact (ht.keeps hi rfl).startPushRound choice
  · cases h

theorem ClientInv.fail (hi : ClientInv server d) (h : fail d = some d') : ClientInv server d' := by
  have ht (timer : Bool) (op : Op) : Touches d
      { d with pendingPush := true, pushTimer := timer, phase := .settling op } :=
    ⟨fun _ h => ⟨h, rfl⟩, id, id, rfl⟩
  unfold DesktopSync.fail at h
  split at h
  case h_7 => cases h
  all_goals
    cases h
    exact (ht _ _).clientInv hi trivial

end Frames

section Push

variable [DecidableEq α]

/-- Where the snapshot has the present state of the record, this is not older than what the server
holds, and not contradicted by an older state in the same snapshot. -/
def PrevailsAt (server : Remote α) (d : Desktop α) (snapshot : Snapshot α) (k : Key) : Prop :=
  carries d snapshot k →
    (∀ record ∈ d.records.lookup k,
      (∀ row ∈ server.rows.lookup k, row.updatedAt ≤ record.updatedAt) ∧
      (∀ deletedAt ∈ snapshot.deletions.lookup k, deletedAt < record.updatedAt)) ∧
    (d.records.lookup k = none → ∀ deletedAt ∈ snapshot.deletions.lookup k,
      (∀ row ∈ server.rows.lookup k, decodeLive row ≠ none → row.updatedAt ≤ deletedAt) ∧
      (∀ row ∈ snapshot.records.lookup k, row.updatedAt ≤ deletedAt))

instance (server : Remote α) (d : Desktop α) (snapshot : Snapshot α) (k : Key) :
    Decidable (PrevailsAt server d snapshot k) :=
  inferInstanceAs (Decidable (_ → _ ∧ _))

def Prevails (server : Remote α) (d : Desktop α) (snapshot : Snapshot α) : Prop :=
  ∀ k, PrevailsAt server d snapshot k

/-- A push whose revision the client will store finds the server where the client left it, and
wins; one that finds it a revision further writes something, so that its own revision is too high
to be stored. -/
def PushSettles (server : Remote α) (d : Desktop α) : Prop :=
  ∀ purpose snapshot last, d.phase = .posting purpose snapshot → d.lastSyncRevision = some last →
    (server.revision = last → Prevails server d snapshot) ∧
    (server.revision = last + 1 →
      ∃ e ∈ snapshot.payload, keepsCurrent (server.rows.lookup e.1) e.2 = false)

variable {server server' : Remote α} {d d' : Desktop α} {snapshot : Snapshot α}

theorem mem_of_carries {k : Key} (h : carries d snapshot k = true) :
    k ∈ snapshot.records.keys ++ snapshot.deletions.keys := by
  rw [List.mem_append, ← AList.mem_keys, ← AList.mem_keys, ← AList.lookup_isSome,
    ← AList.lookup_isSome]
  unfold carries at h
  cases hd : d.records.lookup k with
  | some record =>
      rw [hd] at h
      left
      cases hr : snapshot.records.lookup k with
      | none => simp [hr] at h
      | some row => rfl
  | none =>
      rw [hd] at h
      exact .inr (Bool.and_eq_true _ _ ▸ h).1

theorem prevails_of_keys (h : ∀ k ∈ snapshot.records.keys ++ snapshot.deletions.keys,
    PrevailsAt server d snapshot k) : Prevails server d snapshot :=
  fun k hc => h k (mem_of_carries hc) hc

theorem carries_of_read (hread : Read d snapshot.records []) {k : Key} {record : Stored α}
    (hrec : d.records.lookup k = some record)
    (hu : (d.unpushed k && !carries d snapshot k) = false) : carries d snapshot k = true := by
  cases hk : d.unpushed k with
  | true => simpa [hk] using hu
  | false =>
      obtain ⟨iv, hrow⟩ := hread.complete k record hk (by simp) hrec
      simp [carries, hrec, hrow]

theorem resultAt_live (hread : Read d snapshot.records []) (hwin : Prevails server d snapshot)
    {k : Key} {record : Stored α} (hrec : d.records.lookup k = some record)
    (hc : carries d snapshot k = true) :
    (snapshot.resultAt k (server.rows.lookup k)).bind decodeLive = some record := by
  obtain ⟨hserver, hdel⟩ := (hwin k hc).1 record hrec
  simp only [carries, hrec, beq_iff_eq] at hc
  obtain ⟨row, hrow, hlive⟩ := Option.bind_eq_some_iff.mp hc
  obtain ⟨iv, record', rfl, -⟩ := hread.sound k row hrow
  obtain rfl : record = record' := by simpa using hlive.symm
  have hfirst : lastWriter (server.rows.lookup k) (toSyncRecord iv record) =
      toSyncRecord iv record := lastWriter_of_not_older fun c hc => hserver c hc
  simp only [Snapshot.resultAt, Snapshot.recordAt, hrow, hfirst]
  cases hd : snapshot.deletions.lookup k with
  | none => rfl
  | some deletedAt =>
      have hlt := hdel deletedAt hd
      have : lastWriter (some (toSyncRecord iv record)) (tombstone deletedAt) =
          toSyncRecord iv record := by
        simp [lastWriter, hlt]
      simp [this]

theorem resultAt_deleted (hread : Read d snapshot.records [])
    (hwin : Prevails server d snapshot) {k : Key} (hrec : d.records.lookup k = none)
    (hu : (d.unpushed k && !carries d snapshot k) = false)
    (hag : d.unpushed k = false → (server.rows.lookup k).bind decodeLive = none) :
    (snapshot.resultAt k (server.rows.lookup k)).bind decodeLive = none := by
  cases hk : d.unpushed k with
  | false =>
      have hnone : snapshot.records.lookup k = none := by
        by_contra hne
        obtain ⟨row, hrow⟩ := Option.ne_none_iff_exists'.mp hne
        obtain ⟨iv, record, -, hsame⟩ := hread.sound k row hrow
        rw [hsame hk] at hrec
        cases hrec
      have hlive := hag hk
      cases hd : snapshot.deletions.lookup k with
      | none => simpa [Snapshot.resultAt, Snapshot.recordAt, hnone, hd] using hlive
      | some deletedAt =>
          simp only [Snapshot.resultAt, Snapshot.recordAt, hnone, hd, Option.bind_some]
          rcases lastWriter_eq_or (server.rows.lookup k) (tombstone deletedAt) with
            heq | ⟨c, hc, heq, -⟩
          · rw [heq]
            rfl
          · rw [heq]
            simpa [hc] using hlive
  | true =>
      have hc : carries d snapshot k = true := by simpa [hk] using hu
      have hwon := (hwin k hc).2 hrec
      simp only [carries, hrec, Bool.and_eq_true] at hc
      obtain ⟨deletedAt, hd⟩ := Option.isSome_iff_exists.mp hc.1
      obtain ⟨hserver, hown⟩ := hwon deletedAt hd
      have hdead {c : Wire α} (hc : server.rows.lookup k = some c)
          (hlt : deletedAt < c.updatedAt) : decodeLive c = none := by
        by_contra hlive
        have := hserver c hc hlive
        omega
      simp only [Snapshot.resultAt, hd, Option.bind_some]
      rcases lastWriter_eq_or (snapshot.recordAt k (server.rows.lookup k)) (tombstone deletedAt) with
        heq | ⟨c, hc, heq, hlt⟩
      · rw [heq]
        rfl
      · rw [heq]
        cases hrow : snapshot.records.lookup k with
        | none =>
            simp only [Snapshot.recordAt, hrow] at hc
            exact hdead hc hlt
        | some row =>
            simp only [Snapshot.recordAt, hrow] at hc
            cases hc
            rcases lastWriter_eq_or (server.rows.lookup k) row with heq | ⟨c, hc, heq, -⟩
            · rw [heq] at hlt
              have := hown row hrow
              simp only [tombstone_updatedAt] at hlt
              omega
            · rw [heq] at hlt ⊢
              exact hdead hc hlt

theorem agrees_applyPushRecords (hread : Read d snapshot.records [])
    (hwin : Prevails server d snapshot) (hag : Agrees server.rows d) (phase : Phase α) :
    Agrees (applyPushRecords server snapshot.payload).rows
      { d with unpushed := fun k => d.unpushed k && !carries d snapshot k, phase := phase } := by
  intro k hu
  rw [applyPushRecords_lookup]
  cases hrec : d.records.lookup k with
  | some record =>
      exact (resultAt_live hread hwin hrec (carries_of_read hread hrec hu)).symm
  | none =>
      exact (resultAt_deleted hread hwin hrec hu fun hk => (hag k hk).symm.trans hrec).symm

theorem hasPreferences_applyPushRecords (hread : Read d snapshot.records [])
    (hdel : snapshot.deletions.lookup preferencesKey = none) (hs : ServerInv server) :
    HasPreferences (applyPushRecords server snapshot.payload).rows := by
  obtain ⟨row, hrow⟩ := hread.preferences
  obtain ⟨iv, record, rfl, -⟩ := hread.sound _ row hrow
  simp only [HasPreferences, applyPushRecords_lookup, Snapshot.resultAt, Snapshot.recordAt, hrow,
    hdel, Option.bind_some]
  rcases lastWriter_eq_or (server.rows.lookup preferencesKey) (toSyncRecord iv record) with
    heq | ⟨c, hc, heq, -⟩
  · exact ⟨record, by rw [heq]; rfl⟩
  · rw [heq]
    rcases hs with ⟨stored, hstored⟩ | hnone
    · exact ⟨stored, by simpa [hc] using hstored⟩
    · rw [hnone] at hc
      cases hc

theorem names_applyPushRecords (hi : ClientInv server d) {purpose : Purpose}
    (hphase : d.phase = .posting purpose snapshot) (hok : PushSettles server d) {last : Nat}
    (hl : d.lastSyncRevision = some last)
    (hle : (applyPushRecords server snapshot.payload).revision ≤ last + 1) (phase : Phase α) :
    Names (applyPushRecords server snapshot.payload)
      { d with unpushed := fun k => d.unpushed k && !carries d snapshot k, phase := phase }
      (applyPushRecords server snapshot.payload).revision := by
  refine ⟨le_rfl, fun _ => ?_⟩
  obtain ⟨hlast, hagrees⟩ := hi.revision last hl
  obtain ⟨hwin, hwrites⟩ := hok purpose snapshot last hphase hl
  have hread : Read d snapshot.records [] := by
    have := hi.phase
    rw [hphase] at this
    exact this.1
  have hrev : server.revision = last := by
    rcases applyPushRecords_cases server snapshot.payload with ⟨hsame, hkept⟩ | ⟨hnext, -⟩
    · rw [hsame] at hle
      rcases Nat.lt_or_ge last server.revision with hlt | hge
      · obtain ⟨e, he, hfalse⟩ := hwrites (by omega)
        rw [hkept e he] at hfalse
        cases hfalse
      · omega
    · omega
  exact agrees_applyPushRecords hread (hwin hrev) (hagrees hrev.symm) phase

theorem ClientInv.serve (hs : ServerInv server) (hi : ClientInv server d)
    (hok : PushSettles server d) (h : serve server d = some (server', d')) :
    ServerInv server' ∧ ClientInv server' d' ∧ Advances server server' := by
  have hp := hi.phase
  unfold DesktopSync.serve at h
  split at h
  · rename_i purpose snapshot hphase
    cases h
    rw [hphase] at hp
    have hpref := hasPreferences_applyPushRecords hp.1 hp.2 hs
    have hle := revision_le_applyPushRecords server snapshot.payload
    refine ⟨.inl hpref, ⟨hi.preferences, hi.no_deletion, fun last hl => ?_, hpref, ?_⟩, ?_, ?_⟩
    · have hlast := (hi.revision last hl).1
      refine ⟨le_trans hlast hle, fun he => ?_⟩
      exact (names_applyPushRecords hi hphase hok hl (by omega) _).2 rfl
    · intro last hl hbound
      exact names_applyPushRecords hi hphase hok hl hbound _
    · rcases applyPushRecords_cases server snapshot.payload with ⟨hsame, -⟩ | ⟨hnext, -⟩
      · exact .inl hsame
      · exact .inr (by omega)
    · exact fun _ => hpref
  · rename_i refetch ifNoneMatch hphase
    cases h
    rw [hphase] at hp
    refine ⟨hs, (touches_phase d _).clientInv hi ?_, Advances.refl server⟩
    obtain ⟨rfl, hrefetch⟩ := hp
    unfold getSync
    split
    · trivial
    · rename_i hne
      refine ⟨le_rfl, fun last hl => ?_, fun _ => rfl, ?_⟩
      · have := (hi.revision last hl).1
        have : last ≠ server.revision := fun he => hne (he ▸ hl)
        omega
      · cases refetch with
        | true => exact .inl (hrefetch rfl)
        | false => exact hs.imp_right fun hnone => ⟨rfl, hnone⟩
  · cases h

theorem step_inv {systemTheme : α} {e : Event α} (hs : ServerInv server) (hi : ClientInv server d)
    (hok : e = .serve → PushSettles server d)
    (h : step systemTheme server d e = some (server', d')) :
    ServerInv server' ∧ ClientInv server' d' ∧ Advances server server' := by
  cases e with
  | edit k record =>
      cases h
      refine ⟨hs, ?_, Advances.refl server⟩
      exact ((touches_upsertRecord d k record).trans (touches_pushDirty _)).keeps hi
        (pushDirty_phase _)
  | remove k deletedAt =>
      simp only [step] at h
      split at h
      · cases h
      · rename_i hkind
        cases h
        refine ⟨hs, ?_, Advances.refl server⟩
        have hk : preferencesKey ≠ k := by
          rintro rfl
          exact hkind rfl
        exact ((touches_upsertDeletion d deletedAt hk).trans (touches_pushDirty _)).keeps hi
          (pushDirty_phase _)
  | bootstrap =>
      cases h
      refine ⟨hs, ?_, Advances.refl server⟩
      unfold DesktopSync.bootstrap
      split
      · exact hi
      · have ht : Touches d { d with bootstrapTask := true, queue := d.queue ++ [.bootstrap] } :=
          ⟨fun _ h => ⟨h, rfl⟩, id, id, rfl⟩
        exact ht.keeps hi rfl
  | retry =>
      simp only [step] at h
      split at h
      · cases h
        exact ⟨hs, (touches_pushDirty d).keeps hi (pushDirty_phase d), Advances.refl server⟩
      · cases h
  | start choice =>
      obtain ⟨d', hd, heq⟩ := Option.map_eq_some_iff.mp h
      cases heq
      exact ⟨hs, hi.start hd, Advances.refl server⟩
  | resume choice =>
      obtain ⟨d', hd, heq⟩ := Option.map_eq_some_iff.mp h
      cases heq
      exact ⟨hs, hi.resume hd, Advances.refl server⟩
  | serve => exact hi.serve hs (hok rfl) h
  | fail =>
      obtain ⟨d', hd, heq⟩ := Option.map_eq_some_iff.mp h
      cases heq
      exact ⟨hs, hi.fail hd, Advances.refl server⟩

end Push

structure System (ι α : Type) where
  server : Remote α
  clients : ι → Desktop α

variable {ι : Type} [DecidableEq ι] [DecidableEq α]

def systemStep (systemTheme : α) (s : System ι α) (e : ι × Event α) : Option (System ι α) :=
  (step systemTheme s.server (s.clients e.1) e.2).map fun next =>
    ⟨next.1, Function.update s.clients e.1 next.2⟩

/-- Every desktop has just been started; the server is empty, or a desktop has pushed to it. -/
structure Starts (s : System ι α) : Prop where
  server : ServerInv s.server
  preferences : ∀ i, ((s.clients i).records.lookup preferencesKey).isSome
  no_deletion : ∀ i, (s.clients i).outbox.lookup preferencesKey = none
  idle : ∀ i, (s.clients i).phase = .idle
  no_revision : ∀ i, (s.clients i).lastSyncRevision = none

structure SystemInv (s : System ι α) : Prop where
  server : ServerInv s.server
  clients : ∀ i, ClientInv s.server (s.clients i)

def PushesSettle (s : System ι α) (e : ι × Event α) : Prop :=
  e.2 = .serve → PushSettles s.server (s.clients e.1)

omit [DecidableEq ι] [DecidableEq α] in
theorem Starts.inv {s : System ι α} (h : Starts s) : SystemInv s where
  server := h.server
  clients i := by
    refine ⟨h.preferences i, h.no_deletion i, fun last hl => ?_, ?_⟩
    · rw [h.no_revision i] at hl
      cases hl
    · rw [h.idle i]
      trivial

theorem systemStep_inv {systemTheme : α} (s : System ι α) (e : ι × Event α) (t : System ι α)
    (hi : SystemInv s) (hok : PushesSettle s e) (h : systemStep systemTheme s e = some t) :
    SystemInv t := by
  obtain ⟨i, e⟩ := e
  obtain ⟨⟨server, d⟩, hstep, rfl⟩ := Option.map_eq_some_iff.mp h
  obtain ⟨hserver, hd, hadv⟩ := step_inv hi.server (hi.clients i) hok hstep
  refine ⟨hserver, fun j => ?_⟩
  by_cases hj : j = i
  · subst hj
    simpa using hd
  · simpa [Function.update_of_ne hj] using (hi.clients j).advance hadv

theorem not_modified_means_applied (systemTheme : α) {s t : System ι α} (hs : Starts s)
    (es : List (ι × Event α)) (hok : Admissible PushesSettle (systemStep systemTheme) s es)
    (hr : run (systemStep systemTheme) s es = some t) (i : ι) {refetch : Bool}
    {ifNoneMatch : Option Nat} (hphase : (t.clients i).phase = .getting refetch ifNoneMatch)
    (hpushed : ∀ k, (t.clients i).unpushed k = false)
    (hreply : getSync t.server ifNoneMatch = none) :
    ifNoneMatch = (t.clients i).lastSyncRevision ∧
      ∀ k, (t.clients i).records.lookup k = (t.server.rows.lookup k).bind decodeLive := by
  have hi := (run_invariant_of_admissible systemStep_inv hs.inv hok hr).clients i
  have hp := hi.phase
  rw [hphase] at hp
  refine ⟨hp.1, fun k => ?_⟩
  have hsent : (t.clients i).lastSyncRevision = some t.server.revision := by
    rw [← hp.1]
    unfold getSync at hreply
    split at hreply
    · assumption
    · cases hreply
  exact (hi.revision _ hsent).2 rfl k (hpushed k)

def oneDesktop : System Unit String := ⟨syncedServer, fun _ => freshDesktop⟩

def pollAgain : List (Unit × Event String) :=
  [((), .bootstrap), ((), .start (sampleChoice 0)), ((), .resume (sampleChoice 0)), ((), .serve),
    ((), .resume (sampleChoice 0)), ((), .resume (sampleChoice 0)), ((), .resume (sampleChoice 0)),
    ((), .bootstrap), ((), .start (sampleChoice 0)), ((), .resume (sampleChoice 0)), ((), .fail),
    ((), .resume (sampleChoice 0)), ((), .bootstrap), ((), .start (sampleChoice 0)),
    ((), .resume (sampleChoice 1)), ((), .resume (sampleChoice 1)), ((), .serve),
    ((), .resume (sampleChoice 1)), ((), .resume (sampleChoice 1))]

theorem starts_oneDesktop : Starts oneDesktop where
  server := .inl ⟨_, rfl⟩
  preferences _ := rfl
  no_deletion _ := rfl
  idle _ := rfl
  no_revision _ := rfl

theorem not_modified_means_applied_pollAgain :
    Admissible PushesSettle (systemStep "system") oneDesktop pollAgain ∧
      ∃ t, run (systemStep "system") oneDesktop pollAgain = some t ∧
        (t.clients ()).lastSyncRevision = some 2 ∧ getSync t.server (some 2) = none ∧
        ∀ k, (t.clients ()).records.lookup k = (t.server.rows.lookup k).bind decodeLive := by
  have hok : Admissible PushesSettle (systemStep "system") oneDesktop pollAgain := by
    iterate 3
      refine ⟨nofun, fun _ h => ?_⟩
      cases h
    refine ⟨fun _ => nofun, fun _ h => ?_⟩
    cases h
    iterate 12
      refine ⟨nofun, fun _ h => ?_⟩
      cases h
    refine ⟨fun _ purpose snapshot last hphase hl => ?_, fun _ h => ?_⟩
    · cases hphase
      cases hl
      exact ⟨fun _ => prevails_of_keys (by decide), nofun⟩
    cases h
    iterate 2
      refine ⟨nofun, fun _ h => ?_⟩
      cases h
    trivial
  exact ⟨hok, _, rfl, rfl, rfl, (not_modified_means_applied "system" starts_oneDesktop pollAgain hok
    rfl () rfl (fun _ => rfl) rfl).2⟩

def twoDesktops : System Bool String := ⟨⟨∅, 0⟩, fun _ => freshDesktop⟩

def goOn (i : Bool) (iv n : Nat) : List (Bool × Event String) :=
  List.replicate n (i, .resume (sampleChoice iv))

def firstSyncs : List (Bool × Event String) :=
  (false, .bootstrap) :: (false, .start (sampleChoice 0)) :: goOn false 0 1 ++
    (false, .serve) :: goOn false 1 2 ++ (false, .serve) :: goOn false 2 2 ++
    (false, .serve) :: goOn false 3 3 ++
    (true, .bootstrap) :: (true, .start (sampleChoice 0)) :: goOn true 0 1 ++
    (true, .serve) :: goOn true 0 3

/-- A poll of the first desktop fails, the second one changes its theme, and the first one polls
again: what it pushes loses, and the revision it gets back is the other desktop's. -/
def missedTheme : List (Bool × Event String) :=
  (false, .bootstrap) :: (false, .start (sampleChoice 0)) :: goOn false 0 1 ++
    (false, .fail) :: goOn false 0 1 ++
    (true, .edit preferencesKey ⟨"dark", 10⟩) :: (true, .start (sampleChoice 4)) ::
      goOn true 4 1 ++ (true, .serve) :: goOn true 4 3 ++
    (false, .bootstrap) :: (false, .start (sampleChoice 0)) :: goOn false 5 2 ++
    (false, .serve) :: goOn false 5 2

theorem other_theme_never_pulled : Starts twoDesktops ∧
    ∃ t, run (systemStep "system") twoDesktops (firstSyncs ++ missedTheme) = some t ∧
      (t.clients false).phase = .getting false (some 2) ∧
      (t.clients false).lastSyncRevision = some 2 ∧
      (∀ k, (t.clients false).unpushed k = false) ∧ getSync t.server (some 2) = none ∧
      (t.clients false).records.lookup preferencesKey = some ⟨"system", 0⟩ ∧
      (t.server.rows.lookup preferencesKey).bind decodeLive = some ⟨"dark", 10⟩ := by
  refine ⟨⟨.inr fun _ => rfl, fun _ => rfl, fun _ => rfl, fun _ => rfl, fun _ => rfl⟩, _, rfl, rfl,
    rfl, fun _ => rfl, rfl, rfl, rfl⟩

end Dolgate.DesktopSync
