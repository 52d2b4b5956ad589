import Dolgate.SyncServer

set_option autoImplicit false

namespace Dolgate.DesktopSync
open SyncServer

inductive Kind where
  | groups
  | hosts
  | secrets
  | knownHosts
  | portForwards
  | dnsOverrides
  | snippets
  | workspaces
  | preferences
  | awsProfiles
  | tailnets
deriving DecidableEq, Repr

abbrev Key := Kind × String

def preferencesKey : Key := (.preferences, "global-terminal")

structure Stored (α : Type) where
  content : α
  updatedAt : Int
deriving DecidableEq, Repr

structure Sealed (α : Type) where
  iv : Nat
  record : Stored α
deriving DecidableEq, Repr

abbrev Wire (α : Type) := Row (Option (Sealed α))

/-- The rows and the revision as the server holds them, or as a pull has received them. -/
abbrev Remote (α : Type) := Server Key (Option (Sealed α))

variable {α : Type}

def toSyncRecord (iv : Nat) (record : Stored α) : Wire α :=
  ⟨some ⟨iv, record⟩, record.updatedAt, none⟩

def tombstone (deletedAt : Int) : Wire α := ⟨none, deletedAt, some deletedAt⟩

def decodeLive (row : Wire α) : Option (Stored α) :=
  match row.deletedAt with
  | none => row.encryptedPayload.map Sealed.record
  | some _ => none

structure Snapshot (α : Type) where
  records : Table Key (Wire α)
  deletions : Table Key Int

def Snapshot.payload (snapshot : Snapshot α) : List (Σ _ : Key, Wire α) :=
  snapshot.records.entries ++ snapshot.deletions.entries.map fun e => ⟨e.1, tombstone e.2⟩

/-- Why a snapshot is built: for the changes a bootstrap found pending, for a server that turned
out to be empty, or for `pushDirty`. -/
inductive Purpose where
  | bootstrap
  | recover (etag : Nat)
  | pushDirty
deriving DecidableEq, Repr

inductive Op where
  | bootstrap
  | pushDirty
deriving DecidableEq, Repr

inductive Phase (α : Type) where
  | idle
  | info (hadPendingLocalChanges : Bool)
  | loading (purpose : Purpose) (records : Table Key (Wire α)) (refs : List Key)
  | built (purpose : Purpose) (snapshot : Snapshot α)
  | posting (purpose : Purpose) (snapshot : Snapshot α)
  | posted (purpose : Purpose) (snapshot : Snapshot α) (revision : Nat)
  | pushed (purpose : Purpose) (snapshot : Snapshot α)
  | getting (refetch : Bool) (ifNoneMatch : Option Nat)
  | got (refetch : Bool) (reply : Option (Remote α))
  | applied (etag : Nat) (pullChangedLocalData : Bool)
  | settling (op : Op)

/-- One desktop: its synced store, the deletion outbox and the state of its `SyncService`. -/
structure Desktop (α : Type) where
  records : Table Key (Stored α)
  outbox : Table Key Int
  pendingPush : Bool
  lastSyncRevision : Option Nat
  phase : Phase α
  queue : List Op
  bootstrapTask : Bool
  pushTask : Bool
  queuedPush : Bool
  pushTimer : Bool
  /-- Ghost: the records changed here whose present state no handled push has carried. -/
  unpushed : Key → Bool

/-- What a step of the code takes from elsewhere: the IVs, the clock, the groups that
`materializeImplicitHostGroups` adds, and what a pull rewrites in the snapshot it applies (group
paths of workspaces, names of AWS profiles). -/
structure Choice (α : Type) where
  iv : Key → Nat
  now : Int
  groups : List (String × Stored α)
  changes : List (Key × Stored α)

def hasPendingLocalChanges (d : Desktop α) : Bool := d.pendingPush || !d.outbox.entries.isEmpty

def upsertRecord (d : Desktop α) (k : Key) (record : Stored α) : Desktop α :=
  { d with
    records := d.records.insert k record
    unpushed := Function.update d.unpushed k true }

def upsertDeletion (d : Desktop α) (k : Key) (deletedAt : Int) : Desktop α :=
  { d with
    records := d.records.erase k
    outbox := d.outbox.insert k deletedAt
    unpushed := Function.update d.unpushed k true }

/-- Every edit ends with this call. A push that is already under way is asked to go round again. -/
def pushDirty (d : Desktop α) : Desktop α :=
  if d.pushTask then { d with pendingPush := true, pushTimer := false, queuedPush := true }
  else
    { d with
      pendingPush := true
      pushTimer := false
      pushTask := true
      queue := d.queue ++ [.pushDirty] }

def bootstrap (d : Desktop α) : Desktop α :=
  if d.bootstrapTask then d
  else { d with bootstrapTask := true, queue := d.queue ++ [.bootstrap] }

def materializeGroup (d : Desktop α) (group : String × Stored α) : Desktop α :=
  if (d.records.lookup (.groups, group.1)).isNone then upsertRecord d (.groups, group.1) group.2
  else d

def materializeImplicitHostGroups (groups : List (String × Stored α)) (d : Desktop α) : Desktop α :=
  groups.foldl materializeGroup d

def plainRecords (iv : Key → Nat) (records : Table Key (Stored α)) : Table Key (Wire α) :=
  Table.filterMap (fun k record => if k.1 = .secrets then none else some (toSyncRecord (iv k) record))
    records

def secretRefs (records : Table Key (Stored α)) : List Key :=
  records.keys.filter fun k => k.1 == .secrets

/-- Each secret is read when its load is called; the deletions are read after the last one. -/
def loadSecrets (iv : Key → Nat) (d : Desktop α) (purpose : Purpose) (records : Table Key (Wire α)) :
    List Key → Phase α
  | [] => .built purpose ⟨records, d.outbox⟩
  | ref :: rest =>
      match d.records.lookup ref with
      | none => .loading purpose records rest
      | some secret => .loading purpose (records.insert ref (toSyncRecord (iv ref) secret)) rest

def buildEncryptedSnapshot (choice : Choice α) (purpose : Purpose) (d : Desktop α) : Desktop α :=
  let d := materializeImplicitHostGroups choice.groups d
  { d with
    phase := loadSecrets choice.iv d purpose (plainRecords choice.iv d.records)
      (secretRefs d.records) }

def startPushRound (choice : Choice α) (d : Desktop α) : Desktop α :=
  buildEncryptedSnapshot choice .pushDirty { d with queuedPush := false, pendingPush := true }

def fetchRemoteSnapshot (refetch : Bool) (d : Desktop α) : Desktop α :=
  { d with phase := .getting refetch d.lastSyncRevision }

/-- The revision a push returns is stored when it is at most one above the last one. -/
def storePushRevision (revision : Nat) (d : Desktop α) : Desktop α :=
  match d.lastSyncRevision with
  | none => d
  | some lastPulled =>
      if revision ≤ lastPulled + 1 then { d with lastSyncRevision := some revision } else d

def clearMany (outbox cleared : Table Key Int) : Table Key Int :=
  Table.filterMap (fun k deletedAt => if cleared.lookup k = some deletedAt then none
    else some deletedAt) outbox

def liveRecords (rows : Table Key (Wire α)) : Table Key (Stored α) :=
  Table.filterMap (fun _ row => decodeLive row) rows

/-- The settings always hold a theme: without a synced one it is the system theme of now. -/
def withPreferences (systemTheme : α) (now : Int) (records : Table Key (Stored α)) :
    Table Key (Stored α) :=
  if (records.lookup preferencesKey).isNone then
    records.insert preferencesKey ⟨systemTheme, now⟩
  else records

def pullChanges (choice : Choice α) (records : Table Key (Stored α)) : List (Key × Stored α) :=
  choice.changes.filter fun c =>
    (c.1.1 == .workspaces || c.1.1 == .awsProfiles) && (records.lookup c.1).isSome

def applyRemoteSnapshot (systemTheme : α) (choice : Choice α) (remote : Remote α) (d : Desktop α) :
    Desktop α :=
  let received := withPreferences systemTheme choice.now (liveRecords remote.rows)
  let changes := pullChanges choice received
  { d with
    records := Table.insertAll received changes
    unpushed := fun k => changes.any fun c => c.1 == k
    phase := .applied remote.revision (!changes.isEmpty) }

def finishBootstrap (pullChangedLocalData : Bool) (d : Desktop α) : Desktop α :=
  { d with
    outbox := ∅
    pendingPush := pullChangedLocalData
    pushTimer := d.pushTimer || pullChangedLocalData
    phase := .settling .bootstrap }

def start (choice : Choice α) (d : Desktop α) : Option (Desktop α) :=
  match d.phase, d.queue with
  | .idle, .bootstrap :: rest =>
      let hadPending := hasPendingLocalChanges d
      some { d with queue := rest, pendingPush := hadPending, phase := .info hadPending }
  | .idle, .pushDirty :: rest => some (startPushRound choice { d with queue := rest })
  | _, _ => none

def afterBuild (systemTheme : α) (choice : Choice α) (snapshot : Snapshot α) (d : Desktop α) :
    Purpose → Desktop α
  | .bootstrap =>
      if snapshot.payload.isEmpty then fetchRemoteSnapshot false d
      else { d with phase := .posting .bootstrap snapshot }
  | .recover etag =>
      if snapshot.payload.isEmpty then applyRemoteSnapshot systemTheme choice ⟨∅, etag⟩ d
      else { d with phase := .posting (.recover etag) snapshot }
  | .pushDirty => { d with phase := .posting .pushDirty snapshot }

/-- A push round clears the deletions it carried, and goes round again for what came in since. -/
def endPushRound (choice : Choice α) (snapshot : Snapshot α) (d : Desktop α) : Desktop α :=
  let d := { d with outbox := clearMany d.outbox snapshot.deletions }
  if d.queuedPush || !d.outbox.entries.isEmpty then startPushRound choice d
  else { d with pendingPush := false, phase := .settling .pushDirty }

def afterPush (choice : Choice α) (snapshot : Snapshot α) (d : Desktop α) : Purpose → Desktop α
  | .bootstrap => fetchRemoteSnapshot false d
  | .recover _ => fetchRemoteSnapshot true d
  | .pushDirty => endPushRound choice snapshot d

def afterFetch (systemTheme : α) (choice : Choice α) (refetch : Bool) (d : Desktop α) :
    Option (Remote α) → Desktop α
  | none => finishBootstrap false d
  | some remote =>
      if !refetch && remote.rows.entries.isEmpty then
        buildEncryptedSnapshot choice (.recover remote.revision) d
      else applyRemoteSnapshot systemTheme choice remote d

/-- The `finally` of an operation: its task is over, and so is a wish for another round. -/
def settle (d : Desktop α) : Op → Desktop α
  | .bootstrap => { d with bootstrapTask := false, phase := .idle }
  | .pushDirty => { d with pushTask := false, queuedPush := false, phase := .idle }

def resume (systemTheme : α) (choice : Choice α) (d : Desktop α) : Option (Desktop α) :=
  match d.phase with
  | .info hadPending =>
      some (if hadPending then buildEncryptedSnapshot choice .bootstrap d
        else fetchRemoteSnapshot false d)
  | .loading purpose records refs =>
      some { d with phase := loadSecrets choice.iv d purpose records refs }
  | .built purpose snapshot => some (afterBuild systemTheme choice snapshot d purpose)
  | .posted purpose snapshot revision =>
      some { storePushRevision revision d with phase := .pushed purpose snapshot }
  | .pushed purpose snapshot => some (afterPush choice snapshot d purpose)
  | .got refetch reply => some (afterFetch systemTheme choice refetch d reply)
  | .applied etag changed => some (finishBootstrap changed { d with lastSyncRevision := some etag })
  | .settling op => some (settle d op)
  | .idle | .posting .. | .getting .. => none

def fail (d : Desktop α) : Option (Desktop α) :=
  match d.phase with
  | .posting .pushDirty _ | .posted .pushDirty _ _ =>
      some { d with pendingPush := true, pushTimer := true, phase := .settling .pushDirty }
  | .posting _ _ | .posted _ _ _ | .getting .. | .got .. =>
      some { d with pendingPush := true, phase := .settling .bootstrap }
  | _ => none

@[simp] theorem decodeLive_toSyncRecord (iv : Nat) (record : Stored α) :
    decodeLive (toSyncRecord iv record) = some record := rfl

@[simp] theorem decodeLive_tombstone (deletedAt : Int) :
    decodeLive (tombstone deletedAt : Wire α) = none := rfl

@[simp] theorem toSyncRecord_updatedAt (iv : Nat) (record : Stored α) :
    (toSyncRecord iv record).updatedAt = record.updatedAt := rfl

@[simp] theorem tombstone_updatedAt (deletedAt : Int) :
    (tombstone deletedAt : Wire α).updatedAt = deletedAt := rfl

@[simp] theorem liveRecords_lookup (rows : Table Key (Wire α)) (k : Key) :
    (liveRecords rows).lookup k = (rows.lookup k).bind decodeLive :=
  Table.lookup_filterMap _ rows k

theorem plainRecords_lookup (iv : Key → Nat) (records : Table Key (Stored α)) (k : Key) :
    (plainRecords iv records).lookup k =
      if k.1 = .secrets then none else (records.lookup k).map (toSyncRecord (iv k)) := by
  rw [plainRecords, Table.lookup_filterMap]
  split <;> cases records.lookup k <;> rfl

theorem mem_secretRefs {records : Table Key (Stored α)} {k : Key} :
    k ∈ secretRefs records ↔ (∃ record, records.lookup k = some record) ∧ k.1 = .secrets := by
  simp [secretRefs, ← AList.mem_keys, ← AList.lookup_isSome, Option.isSome_iff_exists]

theorem clearMany_lookup (outbox cleared : Table Key Int) (k : Key) :
    (clearMany outbox cleared).lookup k =
      if cleared.lookup k = outbox.lookup k then none else outbox.lookup k := by
  rw [clearMany, Table.lookup_filterMap]
  cases h : outbox.lookup k with
  | none => simp
  | some deletedAt => rfl

def Snapshot.recordAt (snapshot : Snapshot α) (k : Key) (current : Option (Wire α)) :
    Option (Wire α) :=
  match snapshot.records.lookup k with
  | none => current
  | some row => some (lastWriter current row)

def Snapshot.resultAt (snapshot : Snapshot α) (k : Key) (current : Option (Wire α)) :
    Option (Wire α) :=
  match snapshot.deletions.lookup k with
  | none => snapshot.recordAt k current
  | some deletedAt => some (lastWriter (snapshot.recordAt k current) (tombstone deletedAt))

theorem mem_payload {snapshot : Snapshot α} {k : Key} {row : Wire α} :
    (⟨k, row⟩ : Σ _ : Key, Wire α) ∈ snapshot.payload ↔ snapshot.records.lookup k = some row ∨
      ∃ deletedAt, snapshot.deletions.lookup k = some deletedAt ∧ row = tombstone deletedAt := by
  simp only [Snapshot.payload, List.mem_append, Table.mem_entries, List.mem_map]
  constructor
  · rintro (h | ⟨e, he, heq⟩)
    · exact .inl h
    · cases heq
      exact .inr ⟨e.2, Table.mem_entries.mp he, rfl⟩
  · rintro (h | ⟨deletedAt, h, rfl⟩)
    · exact .inl h
    · exact .inr ⟨⟨k, deletedAt⟩, Table.mem_entries.mpr h, rfl⟩

@[simp] theorem pushDirty_phase (d : Desktop α) : (pushDirty d).phase = d.phase := by
  unfold pushDirty
  split <;> rfl

@[simp] theorem pushDirty_records (d : Desktop α) : (pushDirty d).records = d.records := by
  unfold pushDirty
  split <;> rfl

@[simp] theorem pushDirty_outbox (d : Desktop α) : (pushDirty d).outbox = d.outbox := by
  unfold pushDirty
  split <;> rfl

@[simp] theorem pushDirty_unpushed (d : Desktop α) : (pushDirty d).unpushed = d.unpushed := by
  unfold pushDirty
  split <;> rfl

theorem upsertRecord_lookup (d : Desktop α) (record : Stored α) {k j : Key} (h : j ≠ k) :
    (upsertRecord d k record).records.lookup j = d.records.lookup j ∧
      (upsertRecord d k record).unpushed j = d.unpushed j :=
  ⟨AList.lookup_insert_ne h, Function.update_of_ne h _ _⟩

theorem upsertDeletion_lookup (d : Desktop α) (deletedAt : Int) {k j : Key} (h : j ≠ k) :
    (upsertDeletion d k deletedAt).records.lookup j = d.records.lookup j ∧
      (upsertDeletion d k deletedAt).outbox.lookup j = d.outbox.lookup j ∧
      (upsertDeletion d k deletedAt).unpushed j = d.unpushed j :=
  ⟨AList.lookup_erase_ne h, AList.lookup_insert_ne h, Function.update_of_ne h _ _⟩

theorem materialize_eq (groups : List (String × Stored α)) (d : Desktop α) :
    ∃ records unpushed, materializeImplicitHostGroups groups d =
      { d with records := records, unpushed := unpushed } := by
  induction groups generalizing d with
  | nil => exact ⟨d.records, d.unpushed, rfl⟩
  | cons group rest ih =>
      obtain ⟨records, unpushed, h⟩ := ih (materializeGroup d group)
      refine ⟨records, unpushed, h.trans ?_⟩
      unfold materializeGroup
      split <;> rfl

theorem materialize_lookup (groups : List (String × Stored α)) (d : Desktop α) (k : Key) :
    ((materializeImplicitHostGroups groups d).records.lookup k = d.records.lookup k ∧
        (materializeImplicitHostGroups groups d).unpushed k = d.unpushed k) ∨
      (d.records.lookup k = none ∧ (materializeImplicitHostGroups groups d).unpushed k = true ∧
        ∃ group ∈ groups, k = (.groups, group.1) ∧
          (materializeImplicitHostGroups groups d).records.lookup k = some group.2) := by
  induction groups generalizing d with
  | nil => exact .inl ⟨rfl, rfl⟩
  | cons group rest ih =>
      have hcons : materializeImplicitHostGroups (group :: rest) d =
          materializeImplicitHostGroups rest (materializeGroup d group) := rfl
      rw [hcons]
      have hrest := ih (materializeGroup d group)
      by_cases hd : (d.records.lookup (.groups, group.1)).isNone
      · have hone : materializeGroup d group = upsertRecord d (.groups, group.1) group.2 :=
          if_pos hd
        rw [hone] at hrest ⊢
        by_cases hk : k = (.groups, group.1)
        · subst hk
          have hnew : (upsertRecord d (.groups, group.1) group.2).records.lookup
              (.groups, group.1) = some group.2 := AList.lookup_insert _
          rcases hrest with ⟨hr, hu⟩ | ⟨hnone, -⟩
          · refine .inr ⟨Option.isNone_iff_eq_none.mp hd, ?_, group, by simp, rfl, hr.trans hnew⟩
            exact hu.trans (Function.update_self ..)
          · rw [hnew] at hnone
            cases hnone
        · obtain ⟨hr', hu'⟩ := upsertRecord_lookup d group.2 hk
          rcases hrest with ⟨hr, hu⟩ | ⟨hnone, hu, g, hg, hrest⟩
          · exact .inl ⟨hr.trans hr', hu.trans hu'⟩
          · exact .inr ⟨hr'.symm.trans hnone, hu, g, List.mem_cons_of_mem _ hg, hrest⟩
      · have hone : materializeGroup d group = d := if_neg hd
        rw [hone] at hrest ⊢
        rcases hrest with h | ⟨hnone, hu, g, hg, hrest⟩
        · exact .inl h
        · exact .inr ⟨hnone, hu, g, List.mem_cons_of_mem _ hg, hrest⟩

variable [DecidableEq α]

def carries (d : Desktop α) (snapshot : Snapshot α) (k : Key) : Bool :=
  match d.records.lookup k with
  | some record => (snapshot.records.lookup k).bind decodeLive == some record
  | none => (snapshot.deletions.lookup k).isSome &&
      snapshot.deletions.lookup k == d.outbox.lookup k

def serve (server : Remote α) (d : Desktop α) : Option (Remote α × Desktop α) :=
  match d.phase with
  | .posting purpose snapshot =>
      let after := applyPushRecords server snapshot.payload
      some (after, { d with
        unpushed := fun k => d.unpushed k && !carries d snapshot k
        phase := .posted purpose snapshot after.revision })
  | .getting refetch ifNoneMatch =>
      some (server, { d with phase := .got refetch (getSync server ifNoneMatch) })
  | _ => none

inductive Event (α : Type) where
  | edit (k : Key) (record : Stored α)
  | remove (k : Key) (deletedAt : Int)
  | bootstrap
  | retry
  | start (choice : Choice α)
  | resume (choice : Choice α)
  | serve
  | fail

def step (systemTheme : α) (server : Remote α) (d : Desktop α) : Event α →
    Option (Remote α × Desktop α)
  | .edit k record => some (server, pushDirty (upsertRecord d k record))
  | .remove k deletedAt =>
      if k.1 = .preferences then none
      else some (server, pushDirty (upsertDeletion d k deletedAt))
  | .bootstrap => some (server, bootstrap d)
  | .retry => if d.pushTimer then some (server, pushDirty d) else none
  | .start choice => (start choice d).map (server, ·)
  | .resume choice => (resume systemTheme choice d).map (server, ·)
  | .serve => serve server d
  | .fail => (fail d).map (server, ·)

theorem applyPushRecords_lookup (server : Remote α) (snapshot : Snapshot α) (k : Key) :
    (applyPushRecords server snapshot.payload).rows.lookup k =
      snapshot.resultAt k (server.rows.lookup k) := by
  have upsertOne {t : Table Key (Wire α)} {l : List (Σ _ : Key, Wire α)} (nd : l.NodupKeys) :
      (upsertSyncRecords t l).1.lookup k = match l.dlookup k with
        | none => t.lookup k
        | some row => some (lastWriter (t.lookup k) row) := by
    cases h : l.dlookup k with
    | none => exact upsertSyncRecords_lookup_of_notMem (List.dlookup_eq_none.mp h)
    | some row =>
        exact upsertSyncRecords_lookup_of_mem nd (List.of_mem_dlookup h)
  have hdel : (snapshot.deletions.entries.map fun e =>
      (⟨e.1, tombstone e.2⟩ : Σ _ : Key, Wire α)).dlookup k =
        (snapshot.deletions.lookup k).map tombstone :=
    List.dlookup_map₂ (f := fun _ : Key => (tombstone : Int → Wire α)) k
  have hnd : (snapshot.deletions.entries.map fun e =>
      (⟨e.1, tombstone e.2⟩ : Σ _ : Key, Wire α)).NodupKeys :=
    snapshot.deletions.nodupKeys.map₂ (fun _ => tombstone) _
  simp only [applyPushRecords, Snapshot.payload, upsertSyncRecords_append, upsertOne hnd, hdel,
    upsertOne snapshot.records.nodupKeys, Snapshot.resultAt, Snapshot.recordAt]
  cases snapshot.deletions.lookup k <;> rfl

def freshDesktop : Desktop String where
  records := AList.singleton preferencesKey ⟨"system", 0⟩
  outbox := ∅
  pendingPush := false
  lastSyncRevision := none
  phase := .idle
  queue := []
  bootstrapTask := false
  pushTask := false
  queuedPush := false
  pushTimer := false
  unpushed := fun _ => false

def sampleChoice (iv : Nat) : Choice String := ⟨fun _ => iv, 0, [], []⟩

def syncedServer : Remote String :=
  ⟨AList.singleton preferencesKey (toSyncRecord 0 ⟨"system", 0⟩), 1⟩

end Dolgate.DesktopSync
