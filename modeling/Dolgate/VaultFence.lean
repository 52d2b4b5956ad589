import Dolgate.Transition
import Dolgate.VaultStore

set_option autoImplicit false

namespace Dolgate.VaultStore
open Transaction Transition

variable {cfg : Config} {s t : Account}

theorem lockUserRowTx_ok {u : Unit} (h : lockUserRowTx cfg s = (.ok u, t)) : s = t := by
  unfold lockUserRowTx at h
  split at h
  · exact (pure_ok.mp h).2
  · obtain ⟨user, v, hv, h⟩ := bind_ok.mp h
    exact (take_ok.mp hv).2.trans (pure_ok.mp h).2

theorem takeUser_ok {user : UserRow} : takeUser s = (.ok user, t) ↔ s.user = some user ∧ s = t :=
  take_ok

theorem getVaultMetaTx_ok {m : VaultMeta} (h : getVaultMetaTx s = (.ok m, t)) :
    s = t ∧ ∃ user, s.user = some user ∧ m.epoch = user.vaultEpoch ∧
      m.versionFloor = if user.vaultVersionFloor < 1 then 1 else user.vaultVersionFloor := by
  obtain ⟨user, v, hv, h⟩ := bind_ok.mp h
  obtain ⟨hu, rfl⟩ := takeUser_ok.mp hv
  obtain ⟨rfl, rfl⟩ := pure_ok.mp h
  exact ⟨rfl, user, hu, rfl, rfl⟩

theorem bumpSyncRevisionTx_ok {n : Int} (h : bumpSyncRevisionTx s = (.ok n, t)) :
    ∃ user, s.user = some user ∧ n = user.syncRevision + 1 ∧
      t = { s with user := some { user with syncRevision := user.syncRevision + 1 } } := by
  obtain ⟨u, v, hv, h⟩ := bind_ok.mp h
  have hv := write_ok.mp hv
  obtain ⟨user, w, hw, h⟩ := bind_ok.mp h
  obtain ⟨hu, rfl⟩ := takeUser_ok.mp hw
  obtain ⟨rfl, rfl⟩ := pure_ok.mp h
  subst hv
  obtain ⟨user', hu', rfl⟩ := Option.map_eq_some_iff.mp hu
  exact ⟨user', hu', rfl, by simp [hu']⟩

theorem validateVaultPushFenceTx_ok {fence : VaultPushFence} {u : Unit}
    (h : validateVaultPushFenceTx fence s = (.ok u, t)) :
    s = t ∧ ∃ user row, s.user = some user ∧ s.vault = some row ∧
      user.vaultEpoch = fence.epoch ∧
      (if row.version = 0 then 1 else row.version) = fence.version := by
  obtain ⟨user, v, hv, h⟩ := bind_ok.mp h
  obtain ⟨hu, rfl⟩ := takeUser_ok.mp hv
  obtain ⟨_, v, hv, h⟩ := bind_ok.mp h
  obtain ⟨he, rfl⟩ := require_ok.mp hv
  obtain ⟨row, v, hv, h⟩ := bind_ok.mp h
  obtain ⟨hr, rfl⟩ := take_ok.mp hv
  obtain ⟨hver, rfl⟩ := require_ok.mp h
  exact ⟨rfl, user, row, hu, hr, he, hver⟩

def Payload.Carries (p : Payload) (key : String × String) (row : SyncRecordRow) : Prop :=
  ∃ record ∈ p.get key.1, record.id = key.2 ∧ toSyncRecordRow record = .ok row

/-- Writing records touches nothing else, and every row there is old or one of `new`. -/
def RecordsFrom (new : String × String → SyncRecordRow → Prop) (s t : Account) : Prop :=
  t.user = s.user ∧ t.vault = s.vault ∧
    ∀ key row, t.records key = some row → s.records key = some row ∨ new key row

theorem RecordsFrom.refl (new : String × String → SyncRecordRow → Prop) (s : Account) :
    RecordsFrom new s s := ⟨rfl, rfl, fun _ _ h => Or.inl h⟩

theorem RecordsFrom.trans {new : String × String → SyncRecordRow → Prop} {u : Account}
    (h₁ : RecordsFrom new s t) (h₂ : RecordsFrom new t u) : RecordsFrom new s u := by
  refine ⟨h₂.1.trans h₁.1, h₂.2.1.trans h₁.2.1, fun key row h => ?_⟩
  rcases h₂.2.2 key row h with h | h
  · exact h₁.2.2 key row h
  · exact Or.inr h

theorem RecordsFrom.mono {new new' : String × String → SyncRecordRow → Prop}
    (h : RecordsFrom new s t) (hn : ∀ key row, new key row → new' key row) :
    RecordsFrom new' s t :=
  ⟨h.1, h.2.1, fun key row hr => (h.2.2 key row hr).imp id (hn key row)⟩

theorem upsertSyncRecordTx_ok {kind : String} {record : Record} {n : Nat}
    (h : upsertSyncRecordTx kind record s = (.ok n, t)) :
    RecordsFrom (fun key row => key = (kind, record.id) ∧ toSyncRecordRow record = .ok row)
      s t := by
  unfold upsertSyncRecordTx at h
  cases hrow : toSyncRecordRow record with
  | error reason =>
      rw [hrow] at h
      exact (not_fail_ok h).elim
  | ok row =>
      rw [hrow] at h
      obtain ⟨current, v, hv, h⟩ := bind_ok.mp h
      obtain ⟨-, rfl⟩ := read_ok.mp hv
      split at h
      · obtain ⟨-, rfl⟩ := pure_ok.mp h
        exact RecordsFrom.refl _ _
      · obtain ⟨_, v, hv, h⟩ := bind_ok.mp h
        obtain ⟨-, rfl⟩ := pure_ok.mp h
        have hv := write_ok.mp hv
        subst hv
        refine ⟨rfl, rfl, fun key row' hr => ?_⟩
        by_cases hk : key = (kind, record.id)
        · subst hk
          simp only [Function.update_self, Option.some.injEq] at hr
          exact Or.inr ⟨rfl, hr ▸ rfl⟩
        · simp only [Function.update_of_ne hk] at hr
          exact Or.inl hr

theorem upsertSyncRecordsTx_ok {kind : String} {records : List Record} {n : Nat}
    (h : upsertSyncRecordsTx kind records s = (.ok n, t)) :
    RecordsFrom (fun key row => key.1 = kind ∧
      ∃ record ∈ records, record.id = key.2 ∧ toSyncRecordRow record = .ok row) s t := by
  induction records generalizing s n with
  | nil =>
      obtain ⟨-, rfl⟩ := pure_ok.mp h
      exact RecordsFrom.refl _ _
  | cons record rest ih =>
      obtain ⟨written, v, hv, h⟩ := bind_ok.mp h
      obtain ⟨more, w, hw, h⟩ := bind_ok.mp h
      obtain ⟨-, rfl⟩ := pure_ok.mp h
      refine ((upsertSyncRecordTx_ok hv).mono ?_).trans ((ih hw).mono ?_)
      · rintro key row ⟨rfl, hrow⟩
        exact ⟨rfl, record, List.mem_cons_self, rfl, hrow⟩
      · rintro key row ⟨hk, r, hr, hid, hrow⟩
        exact ⟨hk, r, List.mem_cons_of_mem record hr, hid, hrow⟩

theorem upsertKindsTx_ok {payload : Payload} {kinds : List String} {n : Nat}
    (h : upsertKindsTx payload kinds s = (.ok n, t)) : RecordsFrom payload.Carries s t := by
  induction kinds generalizing s n with
  | nil =>
      obtain ⟨-, rfl⟩ := pure_ok.mp h
      exact RecordsFrom.refl _ _
  | cons kind rest ih =>
      obtain ⟨written, v, hv, h⟩ := bind_ok.mp h
      obtain ⟨more, w, hw, h⟩ := bind_ok.mp h
      obtain ⟨-, rfl⟩ := pure_ok.mp h
      refine ((upsertSyncRecordsTx_ok hv).mono ?_).trans (ih hw)
      rintro key row ⟨rfl, hrow⟩
      exact hrow

/-- A push that is let in found the fence's epoch and version, wrote its records, and counted the
revision up if there were any. -/
theorem applyPushRecords_cases {payload : Payload} {fence : VaultPushFence} {n : Int}
    (h : applyPushRecords cfg payload fence s = (.ok n, t)) :
    ∃ user row total v, s.user = some user ∧ s.vault = some row ∧
      user.vaultEpoch = fence.epoch ∧
      (if row.version = 0 then 1 else row.version) = fence.version ∧
      upsertKindsTx payload payload.kinds s = (.ok total, v) ∧
      ((total = 0 ∧ t = v) ∨
        (total ≠ 0 ∧
          t = { v with user := some { user with syncRevision := user.syncRevision + 1 } })) := by
  unfold applyPushRecords at h
  cases hvalid : payload.validate with
  | error reason =>
      rw [hvalid] at h
      exact (not_fail_ok h).elim
  | ok _ =>
      rw [hvalid] at h
      obtain ⟨_, v, hv, h⟩ := bind_ok.mp (transaction_ok.mp h)
      obtain rfl := lockUserRowTx_ok hv
      obtain ⟨_, v, hv, h⟩ := bind_ok.mp h
      obtain ⟨rfl, user, row, hu, hr, he, hver⟩ := validateVaultPushFenceTx_ok hv
      obtain ⟨total, v, hv, h⟩ := bind_ok.mp h
      refine ⟨user, row, total, v, hu, hr, he, hver, hv, ?_⟩
      split at h
      · rename_i htotal
        obtain ⟨user', w, hw, h⟩ := bind_ok.mp h
        obtain ⟨-, rfl⟩ := takeUser_ok.mp hw
        obtain ⟨-, rfl⟩ := pure_ok.mp h
        exact .inl ⟨htotal, rfl⟩
      · rename_i htotal
        obtain ⟨user', hu', -, rfl⟩ := bumpSyncRevisionTx_ok h
        rw [(upsertKindsTx_ok hv).1, hu] at hu'
        cases hu'
        exact .inr ⟨htotal, rfl⟩

theorem applyPushRecords_ok {payload : Payload} {fence : VaultPushFence} {n : Int}
    (h : applyPushRecords cfg payload fence s = (.ok n, t)) :
    ∃ user row, s.user = some user ∧ s.vault = some row ∧ user.vaultEpoch = fence.epoch ∧
      (if row.version = 0 then 1 else row.version) = fence.version ∧ t.vault = some row ∧
      (t.user = some user ∨
        t.user = some { user with syncRevision := user.syncRevision + 1 }) ∧
      ∀ key r, t.records key = some r → s.records key = some r ∨ payload.Carries key r := by
  obtain ⟨user, row, total, v, hu, hr, he, hver, hv, ht⟩ := applyPushRecords_cases h
  obtain ⟨hvu, hvv, hrec⟩ := upsertKindsTx_ok hv
  refine ⟨user, row, hu, hr, he, hver, ?_⟩
  rcases ht with ⟨-, rfl⟩ | ⟨-, rfl⟩
  · exact ⟨hvv.trans hr, Or.inl (hvu.trans hu), hrec⟩
  · exact ⟨hvv.trans hr, Or.inr rfl, hrec⟩

theorem applyPushRecords_error {payload : Payload} {fence : VaultPushFence} {e : Err}
    (h : applyPushRecords cfg payload fence s = (.error e, t)) : t = s := by
  unfold applyPushRecords at h
  cases hvalid : payload.validate with
  | error reason =>
      rw [hvalid] at h
      cases h
      rfl
  | ok _ =>
      rw [hvalid] at h
      exact transaction_error h

theorem finalizeVaultCreateTx_ok {row : UserVaultKeyRow} {r : UserVaultKey}
    (h : finalizeVaultCreateTx row s = (.ok r, t)) :
    ∃ user, s.user = some user ∧
      t = { s with user := some ⟨user.syncRevision + 1, user.vaultEpoch + 1, 2⟩ } := by
  obtain ⟨n, v, hv, h⟩ := bind_ok.mp h
  obtain ⟨user, hu, -, rfl⟩ := bumpSyncRevisionTx_ok hv
  obtain ⟨_, v, hv, h⟩ := bind_ok.mp h
  have hv := write_ok.mp hv
  obtain ⟨m, w, hw, h⟩ := bind_ok.mp h
  obtain ⟨rfl, -⟩ := getVaultMetaTx_ok hw
  obtain ⟨-, rfl⟩ := pure_ok.mp h
  exact ⟨user, hu, hv.symm⟩

theorem createUserVaultV2_ok {vault : UserVaultKey} {precondition : VaultMutationPrecondition}
    {r : UserVaultKey} (h : createUserVaultV2 cfg vault precondition s = (.ok r, t)) :
    ∃ user, s.user = some user ∧ user.vaultEpoch = precondition.expectedEpoch ∧
      t = ⟨some ⟨user.syncRevision + 1, user.vaultEpoch + 1, 2⟩, some (vaultRowV2 vault),
        s.records⟩ ∧
      ∀ current, s.vault = some current → current.version < 2 ∧
        legacyVaultDekVerifier cfg current.keyBase64 = some vault.dekVerifier := by
  obtain ⟨_, v, hv, h⟩ := bind_ok.mp (transaction_ok.mp h)
  obtain rfl := lockUserRowTx_ok hv
  obtain ⟨m, v, hv, h⟩ := bind_ok.mp h
  obtain ⟨rfl, user, hu, hm, -⟩ := getVaultMetaTx_ok hv
  obtain ⟨_, v, hv, h⟩ := bind_ok.mp h
  obtain ⟨he, rfl⟩ := require_ok.mp hv
  obtain ⟨found, v, hv, h⟩ := bind_ok.mp h
  obtain ⟨hfound, rfl⟩ := read_ok.mp hv
  refine ⟨user, hu, hm ▸ he, ?_⟩
  cases found with
  | none =>
      obtain ⟨_, v, hv, h⟩ := bind_ok.mp h
      have hv := write_ok.mp hv
      subst hv
      obtain ⟨user', hu', rfl⟩ := finalizeVaultCreateTx_ok h
      cases hu.symm.trans hu'
      exact ⟨rfl, fun current hc => by simp [hfound] at hc⟩
  | some current =>
      obtain ⟨_, v, hv, h⟩ := bind_ok.mp h
      obtain ⟨hver, rfl⟩ := require_ok.mp hv
      obtain ⟨_, v, hv, h⟩ := bind_ok.mp h
      obtain ⟨hmac, rfl⟩ := require_ok.mp hv
      obtain ⟨_, v, hv, h⟩ := bind_ok.mp h
      have hv := write_ok.mp hv
      subst hv
      obtain ⟨user', hu', rfl⟩ := finalizeVaultCreateTx_ok h
      cases hu.symm.trans hu'
      refine ⟨rfl, fun current' hc => ?_⟩
      cases hfound.symm.trans hc
      exact ⟨hver, hmac⟩

theorem updateUserVaultV2_ok {vault : UserVaultKey} {precondition : VaultMutationPrecondition}
    {r : UserVaultKey} (h : updateUserVaultV2 cfg vault precondition s = (.ok r, t)) :
    ∃ user current expected, s.user = some user ∧ s.vault = some current ∧
      current.version = 2 ∧ precondition.expectedDekVerifier = some expected ∧
      current.dekVerifier = trimSpace expected ∧
      t = { s with vault := some (backfillRow (rewrapRow current vault) vault) } := by
  obtain ⟨_, v, hv, h⟩ := bind_ok.mp (transaction_ok.mp h)
  obtain rfl := lockUserRowTx_ok hv
  obtain ⟨m, v, hv, h⟩ := bind_ok.mp h
  obtain ⟨rfl, user, hu, hm, -⟩ := getVaultMetaTx_ok hv
  obtain ⟨_, v, hv, h⟩ := bind_ok.mp h
  obtain ⟨he, rfl⟩ := require_ok.mp hv
  obtain ⟨expected, v, hv, h⟩ := bind_ok.mp h
  obtain ⟨hexp, rfl⟩ := take_ok.mp hv
  obtain ⟨revision, v, hv, h⟩ := bind_ok.mp h
  obtain ⟨hrev, rfl⟩ := take_ok.mp hv
  obtain ⟨current, v, hv, h⟩ := bind_ok.mp h
  obtain ⟨hcur, rfl⟩ := take_ok.mp hv
  obtain ⟨_, v, hv, h⟩ := bind_ok.mp h
  obtain ⟨hver, rfl⟩ := require_ok.mp hv
  obtain ⟨_, v, hv, h⟩ := bind_ok.mp h
  obtain ⟨hwrap, rfl⟩ := require_ok.mp hv
  obtain ⟨_, v, hv, h⟩ := bind_ok.mp h
  obtain ⟨hdek, rfl⟩ := require_ok.mp hv
  obtain ⟨_, v, hv, h⟩ := bind_ok.mp h
  obtain ⟨hsame, rfl⟩ := require_ok.mp hv
  obtain ⟨_, v, hv, h⟩ := bind_ok.mp h
  have hv := write_ok.mp hv
  obtain ⟨row, w, hw, h⟩ := bind_ok.mp h
  obtain ⟨-, rfl⟩ := take_ok.mp hw
  obtain ⟨m', w, hw, h⟩ := bind_ok.mp h
  obtain ⟨rfl, -⟩ := getVaultMetaTx_ok hw
  obtain ⟨-, rfl⟩ := pure_ok.mp h
  exact ⟨user, current, expected, hu, hcur, hver, hexp, hdek, hv.symm⟩

theorem resetUserVault_ok {expectedEpoch n : Int}
    (h : resetUserVault cfg expectedEpoch s = (.ok n, t)) :
    ∃ user, s.user = some user ∧
      t = ⟨some ⟨user.syncRevision + 1, user.vaultEpoch + 1, 2⟩, none, fun _ => none⟩ := by
  unfold resetUserVault at h
  split at h
  · exact (not_fail_ok h).elim
  · obtain ⟨_, v, hv, h⟩ := bind_ok.mp (transaction_ok.mp h)
    obtain rfl := lockUserRowTx_ok hv
    obtain ⟨m, v, hv, h⟩ := bind_ok.mp h
    obtain ⟨rfl, user, hu, -⟩ := getVaultMetaTx_ok hv
    obtain ⟨_, v, hv, h⟩ := bind_ok.mp h
    obtain ⟨-, rfl⟩ := require_ok.mp hv
    obtain ⟨_, v, hv, h⟩ := bind_ok.mp h
    have hv := write_ok.mp hv
    obtain ⟨_, w, hw, h⟩ := bind_ok.mp h
    have hw := write_ok.mp hw
    obtain ⟨m', x, hx, h⟩ := bind_ok.mp h
    obtain ⟨rfl, -⟩ := getVaultMetaTx_ok hx
    obtain ⟨-, rfl⟩ := pure_ok.mp h
    subst hv
    exact ⟨user, hu, by rw [← hw]; simp [hu]⟩

theorem getOrCreateUserVaultKey_ok {buffer : Dek} {r : UserVaultKey}
    (h : getOrCreateUserVaultKey cfg buffer s = (.ok r, t)) :
    ∃ user, s.user = some user ∧
      ((s.vault ≠ none ∧ t = s) ∨
        (s.vault = none ∧ user.vaultVersionFloor < 2 ∧
          t = { s with vault := some (legacyVaultRow buffer) })) := by
  obtain ⟨_, v, hv, h⟩ := bind_ok.mp (transaction_ok.mp h)
  obtain rfl := lockUserRowTx_ok hv
  obtain ⟨m, v, hv, h⟩ := bind_ok.mp h
  obtain ⟨rfl, user, hu, -, hfloor⟩ := getVaultMetaTx_ok hv
  obtain ⟨found, v, hv, h⟩ := bind_ok.mp h
  obtain ⟨hfound, rfl⟩ := read_ok.mp hv
  refine ⟨user, hu, ?_⟩
  cases found with
  | some row =>
      obtain ⟨-, rfl⟩ := pure_ok.mp h
      exact Or.inl ⟨by simp [hfound], rfl⟩
  | none =>
      obtain ⟨_, v, hv, h⟩ := bind_ok.mp h
      obtain ⟨hlt, rfl⟩ := require_ok.mp hv
      obtain ⟨_, v, hv, h⟩ := bind_ok.mp h
      have hv := write_ok.mp hv
      obtain ⟨-, rfl⟩ := pure_ok.mp h
      refine Or.inr ⟨hfound, ?_, hv.symm⟩
      split at hfloor <;> omega

theorem deleteUserData_ok {u : Unit} (h : deleteUserData cfg s = (.ok u, t)) :
    t = ⟨none, none, fun _ => none⟩ := by
  unfold deleteUserData at h
  split at h
  · exact (not_fail_ok h).elim
  · obtain ⟨_, v, hv, h⟩ := bind_ok.mp (transaction_ok.mp h)
    exact (write_ok.mp h).symm

/-- A call of the store. `wrapped` is the DEK that the client put under its wrapper; the store
does not see it. -/
inductive Request where
  | push (payload : Payload) (fence : VaultPushFence)
  | create (vault : UserVaultKey) (precondition : VaultMutationPrecondition)
      (wrapped : Dek)
  | update (vault : UserVaultKey) (precondition : VaultMutationPrecondition)
      (wrapped : Dek)
  | reset (expectedEpoch : Int)
  | getOrCreate (buffer : Dek)
  | delete

def void {α : Type} (x : Tx Account Err α) : Tx Account Err Unit := do
  let _ ← x
  pure ()

def Request.perform (cfg : Config) : Request → Tx Account Err Unit
  | .push payload fence => void (applyPushRecords cfg payload fence)
  | .create vault precondition _ => void (createUserVaultV2 cfg vault precondition)
  | .update vault precondition _ => void (updateUserVaultV2 cfg vault precondition)
  | .reset expectedEpoch => void (resetUserVault cfg expectedEpoch)
  | .getOrCreate buffer => void (getOrCreateUserVaultKey cfg buffer)
  | .delete => deleteUserData cfg

structure Call where
  request : Request
  fault : Bool

def Call.perform (cfg : Config) (c : Call) : Tx Account Err Unit :=
  if c.fault then fail .driver else c.request.perform cfg

inductive Commits (cfg : Config) (s : Account) : Request → Account → Prop where
  | pushed {payload : Payload} {fence : VaultPushFence} {user : UserRow} {row : UserVaultKeyRow}
      {revision : Int} {records : String × String → Option SyncRecordRow}
      (hu : s.user = some user) (hv : s.vault = some row) (he : user.vaultEpoch = fence.epoch)
      (hver : (if row.version = 0 then 1 else row.version) = fence.version)
      (hrev : user.syncRevision ≤ revision)
      (hrec : ∀ key r, records key = some r → s.records key = some r ∨ payload.Carries key r) :
      Commits cfg s (.push payload fence)
        ⟨some { user with syncRevision := revision }, some row, records⟩
  | created {vault : UserVaultKey} {precondition : VaultMutationPrecondition} {wrapped : Dek}
      {user : UserRow} (hu : s.user = some user)
      (hc : ∀ current, s.vault = some current → current.version < 2 ∧
        legacyVaultDekVerifier cfg current.keyBase64 = some vault.dekVerifier) :
      Commits cfg s (.create vault precondition wrapped)
        ⟨some ⟨user.syncRevision + 1, user.vaultEpoch + 1, 2⟩, some (vaultRowV2 vault), s.records⟩
  | updated {vault : UserVaultKey} {precondition : VaultMutationPrecondition} {wrapped : Dek}
      {user : UserRow} {current : UserVaultKeyRow} {expected : String} (hu : s.user = some user)
      (hv : s.vault = some current) (hver : current.version = 2)
      (hexp : precondition.expectedDekVerifier = some expected)
      (hdek : current.dekVerifier = trimSpace expected) :
      Commits cfg s (.update vault precondition wrapped)
        { s with vault := some (backfillRow (rewrapRow current vault) vault) }
  | reset {expectedEpoch : Int} {user : UserRow} (hu : s.user = some user) :
      Commits cfg s (.reset expectedEpoch)
        ⟨some ⟨user.syncRevision + 1, user.vaultEpoch + 1, 2⟩, none, fun _ => none⟩
  | found {buffer : Dek} (hv : s.vault ≠ none) : Commits cfg s (.getOrCreate buffer) s
  | legacyCreated {buffer : Dek} {user : UserRow} (hu : s.user = some user) (hv : s.vault = none)
      (hfloor : user.vaultVersionFloor < 2) :
      Commits cfg s (.getOrCreate buffer)
        { s with vault := some (legacyVaultRow buffer) }
  | deleted : Commits cfg s .delete ⟨none, none, fun _ => none⟩

theorem void_ok {α : Type} {x : Tx Account Err α} {u : Unit} (h : void x s = (.ok u, t)) :
    ∃ a, x s = (.ok a, t) := by
  obtain ⟨a, v, hv, h⟩ := bind_ok.mp h
  obtain ⟨-, rfl⟩ := pure_ok.mp h
  exact ⟨a, hv⟩

theorem perform_commits {r : Request} {u : Unit} (h : r.perform cfg s = (.ok u, t)) :
    Commits cfg s r t := by
  cases r with
  | push payload fence =>
      obtain ⟨n, h⟩ := void_ok h
      obtain ⟨user, row, hu, hv, he, hver, htv, htu, hrec⟩ := applyPushRecords_ok h
      obtain ⟨tu, tv, tr⟩ := t
      cases htv
      rcases htu with htu | htu
      · cases htu
        exact .pushed hu hv he hver (Int.le_refl _) hrec
      · cases htu
        exact .pushed hu hv he hver (by omega) hrec
  | create vault precondition wrapped =>
      obtain ⟨n, h⟩ := void_ok h
      obtain ⟨user, hu, -, rfl, hc⟩ := createUserVaultV2_ok h
      exact .created hu hc
  | update vault precondition wrapped =>
      obtain ⟨n, h⟩ := void_ok h
      obtain ⟨user, current, expected, hu, hv, hver, hexp, hdek, rfl⟩ := updateUserVaultV2_ok h
      exact .updated hu hv hver hexp hdek
  | reset expectedEpoch =>
      obtain ⟨n, h⟩ := void_ok h
      obtain ⟨user, hu, rfl⟩ := resetUserVault_ok h
      exact .reset hu
  | getOrCreate buffer =>
      obtain ⟨n, h⟩ := void_ok h
      obtain ⟨user, hu, ⟨hv, rfl⟩ | ⟨hv, hfloor, rfl⟩⟩ := getOrCreateUserVaultKey_ok h
      · exact .found hv
      · exact .legacyCreated hu hv hfloor
  | delete =>
      rw [deleteUserData_ok h]
      exact .deleted

theorem void_error {α : Type} {x : Tx Account Err α} {e : Err} (h : void x s = (.error e, t)) :
    ∃ e', x s = (.error e', t) := by
  simp only [void, bind] at h
  split at h
  · cases h
  · rename_i hx
    cases h
    exact ⟨_, hx⟩

theorem perform_error {c : Call} {e : Err} (h : c.perform cfg s = (.error e, t)) : t = s := by
  unfold Call.perform at h
  split at h
  · cases h
    rfl
  · obtain ⟨r, fault⟩ := c
    cases r with
    | push payload fence =>
        obtain ⟨e, h⟩ := void_error h
        exact applyPushRecords_error h
    | create vault precondition wrapped =>
        obtain ⟨e, h⟩ := void_error h
        exact transaction_error h
    | update vault precondition wrapped =>
        obtain ⟨e, h⟩ := void_error h
        exact transaction_error h
    | reset expectedEpoch =>
        obtain ⟨e, h⟩ := void_error h
        unfold resetUserVault at h
        split at h
        · cases h
          rfl
        · exact transaction_error h
    | getOrCreate buffer =>
        obtain ⟨e, h⟩ := void_error h
        exact transaction_error h
    | delete =>
        simp only [Request.perform, deleteUserData] at h
        split at h
        · cases h
          rfl
        · exact transaction_error h

/-- An account together with what no column shows: how many vault rows there have been, and the
DEK that the present one keeps or wraps. -/
structure Tracked where
  account : Account
  generation : Nat
  dek : Option Dek

def start : Tracked := ⟨newAccount, 0, none⟩

/-- The DEK of the vault row after the call. A rewrap that changes no column wraps nothing. -/
def Request.dekAfter (s : Tracked) : Request → Option Dek
  | .push _ _ => s.dek
  | .create _ _ wrapped => some wrapped
  | .update vault _ wrapped =>
      match s.account.vault with
      | none => s.dek
      | some current => if wrapperChanged current vault then some wrapped else s.dek
  | .reset _ => none
  | .getOrCreate buffer => if s.account.vault.isNone then some buffer else s.dek
  | .delete => none

def step (cfg : Config) (s : Tracked) (c : Call) : Option Tracked :=
  match c.perform cfg s.account with
  | (.error _, t) => some { s with account := t }
  | (.ok _, t) =>
      some
        { account := t
          generation :=
            if s.account.vault.isNone && t.vault.isSome then s.generation + 1 else s.generation
          dek := c.request.dekAfter s }

theorem step_cases {s t : Tracked} {c : Call} (h : step cfg s c = some t) :
    t = s ∨ (c.fault = false ∧ c.perform cfg s.account = (.ok (), t.account) ∧
      Commits cfg s.account c.request t.account ∧
      t.generation = (if s.account.vault.isNone && t.account.vault.isSome then s.generation + 1
        else s.generation) ∧ t.dek = c.request.dekAfter s) := by
  simp only [step] at h
  split at h
  · rename_i t' he
    cases h
    rw [perform_error he]
    exact Or.inl rfl
  · rename_i u t' he
    cases h
    have hf : c.fault = false := by
      cases hc : c.fault with
      | false => rfl
      | true =>
          rw [Call.perform, hc] at he
          exact (not_fail_ok he).elim
    have hp := he
    rw [Call.perform, hf] at hp
    exact Or.inr ⟨hf, he, perform_commits hp, rfl, rfl⟩

structure Coherent (s : Account) : Prop where
  records_none : s.vault = none → ∀ key, s.records key = none
  version : ∀ row, s.vault = some row → row.version = 1 ∨ row.version = 2
  no_server_key : ∀ row, s.vault = some row → row.version = 2 → row.keyBase64 = ""
  floor : ∀ user, s.user = some user → user.vaultVersionFloor ≤ 2
  e2ee : ∀ user row, s.user = some user → s.vault = some row → 2 ≤ user.vaultVersionFloor →
    row.version = 2
  orphan : s.user = none → s.vault = none

theorem coherent_newAccount : Coherent newAccount where
  records_none _ _ := rfl
  version _ h := by cases h
  no_server_key _ h := by cases h
  floor user h := by
    cases h
    decide
  e2ee _ _ _ h := by cases h
  orphan _ := rfl

theorem rewrap_version (current : UserVaultKeyRow) (vault : UserVaultKey) :
    (backfillRow (rewrapRow current vault) vault).version = current.version := by
  unfold backfillRow rewrapRow
  split <;> split <;> rfl

theorem rewrap_keyBase64 (current : UserVaultKeyRow) (vault : UserVaultKey) :
    (backfillRow (rewrapRow current vault) vault).keyBase64 = current.keyBase64 := by
  unfold backfillRow rewrapRow
  split <;> split <;> rfl

theorem rewrap_dekVerifier (current : UserVaultKeyRow) (vault : UserVaultKey)
    (h : current.dekVerifier ≠ "") :
    (backfillRow (rewrapRow current vault) vault).dekVerifier = current.dekVerifier := by
  have hr : (rewrapRow current vault).dekVerifier = current.dekVerifier := by
    unfold rewrapRow
    split <;> rfl
  unfold backfillRow
  rw [if_neg (by rw [hr]; exact fun hb => h hb.2), hr]

theorem Commits.coherent {r : Request} (h : Commits cfg s r t) (hs : Coherent s) :
    Coherent t := by
  cases h with
  | @pushed payload fence owner row revision records hu hv he hver hrev hrec =>
      exact
        { records_none := nofun
          version := fun row h => hs.version row (hv.trans h)
          no_server_key := fun row h => hs.no_server_key row (hv.trans h)
          floor := fun user h => by
            cases h
            exact hs.floor owner hu
          e2ee := fun user row h hr hfloor => by
            cases h
            exact hs.e2ee owner row hu (hv.trans hr) hfloor
          orphan := nofun }
  | created hu hc =>
      exact
        { records_none := nofun
          version := fun row h => by
            cases h
            exact Or.inr rfl
          no_server_key := fun row h _ => by
            cases h
            rfl
          floor := fun user h => by
            cases h
            exact Int.le_refl 2
          e2ee := fun user row _ h _ => by
            cases h
            rfl
          orphan := nofun }
  | @updated vault precondition wrapped user current expected hu hv hver hexp hdek =>
      exact
        { records_none := nofun
          version := fun row h => by
            cases h
            exact Or.inr ((rewrap_version current vault).trans hver)
          no_server_key := fun row h _ => by
            cases h
            exact (rewrap_keyBase64 current vault).trans (hs.no_server_key current hv hver)
          floor := hs.floor
          e2ee := fun user row _ h _ => by
            cases h
            exact (rewrap_version current vault).trans hver
          orphan := fun h => by simp [hu] at h }
  | reset hu =>
      exact
        { records_none := fun _ _ => rfl
          version := nofun
          no_server_key := nofun
          floor := fun user h => by
            cases h
            exact Int.le_refl 2
          e2ee := fun _ _ _ h _ => by cases h
          orphan := fun _ => rfl }
  | found hv => exact hs
  | @legacyCreated buffer user hu hv hfloor =>
      exact
        { records_none := nofun
          version := fun row h => by
            cases h
            exact Or.inl rfl
          no_server_key := fun row h h2 => by
            cases h
            simp [legacyVaultRow] at h2
          floor := hs.floor
          e2ee := fun user' row h _ h2 => by
            cases hu.symm.trans h
            omega
          orphan := fun h => by simp [hu] at h }
  | deleted =>
      exact
        { records_none := fun _ _ => rfl
          version := nofun
          no_server_key := nofun
          floor := nofun
          e2ee := fun _ _ h _ _ => by cases h
          orphan := fun _ => rfl }

/-- How an account stands to an earlier one of the same user: no counter has gone back, and in
the same epoch a verifier that was there still is. -/
def Later (s t : Account) : Prop :=
  ∀ u, t.user = some u → ∃ user, s.user = some user ∧
    user.syncRevision ≤ u.syncRevision ∧ user.vaultEpoch ≤ u.vaultEpoch ∧
    user.vaultVersionFloor ≤ u.vaultVersionFloor ∧
    (user.vaultEpoch = u.vaultEpoch → ∀ row, s.vault = some row → row.dekVerifier ≠ "" →
      ∃ row', t.vault = some row' ∧ row'.dekVerifier = row.dekVerifier)

theorem Later.refl (s : Account) : Later s s := fun u hu =>
  ⟨u, hu, Int.le_refl _, Int.le_refl _, Int.le_refl _, fun _ row hr _ => ⟨row, hr, rfl⟩⟩

theorem Later.trans {u : Account} (h₁ : Later s t) (h₂ : Later t u) : Later s u := by
  intro owner hu
  obtain ⟨mid, hm, hr₂, he₂, hf₂, hd₂⟩ := h₂ owner hu
  obtain ⟨user, hs, hr₁, he₁, hf₁, hd₁⟩ := h₁ mid hm
  refine ⟨user, hs, by omega, by omega, by omega, fun he row hrow hne => ?_⟩
  obtain ⟨row', hrow', heq⟩ := hd₁ (by omega) row hrow hne
  obtain ⟨row'', hrow'', heq'⟩ := hd₂ (by omega) row' hrow' (heq ▸ hne)
  exact ⟨row'', hrow'', heq'.trans heq⟩

theorem later_newGeneration {user : UserRow} (hs : Coherent s) (hu : s.user = some user)
    (ht : t.user = some ⟨user.syncRevision + 1, user.vaultEpoch + 1, 2⟩) : Later s t := by
  intro u h
  cases ht.symm.trans h
  refine ⟨user, hu, ?_, ?_, hs.floor user hu, fun he => ?_⟩
  · show user.syncRevision ≤ user.syncRevision + 1
    omega
  · show user.vaultEpoch ≤ user.vaultEpoch + 1
    omega
  · have he : user.vaultEpoch = user.vaultEpoch + 1 := he
    omega

theorem Commits.later {r : Request} (h : Commits cfg s r t) (hs : Coherent s) : Later s t := by
  cases h with
  | @pushed payload fence owner row revision records hu hv he hver hrev hrec =>
      intro u h
      cases h
      exact ⟨owner, hu, hrev, Int.le_refl _, Int.le_refl _,
        fun _ row' hr _ => ⟨row', hv.symm.trans hr, rfl⟩⟩
  | created hu hc => exact later_newGeneration hs hu rfl
  | @updated vault precondition wrapped user current expected hu hv hver hexp hdek =>
      intro u h
      refine ⟨u, h, Int.le_refl _, Int.le_refl _, Int.le_refl _, fun _ row hr hne => ?_⟩
      cases hv.symm.trans hr
      exact ⟨_, rfl, rewrap_dekVerifier current vault hne⟩
  | reset hu => exact later_newGeneration hs hu rfl
  | found hv => exact Later.refl _
  | legacyCreated hu hv hfloor =>
      intro u h
      exact ⟨u, h, Int.le_refl _, Int.le_refl _, Int.le_refl _, fun _ row hr _ => by
        rw [hv] at hr
        cases hr⟩
  | deleted => exact nofun

theorem step_later {s t : Tracked} {c : Call} (h : step cfg s c = some t)
    (hs : Coherent s.account) : Coherent t.account ∧ Later s.account t.account := by
  rcases step_cases h with rfl | ⟨-, -, hc, -⟩
  · exact ⟨hs, Later.refl _⟩
  · exact ⟨hc.coherent hs, hc.later hs⟩

theorem run_later {s t : Tracked} {cs : List Call} (hs : Coherent s.account)
    (h : run (step cfg) s cs = some t) : Coherent t.account ∧ Later s.account t.account := by
  have hrel : Coherent s.account → Coherent t.account ∧ Later s.account t.account := by
    refine run_relation (R := fun s t : Tracked =>
      Coherent s.account → Coherent t.account ∧ Later s.account t.account) ?_ ?_ ?_ h
    · exact fun s hs => ⟨hs, Later.refl _⟩
    · intro s t u hst htu hs
      obtain ⟨ht, hl⟩ := hst hs
      obtain ⟨hu, hl'⟩ := htu ht
      exact ⟨hu, hl.trans hl'⟩
    · exact fun s c t h => step_later h
  exact hrel hs

/-- What the protocol asks of a client: the verifier it submits is that of the DEK it wraps, and
so is the one it expects, if it expects any. -/
def Request.Honest (cfg : Config) : Request → Prop
  | .create vault _ wrapped => vault.dekVerifier = dekVerifier cfg wrapped.val
  | .update _ precondition wrapped => ∀ expected,
      precondition.expectedDekVerifier = some expected → trimSpace expected = "" ∨
        trimSpace expected = dekVerifier cfg wrapped.val
  | _ => True

structure MacIdentifies (cfg : Config) : Prop where
  length : ∀ dek : Dek, (cfg.hmacSHA256 dek.val vaultDekVerifierLabel).length = 32
  injective : ∀ a b : Dek, cfg.hmacSHA256 a.val vaultDekVerifierLabel =
    cfg.hmacSHA256 b.val vaultDekVerifierLabel → a = b

theorem MacIdentifies.dekVerifier_ne (h : MacIdentifies cfg) (dek : Dek) :
    dekVerifier cfg dek.val ≠ "" := by
  intro he
  have hnil : Base64.encode (cfg.hmacSHA256 dek.val vaultDekVerifierLabel) = [] := by
    simpa [dekVerifier] using he
  have hback := Base64.decodeQuanta_encode (cfg.hmacSHA256 dek.val vaultDekVerifierLabel)
  rw [hnil] at hback
  have hlen := h.length dek
  simp only [Base64.decodeQuanta, Option.some.injEq] at hback
  simp [← hback] at hlen

theorem MacIdentifies.dekVerifier_inj (h : MacIdentifies cfg) {a b : Dek}
    (hab : dekVerifier cfg a.val = dekVerifier cfg b.val) : a = b := by
  apply h.injective
  have he : Base64.encode (cfg.hmacSHA256 a.val vaultDekVerifierLabel) =
      Base64.encode (cfg.hmacSHA256 b.val vaultDekVerifierLabel) := by
    simpa [dekVerifier] using congrArg String.toList hab
  have ha := Base64.decodeQuanta_encode (cfg.hmacSHA256 a.val vaultDekVerifierLabel)
  rw [he, Base64.decodeQuanta_encode] at ha
  exact (Option.some.inj ha).symm

theorem legacyVaultDekVerifier_legacyVaultRow (dek : Dek) :
    legacyVaultDekVerifier cfg (legacyVaultRow dek).keyBase64 = some (dekVerifier cfg dek.val) := by
  simp [legacyVaultDekVerifier, legacyVaultRow, Base64.decode_trimSpace_encode, dek.property]

def BearsOut (cfg : Config) (s : Tracked) : Prop :=
  ∀ row, s.account.vault = some row → ∃ dek, s.dek = some dek ∧
    (row.version = 1 → row.keyBase64 = (legacyVaultRow dek).keyBase64) ∧
    (row.version = 2 → row.dekVerifier = dekVerifier cfg dek.val)

/-- Honest calls keep the row and its DEK together, and change the DEK only where the store has
no record. -/
theorem Commits.bearsOut {s : Tracked} {r : Request} {t : Account}
    (h : Commits cfg s.account r t) (hmac : MacIdentifies cfg) (hr : r.Honest cfg)
    (hs : Coherent s.account) (hb : BearsOut cfg s) (g : Nat) :
    BearsOut cfg ⟨t, g, r.dekAfter s⟩ ∧
      (s.account.vault ≠ none → t.vault ≠ none → r.dekAfter s = s.dek) := by
  cases h with
  | pushed hu hv he hver hrev hrec => exact ⟨fun row h => hb row (hv.trans h), fun _ _ => rfl⟩
  | @created vault precondition wrapped user hu hc =>
      refine ⟨fun row h => ?_, fun hv _ => ?_⟩
      · cases h
        exact ⟨wrapped, rfl, nofun, fun _ => hr⟩
      · -- the submitted verifier is that of the key the v1 row has kept
        obtain ⟨current, hcur⟩ := Option.ne_none_iff_exists'.mp hv
        obtain ⟨hlt, hleg⟩ := hc current hcur
        obtain ⟨dek, hdek, hkey, -⟩ := hb current hcur
        have hone : current.version = 1 := by
          rcases hs.version current hcur with h | h
          · exact h
          · omega
        rw [hkey hone, legacyVaultDekVerifier_legacyVaultRow] at hleg
        have heq := hmac.dekVerifier_inj ((Option.some.inj hleg).trans hr)
        rw [hdek, heq]
        rfl
  | @updated vault precondition wrapped user current expected hu hv hver hexp hdek =>
      obtain ⟨dek, hd, -, hv2⟩ := hb current hv
      have hcur := hv2 hver
      have hne : current.dekVerifier ≠ "" := hcur ▸ hmac.dekVerifier_ne dek
      have hsame : wrapped = dek := by
        rcases hr expected hexp with h | h
        · exact absurd (hdek.trans h) hne
        · exact hmac.dekVerifier_inj (h.symm.trans (hdek.symm.trans hcur))
      have hafter : (Request.update vault precondition wrapped).dekAfter s = some dek := by
        simp only [Request.dekAfter, hv]
        split
        · rw [hsame]
        · exact hd
      refine ⟨fun row h => ?_, fun _ _ => hafter.trans hd.symm⟩
      cases h
      refine ⟨dek, hafter, fun h1 => ?_, fun _ => ?_⟩
      · rw [rewrap_version, hver] at h1
        cases h1
      · rw [rewrap_dekVerifier current vault hne, hcur]
  | reset hu => exact ⟨nofun, fun _ h => absurd rfl h⟩
  | @found buffer hv =>
      have hafter : (Request.getOrCreate buffer).dekAfter s = s.dek := by
        simp [Request.dekAfter, Option.isNone_iff_eq_none, hv]
      exact ⟨fun row h => hafter ▸ hb row h, fun _ _ => hafter⟩
  | @legacyCreated buffer user hu hv hfloor =>
      refine ⟨fun row h => ?_, fun h => absurd hv h⟩
      cases h
      refine ⟨buffer, ?_, fun _ => rfl, nofun⟩
      simp [Request.dekAfter, hv]
  | deleted => exact ⟨nofun, fun _ h => absurd rfl h⟩

theorem Commits.records {r : Request} (h : Commits cfg s r t) {key : String × String}
    {row : SyncRecordRow} (hrow : t.records key = some row) :
    t.vault ≠ none ∧ (s.records key = some row ∨ ∃ payload fence user vault,
      r = .push payload fence ∧ payload.Carries key row ∧ s.user = some user ∧
      s.vault = some vault ∧ user.vaultEpoch = fence.epoch ∧
      (if vault.version = 0 then 1 else vault.version) = fence.version) ∨
    t = s := by
  cases h with
  | @pushed payload fence owner vault revision records hu hv he hver hrev hrec =>
      refine Or.inl ⟨nofun, (hrec key row hrow).imp id fun hc => ?_⟩
      exact ⟨payload, fence, owner, vault, rfl, hc, hu, hv, he, hver⟩
  | created hu hc => exact Or.inl ⟨nofun, Or.inl hrow⟩
  | updated hu hv hver hexp hdek => exact Or.inl ⟨nofun, Or.inl hrow⟩
  | reset hu => cases hrow
  | found hv => exact Or.inr rfl
  | legacyCreated hu hv hfloor => exact Or.inl ⟨nofun, Or.inl hrow⟩
  | deleted => cases hrow

/-- The row was written by a push of this run whose fence named the vault row of that time, and
the vault row of now is that one or has come from it by a conversion or a rewrap: it has the same
DEK. -/
def PushedUnder (cfg : Config) (cs : List Call) (s : Tracked) (key : String × String)
    (row : SyncRecordRow) : Prop :=
  ∃ (before after : List Call) (payload : Payload) (fence : VaultPushFence) (s₁ s₂ : Tracked)
    (user : UserRow) (vault : UserVaultKeyRow),
    cs = before ++ ⟨.push payload fence, false⟩ :: after ∧
    run (step cfg) start before = some s₁ ∧
    step cfg s₁ ⟨.push payload fence, false⟩ = some s₂ ∧ run (step cfg) s₂ after = some s ∧
    (Call.mk (.push payload fence) false).perform cfg s₁.account = (.ok (), s₂.account) ∧
    payload.Carries key row ∧ s₁.account.user = some user ∧ s₁.account.vault = some vault ∧
    fence = ⟨user.vaultEpoch, if vault.version = 0 then 1 else vault.version⟩ ∧
    s.account.vault ≠ none ∧ s₁.generation = s.generation ∧
    (MacIdentifies cfg → (∀ c ∈ cs, c.request.Honest cfg) → s₁.dek = s.dek)

theorem Coherent.vault_ne_none (hs : Coherent s) {key : String × String} {row : SyncRecordRow}
    (h : s.records key = some row) : s.vault ≠ none := by
  intro hv
  rw [hs.records_none hv key] at h
  cases h

theorem run_start_coherent {cs : List Call} {s : Tracked} (h : run (step cfg) start cs = some s) :
    Coherent s.account :=
  (run_later coherent_newAccount h).1

theorem step_bearsOut {s t : Tracked} {c : Call} (h : step cfg s c = some t)
    (hmac : MacIdentifies cfg) (hc : c.request.Honest cfg) (hs : Coherent s.account)
    (hb : BearsOut cfg s) : BearsOut cfg t ∧
      (s.account.vault ≠ none → t.account.vault ≠ none → t.dek = s.dek) := by
  rcases step_cases h with rfl | ⟨-, -, hcom, -, hdek⟩
  · exact ⟨hb, fun _ _ => rfl⟩
  · obtain ⟨account, generation, dek⟩ := t
    obtain rfl : dek = c.request.dekAfter s := hdek
    exact hcom.bearsOut hmac hc hs hb generation

theorem run_bearsOut (hmac : MacIdentifies cfg) {cs : List Call} {s : Tracked}
    (hc : ∀ c ∈ cs, c.request.Honest cfg) (h : run (step cfg) start cs = some s) :
    BearsOut cfg s := by
  induction cs using List.reverseRecOn generalizing s with
  | nil =>
      cases h
      exact nofun
  | append_singleton cs c ih =>
      obtain ⟨mid, hmid, hlast⟩ := run_append.mp h
      obtain ⟨_, hstep, hnil⟩ := run_cons.mp hlast
      cases hnil
      have hb := ih (fun c hc' => hc c (List.mem_append_left _ hc')) hmid
      exact (step_bearsOut hstep hmac (hc c (by simp)) (run_start_coherent hmid) hb).1

theorem PushedUnder.extend {cs : List Call} {s t : Tracked} {c : Call} {key : String × String}
    {row : SyncRecordRow} (h : PushedUnder cfg cs s key row)
    (hrun : run (step cfg) start cs = some s) (hc : step cfg s c = some t)
    (hv : t.account.vault ≠ none) : PushedUnder cfg (cs ++ [c]) t key row := by
  obtain ⟨before, after, payload, fence, s₁, s₂, user, vault, rfl, hb, hp, ha, hok, hcar, hu, hvault,
    hf, hvs, hg, hdek⟩ := h
  refine ⟨before, after ++ [c], payload, fence, s₁, s₂, user, vault, by simp, hb, hp,
    run_append.mpr ⟨s, ha, run_cons.mpr ⟨t, hc, rfl⟩⟩, hok, hcar, hu, hvault, hf, hv, ?_, ?_⟩
  · rw [hg]
    rcases step_cases hc with rfl | ⟨-, -, -, hgen, -⟩
    · rfl
    · simp [hgen, hvs]
  · intro hmac hhonest
    have hpre : ∀ d ∈ before ++ ⟨.push payload fence, false⟩ :: after, d.request.Honest cfg :=
      fun d hd => hhonest d (List.mem_append_left _ hd)
    have hkeep := (step_bearsOut hc hmac (hhonest c (by simp)) (run_start_coherent hrun)
      (run_bearsOut hmac hpre hrun)).2 hvs hv
    exact (hdek hmac hpre).trans hkeep.symm

theorem run_pushedUnder {cs : List Call} {s : Tracked} (h : run (step cfg) start cs = some s)
    {key : String × String} {row : SyncRecordRow} (hrow : s.account.records key = some row) :
    PushedUnder cfg cs s key row := by
  induction cs using List.reverseRecOn generalizing s with
  | nil =>
      cases h
      cases hrow
  | append_singleton cs c ih =>
      obtain ⟨mid, hmid, hlast⟩ := run_append.mp h
      obtain ⟨_, hstep, hnil⟩ := run_cons.mp hlast
      cases hnil
      have hv := (run_start_coherent h).vault_ne_none hrow
      rcases step_cases hstep with rfl | ⟨hfault, hok, hcom, hgen, hdek⟩
      · exact (ih hmid hrow).extend hmid hstep hv
      · rcases hcom.records hrow with ⟨-, hold | hnew⟩ | hsame
        · exact (ih hmid hold).extend hmid hstep hv
        · obtain ⟨payload, fence, user, vault, hreq, hcar, hu, hvault, he, hver⟩ := hnew
          obtain ⟨request, fault⟩ := c
          cases hfault
          cases hreq
          refine ⟨cs, [], payload, fence, mid, s, user, vault, rfl, hmid, hstep, rfl, hok, hcar, hu,
            hvault, ?_, hv, ?_, fun _ _ => hdek.symm⟩
          · rw [he, hver]
          · simp [hgen, hvault]
        · rw [hsame] at hrow
          exact (ih hmid hrow).extend hmid hstep hv

theorem vault_fence (cfg : Config) {cs : List Call} {s : Tracked}
    (h : run (step cfg) start cs = some s) :
    (∀ key row, s.account.records key = some row → PushedUnder cfg cs s key row) ∧
    (∀ ds t, run (step cfg) s ds = some t → Later s.account t.account) ∧
    (∀ user, s.account.user = some user → 2 ≤ user.vaultVersionFloor →
      ∀ ds t, run (step cfg) s ds = some t →
        ∀ row, t.account.vault = some row → row.version = 2) ∧
    (∀ row, s.account.vault = some row → row.version = 2 → row.keyBase64 = "") ∧
    (∀ c e t, Call.perform cfg c s.account = (.error e, t) → t = s.account) := by
  have hs := run_start_coherent h
  refine ⟨fun key row => run_pushedUnder h, fun ds t hr => (run_later hs hr).2, ?_,
    hs.no_server_key, fun c e t => perform_error⟩
  intro user hu hfloor ds t hr row hrow
  obtain ⟨ht, hlater⟩ := run_later hs hr
  cases htu : t.account.user with
  | none =>
      rw [ht.orphan htu] at hrow
      cases hrow
  | some u =>
      obtain ⟨user', hu', -, -, hle, -⟩ := hlater u htu
      cases hu.symm.trans hu'
      exact ht.e2ee u row htu hrow (by omega)

def zeroDek : Dek := ⟨List.replicate 32 0, rfl⟩

/-- The MAC of the verifier label under `zeroDek`. -/
def zeroMac : List UInt8 :=
  [46, 216, 169, 17, 53, 187, 255, 41, 75, 81, 89, 240, 115, 236, 164, 87, 45, 211, 205, 230,
    1, 239, 228, 177, 108, 142, 145, 12, 14, 168, 129, 86]

/-- A MAC with the real value at `zeroDek`. -/
def sampleConfig : Config where
  sqlite := false
  userID := "u1"
  hmacSHA256 key _ := Equiv.swap zeroDek.val zeroMac key

theorem macIdentifies_sampleConfig : MacIdentifies sampleConfig where
  length dek := by
    show (Equiv.swap zeroDek.val zeroMac dek.val).length = 32
    rw [Equiv.swap_apply_def]
    split
    · rfl
    · split
      · rfl
      · exact dek.property
  injective a b h := Subtype.ext ((Equiv.swap zeroDek.val zeroMac).injective h)

def sampleVault : UserVaultKey where
  version := 2
  epoch := 0
  dekVerifier := dekVerifier sampleConfig zeroDek.val
  keyBase64 := ""
  wrappedDekBase64 := "d3JhcHBlZA=="
  kdfAlgorithm := "argon2id"
  kdfSaltBase64 := "c2FsdA=="
  kdfMemoryKiB := 65536
  kdfTimeCost := 3
  kdfParallelism := 1
  wrapRevision := 0

def sampleCalls : List Call :=
  [⟨.getOrCreate zeroDek, false⟩,
    ⟨.push ⟨[("hosts", [⟨"h1", "cGF5bG9hZA==", "2024-05-01T00:00:00Z", none⟩])], by simp⟩ ⟨0, 1⟩,
      false⟩,
    ⟨.create sampleVault ⟨0, none, none⟩ zeroDek, false⟩]

theorem vault_fence_sampleCalls :
    MacIdentifies sampleConfig ∧ (∀ c ∈ sampleCalls, c.request.Honest sampleConfig) ∧
      ∃ s row, run (step sampleConfig) start sampleCalls = some s ∧
        s.account.records ("hosts", "h1") = some row ∧
        PushedUnder sampleConfig sampleCalls s ("hosts", "h1") row := by
  refine ⟨macIdentifies_sampleConfig, by simp [sampleCalls, Request.Honest, sampleVault], ?_⟩
  have hrow : (run (step sampleConfig) start sampleCalls).map
      (fun s => s.account.records ("hosts", "h1")) =
        some (some ⟨"cGF5bG9hZA==", 1714521600000000000, none⟩) := by
    decide +kernel
  obtain ⟨s, hs, hrow⟩ := Option.map_eq_some_iff.mp hrow
  exact ⟨s, _, hs, hrow, (vault_fence sampleConfig hs).1 _ _ hrow⟩

end Dolgate.VaultStore
