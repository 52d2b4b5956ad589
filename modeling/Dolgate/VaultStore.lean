import Dolgate.Base64
import Dolgate.GoTime
import Dolgate.Transaction

set_option autoImplicit false

namespace Dolgate.VaultStore
open Transaction

/-- The columns of a `users` row that the sync store reads. -/
structure UserRow where
  syncRevision : Int
  vaultEpoch : Int
  vaultVersionFloor : Int
deriving DecidableEq, Repr

structure UserVaultKeyRow where
  version : Int
  dekVerifier : String
  keyBase64 : String
  wrappedDekBase64 : String
  kdfAlgorithm : String
  kdfSaltBase64 : String
  kdfMemoryKiB : Int
  kdfTimeCost : Int
  kdfParallelism : Int
  wrapRevision : Int
deriving DecidableEq, Repr

structure SyncRecordRow where
  encryptedPayload : String
  updatedAt : Int
  deletedAt : Option Int
deriving DecidableEq, Repr

structure Account where
  user : Option UserRow
  vault : Option UserVaultKeyRow
  records : String × String → Option SyncRecordRow

def newAccount : Account := ⟨some ⟨0, 0, 1⟩, none, fun _ => none⟩

structure UserVaultKey where
  version : Int
  epoch : Int
  dekVerifier : String
  keyBase64 : String
  wrappedDekBase64 : String
  kdfAlgorithm : String
  kdfSaltBase64 : String
  kdfMemoryKiB : Int
  kdfTimeCost : Int
  kdfParallelism : Int
  wrapRevision : Int
deriving DecidableEq, Repr

structure VaultMutationPrecondition where
  expectedEpoch : Int
  expectedDekVerifier : Option String
  expectedWrapRevision : Option Int
deriving DecidableEq, Repr

structure VaultPushFence where
  epoch : Int
  version : Int
deriving DecidableEq, Repr

structure Record where
  id : String
  encryptedPayload : String
  updatedAt : String
  deletedAt : Option String
deriving DecidableEq, Repr

structure Payload where
  entries : List (String × List Record)
  nodup : (entries.map Prod.fst).Nodup
deriving DecidableEq, Repr

inductive BadRecord where
  | tooManyKinds (count : Nat)
  | kindEmpty
  | kindTooLong (length : Nat)
  | kindInvalid (kind : String)
  | updatedAt (id : String)
  | deletedAt (id : String)
deriving DecidableEq, Repr

inductive Err where
  | badSyncRecord (reason : BadRecord)
  | vaultEpochMismatch
  | vaultConflict
  | vaultNotFound
  | vaultE2EERequired
  | recordNotFound
  | userIDRequired
  | driver
deriving DecidableEq, Repr

/-- The database driver, the user the store is asked about, and the MAC of `crypto/hmac`. -/
structure Config where
  sqlite : Bool
  userID : String
  hmacSHA256 : List UInt8 → String → List UInt8

def maxKindLength : Nat := 64

def maxKindsPerPush : Nat := 64

def kindChar (c : Char) : Bool :=
  ('a' ≤ c && c ≤ 'z') || ('A' ≤ c && c ≤ 'Z') || ('0' ≤ c && c ≤ '9') || c == '-' || c == '_'

def validateKind (kind : String) : Except BadRecord Unit :=
  if kind = "" then .error .kindEmpty
  else if kind.utf8ByteSize > maxKindLength then .error (.kindTooLong kind.utf8ByteSize)
  else if kind.toList.all kindChar then .ok ()
  else .error (.kindInvalid kind)

def Payload.validate (p : Payload) : Except BadRecord Unit :=
  if p.entries.length > maxKindsPerPush then .error (.tooManyKinds p.entries.length)
  else p.entries.forM fun entry => validateKind entry.1

def Payload.kinds (p : Payload) : List String :=
  (p.entries.map Prod.fst).insertionSort (· ≤ ·)

def Payload.get (p : Payload) (kind : String) : List Record := (p.entries.lookup kind).getD []

def vaultDekVerifierLabel : String := "dolgate-dek-verifier-v1"

def dekVerifier (cfg : Config) (dek : List UInt8) : String :=
  String.ofList (Base64.encode (cfg.hmacSHA256 dek vaultDekVerifierLabel))

def legacyVaultDekVerifier (cfg : Config) (keyBase64 : String) : Option String :=
  match Base64.decode (Base64.trimSpace keyBase64.toList) with
  | none => none
  | some dek => if dek.length = 32 then some (dekVerifier cfg dek) else none

def trimSpace (text : String) : String := String.ofList (Base64.trimSpace text.toList)

def toUserVaultKey (row : UserVaultKeyRow) (epoch : Int) : UserVaultKey where
  version := if row.version = 0 then 1 else row.version
  epoch := epoch
  dekVerifier := row.dekVerifier
  keyBase64 := row.keyBase64
  wrappedDekBase64 := row.wrappedDekBase64
  kdfAlgorithm := row.kdfAlgorithm
  kdfSaltBase64 := row.kdfSaltBase64
  kdfMemoryKiB := row.kdfMemoryKiB
  kdfTimeCost := row.kdfTimeCost
  kdfParallelism := row.kdfParallelism
  wrapRevision := row.wrapRevision

/-- Postgres and MySQL lock the user row; SQLite has one connection and nothing to lock. -/
def lockUserRowTx (cfg : Config) : Tx Account Err Unit := do
  if cfg.sqlite then pure ()
  else
    let _ ← take (fun s => s.user) .recordNotFound
    pure ()

def takeUser : Tx Account Err UserRow := take (fun s => s.user) .recordNotFound

structure VaultMeta where
  epoch : Int
  versionFloor : Int
deriving DecidableEq, Repr

def getVaultMetaTx : Tx Account Err VaultMeta := do
  let user ← takeUser
  pure ⟨user.vaultEpoch, if user.vaultVersionFloor < 1 then 1 else user.vaultVersionFloor⟩

def updateUser (f : UserRow → UserRow) : Tx Account Err Unit :=
  write fun s => { s with user := s.user.map f }

def bumpSyncRevisionTx : Tx Account Err Int := do
  updateUser fun user => { user with syncRevision := user.syncRevision + 1 }
  let user ← takeUser
  pure user.syncRevision

def validateVaultPushFenceTx (fence : VaultPushFence) : Tx Account Err Unit := do
  let user ← takeUser
  require (user.vaultEpoch = fence.epoch) .vaultEpochMismatch
  let vault ← take (fun s => s.vault) .vaultEpochMismatch
  require ((if vault.version = 0 then 1 else vault.version) = fence.version) .vaultEpochMismatch

def toSyncRecordRow (record : Record) : Except BadRecord SyncRecordRow :=
  match GoTime.parseRFC3339 record.updatedAt with
  | none => .error (.updatedAt record.id)
  | some updatedAt =>
      match record.deletedAt with
      | none => .ok ⟨record.encryptedPayload, updatedAt, none⟩
      | some text =>
          if text = "" then .ok ⟨record.encryptedPayload, updatedAt, none⟩
          else
            match GoTime.parseRFC3339 text with
            | none => .error (.deletedAt record.id)
            | some deletedAt => .ok ⟨record.encryptedPayload, updatedAt, some deletedAt⟩

def keepsCurrent (current : Option SyncRecordRow) (row : SyncRecordRow) : Bool :=
  match current with
  | none => false
  | some current =>
      decide (row.updatedAt < current.updatedAt) ||
        (current.updatedAt == row.updatedAt && current.encryptedPayload == row.encryptedPayload &&
          current.deletedAt == row.deletedAt)

def upsertSyncRecordTx (kind : String) (record : Record) : Tx Account Err Nat :=
  match toSyncRecordRow record with
  | .error reason => fail (.badSyncRecord reason)
  | .ok row => do
      let current ← read fun s => s.records (kind, record.id)
      if keepsCurrent current row then pure 0
      else
        write fun s => { s with records := Function.update s.records (kind, record.id) (some row) }
        pure 1

def upsertSyncRecordsTx (kind : String) : List Record → Tx Account Err Nat
  | [] => pure 0
  | record :: rest => do
      let written ← upsertSyncRecordTx kind record
      let more ← upsertSyncRecordsTx kind rest
      pure (written + more)

def upsertKindsTx (payload : Payload) : List String → Tx Account Err Nat
  | [] => pure 0
  | kind :: rest => do
      let written ← upsertSyncRecordsTx kind (payload.get kind)
      let more ← upsertKindsTx payload rest
      pure (written + more)

def applyPushRecords (cfg : Config) (payload : Payload) (fence : VaultPushFence) :
    Tx Account Err Int :=
  match payload.validate with
  | .error reason => fail (.badSyncRecord reason)
  | .ok () => transaction do
      lockUserRowTx cfg
      validateVaultPushFenceTx fence
      let totalWritten ← upsertKindsTx payload payload.kinds
      if totalWritten = 0 then
        let user ← takeUser
        pure user.syncRevision
      else bumpSyncRevisionTx

/-- A new DEK generation: other devices are to see it, and v1 is over for this user. -/
def finalizeVaultCreateTx (row : UserVaultKeyRow) : Tx Account Err UserVaultKey := do
  let _ ← bumpSyncRevisionTx
  updateUser fun user => { user with vaultEpoch := user.vaultEpoch + 1, vaultVersionFloor := 2 }
  let vaultMeta ← getVaultMetaTx
  pure (toUserVaultKey row vaultMeta.epoch)

def vaultRowV2 (vault : UserVaultKey) : UserVaultKeyRow where
  version := 2
  dekVerifier := vault.dekVerifier
  keyBase64 := ""
  wrappedDekBase64 := vault.wrappedDekBase64
  kdfAlgorithm := vault.kdfAlgorithm
  kdfSaltBase64 := vault.kdfSaltBase64
  kdfMemoryKiB := vault.kdfMemoryKiB
  kdfTimeCost := vault.kdfTimeCost
  kdfParallelism := vault.kdfParallelism
  wrapRevision := 1

/-- Sets up a vault, or turns a v1 vault into a v2 one when the client proves that it wraps the
key the server has held so far. -/
def createUserVaultV2 (cfg : Config) (vault : UserVaultKey)
    (precondition : VaultMutationPrecondition) : Tx Account Err UserVaultKey :=
  transaction do
    lockUserRowTx cfg
    let vaultMeta ← getVaultMetaTx
    require (vaultMeta.epoch = precondition.expectedEpoch) .vaultEpochMismatch
    match ← read fun s => s.vault with
    | none =>
        write fun s => { s with vault := some (vaultRowV2 vault) }
        finalizeVaultCreateTx (vaultRowV2 vault)
    | some current =>
        require (current.version < 2) .vaultConflict
        require (legacyVaultDekVerifier cfg current.keyBase64 = some vault.dekVerifier)
          .vaultEpochMismatch
        write fun s => { s with vault := some (vaultRowV2 vault) }
        finalizeVaultCreateTx (vaultRowV2 vault)

def wrapperChanged (current : UserVaultKeyRow) (vault : UserVaultKey) : Bool :=
  current.wrappedDekBase64 != vault.wrappedDekBase64 ||
    current.kdfAlgorithm != vault.kdfAlgorithm ||
    current.kdfSaltBase64 != vault.kdfSaltBase64 ||
    current.kdfMemoryKiB != vault.kdfMemoryKiB ||
    current.kdfTimeCost != vault.kdfTimeCost ||
    current.kdfParallelism != vault.kdfParallelism

def rewrapRow (current : UserVaultKeyRow) (vault : UserVaultKey) : UserVaultKeyRow :=
  if wrapperChanged current vault then
    { current with
      wrappedDekBase64 := vault.wrappedDekBase64
      kdfAlgorithm := vault.kdfAlgorithm
      kdfSaltBase64 := vault.kdfSaltBase64
      kdfMemoryKiB := vault.kdfMemoryKiB
      kdfTimeCost := vault.kdfTimeCost
      kdfParallelism := vault.kdfParallelism
      wrapRevision := current.wrapRevision + 1 }
  else current

/-- Rows made before verifiers existed get theirs at the first rewrap that brings one. -/
def backfillRow (current : UserVaultKeyRow) (vault : UserVaultKey) : UserVaultKeyRow :=
  if vault.dekVerifier ≠ "" ∧ current.dekVerifier = "" then
    { current with dekVerifier := vault.dekVerifier }
  else current

def updateUserVaultV2 (cfg : Config) (vault : UserVaultKey)
    (precondition : VaultMutationPrecondition) : Tx Account Err UserVaultKey :=
  transaction do
    lockUserRowTx cfg
    let vaultMeta ← getVaultMetaTx
    require (vaultMeta.epoch = precondition.expectedEpoch) .vaultEpochMismatch
    let expectedDekVerifier ← take (fun _ => precondition.expectedDekVerifier) .vaultEpochMismatch
    let expectedWrapRevision ← take (fun _ => precondition.expectedWrapRevision)
      .vaultEpochMismatch
    let current ← take (fun s => s.vault) .vaultNotFound
    require (current.version = 2) .vaultConflict
    require (current.wrapRevision = expectedWrapRevision) .vaultEpochMismatch
    require (current.dekVerifier = trimSpace expectedDekVerifier) .vaultEpochMismatch
    require (¬ (current.dekVerifier ≠ "" ∧ vault.dekVerifier ≠ "" ∧
      current.dekVerifier ≠ vault.dekVerifier)) .vaultEpochMismatch
    write fun s => { s with vault := some (backfillRow (rewrapRow current vault) vault) }
    let row ← take (fun s => s.vault) .recordNotFound
    let vaultMeta ← getVaultMetaTx
    pure (toUserVaultKey row vaultMeta.epoch)

/-- Throws the vault and every record away; devices that still hold the old DEK are fenced off. -/
def resetUserVault (cfg : Config) (expectedEpoch : Int) : Tx Account Err Int :=
  if cfg.userID = "" then fail .userIDRequired
  else transaction do
    lockUserRowTx cfg
    let vaultMeta ← getVaultMetaTx
    require (vaultMeta.epoch = expectedEpoch) .vaultEpochMismatch
    write fun s => { s with records := fun _ => none, vault := none }
    updateUser fun user =>
      { user with
        syncRevision := user.syncRevision + 1
        vaultEpoch := user.vaultEpoch + 1
        vaultVersionFloor := 2 }
    let vaultMeta ← getVaultMetaTx
    pure vaultMeta.epoch

abbrev Dek : Type := { bytes : List UInt8 // bytes.length = 32 }

def legacyVaultRow (buffer : Dek) : UserVaultKeyRow where
  version := 1
  dekVerifier := ""
  keyBase64 := String.ofList (Base64.encode buffer.val)
  wrappedDekBase64 := ""
  kdfAlgorithm := ""
  kdfSaltBase64 := ""
  kdfMemoryKiB := 0
  kdfTimeCost := 0
  kdfParallelism := 0
  wrapRevision := 0

/-- Clients that know no E2EE get a v1 vault, whose key the server makes, on their first login. -/
def getOrCreateUserVaultKey (cfg : Config) (buffer : Dek) : Tx Account Err UserVaultKey :=
  transaction do
    lockUserRowTx cfg
    let vaultMeta ← getVaultMetaTx
    match ← read fun s => s.vault with
    | some row => pure (toUserVaultKey row vaultMeta.epoch)
    | none =>
        require (vaultMeta.versionFloor < 2) .vaultE2EERequired
        write fun s => { s with vault := some (legacyVaultRow buffer) }
        pure (toUserVaultKey (legacyVaultRow buffer) vaultMeta.epoch)

def deleteUserData (cfg : Config) : Tx Account Err Unit :=
  if cfg.userID = "" then fail .userIDRequired
  else transaction do
    lockUserRowTx cfg
    write fun _ => ⟨none, none, fun _ => none⟩

end Dolgate.VaultStore
