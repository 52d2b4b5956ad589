import Mathlib.Algebra.Order.Ring.Nat
import Dolgate.Turns
import Dolgate.Transition
import Dolgate.DesktopSync

set_option autoImplicit false

/-! The sync service of the desktop, with the lease under which an operation runs. Other operations,
the user and the account move the service on while an operation awaits. -/

namespace Dolgate.SyncService
open Turns Transition DesktopSync

inductive AwsProfilesServerSupport where
  | unknown
  | supported
  | unsupported
  deriving DecidableEq, Repr

inductive SyncBootstrapStatus where
  | idle
  | syncing
  | ready
  | paused
  | error
  deriving DecidableEq, Repr

structure SyncStatus where
  status : SyncBootstrapStatus := .idle
  lastSuccessfulSyncAt : Option Int := none
  lastDataChangeAt : Option Int := none
  pendingPush : Bool := false
  errorMessage : Option String := none
  awsProfilesServerSupport : AwsProfilesServerSupport := .unknown
  deriving DecidableEq, Repr

structure SyncDeletionRecord where
  kind : Kind
  recordId : String
  deletedAt : Int
  deriving DecidableEq, Repr

structure AuthSyncContext where
  userId : String
  serverUrl : String
  accessToken : String
  vaultKeyBase64 : String
  vaultEpoch : Option Nat
  deriving DecidableEq, Repr

/-- `signal` is that of the abort controller with this number. -/
structure SyncLease extends AuthSyncContext where
  generation : Nat
  signal : Nat
  deriving DecidableEq, Repr

inductive AuthStatus where
  | authenticated
  | offlineAuthenticated
  | localOnly
  | unauthenticated
  deriving DecidableEq, Repr

/-- The service and what it reads of the authentication. `ρ` is the local record store. A task is
the generation that it belongs to. -/
structure Service (ρ : Type) where
  records : ρ
  outbox : List SyncDeletionRecord := []
  state : SyncStatus := {}
  lastSyncRevision : Option String := none
  syncGeneration : Nat := 0
  syncAbortController : Nat := 0
  bootstrapTask : Option Nat := none
  pushTask : Option Nat := none
  queuedPushGeneration : Option Nat := none
  pushTimer : Bool := false
  watchSupport : Option (String × Bool) := none
  authStatus : AuthStatus := .authenticated
  session : Option AuthSyncContext := none
  vaultReady : Bool := true
  vaultUnlocked : Bool := true
  now : Int := 0

inductive SyncError where
  | staleSyncLease
  | vaultDekMismatch (message : String)
  | vaultDecode (message : String)
  | authentication (message : String)
  | other (message : String)
  deriving DecidableEq, Repr

structure Response where
  status : Nat
  etag : Option String := none
  deriving DecidableEq, Repr

def Response.ok (response : Response) : Bool := 200 ≤ response.status && response.status < 300

variable {ρ ς π : Type}

inductive Request (π : Type) where
  | info
  | pull (ifNoneMatch : Option String)
  | push (payload : π) (vaultEpoch : Option Nat)

/-- What is awaited: the operations before in the queue, the return of an asynchronous function,
the network, the secret store, the listener of pulls. -/
inductive Await (π : Type) where
  | operationTail
  | returned
  | fetch (request : Request π) (accessToken : Option String)
  | infoJson
  | pullJson
  | pushJson
  | apiErrorMessage (fallback : String)
  | conflictError (fallback : String)
  | refreshSession
  | handleVaultDekRejected
  | loadSecret (secretRef : String)
  | onAppliedSnapshot
  | never

/-- `apiErrorMessage` tells also whether the text is that of an authentication error, and
`conflictError` whether its code rejects the epoch of the vault. -/
def Await.Reply (ς : Type) {π : Type} : Await π → Type
  | .operationTail | .returned => Unit
  | .fetch _ _ => Except String Response
  | .infoJson => Except String (AwsProfilesServerSupport × Bool)
  | .pullJson => Except String π
  | .pushJson => Except String (Option Nat)
  | .apiErrorMessage _ | .conflictError _ => Except String (String × Bool)
  | .refreshSession => Except String Bool
  | .handleVaultDekRejected => Except String Unit
  | .loadSecret _ => Except String (Option ς)
  | .onAppliedSnapshot => Except String Unit
  | .never => Empty

abbrev Job (ρ ς π : Type) : Type → Type := Async (Service ρ) (Await.Reply ς (π := π)) SyncError

/-- What the code computes of records without awaiting. A pull decodes first; what it then does to
the store tells whether it has rewritten what it pulled. -/
structure Codec (ρ ς π : Type) where
  materializeImplicitHostGroups : ρ → ρ
  secretRefs : ρ → List String
  encode : String → AwsProfilesServerSupport → ρ → List (String × ς) → List SyncDeletionRecord → π
  totalRecordCount : π → Nat
  decode : String → AwsProfilesServerSupport → π → Except String (ρ → Int → ρ × Bool)

def orThrow {α : Type} : Except String α → Job ρ ς π α
  | .ok a => pure a
  | .error message => throw (.other message)

def fetch (request : Request π) (accessToken : Option String) : Job ρ ς π Response := do
  orThrow (← (await (Await.fetch request accessToken) : Job ρ ς π (Except String Response)))

def infoJson : Job ρ ς π (AwsProfilesServerSupport × Bool) := do
  orThrow (← (await Await.infoJson : Job ρ ς π (Except String (AwsProfilesServerSupport × Bool))))

def pullJson : Job ρ ς π π := do
  orThrow (← (await Await.pullJson : Job ρ ς π (Except String π)))

def pushJson : Job ρ ς π (Option Nat) := do
  orThrow (← (await Await.pushJson : Job ρ ς π (Except String (Option Nat))))

def apiErrorMessage (fallback : String) : Job ρ ς π (String × Bool) := do
  orThrow (← (await (Await.apiErrorMessage fallback) : Job ρ ς π (Except String (String × Bool))))

def conflictError (fallback : String) : Job ρ ς π (String × Bool) := do
  orThrow (← (await (Await.conflictError fallback) : Job ρ ς π (Except String (String × Bool))))

def refreshSession : Job ρ ς π Bool := do
  orThrow (← (await Await.refreshSession : Job ρ ς π (Except String Bool)))

def handleVaultDekRejected : Job ρ ς π Unit := do
  orThrow (← (await Await.handleVaultDekRejected : Job ρ ς π (Except String Unit)))

def loadManagedSecret (secretRef : String) : Job ρ ς π (Option ς) := do
  orThrow (← (await (Await.loadSecret secretRef) : Job ρ ς π (Except String (Option ς))))

def onAppliedSnapshot : Job ρ ς π Unit := do
  orThrow (← (await Await.onAppliedSnapshot : Job ρ ς π (Except String Unit)))

def never {α : Type} : Job ρ ς π α := do
  let forever ← (await Await.never : Job ρ ς π Empty)
  nomatch forever

def isSyncContextCurrent (s : Service ρ) (lease : SyncLease) : Bool :=
  match s.session with
  | none => false
  | some current => current.userId == lease.userId && current.serverUrl == lease.serverUrl &&
      current.vaultKeyBase64 == lease.vaultKeyBase64 && current.vaultEpoch == lease.vaultEpoch

def isSyncLeaseActive (lease : SyncLease) (s : Service ρ) : Bool :=
  lease.generation == s.syncGeneration && !(lease.signal < s.syncAbortController) &&
    isSyncContextCurrent s lease

def assertSyncLeaseActive (lease : SyncLease) : Job ρ ς π Unit :=
  assertThat (fun s => isSyncLeaseActive lease s = true) .staleSyncLease

def captureSyncLease (s : Service ρ) : Option SyncLease :=
  s.session.map fun context =>
    { context with generation := s.syncGeneration, signal := s.syncAbortController }

def invalidateSyncGeneration (resetRevision : Bool) (s : Service ρ) : Service ρ :=
  { s with
    syncGeneration := s.syncGeneration + 1
    syncAbortController := s.syncAbortController + 1
    queuedPushGeneration := none
    pushTimer := false
    lastSyncRevision := if resetRevision then none else s.lastSyncRevision }

def patchState (patch : SyncStatus → SyncStatus) (s : Service ρ) : Service ρ :=
  { s with state := patch s.state }

def listSyncableDeletions (support : AwsProfilesServerSupport) (s : Service ρ) :
    List SyncDeletionRecord :=
  s.outbox.filter fun record => support != .unsupported || record.kind != .awsProfiles

def clearMany (records : List SyncDeletionRecord) (s : Service ρ) : Service ρ :=
  { s with outbox := s.outbox.filter fun entry => !records.contains entry }

def hasPendingLocalChanges (s : Service ρ) : Bool :=
  s.state.pendingPush || !(listSyncableDeletions s.state.awsProfilesServerSupport s).isEmpty

def pause (errorMessage : Option String) (s : Service ρ) : Service ρ :=
  let s := invalidateSyncGeneration false s
  patchState (fun st => { st with
    status := .paused, pendingPush := hasPendingLocalChanges s, errorMessage }) s

def resetVaultRecoveryState (s : Service ρ) : Service ρ :=
  let s := invalidateSyncGeneration true s
  patchState (fun st => { st with
    status := .paused, pendingPush := hasPendingLocalChanges s, errorMessage := none }) s

def markPendingPush (s : Service ρ) : Service ρ :=
  if hasPendingLocalChanges s then patchState (fun st => { st with pendingPush := true }) s
  else patchState (fun st => { st with pendingPush := true, errorMessage := none }) s

def currentState : Job ρ ς π SyncStatus := do return (← look).state

def isLikelyAuthError (response : Response) (likely : Bool) : Bool :=
  response.status == 401 || response.status == 403 || likely

def toConflictError (fallback : String) : Job ρ ς π SyncError := do
  let (message, rejectsEpoch) ← conflictError fallback
  return if rejectsEpoch then .vaultDekMismatch message else .other message

def toApiError (response : Response) (fallback : String) : Job ρ ς π SyncError := do
  let (message, likely) ← apiErrorMessage fallback
  return if isLikelyAuthError response likely then .authentication message else .other message

def fetchAgain (lease : SyncLease) (request : Request π) (fallback : String) :
    Job ρ ς π Response := do
  let s ← look
  let response ← fetch request (s.session.map AuthSyncContext.accessToken)
  assertSyncLeaseActive lease
  if response.ok || response.status == 304 then return response
  else if response.status == 409 then do throw (← called .returned (toConflictError fallback))
  else do throw (← called .returned (toApiError response fallback))

def fetchWithAuthRetry (lease : SyncLease) (request : Request π) (fallback : String) :
    Job ρ ς π Response := do
  assertSyncLeaseActive lease
  let response ← fetch request (some lease.accessToken)
  assertSyncLeaseActive lease
  if response.ok || response.status == 304 then return response
  else if response.status == 409 then do throw (← called .returned (toConflictError fallback))
  else do
    let (firstFailureMessage, likely) ← apiErrorMessage fallback
    assertSyncLeaseActive lease
    if !isLikelyAuthError response likely then throw (.other firstFailureMessage)
    else do
      let authenticated ← refreshSession
      assertSyncLeaseActive lease
      if authenticated then fetchAgain lease request fallback
      else throw (.authentication firstFailureMessage)

/-- What `/api/info` says of the server. -/
def readServerInfo (lease : SyncLease) : Job ρ ς π AwsProfilesServerSupport := do
  let response ← fetch .info none
  assertSyncLeaseActive lease
  if response.ok then do
    let (support, watch) ← infoJson
    assertSyncLeaseActive lease
    update fun s => { s with watchSupport := some (lease.serverUrl, watch) }
    return support
  else if [404, 405, 501].contains response.status then do
    update fun s => { s with watchSupport := some (lease.serverUrl, false) }
    return .unsupported
  else do return (← look).state.awsProfilesServerSupport

def fetchAwsProfilesServerSupport (lease : SyncLease) : Job ρ ς π AwsProfilesServerSupport :=
  tryCatch (readServerInfo lease) fun e => do
    let s ← look
    if isSyncLeaseActive lease s = true ∧ e ≠ .staleSyncLease then
      return (← look).state.awsProfilesServerSupport
    else throw .staleSyncLease

def fetchRemoteSnapshot (lease : SyncLease) : Job ρ ς π (Option π × Option String) := do
  let s ← look
  let response ← called .returned
    (fetchWithAuthRetry lease (.pull s.lastSyncRevision) "sync.fetchFailed")
  if response.status == 304 then do return (none, (← look).lastSyncRevision)
  else do
    let payload ← pullJson
    assertSyncLeaseActive lease
    return (some payload, response.etag)

/-- The revision of `"42"`. -/
def parseSyncRevisionEtag (etag : String) : Option Nat :=
  match etag.trimAscii.toString.toList with
  | '"' :: rest =>
    match rest.reverse with
    | '"' :: digits => (String.ofList digits.reverse).toNat?.filter (· < 2 ^ 53)
    | _ => none
  | _ => none

def formatSyncRevisionEtag (revision : Nat) : String := "\"" ++ toString revision ++ "\""

def storePushRevision (revision : Nat) (s : Service ρ) : Service ρ :=
  match s.lastSyncRevision.bind parseSyncRevisionEtag with
  | some lastPulled =>
    if revision ≤ lastPulled + 1 then
      { s with lastSyncRevision := some (formatSyncRevisionEtag revision) }
    else s
  | none => s

def readPushRevision (lease : SyncLease) : Job ρ ς π Unit := do
  let revision ← pushJson
  assertSyncLeaseActive lease
  match revision with
  | some revision => update (storePushRevision revision)
  | none => pure ()

def pushSnapshot (payload : π) (lease : SyncLease) : Job ρ ς π Unit := do
  assertSyncLeaseActive lease
  let _ ← called .returned
    (fetchWithAuthRetry lease (.push payload lease.vaultEpoch) "sync.uploadFailed")
  tryCatch (readPushRevision lease) fun _ => pure ()

def loadSecrets (lease : SyncLease) (loaded : List (String × ς)) :
    List String → Job ρ ς π (List (String × ς))
  | [] => return loaded
  | secretRef :: rest => do
    let secret ← loadManagedSecret secretRef
    assertSyncLeaseActive lease
    match secret with
    | some secret => loadSecrets lease (loaded ++ [(secretRef, secret)]) rest
    | none => loadSecrets lease loaded rest

section

variable (codec : Codec ρ ς π)

def buildEncryptedSnapshotResult (support : AwsProfilesServerSupport) (lease : SyncLease) :
    Job ρ ς π (π × List SyncDeletionRecord) := do
  assertSyncLeaseActive lease
  update fun s => { s with records := codec.materializeImplicitHostGroups s.records }
  let records := (← look).records
  let secrets ← loadSecrets lease [] (codec.secretRefs records)
  let includedDeletions := listSyncableDeletions support (← look)
  return (codec.encode lease.vaultKeyBase64 support records secrets includedDeletions,
    includedDeletions)

def buildEncryptedSnapshot (support : AwsProfilesServerSupport) (lease : SyncLease) :
    Job ρ ς π π := do
  let snapshot ← called .returned (buildEncryptedSnapshotResult codec support lease)
  return snapshot.1

def applyRemoteSnapshotAtomically (payload : π) (support : AwsProfilesServerSupport)
    (lease : SyncLease) : Job ρ ς π Bool := do
  assertSyncLeaseActive lease
  match codec.decode lease.vaultKeyBase64 support payload with
  | .error message => throw (.vaultDecode message)
  | .ok commit => do
    assertSyncLeaseActive lease
    let s ← look
    update fun s => { s with records := (commit s.records s.now).1 }
    onAppliedSnapshot
    assertSyncLeaseActive lease
    return (commit s.records s.now).2

def pushLocal (support : AwsProfilesServerSupport) (lease : SyncLease) : Job ρ ς π Bool := do
  let payload ← called .returned (buildEncryptedSnapshot codec support lease)
  assertSyncLeaseActive lease
  if 0 < codec.totalRecordCount payload then do
    called .returned (pushSnapshot payload lease)
    return true
  else return false

def pushPending (pending : Bool) (support : AwsProfilesServerSupport) (lease : SyncLease) :
    Job ρ ς π Bool :=
  if pending then pushLocal codec support lease else pure false

def recoverEmptyServer (remote : Option π × Option String) (support : AwsProfilesServerSupport)
    (lease : SyncLease) : Job ρ ς π (Option π × Option String) :=
  if remote.1.any fun payload => codec.totalRecordCount payload == 0 then do
    let pushed ← pushLocal codec support lease
    if pushed then do
      let remote ← called .returned (fetchRemoteSnapshot lease)
      assertSyncLeaseActive lease
      return remote
    else return remote
  else return remote

def applyRemote (payload : Option π) (support : AwsProfilesServerSupport) (lease : SyncLease) :
    Job ρ ς π Bool :=
  match payload with
  | some payload => called .returned (applyRemoteSnapshotAtomically codec payload support lease)
  | none => return false

/-- The end of a bootstrap. A pull that has rewritten records is to be pushed back. -/
def finishBootstrap (applied : Bool) (etag : Option String) (pullChangedLocalData : Bool)
    (support : AwsProfilesServerSupport) (s : Service ρ) : Service ρ :=
  let s := { s with
    lastSyncRevision := if applied && etag.any (· != "") then etag else s.lastSyncRevision }
  let s := clearMany (listSyncableDeletions support s) s
  let s := patchState (fun st => { st with
    status := .ready
    lastSuccessfulSyncAt := some s.now
    lastDataChangeAt := if applied then some s.now else st.lastDataChangeAt
    pendingPush := pullChangedLocalData
    errorMessage := none }) s
  { s with pushTimer := s.pushTimer || pullChangedLocalData }

def bootstrapBody (hadPendingLocalChanges : Bool) (lease : SyncLease) : Job ρ ς π Unit := do
  let previous := (← look).state.awsProfilesServerSupport
  let support ← called .returned (fetchAwsProfilesServerSupport lease)
  assertSyncLeaseActive lease
  let shouldBackfillAwsProfiles := previous == .unsupported && support == .supported
  update (patchState fun st => { st with awsProfilesServerSupport := support })
  let _ ← pushPending codec (hadPendingLocalChanges || shouldBackfillAwsProfiles) support lease
  let remote ← called .returned (fetchRemoteSnapshot lease)
  assertSyncLeaseActive lease
  let remote ← recoverEmptyServer codec remote support lease
  let pullChangedLocalData ← applyRemote codec remote.1 support lease
  assertSyncLeaseActive lease
  update (finishBootstrap remote.1.isSome remote.2 pullChangedLocalData support)

/-- The vault has to be judged anew. If its key is the right one, the data is corrupt. -/
def vaultRejected (message : String) (corrupt : Bool) (lease : SyncLease) : Job ρ ς π Unit := do
  handleVaultDekRejected
  let s ← look
  if isSyncLeaseActive lease s = true then
    update fun s => pause (some (if corrupt && s.vaultUnlocked then "sync.decryptCorrupt"
      else message)) s
  else pure ()

def SyncError.message : SyncError → String
  | .staleSyncLease => "sync.generationChanged"
  | .vaultDekMismatch message | .vaultDecode message | .authentication message
  | .other message => message

def failed (e : SyncError) (s : Service ρ) : Service ρ :=
  patchState (fun st => { st with
    status := .error, errorMessage := some e.message, pendingPush := true }) s

def bootstrapFailed (lease : SyncLease) (e : SyncError) : Job ρ ς π Unit := do
  let s ← look
  if isSyncLeaseActive lease s = true ∧ e ≠ .staleSyncLease then
    match e with
    | .vaultDekMismatch message => vaultRejected message false lease
    | .vaultDecode message => vaultRejected message true lease
    | e => do
      update (failed e)
      throw e
  else pure ()

def runBootstrap (lease : SyncLease) : Job ρ ς π SyncStatus := do
  assertSyncLeaseActive lease
  let hadPendingLocalChanges := hasPendingLocalChanges (← look)
  update (patchState fun st => { st with
    status := .syncing, pendingPush := hadPendingLocalChanges, errorMessage := none })
  tryCatch (bootstrapBody codec hadPendingLocalChanges lease) (bootstrapFailed lease)
  currentState

def startPushRound (lease : SyncLease) (s : Service ρ) : Service ρ :=
  patchState (fun st => { st with
    status := if st.status = .idle then .syncing else st.status
    pendingPush := true
    errorMessage := none })
  { s with queuedPushGeneration :=
      if s.queuedPushGeneration = some lease.generation then none else s.queuedPushGeneration }

def pushSucceeded (s : Service ρ) : Service ρ :=
  patchState (fun st => { st with
    status := .ready, pendingPush := false, lastSuccessfulSyncAt := some s.now
    errorMessage := none }) s

def pushRounds (lease : SyncLease) : Nat → Job ρ ς π Unit
  | 0 => never
  | rounds + 1 => do
    assertSyncLeaseActive lease
    update (startPushRound lease)
    let support := (← look).state.awsProfilesServerSupport
    let snapshot ← called .returned (buildEncryptedSnapshotResult codec support lease)
    assertSyncLeaseActive lease
    called .returned (pushSnapshot snapshot.1 lease)
    assertSyncLeaseActive lease
    update (clearMany snapshot.2)
    let s ← look
    if s.queuedPushGeneration = some lease.generation ∨
        listSyncableDeletions s.state.awsProfilesServerSupport s ≠ [] then
      pushRounds lease rounds
    else update pushSucceeded

def pushFailed (lease : SyncLease) (e : SyncError) : Job ρ ς π Unit := do
  let s ← look
  if isSyncLeaseActive lease s = true ∧ e ≠ .staleSyncLease then
    match e with
    | .vaultDekMismatch message => vaultRejected message false lease
    | e => update fun s => { failed e s with pushTimer := true }
  else pure ()

def runPush (rounds : Nat) (lease : SyncLease) : Job ρ ς π SyncStatus := do
  tryCatch (pushRounds codec lease rounds) (pushFailed lease)
  currentState

end

def runUnlessStale (lease : SyncLease) (operation : Job ρ ς π SyncStatus) :
    Job ρ ς π SyncStatus := do
  let s ← look
  if isSyncLeaseActive lease s = true then operation else currentState

/-- An operation runs after those before it, if its lease is still active then. In the end, `settle`
is done. -/
def enqueueSyncOperation (lease : SyncLease) (operation : Job ρ ς π SyncStatus)
    (settle : Service ρ → Service ρ) : Job ρ ς π SyncStatus :=
  andFinally .returned (do
    let _ ← await Await.operationTail
    runUnlessStale lease operation) settle

/-- A call of `bootstrap`: the service, and the lease of the operation that is to begin. -/
def bootstrap (s : Service ρ) : Service ρ × Option SyncLease :=
  if s.authStatus = .offlineAuthenticated then (pause (some "sync.pausedOffline") s, none)
  else if !s.vaultReady then (pause (some "sync.pausedNeedsVault") s, none)
  else
    match captureSyncLease s with
    | none => (s, none)
    | some lease =>
      if s.bootstrapTask = some lease.generation then (s, none)
      else ({ s with bootstrapTask := some lease.generation }, some lease)

def pushDirty (s : Service ρ) : Service ρ × Option SyncLease :=
  let s := markPendingPush { s with pushTimer := false }
  if s.authStatus = .localOnly then (s, none)
  else if s.authStatus = .offlineAuthenticated then
    (pause (some "sync.pausedOfflineUpload") s, none)
  else if !s.vaultReady then (pause (some "sync.pausedNeedsVaultUpload") s, none)
  else
    match captureSyncLease s with
    | none => (s, none)
    | some lease =>
      if s.pushTask = some lease.generation then
        ({ s with queuedPushGeneration := some lease.generation }, none)
      else ({ s with pushTask := some lease.generation }, some lease)

def forget (lease : SyncLease) (task : Option Nat) : Option Nat :=
  if task = some lease.generation then none else task

def settleBootstrap (lease : SyncLease) (s : Service ρ) : Service ρ :=
  { s with bootstrapTask := forget lease s.bootstrapTask }

def settlePush (lease : SyncLease) (s : Service ρ) : Service ρ :=
  { s with
    pushTask := forget lease s.pushTask
    queuedPushGeneration := forget lease s.queuedPushGeneration }

structure Operation (ρ ς π : Type) where
  lease : SyncLease
  rest : Proc (Service ρ) (Await.Reply ς (π := π)) (Except SyncError SyncStatus)

structure System (ρ ς π : Type) where
  service : Service ρ
  operations : List (Operation ρ ς π) := []

/-- The calls of the service, what an operation awaits being settled, and what goes on beside. -/
inductive Event (ρ ς π : Type) where
  | bootstrap
  | pushDirty (rounds : Nat)
  | resume (i : Nat) (reply : (a : Await π) → Option (Await.Reply ς a))
  | pause (errorMessage : Option String)
  | markLocalChangesPendingPush
  | resetVaultRecoveryState
  | purgeSyncedCache
  | purged (empty : ρ)
  | edit (records : ρ) (outbox : List SyncDeletionRecord)
  | account (authStatus : AuthStatus) (session : Option AuthSyncContext)
      (vaultReady vaultUnlocked : Bool)
  | time (now : Int)

def begin (call : Service ρ × Option SyncLease) (operation : SyncLease → Job ρ ς π SyncStatus)
    (operations : List (Operation ρ ς π)) : System ρ ς π :=
  match call.2 with
  | none => { service := call.1, operations }
  | some lease =>
    let begun := turn (operation lease).run call.1
    { service := begun.1, operations := operations ++ [⟨lease, begun.2⟩] }

def step (codec : Codec ρ ς π) (s : System ρ ς π) : Event ρ ς π → Option (System ρ ς π)
  | .bootstrap => some (begin (bootstrap s.service) (fun lease =>
      enqueueSyncOperation lease (runBootstrap codec lease) (settleBootstrap lease)) s.operations)
  | .pushDirty rounds => some (begin (pushDirty s.service) (fun lease =>
      enqueueSyncOperation lease (runPush codec rounds lease) (settlePush lease)) s.operations)
  | .resume i reply => do
    let operation ← s.operations[i]?
    let (service, rest) ← resume reply operation.rest s.service
    return { service, operations := s.operations.set i { operation with rest } }
  | .pause errorMessage => some { s with service := pause errorMessage s.service }
  | .markLocalChangesPendingPush => some { s with
      service := patchState (fun st => { st with pendingPush := true, errorMessage := none })
        s.service }
  | .resetVaultRecoveryState => some { s with service := resetVaultRecoveryState s.service }
  | .purgeSyncedCache => some { s with service := invalidateSyncGeneration true s.service }
  | .purged empty => some { s with
      service := { s.service with records := empty, outbox := [], state := {} } }
  | .edit records outbox => some { s with service := { s.service with records, outbox } }
  | .account authStatus session vaultReady vaultUnlocked => some { s with
      service := { s.service with authStatus, session, vaultReady, vaultUnlocked } }
  | .time now => some { s with service := { s.service with now } }

end Dolgate.SyncService
