import Dolgate.SyncService

set_option autoImplicit false

/-! An operation whose lease is of an older generation changes nothing any more: it looks at its
lease after every await, before it touches the service. -/

namespace Dolgate.SyncService
open Turns Transition

variable {ρ ς π : Type}

def Stale (lease : SyncLease) (s : Service ρ) : Prop := lease.generation ≠ s.syncGeneration

/-- Nothing changes that the operations of other generations rely on. A task of the lease's own
generation may end. -/
structure Untouched (lease : SyncLease) (s s' : Service ρ) : Prop where
  records : s'.records = s.records
  outbox : s'.outbox = s.outbox
  state : s'.state = s.state
  lastSyncRevision : s'.lastSyncRevision = s.lastSyncRevision
  syncGeneration : s'.syncGeneration = s.syncGeneration
  pushTimer : s'.pushTimer = s.pushTimer
  pushTask : ∀ g, g ≠ lease.generation → (s'.pushTask = some g ↔ s.pushTask = some g)
  queuedPush : ∀ g, g ≠ lease.generation →
    (s'.queuedPushGeneration = some g ↔ s.queuedPushGeneration = some g)

theorem Untouched.refl (lease : SyncLease) (s : Service ρ) : Untouched lease s s :=
  ⟨rfl, rfl, rfl, rfl, rfl, rfl, fun _ _ => Iff.rfl, fun _ _ => Iff.rfl⟩

theorem Untouched.trans {lease : SyncLease} {s t u : Service ρ} (h : Untouched lease s t)
    (h' : Untouched lease t u) : Untouched lease s u where
  records := h'.records.trans h.records
  outbox := h'.outbox.trans h.outbox
  state := h'.state.trans h.state
  lastSyncRevision := h'.lastSyncRevision.trans h.lastSyncRevision
  syncGeneration := h'.syncGeneration.trans h.syncGeneration
  pushTimer := h'.pushTimer.trans h.pushTimer
  pushTask g hg := (h'.pushTask g hg).trans (h.pushTask g hg)
  queuedPush g hg := (h'.queuedPush g hg).trans (h.queuedPush g hg)

theorem Stale.of_untouched {lease : SyncLease} {s t : Service ρ} (hs : Stale lease s)
    (h : Untouched lease s t) : Stale lease t := by
  unfold Stale at *
  rwa [h.syncGeneration]

def Moves (s s' : Service ρ) : Prop := s.syncGeneration ≤ s'.syncGeneration

theorem moves_of_eq {s s' : Service ρ} (h : s'.syncGeneration = s.syncGeneration) : Moves s s' :=
  Nat.le_of_eq h.symm

theorem moves_pause (message : Option String) (s : Service ρ) : Moves s (pause message s) :=
  Nat.le_succ _

theorem moves_invalidateSyncGeneration (resetRevision : Bool) (s : Service ρ) :
    Moves s (invalidateSyncGeneration resetRevision s) := Nat.le_succ _

theorem moves_resetVaultRecoveryState (s : Service ρ) : Moves s (resetVaultRecoveryState s) :=
  Nat.le_succ _

theorem moves_storePushRevision (revision : Nat) (s : Service ρ) :
    Moves s (storePushRevision revision s) := by
  unfold storePushRevision
  split
  · split
    · exact moves_of_eq rfl
    · exact moves_of_eq rfl
  · exact moves_of_eq rfl

theorem not_stale_of_active {lease : SyncLease} {s : Service ρ}
    (h : isSyncLeaseActive lease s = true) : ¬ Stale lease s := by
  simp only [isSyncLeaseActive, Bool.and_eq_true, beq_iff_eq] at h
  exact not_not.mpr h.1.1

section

variable {α β : Type} {lease : SyncLease}

abbrev QuietJob (lease : SyncLease) (x : Job ρ ς π α) : Prop :=
  Quiet (Stale lease) Moves (Untouched lease) x.run

abbrev LiveJob (lease : SyncLease) (x : Job ρ ς π α) : Prop :=
  Live (Stale lease) Moves (Untouched lease) x.run

theorem quiet_orThrow (r : Except String α) : QuietJob lease (orThrow r : Job ρ ς π α) := by
  cases r with
  | ok a => exact quiet_return a
  | error message => exact quiet_throw _

theorem quiet_fetch (request : Request π) (token : Option String) :
    QuietJob lease (fetch request token : Job ρ ς π Response) :=
  (quiet_await _).seq quiet_orThrow

theorem quiet_infoJson : QuietJob lease (infoJson : Job ρ ς π _) :=
  (quiet_await _).seq quiet_orThrow

theorem quiet_pullJson : QuietJob lease (pullJson : Job ρ ς π π) :=
  (quiet_await _).seq quiet_orThrow

theorem quiet_pushJson : QuietJob lease (pushJson : Job ρ ς π _) :=
  (quiet_await _).seq quiet_orThrow

theorem quiet_apiErrorMessage (fallback : String) :
    QuietJob lease (apiErrorMessage fallback : Job ρ ς π _) :=
  (quiet_await _).seq quiet_orThrow

theorem quiet_conflictError (fallback : String) :
    QuietJob lease (conflictError fallback : Job ρ ς π _) :=
  (quiet_await _).seq quiet_orThrow

theorem quiet_refreshSession : QuietJob lease (refreshSession : Job ρ ς π _) :=
  (quiet_await _).seq quiet_orThrow

theorem quiet_handleVaultDekRejected : QuietJob lease (handleVaultDekRejected : Job ρ ς π Unit) :=
  (quiet_await _).seq quiet_orThrow

theorem quiet_loadManagedSecret (secretRef : String) :
    QuietJob lease (loadManagedSecret secretRef : Job ρ ς π (Option ς)) :=
  (quiet_await _).seq quiet_orThrow

theorem quiet_onAppliedSnapshot : QuietJob lease (onAppliedSnapshot : Job ρ ς π Unit) :=
  (quiet_await _).seq quiet_orThrow

theorem quiet_never : QuietJob lease (never : Job ρ ς π α) :=
  (quiet_await _).seq fun forever => nomatch forever

theorem quiet_currentState : QuietJob lease (currentState : Job ρ ς π SyncStatus) :=
  quiet_look fun s => quiet_return s.state

theorem quiet_assert {k : Unit → Job ρ ς π β} (hk : LiveJob lease (k ())) :
    QuietJob lease (assertSyncLeaseActive lease >>= k) :=
  quiet_assertThat (fun _ h => not_stale_of_active h) hk

theorem quiet_toConflictError (fallback : String) :
    QuietJob lease (toConflictError fallback : Job ρ ς π SyncError) :=
  (quiet_conflictError fallback).seq fun _ => quiet_return _

theorem quiet_toApiError (response : Response) (fallback : String) :
    QuietJob lease (toApiError response fallback : Job ρ ς π SyncError) :=
  (quiet_apiErrorMessage fallback).seq fun _ => quiet_return _

theorem quiet_fetchAgain (request : Request π) (fallback : String) :
    QuietJob lease (fetchAgain lease request fallback : Job ρ ς π Response) := by
  refine quiet_look fun s => (quiet_fetch request _).seq fun response => quiet_assert ?_
  refine Live.ite (quiet_return response).live (Live.ite ?_ ?_)
  · exact ((quiet_called (quiet_toConflictError fallback)).seq quiet_throw).live
  · exact ((quiet_called (quiet_toApiError response fallback)).seq quiet_throw).live

theorem quiet_fetchWithAuthRetry (request : Request π) (fallback : String) :
    QuietJob lease (fetchWithAuthRetry lease request fallback : Job ρ ς π Response) := by
  refine quiet_assert ((quiet_fetch request _).seq fun response => quiet_assert ?_).live
  refine Live.ite (quiet_return response).live (Live.ite ?_ ?_)
  · exact ((quiet_called (quiet_toConflictError fallback)).seq quiet_throw).live
  · refine ((quiet_apiErrorMessage fallback).seq fun message => quiet_assert ?_).live
    refine Live.ite (quiet_throw _).live ?_
    refine (quiet_refreshSession.seq fun authenticated => quiet_assert ?_).live
    exact Live.ite (quiet_fetchAgain request fallback).live (quiet_throw _).live

theorem quiet_readServerInfo :
    QuietJob lease (readServerInfo lease : Job ρ ς π AwsProfilesServerSupport) := by
  refine (quiet_fetch _ _).seq fun response => quiet_assert ?_
  refine Live.ite ?_ (Live.ite ?_ ?_)
  · refine (quiet_infoJson.seq fun info => quiet_assert ?_).live
    exact live_update (fun _ => moves_of_eq rfl) (quiet_return _).live
  · exact live_update (fun _ => moves_of_eq rfl) (quiet_return _).live
  · exact (quiet_look fun s => quiet_return _).live

theorem quiet_fetchAwsProfilesServerSupport :
    QuietJob lease (fetchAwsProfilesServerSupport lease : Job ρ ς π _) := by
  refine quiet_readServerInfo.tryCatch fun e => quiet_look fun s => Quiet.ite ?_ (quiet_throw _)
  exact quiet_look fun s => quiet_return _

theorem quiet_fetchRemoteSnapshot :
    QuietJob lease (fetchRemoteSnapshot lease : Job ρ ς π (Option π × Option String)) := by
  refine quiet_look fun s => (quiet_called (quiet_fetchWithAuthRetry _ _)).seq fun response => ?_
  refine Quiet.ite (quiet_look fun s => quiet_return _) ?_
  exact quiet_pullJson.seq fun payload => quiet_assert (quiet_return _).live

theorem quiet_readPushRevision : QuietJob lease (readPushRevision lease : Job ρ ς π Unit) := by
  refine quiet_pushJson.seq fun revision => quiet_assert ?_
  cases revision with
  | some revision => exact live_change (moves_storePushRevision revision)
  | none => exact (quiet_return ()).live

theorem quiet_pushSnapshot (payload : π) :
    QuietJob lease (pushSnapshot payload lease : Job ρ ς π Unit) := by
  refine quiet_assert ((quiet_called (quiet_fetchWithAuthRetry _ _)).seq fun response => ?_).live
  exact quiet_readPushRevision.tryCatch fun _ => quiet_return ()

theorem quiet_loadSecrets (loaded : List (String × ς)) (secretRefs : List String) :
    QuietJob lease (loadSecrets lease loaded secretRefs : Job ρ ς π (List (String × ς))) := by
  induction secretRefs generalizing loaded with
  | nil => exact quiet_return loaded
  | cons secretRef rest ih =>
    refine (quiet_loadManagedSecret secretRef).seq fun secret => quiet_assert ?_
    cases secret with
    | some secret => exact (ih _).live
    | none => exact (ih _).live

section

variable (codec : Codec ρ ς π)

theorem quiet_buildEncryptedSnapshotResult (support : AwsProfilesServerSupport) :
    QuietJob lease (buildEncryptedSnapshotResult codec support lease) := by
  refine quiet_assert (live_update (fun _ => moves_of_eq rfl) (live_look fun s => ?_))
  refine ((quiet_loadSecrets [] _).seq fun secrets => ?_).live
  exact quiet_look fun s => quiet_return _

theorem quiet_buildEncryptedSnapshot (support : AwsProfilesServerSupport) :
    QuietJob lease (buildEncryptedSnapshot codec support lease) :=
  (quiet_called (quiet_buildEncryptedSnapshotResult codec support)).seq fun _ => quiet_return _

theorem quiet_applyRemoteSnapshotAtomically (payload : π) (support : AwsProfilesServerSupport) :
    QuietJob lease (applyRemoteSnapshotAtomically codec payload support lease) := by
  refine quiet_assert ?_
  cases codec.decode lease.vaultKeyBase64 support payload with
  | error message => exact (quiet_throw _).live
  | ok commit =>
    -- the store is replaced in the turn that has looked at the lease
    refine (quiet_assert (live_look fun s => ?_)).live
    refine live_update (fun _ => moves_of_eq rfl) ?_
    refine (quiet_onAppliedSnapshot.seq fun _ => ?_).live
    exact quiet_assert (quiet_return _).live

theorem quiet_pushLocal (support : AwsProfilesServerSupport) :
    QuietJob lease (pushLocal codec support lease) := by
  refine (quiet_called (quiet_buildEncryptedSnapshot codec support)).seq fun payload => ?_
  refine quiet_assert (Live.ite ?_ (quiet_return false).live)
  exact ((quiet_called (quiet_pushSnapshot payload)).seq fun _ => quiet_return true).live

theorem quiet_pushPending (pending : Bool) (support : AwsProfilesServerSupport) :
    QuietJob lease (pushPending codec pending support lease) :=
  Quiet.ite (quiet_pushLocal codec support) (quiet_return false)

theorem quiet_recoverEmptyServer (remote : Option π × Option String)
    (support : AwsProfilesServerSupport) :
    QuietJob lease (recoverEmptyServer codec remote support lease) := by
  refine Quiet.ite ?_ (quiet_return remote)
  refine (quiet_pushLocal codec support).seq fun pushed => Quiet.ite ?_ (quiet_return remote)
  exact (quiet_called quiet_fetchRemoteSnapshot).seq fun remote =>
    quiet_assert (quiet_return remote).live

theorem quiet_applyRemote (payload : Option π) (support : AwsProfilesServerSupport) :
    QuietJob lease (applyRemote codec payload support lease) := by
  cases payload with
  | some payload => exact quiet_called (quiet_applyRemoteSnapshotAtomically codec payload support)
  | none => exact quiet_return false

theorem quiet_bootstrapBody (hadPendingLocalChanges : Bool) :
    QuietJob lease (bootstrapBody codec hadPendingLocalChanges lease) := by
  refine quiet_look fun s => ?_
  refine (quiet_called quiet_fetchAwsProfilesServerSupport).seq fun support => quiet_assert ?_
  refine live_update (fun _ => moves_of_eq rfl) ?_
  refine ((quiet_pushPending codec _ support).seq fun _ => ?_).live
  refine (quiet_called quiet_fetchRemoteSnapshot).seq fun remote => quiet_assert ?_
  refine ((quiet_recoverEmptyServer codec remote support).seq fun remote => ?_).live
  refine (quiet_applyRemote codec remote.1 support).seq fun pullChangedLocalData => ?_
  exact quiet_assert (live_change fun _ => moves_of_eq rfl)

theorem quiet_unless_inactive {p q : Job ρ ς π β} (hp : LiveJob lease p) (hq : QuietJob lease q) :
    QuietJob lease (do
      let s ← look
      if isSyncLeaseActive lease s = true then p else q) :=
  quiet_unless_stale (fun _ h => not_stale_of_active h) hp hq

theorem quiet_vaultRejected (message : String) (corrupt : Bool) :
    QuietJob lease (vaultRejected message corrupt lease : Job ρ ς π Unit) :=
  quiet_handleVaultDekRejected.seq fun _ =>
    quiet_unless_inactive (live_change fun s => moves_pause _ s) (quiet_return ())

theorem quiet_handler {e : SyncError} {p : Job ρ ς π Unit} (hp : LiveJob lease p) :
    QuietJob lease (do
      let s ← look
      if isSyncLeaseActive lease s = true ∧ e ≠ .staleSyncLease then p else pure ()) :=
  quiet_unless_stale (fun _ h => not_stale_of_active h.1) hp (quiet_return ())

theorem quiet_bootstrapFailed (e : SyncError) :
    QuietJob lease (bootstrapFailed lease e : Job ρ ς π Unit) := by
  refine quiet_handler ?_
  cases e with
  | vaultDekMismatch message => exact (quiet_vaultRejected message false).live
  | vaultDecode message => exact (quiet_vaultRejected message true).live
  | _ => exact live_update (fun _ => moves_of_eq rfl) (quiet_throw _).live

theorem quiet_runBootstrap : QuietJob lease (runBootstrap codec lease) := by
  refine quiet_assert (live_look fun s => live_update (fun _ => moves_of_eq rfl) ?_)
  refine (Quiet.seq ?_ fun _ => quiet_currentState).live
  exact (quiet_bootstrapBody codec _).tryCatch quiet_bootstrapFailed

theorem quiet_pushRounds (rounds : Nat) : QuietJob lease (pushRounds codec lease rounds) := by
  induction rounds with
  | zero => exact quiet_never
  | succ rounds ih =>
    refine quiet_assert (live_update (fun _ => moves_of_eq rfl) (live_look fun s => ?_))
    refine ((quiet_called (quiet_buildEncryptedSnapshotResult codec _)).seq fun snapshot => ?_).live
    refine quiet_assert ((quiet_called (quiet_pushSnapshot snapshot.1)).seq fun _ => ?_).live
    refine quiet_assert (live_update (fun _ => moves_of_eq rfl) (live_look fun s => ?_))
    exact Live.ite ih.live (live_change fun _ => moves_of_eq rfl)

theorem quiet_pushFailed (e : SyncError) :
    QuietJob lease (pushFailed lease e : Job ρ ς π Unit) := by
  refine quiet_handler ?_
  cases e with
  | vaultDekMismatch message => exact (quiet_vaultRejected message false).live
  | _ => exact live_change fun _ => moves_of_eq rfl

theorem quiet_runPush (rounds : Nat) : QuietJob lease (runPush codec rounds lease) :=
  ((quiet_pushRounds codec rounds).tryCatch quiet_pushFailed).seq fun _ => quiet_currentState

end

theorem quiet_enqueueSyncOperation {operation : Job ρ ς π SyncStatus}
    {settle : Service ρ → Service ρ} (hoperation : QuietJob lease operation)
    (hsettle : ∀ s : Service ρ, Untouched lease s (settle s)) :
    QuietJob lease (enqueueSyncOperation lease operation settle) := by
  refine quiet_andFinally ((quiet_await _).seq fun _ => ?_)
    (fun s => moves_of_eq (hsettle s).syncGeneration) hsettle fun s t => Stale.of_untouched
  exact quiet_unless_inactive hoperation.live quiet_currentState

theorem forget_eq_some {task : Option Nat} {g : Nat} (hg : g ≠ lease.generation) :
    forget lease task = some g ↔ task = some g := by
  unfold forget
  split
  · rename_i h
    rw [h]
    constructor
    · intro h'
      cases h'
    · intro h'
      exact absurd (Option.some.inj h').symm hg
  · exact Iff.rfl

theorem untouched_settleBootstrap (s : Service ρ) : Untouched lease s (settleBootstrap lease s) :=
  ⟨rfl, rfl, rfl, rfl, rfl, rfl, fun _ _ => Iff.rfl, fun _ _ => Iff.rfl⟩

theorem untouched_settlePush (s : Service ρ) : Untouched lease s (settlePush lease s) :=
  ⟨rfl, rfl, rfl, rfl, rfl, rfl, fun _ hg => forget_eq_some hg, fun _ hg => forget_eq_some hg⟩

end

def Ready (s : System ρ ς π) : Prop :=
  ∀ operation ∈ s.operations,
    Waiting (Stale operation.lease) Moves (Untouched operation.lease) operation.rest

theorem ready_begin {call : Service ρ × Option SyncLease}
    {operation : SyncLease → Job ρ ς π SyncStatus} {operations : List (Operation ρ ς π)}
    (hoperation : ∀ lease, QuietJob lease (operation lease))
    (h : ∀ o ∈ operations, Waiting (Stale o.lease) Moves (Untouched o.lease) o.rest) :
    Ready (begin call operation operations) := by
  unfold begin
  split
  · exact h
  · intro o ho
    rcases List.mem_append.mp ho with ho | ho
    · exact h o ho
    · obtain rfl := List.mem_singleton.mp ho
      exact (hoperation _).waiting _

theorem step_resume {codec : Codec ρ ς π} {s t : System ρ ς π} {i : Nat}
    {reply : (a : Await π) → Option (Await.Reply ς a)}
    (h : step codec s (.resume i reply) = some t) :
    ∃ operation rest, s.operations[i]? = some operation ∧
      resume reply operation.rest s.service = some (t.service, rest) ∧
      t.operations = s.operations.set i { operation with rest } := by
  simp only [step, Option.bind_eq_bind, Option.bind_eq_some_iff] at h
  obtain ⟨operation, ho, ⟨service, rest⟩, hr, ht⟩ := h
  cases ht
  exact ⟨operation, rest, ho, hr, rfl⟩

theorem Ready.step {codec : Codec ρ ς π} (s : System ρ ς π) (e : Event ρ ς π) (t : System ρ ς π)
    (hs : Ready s) (h : step codec s e = some t) : Ready t := by
  cases e with
  | bootstrap =>
    cases h
    exact ready_begin (fun lease => quiet_enqueueSyncOperation (quiet_runBootstrap codec)
      untouched_settleBootstrap) hs
  | pushDirty rounds =>
    cases h
    exact ready_begin (fun lease => quiet_enqueueSyncOperation (quiet_runPush codec rounds)
      untouched_settlePush) hs
  | resume i reply =>
    obtain ⟨operation, rest, ho, hr, hops⟩ := step_resume h
    intro o ho'
    rw [hops] at ho'
    rcases List.mem_or_eq_of_mem_set ho' with ho' | rfl
    · exact hs o ho'
    · obtain ⟨p, hp, hturn⟩ := resume_cases (hs operation (List.mem_of_getElem? ho)) hr
      have hwaiting := hp.waiting s.service
      rwa [hturn] at hwaiting
  | _ => cases h; exact hs

structure Advances (s t : System ρ ς π) : Prop where
  moves : Moves s.service t.service
  lease : ∀ (i : Nat) (o : Operation ρ ς π), s.operations[i]? = some o →
    ∃ o' : Operation ρ ς π, t.operations[i]? = some o' ∧ o'.lease = o.lease

theorem Advances.refl (s : System ρ ς π) : Advances s s :=
  ⟨Nat.le_refl _, fun _ o ho => ⟨o, ho, rfl⟩⟩

theorem Advances.trans {s t u : System ρ ς π} (h : Advances s t) (h' : Advances t u) :
    Advances s u where
  moves := Nat.le_trans h.moves h'.moves
  lease i o ho := by
    obtain ⟨o', ho', hlease⟩ := h.lease i o ho
    obtain ⟨o'', ho'', hlease'⟩ := h'.lease i o' ho'
    exact ⟨o'', ho'', hlease'.trans hlease⟩

theorem advances_service {s : System ρ ς π} {service : Service ρ} (h : Moves s.service service) :
    Advances s { s with service } :=
  ⟨h, fun _ o ho => ⟨o, ho, rfl⟩⟩

theorem moves_bootstrap (s : Service ρ) : Moves s (bootstrap s).1 := by
  unfold bootstrap
  split
  · exact moves_pause _ s
  · split
    · exact moves_pause _ s
    · split
      · exact moves_of_eq rfl
      · split <;> exact moves_of_eq rfl

theorem moves_markPendingPush (s : Service ρ) : Moves s (markPendingPush s) := by
  unfold markPendingPush
  split <;> exact moves_of_eq rfl

theorem moves_pushDirty (s : Service ρ) : Moves s (pushDirty s).1 := by
  have hmark : Moves s (markPendingPush { s with pushTimer := false }) :=
    moves_markPendingPush { s with pushTimer := false }
  unfold pushDirty
  dsimp only
  split
  · exact hmark
  · split
    · exact Nat.le_trans hmark (moves_pause _ _)
    · split
      · exact Nat.le_trans hmark (moves_pause _ _)
      · split
        · exact hmark
        · split <;> exact hmark

theorem moves_turn_of_quiet {lease : SyncLease} {α : Type} 
    {p : Proc (Service ρ) (Await.Reply ς (π := π)) α}
    (h : Quiet (Stale lease) Moves (Untouched lease) p) (s : Service ρ) : Moves s (turn p s).1 := by
  refine moves_turn ?_ ?_ (h.live s)
  · intro s
    exact Nat.le_refl _
  · intro s t u hst htu
    exact Nat.le_trans hst htu

theorem advances_begin {s : System ρ ς π} {call : Service ρ × Option SyncLease}
    {operation : SyncLease → Job ρ ς π SyncStatus}
    (hoperation : ∀ lease, QuietJob lease (operation lease)) (hcall : Moves s.service call.1) :
    Advances s (begin call operation s.operations) := by
  unfold begin
  split
  · exact ⟨hcall, fun _ o ho => ⟨o, ho, rfl⟩⟩
  · rename_i lease _
    refine ⟨?_, fun i o ho => ⟨o, ?_, rfl⟩⟩
    · exact Nat.le_trans hcall (moves_turn_of_quiet (hoperation lease) call.1)
    · exact (List.getElem?_append_left (List.getElem?_eq_some_iff.mp ho).1).trans ho

theorem advances_step {codec : Codec ρ ς π} {s t : System ρ ς π} {e : Event ρ ς π} (hs : Ready s)
    (h : step codec s e = some t) : Advances s t := by
  cases e with
  | bootstrap =>
    cases h
    exact advances_begin (fun lease => quiet_enqueueSyncOperation (quiet_runBootstrap codec)
      untouched_settleBootstrap) (moves_bootstrap s.service)
  | pushDirty rounds =>
    cases h
    exact advances_begin (fun lease => quiet_enqueueSyncOperation (quiet_runPush codec rounds)
      untouched_settlePush) (moves_pushDirty s.service)
  | resume i reply =>
    obtain ⟨operation, rest, ho, hr, hops⟩ := step_resume h
    obtain ⟨p, hp, hturn⟩ := resume_cases (hs operation (List.mem_of_getElem? ho)) hr
    refine ⟨?_, fun j o hj => ?_⟩
    · have hmoves := moves_turn_of_quiet hp s.service
      rwa [hturn] at hmoves
    · by_cases hij : i = j
      · subst hij
        obtain rfl : operation = o := Option.some.inj (ho.symm.trans hj)
        refine ⟨{ operation with rest }, ?_, rfl⟩
        rw [hops, List.getElem?_set_self (List.getElem?_eq_some_iff.mp ho).1]
      · refine ⟨o, ?_, rfl⟩
        rw [hops, List.getElem?_set_ne hij, hj]
  | pause errorMessage => cases h; exact advances_service (moves_pause errorMessage s.service)
  | resetVaultRecoveryState =>
    cases h
    exact advances_service (moves_resetVaultRecoveryState s.service)
  | purgeSyncedCache =>
    cases h
    exact advances_service (moves_invalidateSyncGeneration true s.service)
  | _ => cases h; exact advances_service (moves_of_eq rfl)

/-- However the operations interleave, once the generation has moved on an operation with an older
lease leaves the store, the revision, the outbox, the status and the tasks of other generations as
they are. -/
theorem stale_lease_has_no_effect (codec : Codec ρ ς π) (service : Service ρ)
    {es es' : List (Event ρ ς π)} {s t u : System ρ ς π} {i : Nat} {operation : Operation ρ ς π}
    {reply : (a : Await π) → Option (Await.Reply ς a)}
    (hrun : run (step codec) { service } es = some s)
    (hoperation : s.operations[i]? = some operation)
    (hmoved : operation.lease.generation < s.service.syncGeneration)
    (hlater : run (step codec) s es' = some t)
    (hstep : step codec t (.resume i reply) = some u) :
    Untouched operation.lease t.service u.service := by
  have hready : Ready s := run_invariant Ready.step (fun _ h => by cases h) hrun
  have hkeeps : ∀ t e u, (Ready t ∧ Advances s t) → step codec t e = some u →
      Ready u ∧ Advances s u := fun t e u ht h =>
    ⟨ht.1.step t e u h, ht.2.trans (advances_step ht.1 h)⟩
  obtain ⟨hready', hadv⟩ := run_invariant hkeeps ⟨hready, .refl s⟩ hlater
  obtain ⟨operation', ho', hlease⟩ := hadv.lease i operation hoperation
  obtain ⟨operation'', rest, ho, hr, _⟩ := step_resume hstep
  obtain rfl : operation' = operation'' := Option.some.inj (ho'.symm.trans ho)
  obtain ⟨p, hp, hturn⟩ := resume_cases (hready' operation' (List.mem_of_getElem? ho)) hr
  have hstale : Stale operation'.lease t.service := by
    rw [Stale, hlease]
    exact Nat.ne_of_lt (Nat.lt_of_lt_of_le hmoved hadv.moves)
  have hsame := same_turn (Untouched.refl operation'.lease) (fun _ _ _ => Untouched.trans)
    (hp true t.service fun _ => hstale)
  rw [hturn, hlease] at hsame
  exact hsame

def plainCodec : Codec (List String) String (List String) where
  materializeImplicitHostGroups := id
  secretRefs _ := []
  encode _ _ records _ _ := records
  totalRecordCount := List.length
  decode _ _ payload := .ok fun _ _ => (payload, false)

def unlocked : Service (List String) where
  records := ["here"]
  session := some ⟨"user", "https://server", "token", "key", some 1⟩

def answers (snapshot : List String) :
    (a : Await (List String)) → Option (Await.Reply String a)
  | .operationTail | .returned => some ()
  | .fetch _ _ => some (.ok { status := 200, etag := some "\"7\"" })
  | .infoJson => some (.ok (.supported, true))
  | .pullJson => some (.ok snapshot)
  | .onAppliedSnapshot => some (.ok ())
  | _ => none

def pulling : List (Event (List String) String (List String)) :=
  .bootstrap :: List.replicate 6 (.resume 0 (answers ["there"]))

/-- The vault is reset while the snapshot is on its way. It is not applied when it arrives; without
the reset it would have been. -/
theorem late_snapshot_is_dropped :
    (run (step plainCodec) { service := unlocked }
      (pulling ++ [.resetVaultRecoveryState] ++ [.resume 0 (answers ["there"])])).map (fun u =>
        (u.service.records, u.service.lastSyncRevision, u.service.state.status)) =
      some (["here"], none, .paused) ∧
    (run (step plainCodec) { service := unlocked }
      (pulling ++ List.replicate 5 (.resume 0 (answers ["there"])))).map (fun u =>
        (u.service.records, u.service.lastSyncRevision, u.service.state.status)) =
      some (["there"], some "\"7\"", .ready) := by
  refine ⟨?_, by decide⟩
  have hrun : (run (step plainCodec) { service := unlocked }
      (pulling ++ [.resetVaultRecoveryState])).map (fun s =>
        (s.operations.map fun o => o.lease.generation, s.service.syncGeneration,
          s.service.records, s.service.lastSyncRevision, s.service.state.status)) =
      some ([0], 1, ["here"], none, .paused) := by decide
  obtain ⟨s, hs, hfacts⟩ := Option.map_eq_some_iff.mp hrun
  simp only [Prod.mk.injEq] at hfacts
  obtain ⟨hops, hgeneration, hrecords, hrevision, hstatus⟩ := hfacts
  obtain ⟨operation, hoperation, hlease⟩ : ∃ operation, s.operations[0]? = some operation ∧
      operation.lease.generation = 0 := by
    have h := congrArg (fun generations => generations[0]?) hops
    rwa [List.getElem?_map, List.getElem?_cons_zero, Option.map_eq_some_iff] at h
  have hlast : (run (step plainCodec) { service := unlocked }
      (pulling ++ [.resetVaultRecoveryState] ++ [.resume 0 (answers ["there"])])).isSome := by
    decide
  obtain ⟨u, hu⟩ := Option.isSome_iff_exists.mp hlast
  obtain ⟨s', hs', hstep⟩ := run_append.mp hu
  obtain rfl : s = s' := Option.some.inj (hs.symm.trans hs')
  obtain ⟨u', hstep, hnil⟩ := run_cons.mp hstep
  cases hnil
  have h := stale_lease_has_no_effect plainCodec unlocked hs hoperation (by omega) run_nil hstep
  rw [hu, Option.map_some, h.records, h.lastSyncRevision, h.state, hrecords, hrevision, hstatus]

end Dolgate.SyncService
