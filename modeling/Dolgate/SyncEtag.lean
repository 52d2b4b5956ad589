import Dolgate.SyncMerge

set_option autoImplicit false

namespace Dolgate.VaultStore
open LastWriter Transaction Transition

variable {cfg : Config} {s t u : Account} {fence : VaultPushFence}

/-- One consistent read of the revision and every record. A user without a row reads as revision
zero. -/
def getSyncSnapshot (s : Account) : Int × (String × String → Option SyncRecordRow) :=
  ((s.user.map fun user => user.syncRevision).getD 0, s.records)

/-- The gate on every sync request, without the data floor, which no record depends on. -/
structure SyncGate where
  existing : Bool
  revision : Int
deriving DecidableEq, Repr

def getSyncGate (s : Account) : SyncGate :=
  match s.user with
  | none => ⟨false, 0⟩
  | some user => ⟨true, user.syncRevision⟩

/-- The upsert of one kind that only tests call; the store's interface leaves it out. -/
def upsertSyncRecords (cfg : Config) (kind : String) (records : List Record) :
    Tx Account Err Unit :=
  match validateKind kind with
  | .error reason => fail (.badSyncRecord reason)
  | .ok () => transaction do
      lockUserRowTx cfg
      let _ ← upsertSyncRecordsTx kind records
      pure ()

def serve (cfg : Config) (s : Account) (c : Call) : Option Account := some (c.perform cfg s).2

/-- Some version has replaced what was there, and the entry of its key is one of the new ones. -/
def Overwrites (new : String × String → SyncRecordRow → Prop) (s t : Account) : Prop :=
  ∃ key row last, new key row ∧ keepsCurrent (s.records key) row = false ∧
    t.records key = some last ∧ new key last ∧ row.updatedAt ≤ last.updatedAt

theorem Overwrites.mono {new new' : String × String → SyncRecordRow → Prop}
    (h : Overwrites new s t) (hn : ∀ key row, new key row → new' key row) :
    Overwrites new' s t := by
  obtain ⟨key, row, last, hrow, hk, hlast, hnew, hle⟩ := h
  exact ⟨key, row, last, hn key row hrow, hk, hlast, hn key last hnew, hle⟩

theorem Overwrites.merges {new new' : String × String → SyncRecordRow → Prop}
    (h : Overwrites new s t) (hm : Merges SyncRecordRow.updatedAt new' t.records u.records) :
    Overwrites (fun key row => new key row ∨ new' key row) s u := by
  obtain ⟨key, row, last, hrow, hk, hlast, hnew, hle⟩ := h
  obtain ⟨last', hlast', hle'⟩ := hm.raised key last (.inl hlast)
  refine ⟨key, row, last', .inl hrow, hk, hlast', ?_, hle.trans hle'⟩
  rcases hm.origin key last' hlast' with h | h
  · cases hlast.symm.trans h
    exact .inl hnew
  · exact .inr h

theorem Overwrites.changed {new : String × String → SyncRecordRow → Prop}
    (h : Overwrites new s t) (hd : Distinct SyncRecordRow.updatedAt new) :
    t.records ≠ s.records := by
  obtain ⟨key, row, last, hrow, hk, hlast, hnew, hle⟩ := h
  intro heq
  rw [← heq, hlast] at hk
  simp only [keepsCurrent, Bool.or_eq_false_iff, decide_eq_false_iff_not] at hk
  have htime : row.updatedAt = last.updatedAt := by omega
  rw [hd key row last hrow hnew htime] at hk
  simp at hk

def Counts (new : String × String → SyncRecordRow → Prop) (s : Account) (n : Nat) (t : Account) :
    Prop :=
  (n = 0 ∧ t = s) ∨ (n ≠ 0 ∧ Overwrites new s t)

theorem Counts.append {new new' : String × String → SyncRecordRow → Prop} {n m : Nat}
    (h : Counts new s n t) (h' : Counts new' t m u)
    (hm : Merges SyncRecordRow.updatedAt new' t.records u.records) :
    Counts (fun key row => new key row ∨ new' key row) s (n + m) u := by
  rcases h with ⟨rfl, rfl⟩ | ⟨hn, h⟩
  · rcases h' with ⟨rfl, rfl⟩ | ⟨hm', h'⟩
    · exact .inl ⟨rfl, rfl⟩
    · exact .inr ⟨by omega, h'.mono fun _ _ => .inr⟩
  · exact .inr ⟨by omega, h.merges hm⟩

theorem Counts.mono {new new' : String × String → SyncRecordRow → Prop} {n : Nat}
    (h : Counts new s n t) (hn : ∀ key row, new key row → new' key row) : Counts new' s n t :=
  h.imp_right fun h => ⟨h.1, h.2.mono hn⟩

theorem upsertSyncRecordTx_counts {kind : String} {record : Record} {n : Nat}
    (h : upsertSyncRecordTx kind record s = (.ok n, t)) :
    Counts (fun key row => key = (kind, record.id) ∧ toSyncRecordRow record = .ok row) s n t := by
  unfold upsertSyncRecordTx at h
  cases hrow : toSyncRecordRow record with
  | error reason =>
      rw [hrow] at h
      exact (not_fail_ok h).elim
  | ok row =>
      rw [hrow] at h
      obtain ⟨current, v, hv, h⟩ := bind_ok.mp h
      obtain ⟨rfl, rfl⟩ := read_ok.mp hv
      split at h
      · obtain ⟨rfl, rfl⟩ := pure_ok.mp h
        exact .inl ⟨rfl, rfl⟩
      · rename_i hk
        obtain ⟨_, v, hv, h⟩ := bind_ok.mp h
        obtain ⟨rfl, rfl⟩ := pure_ok.mp h
        have hv := write_ok.mp hv
        subst hv
        exact .inr ⟨Nat.one_ne_zero, _, row, row, ⟨rfl, rfl⟩, by simpa using hk,
          Function.update_self .., ⟨rfl, rfl⟩, le_rfl⟩

theorem upsertSyncRecordsTx_counts {kind : String} {records : List Record} {n : Nat}
    (h : upsertSyncRecordsTx kind records s = (.ok n, t)) :
    Counts (fun key row => key.1 = kind ∧
      ∃ record ∈ records, record.id = key.2 ∧ toSyncRecordRow record = .ok row) s n t := by
  induction records generalizing s n with
  | nil =>
      obtain ⟨rfl, rfl⟩ := pure_ok.mp h
      exact .inl ⟨rfl, rfl⟩
  | cons record rest ih =>
      obtain ⟨written, v, hv, h⟩ := bind_ok.mp h
      obtain ⟨more, w, hw, h⟩ := bind_ok.mp h
      obtain ⟨rfl, rfl⟩ := pure_ok.mp h
      refine ((upsertSyncRecordTx_counts hv).append (ih hw)
        (upsertSyncRecordsTx_merges hw)).mono ?_
      rintro key row (⟨rfl, hrow⟩ | ⟨hk, r, hr, hid, hrow⟩)
      · exact ⟨rfl, record, List.mem_cons_self, rfl, hrow⟩
      · exact ⟨hk, r, List.mem_cons_of_mem record hr, hid, hrow⟩

theorem upsertKindsTx_counts {payload : Payload} {kinds : List String} {n : Nat}
    (h : upsertKindsTx payload kinds s = (.ok n, t)) :
    Counts (fun key row => key.1 ∈ kinds ∧ payload.Carries key row) s n t := by
  induction kinds generalizing s n with
  | nil =>
      obtain ⟨rfl, rfl⟩ := pure_ok.mp h
      exact .inl ⟨rfl, rfl⟩
  | cons kind rest ih =>
      obtain ⟨written, v, hv, h⟩ := bind_ok.mp h
      obtain ⟨more, w, hw, h⟩ := bind_ok.mp h
      obtain ⟨rfl, rfl⟩ := pure_ok.mp h
      refine ((upsertSyncRecordsTx_counts hv).append (ih hw) (upsertKindsTx_merges hw)).mono ?_
      rintro key row (⟨rfl, hrow⟩ | ⟨hk, hrow⟩)
      · exact ⟨List.mem_cons_self, hrow⟩
      · exact ⟨List.mem_cons_of_mem kind hk, hrow⟩

theorem applyPushRecords_counts {payload : Payload} {n : Int}
    (h : applyPushRecords cfg payload fence s = (.ok n, t)) :
    t = s ∨ ∃ user, s.user = some user ∧
      t.user = some { user with syncRevision := user.syncRevision + 1 } ∧
      Overwrites payload.Carries s t := by
  obtain ⟨user, row, total, v, hu, -, -, -, hv, ht⟩ := applyPushRecords_cases h
  rcases upsertKindsTx_counts hv with ⟨rfl, rfl⟩ | ⟨hn, how⟩
  · rcases ht with ⟨-, rfl⟩ | ⟨hne, -⟩
    · exact .inl rfl
    · exact absurd rfl hne
  · rcases ht with ⟨rfl, -⟩ | ⟨-, rfl⟩
    · exact absurd rfl hn
    · exact .inr ⟨user, hu, rfl, how.mono fun _ _ h => h.2⟩

structure Tracks (s t : Account) : Prop where
  gone : s.user = none → t.user = none
  rises : ∀ user user', s.user = some user → t.user = some user' →
    user.syncRevision ≤ user'.syncRevision ∧
      (user.syncRevision = user'.syncRevision → t.records = s.records)

theorem Tracks.refl (s : Account) : Tracks s s := by
  refine ⟨id, fun user user' hu hu' => ?_⟩
  cases hu.symm.trans hu'
  exact ⟨le_rfl, fun _ => rfl⟩

theorem Tracks.trans (h : Tracks s t) (h' : Tracks t u) : Tracks s u := by
  refine ⟨fun hs => h'.gone (h.gone hs), fun user user' hs hu => ?_⟩
  cases ht : t.user with
  | none => simp [h'.gone ht] at hu
  | some between =>
      obtain ⟨hle, hsame⟩ := h.rises user between hs ht
      obtain ⟨hle', hsame'⟩ := h'.rises between user' ht hu
      refine ⟨hle.trans hle', fun heq => ?_⟩
      rw [hsame' (by omega), hsame (by omega)]

theorem tracks_of_lt {user user' : UserRow} (hs : s.user = some user) (ht : t.user = some user')
    (hlt : user.syncRevision < user'.syncRevision) : Tracks s t := by
  refine ⟨fun h => by simp [h] at hs, fun a b ha hb => ?_⟩
  cases hs.symm.trans ha
  cases ht.symm.trans hb
  exact ⟨hlt.le, fun h => absurd h hlt.ne⟩

theorem perform_cases {c : Call} (h : c.perform cfg s = (.ok (), t)) :
    (t = ⟨none, none, fun _ => none⟩ ∧ c.request = .delete) ∨
      (t.user = s.user ∧ t.records = s.records) ∨
      ∃ user user', s.user = some user ∧ t.user = some user' ∧
        user.syncRevision < user'.syncRevision := by
  unfold Call.perform at h
  split at h
  · cases h
  · obtain ⟨r, fault⟩ := c
    cases r with
    | push payload fence =>
        obtain ⟨n, h⟩ := void_ok h
        rcases applyPushRecords_counts h with rfl | ⟨user, hu, ht, -⟩
        · exact .inr (.inl ⟨rfl, rfl⟩)
        · exact .inr (.inr ⟨user, _, hu, ht, by simp⟩)
    | create vault precondition wrapped =>
        obtain ⟨n, h⟩ := void_ok h
        obtain ⟨user, hu, -, rfl, -⟩ := createUserVaultV2_ok h
        exact .inr (.inr ⟨user, _, hu, rfl, by simp⟩)
    | update vault precondition wrapped =>
        obtain ⟨n, h⟩ := void_ok h
        obtain ⟨user, current, expected, -, -, -, -, -, rfl⟩ := updateUserVaultV2_ok h
        exact .inr (.inl ⟨rfl, rfl⟩)
    | reset expectedEpoch =>
        obtain ⟨n, h⟩ := void_ok h
        obtain ⟨user, hu, rfl⟩ := resetUserVault_ok h
        exact .inr (.inr ⟨user, _, hu, rfl, by simp⟩)
    | getOrCreate buffer =>
        obtain ⟨n, h⟩ := void_ok h
        obtain ⟨user, hu, ⟨-, rfl⟩ | ⟨-, -, rfl⟩⟩ := getOrCreateUserVaultKey_ok h
        · exact .inr (.inl ⟨rfl, rfl⟩)
        · exact .inr (.inl ⟨rfl, rfl⟩)
    | delete => exact .inl ⟨deleteUserData_ok h, rfl⟩

theorem serve_cases {c : Call} (h : serve cfg s c = some t) :
    (t = ⟨none, none, fun _ => none⟩ ∧ c.request = .delete) ∨
      (t.user = s.user ∧ t.records = s.records) ∨
      ∃ user user', s.user = some user ∧ t.user = some user' ∧
        user.syncRevision < user'.syncRevision := by
  cases h
  cases hp : c.perform cfg s with
  | mk result v =>
      cases result with
      | ok a => exact perform_cases hp
      | error e => exact .inr (.inl (by rw [perform_error hp]; exact ⟨rfl, rfl⟩))

theorem serve_tracks {c : Call} (h : serve cfg s c = some t) : Tracks s t := by
  rcases serve_cases h with ⟨rfl, -⟩ | ⟨hu, hrec⟩ | ⟨user, user', hs, ht, hlt⟩
  · exact ⟨fun _ => rfl, fun _ _ _ h => by simp at h⟩
  · refine ⟨fun h => hu.trans h, fun user user' hs ht => ?_⟩
    cases hs.symm.trans (hu.symm.trans ht)
    exact ⟨le_rfl, fun _ => hrec⟩
  · exact tracks_of_lt hs ht hlt

theorem push_unchanged {payload : Payload} {n : Int}
    (hd : Distinct SyncRecordRow.updatedAt payload.Carries)
    (h : applyPushRecords cfg payload fence s = (.ok n, t)) (hrec : t.records = s.records) :
    t.user = s.user := by
  rcases applyPushRecords_counts h with rfl | ⟨user, hu, ht, how⟩
  · rfl
  · exact absurd hrec (how.changed hd)

theorem revision_sound (cfg : Config) (calls : List Call)
    (ht : run (serve cfg) s calls = some t) :
    (∀ c u, serve cfg t c = some u →
      (c.request ≠ .delete → u.records ≠ t.records →
        ∃ user user', t.user = some user ∧ u.user = some user' ∧
          user.syncRevision < user'.syncRevision) ∧
      ∀ user user', t.user = some user → u.user = some user' →
        user.syncRevision ≤ user'.syncRevision) ∧
    ((getSyncGate t).existing = true → (getSyncGate t).revision = (getSyncSnapshot s).1 →
      t.records = (getSyncSnapshot s).2) ∧
    ∀ payload fence n u, applyPushRecords cfg payload fence t = (.ok n, u) →
      Distinct SyncRecordRow.updatedAt payload.Carries → u.records = t.records →
        u.user = t.user := by
  refine ⟨fun c u hu => ⟨fun hc hne => ?_, fun user user' h h' => ?_⟩, fun he hrev => ?_,
    fun payload fence n u h hd hrec => push_unchanged hd h hrec⟩
  · rcases serve_cases hu with ⟨-, h⟩ | ⟨-, h⟩ | h
    · exact absurd h hc
    · exact absurd h hne
    · exact h
  · exact ((serve_tracks hu).rises user user' h h').1
  · have htr : Tracks s t := run_relation Tracks.refl (fun _ _ _ h h' => h.trans h')
      (fun _ _ _ h => serve_tracks h) ht
    cases hut : t.user with
    | none => simp [getSyncGate, hut] at he
    | some user =>
        cases hus : s.user with
        | none => simp [htr.gone hus] at hut
        | some user₀ =>
            simp only [getSyncGate, hut, getSyncSnapshot, hus, Option.map_some,
              Option.getD_some] at hrev
            exact (htr.rises user₀ user hus hut).2 hrev.symm

/-- The vault of `sampleCalls` is at epoch one, with version two. -/
def repeatedPush : Call := ⟨.push (hostPush false) ⟨1, 2⟩, false⟩

theorem revision_sound_repeatedPush :
    ∃ s t, run (serve sampleConfig) newAccount sampleCalls = some s ∧
      run (serve sampleConfig) s [repeatedPush] = some t ∧ getSyncGate t = ⟨true, 2⟩ ∧
      (getSyncSnapshot s).1 = 2 ∧ t.records = (getSyncSnapshot s).2 := by
  have hgates : ((run (serve sampleConfig) newAccount sampleCalls).bind fun s =>
      (run (serve sampleConfig) s [repeatedPush]).map fun t =>
        ((getSyncSnapshot s).1, getSyncGate t)) = some (2, ⟨true, 2⟩) := by
    decide +kernel
  obtain ⟨s, hs, hgates⟩ := Option.bind_eq_some_iff.mp hgates
  obtain ⟨t, ht, hgates⟩ := Option.map_eq_some_iff.mp hgates
  obtain ⟨hsnapshot, hgate⟩ := Prod.mk.inj hgates
  refine ⟨s, t, hs, ht, hgate, hsnapshot, ?_⟩
  exact (revision_sound sampleConfig [repeatedPush] ht).2.1 (by rw [hgate])
    (by rw [hgate, hsnapshot])

/-- One push that brings another version of a stored host and then the stored one again. -/
def thereAndBack : Payload :=
  ⟨[("hosts", [⟨"h1", "b3RoZXI=", "2024-05-01T00:00:00Z", none⟩,
    ⟨"h1", "cGF5bG9hZA==", "2024-05-01T00:00:00Z", none⟩])], by simp⟩

theorem thereAndBack_carries {key : String × String} {row : SyncRecordRow}
    (h : thereAndBack.Carries key row) : key = ("hosts", "h1") := by
  obtain ⟨record, hr, hid, -⟩ := h
  unfold Payload.get at hr
  by_cases hk : key.1 = "hosts"
  · refine Prod.ext hk ?_
    have : record.id = "h1" := by
      simp only [thereAndBack, hk, List.lookup_cons_self, Option.getD_some, List.mem_cons,
        List.not_mem_nil, or_false] at hr
      rcases hr with rfl | rfl <;> rfl
    rw [← hid, this]
  · have hne : (key.1 == "hosts") = false := by simpa using hk
    simp [thereAndBack, List.lookup, hne] at hr

/-- What `sampleCalls` leave: one host, at revision two. -/
def pushedAccount : Account := (run (serve sampleConfig) newAccount sampleCalls).getD newAccount

theorem run_sampleCalls : run (serve sampleConfig) newAccount sampleCalls = some pushedAccount := by
  have hsome : (run (serve sampleConfig) newAccount sampleCalls).isSome := by decide
  obtain ⟨s, hs⟩ := Option.isSome_iff_exists.mp hsome
  rw [pushedAccount, hs, Option.getD_some]

theorem pushedAccount_host : pushedAccount.records ("hosts", "h1") = some (hostRow false) := by
  decide +kernel

theorem thereAndBack_pushed :
    ∃ n u, applyPushRecords sampleConfig thereAndBack ⟨1, 2⟩ pushedAccount = (.ok n, u) ∧
      u.records = pushedAccount.records ∧ getSyncGate u ≠ getSyncGate pushedAccount := by
  have hok : (applyPushRecords sampleConfig thereAndBack ⟨1, 2⟩ pushedAccount).1.toOption =
      some 3 := by
    decide +kernel
  have hrow : (applyPushRecords sampleConfig thereAndBack ⟨1, 2⟩ pushedAccount).2.records
      ("hosts", "h1") = some (hostRow false) := by
    decide +kernel
  have hgate : getSyncGate (applyPushRecords sampleConfig thereAndBack ⟨1, 2⟩ pushedAccount).2 ≠
      getSyncGate pushedAccount := by
    decide +kernel
  cases hp : applyPushRecords sampleConfig thereAndBack ⟨1, 2⟩ pushedAccount with
  | mk result u =>
      rw [hp] at hok hrow hgate
      cases result with
      | error e => cases hok
      | ok n =>
          refine ⟨n, u, rfl, funext fun key => ?_, hgate⟩
          by_cases hk : key = ("hosts", "h1")
          · rw [hk, hrow, pushedAccount_host]
          · exact (applyPushRecords_merges hp).eq_of_not_new fun row h =>
              hk (thereAndBack_carries h)

theorem changed_of_host {u : Account}
    (h : u.records ("hosts", "h1") ≠ some (hostRow false)) :
    u.records ≠ pushedAccount.records := by
  intro heq
  rw [heq, pushedAccount_host] at h
  exact h rfl

theorem host_upserted :
    ∃ u, upsertSyncRecords sampleConfig "hosts" [hostRecord true] pushedAccount = (.ok (), u) ∧
      u.records ≠ pushedAccount.records ∧ getSyncGate u = getSyncGate pushedAccount := by
  have hok : (upsertSyncRecords sampleConfig "hosts" [hostRecord true]
      pushedAccount).1.toOption = some () := by
    decide +kernel
  have hrow : (upsertSyncRecords sampleConfig "hosts" [hostRecord true]
      pushedAccount).2.records ("hosts", "h1") ≠ some (hostRow false) := by
    decide +kernel
  have hgate : getSyncGate (upsertSyncRecords sampleConfig "hosts" [hostRecord true]
      pushedAccount).2 = getSyncGate pushedAccount := by
    decide +kernel
  cases hp : upsertSyncRecords sampleConfig "hosts" [hostRecord true] pushedAccount with
  | mk result u =>
      rw [hp] at hok hrow hgate
      cases result with
      | error e => cases hok
      | ok a => exact ⟨u, rfl, changed_of_host hrow, hgate⟩

theorem revision_moves_alone :
    ∃ s, run (serve sampleConfig) newAccount sampleCalls = some s ∧
      (∃ n u, applyPushRecords sampleConfig thereAndBack ⟨1, 2⟩ s = (.ok n, u) ∧
        u.records = s.records ∧ getSyncGate u ≠ getSyncGate s) ∧
      (∃ u, serve sampleConfig s ⟨.delete, false⟩ = some u ∧ u.records ≠ s.records ∧
        (getSyncGate u).revision < (getSyncGate s).revision) ∧
      ∃ u, upsertSyncRecords sampleConfig "hosts" [hostRecord true] s = (.ok (), u) ∧
        u.records ≠ s.records ∧ getSyncGate u = getSyncGate s :=
  ⟨pushedAccount, run_sampleCalls, thereAndBack_pushed,
    ⟨_, rfl, changed_of_host (by decide +kernel), by decide +kernel⟩, host_upserted⟩

end Dolgate.VaultStore
