import Dolgate.GoTimeFormat
import Dolgate.SyncEtag

set_option autoImplicit false

namespace Dolgate.VaultStore
open GoTime LastWriter Transaction Transition

def toSyncRecord (id : String) (row : SyncRecordRow) : Record where
  id := id
  encryptedPayload := row.encryptedPayload
  updatedAt := formatMillis row.updatedAt
  deletedAt := row.deletedAt.map formatMillis

/-- `payload[kind] = append(payload[kind], record)` -/
def appendRecord (kind : String) (record : Record) :
    List (String × List Record) → List (String × List Record)
  | [] => [(kind, [record])]
  | (k, records) :: rest =>
      if k = kind then (k, records ++ [record]) :: rest
      else (k, records) :: appendRecord kind record rest

theorem appendRecord_keys (kind : String) (record : Record) (entries : List (String × List Record)) :
    (appendRecord kind record entries).map Prod.fst =
      if kind ∈ entries.map Prod.fst then entries.map Prod.fst
      else entries.map Prod.fst ++ [kind] := by
  induction entries with
  | nil => rfl
  | cons entry rest ih =>
      obtain ⟨k, records⟩ := entry
      by_cases hk : k = kind
      · simp [appendRecord, hk]
      · have hne : kind ≠ k := fun h => hk h.symm
        simp only [appendRecord, if_neg hk, List.map_cons, ih, List.mem_cons, hne, false_or]
        split_ifs <;> rfl

def Payload.append (p : Payload) (kind : String) (record : Record) : Payload where
  entries := appendRecord kind record p.entries
  nodup := by
    rw [appendRecord_keys]
    split_ifs with h
    · exact p.nodup
    · refine List.nodup_append.mpr ⟨p.nodup, List.nodup_singleton kind, fun k hk k' hk' heq => ?_⟩
      rw [heq, List.mem_singleton.mp hk'] at hk
      exact h hk

def listAllSyncRecordsTx (rows : List ((String × String) × SyncRecordRow)) : Payload :=
  rows.foldl (fun payload e => payload.append e.1.1 (toSyncRecord e.1.2 e.2)) ⟨[], List.nodup_nil⟩

structure Lists (rows : List ((String × String) × SyncRecordRow)) (s : Account) : Prop where
  found : ∀ key row, (key, row) ∈ rows ↔ s.records key = some row
  nodup : (rows.map Prod.fst).Nodup
  sorted : rows.Pairwise fun a b => b.2.updatedAt ≤ a.2.updatedAt

def currentFence (user : UserRow) (vault : UserVaultKeyRow) : VaultPushFence where
  epoch := user.vaultEpoch
  version := if vault.version = 0 then 1 else vault.version

def PushBackKeeps (cfg : Config) (rows : List ((String × String) × SyncRecordRow))
    (fence : VaultPushFence) (s : Account) : Prop :=
  (applyPushRecords cfg (listAllSyncRecordsTx rows) fence s).2.records = s.records ∧
    (applyPushRecords cfg (listAllSyncRecordsTx rows) fence s).2.user.map UserRow.syncRevision =
      s.user.map UserRow.syncRevision

structure SyncRecordRow.Readable (row : SyncRecordRow) : Prop where
  updatedAt : Printable row.updatedAt
  deletedAt : ∀ t, row.deletedAt = some t → Printable t

def SyncRecordRow.cut (row : SyncRecordRow) : SyncRecordRow where
  encryptedPayload := row.encryptedPayload
  updatedAt := row.updatedAt / 1000000 * 1000000
  deletedAt := row.deletedAt.map fun t => t / 1000000 * 1000000

variable {cfg : Config} {s t : Account} {fence : VaultPushFence}

theorem appendRecord_lookup (kind : String) (record : Record) (entries : List (String × List Record))
    (k : String) :
    ((appendRecord kind record entries).lookup k).getD [] =
      if k = kind then (entries.lookup k).getD [] ++ [record] else (entries.lookup k).getD [] := by
  induction entries with
  | nil =>
      by_cases h : k = kind
      · simp [appendRecord, h]
      · have hne : (k == kind) = false := by simpa using h
        simp [appendRecord, h, List.lookup_cons, hne]
  | cons entry rest ih =>
      obtain ⟨k', records⟩ := entry
      by_cases hkind : k' = kind
      · by_cases h : k = kind
        · simp [appendRecord, hkind, h]
        · have hne : (k == kind) = false := by simpa using h
          simp [appendRecord, hkind, h, List.lookup_cons, hne]
      · by_cases h : k = k'
        · have hne : ¬ k = kind := h ▸ hkind
          simp [appendRecord, h, hkind]
        · have hne : (k == k') = false := by simpa using h
          simp [appendRecord, hkind, List.lookup_cons, hne, ih]

theorem Payload.get_append (p : Payload) (kind : String) (record : Record) (k : String) :
    (p.append kind record).get k = if k = kind then p.get k ++ [record] else p.get k :=
  appendRecord_lookup kind record p.entries k

theorem mem_get_foldl {rows : List ((String × String) × SyncRecordRow)} {p : Payload}
    {kind : String} {record : Record} :
    record ∈ (rows.foldl (fun payload e =>
        payload.append e.1.1 (toSyncRecord e.1.2 e.2)) p).get kind ↔
      record ∈ p.get kind ∨ ∃ e ∈ rows, e.1.1 = kind ∧ toSyncRecord e.1.2 e.2 = record := by
  induction rows generalizing p with
  | nil => simp
  | cons e rest ih =>
      rw [List.foldl_cons, ih, Payload.get_append]
      by_cases h : kind = e.1.1
      · simp [h, or_assoc, eq_comm]
      · have hne : ¬ e.1.1 = kind := fun heq => h heq.symm
        simp [h, hne]

theorem Lists.mem_get {rows : List ((String × String) × SyncRecordRow)} (h : Lists rows s)
    {kind : String} {record : Record} :
    record ∈ (listAllSyncRecordsTx rows).get kind ↔
      ∃ id row, s.records (kind, id) = some row ∧ toSyncRecord id row = record := by
  have hempty : record ∉ (⟨[], List.nodup_nil⟩ : Payload).get kind := List.not_mem_nil
  rw [listAllSyncRecordsTx, mem_get_foldl]
  constructor
  · rintro (hmem | ⟨⟨⟨k, id⟩, row⟩, hmem, rfl, hrecord⟩)
    · exact absurd hmem hempty
    · exact ⟨id, row, (h.found _ row).mp hmem, hrecord⟩
  · rintro ⟨id, row, hrow, hrecord⟩
    exact .inr ⟨((kind, id), row), (h.found _ row).mpr hrow, rfl, hrecord⟩

theorem formatMillis_ne_empty (t : Int) : formatMillis t ≠ "" := by
  intro hempty
  have hlist := congrArg String.toList hempty
  simp [formatMillis] at hlist

theorem toSyncRecordRow_readable {row : SyncRecordRow} (h : row.Readable) (id : String) :
    toSyncRecordRow (toSyncRecord id row) = .ok row.cut := by
  obtain ⟨payload, updatedAt, deletedAt⟩ := row
  simp only [toSyncRecordRow, toSyncRecord, parseRFC3339_formatMillis h.updatedAt]
  cases deletedAt with
  | none => rfl
  | some t =>
      have ht := h.deletedAt t rfl
      simp [formatMillis_ne_empty, parseRFC3339_formatMillis ht, SyncRecordRow.cut]

theorem toSyncRecordRow_unreadable {row row' : SyncRecordRow} {id : String}
    (h : toSyncRecordRow (toSyncRecord id row) = .ok row') : row.Readable := by
  obtain ⟨payload, updatedAt, deletedAt⟩ := row
  have hupdated : Printable updatedAt := by
    by_contra hnot
    simp only [toSyncRecordRow, toSyncRecord, parseRFC3339_formatMillis_none hnot] at h
    cases h
  refine ⟨hupdated, fun t ht => ?_⟩
  cases ht
  by_contra hnot
  simp only [toSyncRecordRow, toSyncRecord, parseRFC3339_formatMillis hupdated, Option.map_some,
    parseRFC3339_formatMillis_none hnot, if_neg (formatMillis_ne_empty t)] at h
  cases h

theorem keepsCurrent_cut_iff (row : SyncRecordRow) :
    keepsCurrent (some row) row.cut ↔
      (row.updatedAt % 1000000 = 0 → ∀ t, row.deletedAt = some t → t % 1000000 = 0) := by
  obtain ⟨payload, updatedAt, deletedAt⟩ := row
  have hcut : ∀ t : Int, t = t / 1000000 * 1000000 ↔ t % 1000000 = 0 := fun t => by omega
  have hless : ∀ t : Int, t / 1000000 * 1000000 < t ↔ ¬ t % 1000000 = 0 := fun t => by omega
  simp only [keepsCurrent, SyncRecordRow.cut, Bool.or_eq_true, decide_eq_true_eq,
    Bool.and_eq_true, beq_iff_eq, hless, hcut]
  cases deletedAt with
  | none => simp [Classical.em, or_comm]
  | some t =>
      simp only [Option.map_some, Option.some.injEq, forall_eq', hcut]
      tauto

theorem upsertSyncRecordTx_reads {kind : String} {record : Record} {n : Nat}
    (h : upsertSyncRecordTx kind record s = (.ok n, t)) :
    ∃ row, toSyncRecordRow record = .ok row ∧
      (n = 0 → keepsCurrent (s.records (kind, record.id)) row) := by
  unfold upsertSyncRecordTx at h
  cases hrow : toSyncRecordRow record with
  | error reason =>
      rw [hrow] at h
      exact (not_fail_ok h).elim
  | ok row =>
      rw [hrow] at h
      refine ⟨row, rfl, fun hn => ?_⟩
      obtain ⟨current, v, hv, h⟩ := bind_ok.mp h
      obtain ⟨rfl, rfl⟩ := read_ok.mp hv
      split at h
      · assumption
      · obtain ⟨_, v, -, h⟩ := bind_ok.mp h
        obtain ⟨rfl, -⟩ := pure_ok.mp h
        cases hn

theorem upsertSyncRecordsTx_reads {kind : String} {records : List Record} {n : Nat}
    (h : upsertSyncRecordsTx kind records s = (.ok n, t)) :
    ∀ record ∈ records, ∃ row, toSyncRecordRow record = .ok row ∧
      (n = 0 → keepsCurrent (s.records (kind, record.id)) row) := by
  induction records generalizing s n with
  | nil => simp
  | cons record rest ih =>
      obtain ⟨written, v, hv, h⟩ := bind_ok.mp h
      obtain ⟨more, w, hw, h⟩ := bind_ok.mp h
      obtain ⟨rfl, rfl⟩ := pure_ok.mp h
      intro r hr
      rcases List.mem_cons.mp hr with rfl | hr
      · obtain ⟨row, hrow, hkept⟩ := upsertSyncRecordTx_reads hv
        exact ⟨row, hrow, fun hn => hkept (by omega)⟩
      · obtain ⟨row, hrow, hkept⟩ := ih hw r hr
        refine ⟨row, hrow, fun hn => ?_⟩
        rcases upsertSyncRecordTx_counts hv with ⟨-, rfl⟩ | ⟨hne, -⟩
        · exact hkept (by omega)
        · omega

theorem upsertKindsTx_reads {payload : Payload} {kinds : List String} {n : Nat}
    (h : upsertKindsTx payload kinds s = (.ok n, t)) :
    ∀ kind ∈ kinds, ∀ record ∈ payload.get kind, ∃ row, toSyncRecordRow record = .ok row ∧
      (n = 0 → keepsCurrent (s.records (kind, record.id)) row) := by
  induction kinds generalizing s n with
  | nil => simp
  | cons kind rest ih =>
      obtain ⟨written, v, hv, h⟩ := bind_ok.mp h
      obtain ⟨more, w, hw, h⟩ := bind_ok.mp h
      obtain ⟨rfl, rfl⟩ := pure_ok.mp h
      intro k hk record hr
      rcases List.mem_cons.mp hk with rfl | hk
      · obtain ⟨row, hrow, hkept⟩ := upsertSyncRecordsTx_reads hv record hr
        exact ⟨row, hrow, fun hn => hkept (by omega)⟩
      · obtain ⟨row, hrow, hkept⟩ := ih hw k hk record hr
        refine ⟨row, hrow, fun hn => ?_⟩
        rcases upsertSyncRecordsTx_counts hv with ⟨-, rfl⟩ | ⟨hne, -⟩
        · exact hkept (by omega)
        · omega

theorem upsertSyncRecordTx_total {kind : String} {record : Record} {row : SyncRecordRow}
    (h : toSyncRecordRow record = .ok row) (s : Account) :
    ∃ n t, upsertSyncRecordTx kind record s = (.ok n, t) := by
  simp only [upsertSyncRecordTx, h]
  by_cases hk : keepsCurrent (s.records (kind, record.id)) row
  · refine ⟨0, s, bind_ok.mpr ⟨_, s, read_ok.mpr ⟨rfl, rfl⟩, ?_⟩⟩
    rw [if_pos hk]
    rfl
  · refine ⟨1, { s with records := Function.update s.records (kind, record.id) (some row) },
      bind_ok.mpr ⟨_, s, read_ok.mpr ⟨rfl, rfl⟩, ?_⟩⟩
    rw [if_neg hk]
    rfl

theorem upsertSyncRecordsTx_total {kind : String} {records : List Record}
    (h : ∀ record ∈ records, ∃ row, toSyncRecordRow record = .ok row) (s : Account) :
    ∃ n t, upsertSyncRecordsTx kind records s = (.ok n, t) := by
  induction records generalizing s with
  | nil => exact ⟨0, s, rfl⟩
  | cons record rest ih =>
      obtain ⟨row, hrow⟩ := h record List.mem_cons_self
      obtain ⟨n, t, ht⟩ := upsertSyncRecordTx_total hrow s
      obtain ⟨m, u, hu⟩ := ih (fun r hr => h r (List.mem_cons_of_mem record hr)) t
      exact ⟨n + m, u, bind_ok.mpr ⟨n, t, ht, bind_ok.mpr ⟨m, u, hu, rfl⟩⟩⟩

theorem upsertKindsTx_total {payload : Payload} {kinds : List String}
    (h : ∀ kind ∈ kinds, ∀ record ∈ payload.get kind, ∃ row, toSyncRecordRow record = .ok row)
    (s : Account) : ∃ n t, upsertKindsTx payload kinds s = (.ok n, t) := by
  induction kinds generalizing s with
  | nil => exact ⟨0, s, rfl⟩
  | cons kind rest ih =>
      obtain ⟨n, t, ht⟩ := upsertSyncRecordsTx_total (h kind List.mem_cons_self) s
      obtain ⟨m, u, hu⟩ := ih (fun k hk => h k (List.mem_cons_of_mem kind hk)) t
      exact ⟨n + m, u, bind_ok.mpr ⟨n, t, ht, bind_ok.mpr ⟨m, u, hu, rfl⟩⟩⟩

theorem applyPushRecords_total (cfg : Config) {payload : Payload} {user : UserRow}
    {vault : UserVaultKeyRow} (hu : s.user = some user) (hv : s.vault = some vault) (hkinds : payload.validate = .ok ())
    (h : ∀ kind ∈ payload.kinds, ∀ record ∈ payload.get kind,
      ∃ row, toSyncRecordRow record = .ok row) :
    ∃ n t, applyPushRecords cfg payload (currentFence user vault) s = (.ok n, t) := by
  obtain ⟨n, t, ht⟩ := upsertKindsTx_total h s
  have huser : t.user = some user := (upsertKindsTx_ok ht).1.trans hu
  have hlock : lockUserRowTx cfg s = (.ok (), s) := by
    unfold lockUserRowTx
    split_ifs
    · rfl
    · exact bind_ok.mpr ⟨user, s, take_ok.mpr ⟨hu, rfl⟩, rfl⟩
  have hfence : validateVaultPushFenceTx (currentFence user vault) s = (.ok (), s) :=
    bind_ok.mpr ⟨user, s, take_ok.mpr ⟨hu, rfl⟩, bind_ok.mpr ⟨(), s, require_ok.mpr ⟨rfl, rfl⟩,
      bind_ok.mpr ⟨vault, s, take_ok.mpr ⟨hv, rfl⟩, require_ok.mpr ⟨rfl, rfl⟩⟩⟩⟩
  have hpush : ∀ m u, (if n = 0 then (do
        let user ← takeUser
        pure user.syncRevision) else bumpSyncRevisionTx : Tx Account Err Int) t = (.ok m, u) →
      ∃ m u, applyPushRecords cfg payload (currentFence user vault) s = (.ok m, u) := by
    intro m u hend
    refine ⟨m, u, ?_⟩
    unfold applyPushRecords
    rw [hkinds]
    exact transaction_ok.mpr (bind_ok.mpr ⟨(), s, hlock, bind_ok.mpr ⟨(), s, hfence,
      bind_ok.mpr ⟨n, t, ht, hend⟩⟩⟩)
  by_cases hn : n = 0
  · refine hpush user.syncRevision t ?_
    rw [if_pos hn]
    exact bind_ok.mpr ⟨user, t, take_ok.mpr ⟨huser, rfl⟩, rfl⟩
  · refine hpush (user.syncRevision + 1)
      { t with user := t.user.map fun user => { user with syncRevision := user.syncRevision + 1 } } ?_
    rw [if_neg hn]
    refine bind_ok.mpr ⟨(), _, rfl, bind_ok.mpr
      ⟨{ user with syncRevision := user.syncRevision + 1 }, _, take_ok.mpr ⟨?_, rfl⟩, rfl⟩⟩
    simp [huser]

theorem validate_of_applyPushRecords {payload : Payload} {n : Int}
    (h : applyPushRecords cfg payload fence s = (.ok n, t)) : payload.validate = .ok () := by
  unfold applyPushRecords at h
  cases hvalid : payload.validate with
  | error reason =>
      rw [hvalid] at h
      exact (not_fail_ok h).elim
  | ok _ => rfl

theorem Lists.carries {rows : List ((String × String) × SyncRecordRow)} (h : Lists rows s)
    {key : String × String} {new : SyncRecordRow}
    (hc : (listAllSyncRecordsTx rows).Carries key new) :
    ∃ row, s.records key = some row ∧ new = row.cut := by
  obtain ⟨record, hmem, hid, hnew⟩ := hc
  obtain ⟨id, row, hrow, rfl⟩ := h.mem_get.mp hmem
  rw [toSyncRecordRow_readable (toSyncRecordRow_unreadable hnew)] at hnew
  cases hnew
  have hkey : (key.1, id) = key := Prod.ext rfl hid
  exact ⟨row, hkey ▸ hrow, rfl⟩

/-- Whether a push of the snapshot leaves everything as it is can be told from the rows. -/
theorem push_back_keeps_iff (cfg : Config) {user : UserRow} {vault : UserVaultKeyRow}
    {rows : List ((String × String) × SyncRecordRow)} (hu : s.user = some user)
    (hv : s.vault = some vault) (hrows : Lists rows s) :
    PushBackKeeps cfg rows (currentFence user vault) s ↔
      (listAllSyncRecordsTx rows).validate ≠ .ok () ∨
      (∃ key row, s.records key = some row ∧ ¬ row.Readable) ∨
      ∀ key row, s.records key = some row → row.updatedAt % 1000000 = 0 →
        ∀ t, row.deletedAt = some t → t % 1000000 = 0 := by
  cases hpush : applyPushRecords cfg (listAllSyncRecordsTx rows) (currentFence user vault) s with
  | mk result t =>
      rw [PushBackKeeps, hpush]
      cases result with
      | error e =>
          cases applyPushRecords_error hpush
          refine iff_of_true ⟨rfl, rfl⟩ ?_
          by_contra hall
          rw [not_or, not_or, not_not] at hall
          obtain ⟨hkinds, hreadable, -⟩ := hall
          obtain ⟨n, u, hok⟩ := applyPushRecords_total cfg hu hv hkinds
            fun kind _ record hmem => by
              obtain ⟨id, row, hrow, rfl⟩ := hrows.mem_get.mp hmem
              have hread : row.Readable := by_contra fun hnot => hreadable ⟨_, row, hrow, hnot⟩
              exact ⟨_, toSyncRecordRow_readable hread id⟩
          rw [hpush] at hok
          cases hok
      | ok n =>
          obtain ⟨user', _, total, v, hu', -, -, -, hupsert, ht⟩ := applyPushRecords_cases hpush
          cases hu.symm.trans hu'
          have hread : ∀ key row, s.records key = some row → row.Readable ∧
              (total = 0 → keepsCurrent (some row) row.cut) := by
            intro key row hrow
            have hmem : toSyncRecord key.2 row ∈ (listAllSyncRecordsTx rows).get key.1 :=
              hrows.mem_get.mpr ⟨key.2, row, hrow, rfl⟩
            obtain ⟨new, hnew, hkept⟩ := upsertKindsTx_reads hupsert key.1
              (Payload.mem_kinds_of_mem_get hmem) _ hmem
            have hreadable := toSyncRecordRow_unreadable hnew
            cases (toSyncRecordRow_readable hreadable key.2).symm.trans hnew
            refine ⟨hreadable, fun hzero => ?_⟩
            rw [← hrow]
            exact hkept hzero
          have hvalid := validate_of_applyPushRecords hpush
          have hwhole : ((listAllSyncRecordsTx rows).validate ≠ .ok () ∨
              (∃ key row, s.records key = some row ∧ ¬ row.Readable) ∨
              ∀ key row, s.records key = some row → row.updatedAt % 1000000 = 0 →
                ∀ t, row.deletedAt = some t → t % 1000000 = 0) ↔
              ∀ key row, s.records key = some row → keepsCurrent (some row) row.cut := by
            simp only [keepsCurrent_cut_iff, ne_eq, hvalid, not_true_eq_false, false_or]
            refine or_iff_right ?_
            rintro ⟨key, row, hrow, hnot⟩
            exact hnot (hread key row hrow).1
          rw [hwhole]
          rcases ht with ⟨hzero, rfl⟩ | ⟨hne, rfl⟩
          · have hsame : t = s := by
              rcases upsertKindsTx_counts hupsert with ⟨-, hsame⟩ | ⟨hne, -⟩
              · exact hsame
              · exact absurd hzero hne
            rw [hsame]
            exact iff_of_true ⟨rfl, rfl⟩ fun key row hrow => (hread key row hrow).2 hzero
          · refine iff_of_false ?_ ?_
            · simp [hu]
            · intro hkept
              rcases upsertKindsTx_counts hupsert with ⟨hzero, -⟩ | ⟨-, how⟩
              · exact hne hzero
              · obtain ⟨key, new, -, ⟨-, hnew⟩, hwritten, -⟩ := how
                obtain ⟨row, hrow, rfl⟩ := hrows.carries hnew
                rw [hrow, hkept key row hrow] at hwritten
                cases hwritten

def preciseTombstone : Payload :=
  ⟨[("hosts", [⟨"h1", "", "2024-05-02T00:00:00Z", some "2024-05-02T00:00:00.0005Z"⟩])], by simp⟩

def preciseRow : SyncRecordRow := ⟨"", 1714608000000000000, some 1714608000000500000⟩

def accountOf (row : SyncRecordRow) : Account :=
  ⟨some ⟨1, 1, 2⟩, some (vaultRowV2 sampleVault),
    Function.update (fun _ => none) ("hosts", "h1") (some row)⟩

theorem accountOf_lists (row : SyncRecordRow) : Lists [(("hosts", "h1"), row)] (accountOf row) where
  found key row' := by
    by_cases hkey : key = ("hosts", "h1")
    · simp [accountOf, hkey, eq_comm]
    · simp [accountOf, hkey]
  nodup := by simp
  sorted := List.pairwise_singleton _ _

/-- The row is what the store has made of a push, and comes back with another deletion time. -/
theorem push_back_raises_revision :
    (applyPushRecords sampleConfig preciseTombstone ⟨1, 2⟩ sampleAccount).2.records
        ("hosts", "h1") = some preciseRow ∧
      Lists [(("hosts", "h1"), preciseRow)] (accountOf preciseRow) ∧
      ¬ PushBackKeeps sampleConfig [(("hosts", "h1"), preciseRow)] ⟨1, 2⟩ (accountOf preciseRow) := by
  have hafter : ((applyPushRecords sampleConfig
      (listAllSyncRecordsTx [(("hosts", "h1"), preciseRow)]) ⟨1, 2⟩ (accountOf preciseRow)).2.user.map
        UserRow.syncRevision) = some 2 := by
    decide +kernel
  refine ⟨by decide +kernel, accountOf_lists preciseRow, fun hkeeps => ?_⟩
  have hsame := hkeeps.2
  rw [hafter] at hsame
  cases hsame

theorem push_back_keeps_hostRow :
    PushBackKeeps sampleConfig [(("hosts", "h1"), hostRow true)]
      (currentFence ⟨1, 1, 2⟩ (vaultRowV2 sampleVault)) (accountOf (hostRow true)) := by
  refine (push_back_keeps_iff sampleConfig rfl rfl (accountOf_lists _)).mpr (.inr (.inr ?_))
  intro key row hrow _ t ht
  obtain rfl : row = hostRow true := by
    have hmem := ((accountOf_lists _).found key row).mpr hrow
    simpa using (Prod.mk.inj (List.mem_singleton.mp hmem)).2
  cases ht
  decide

end Dolgate.VaultStore

/-! How the phone merges the records of one kind with the server's, and pushes what is new to it. -/

namespace Dolgate.PhoneMerge
open GoTime (parseRFC3339 formatMillis Printable parseRFC3339_formatMillis)
open VaultStore

structure Codec (T : Type) where
  idOf : T → String
  updatedAtOf : T → Option String
  encode : T → String
  decode : String → T
  decode_encode : ∀ record, decode (encode record) = record

structure RemoteCollection (T : Type) where
  live : List T
  tombstones : List (String × String)
deriving Repr

structure MergeResult (T : Type) where
  merged : List T
  unpushedIds : List String
deriving DecidableEq, Repr

/-- `Date.parse`, in milliseconds. -/
def dateParse (text : String) : Option Int := (parseRFC3339 text).map (· / 1000000)

def codeUnits (text : String) : List Nat :=
  text.toList.flatMap fun c =>
    if c.toNat < 0x10000 then [c.toNat]
    else [0xD800 + (c.toNat - 0x10000) / 0x400, 0xDC00 + (c.toNat - 0x10000) % 0x400]

def afterText (left right : String) : Bool :=
  match dateParse left, dateParse right with
  | some leftMs, some rightMs => rightMs < leftMs
  | _, _ => codeUnits right < codeUnits left

def isAfter (left right : Option String) : Bool :=
  if left.getD "" = "" then false
  else if right.getD "" = "" then true
  else afterText (left.getD "") (right.getD "")

variable {T : Type}

def localById (c : Codec T) (locals : List T) (id : String) : Option T :=
  locals.reverse.find? fun record => c.idOf record = id

def deletedAtById (remote : RemoteCollection T) (id : String) : Option String :=
  (remote.tombstones.reverse.find? fun entry => entry.1 = id).map Prod.snd

def localWinner (c : Codec T) (locals : List T) (remoteRecord : T) : Option T :=
  (localById c locals (c.idOf remoteRecord)).filter fun localRecord =>
    isAfter (c.updatedAtOf localRecord) (c.updatedAtOf remoteRecord)

def keptLocal (c : Codec T) (locals : List T) (remote : RemoteCollection T) : List T :=
  locals.filter fun localRecord =>
    let id := c.idOf localRecord
    let deletedAt := deletedAtById remote id
    !(remote.live.map c.idOf).contains id &&
      (deletedAt.getD "" = "" || isAfter (c.updatedAtOf localRecord) deletedAt)

def mergeSyncedRecords (c : Codec T) (locals : List T) (remote : RemoteCollection T) :
    MergeResult T where
  merged :=
    remote.live.map (fun remoteRecord => (localWinner c locals remoteRecord).getD remoteRecord) ++
      keptLocal c locals remote
  unpushedIds :=
    (remote.live.filter fun remoteRecord => (localWinner c locals remoteRecord).isSome).map c.idOf ++
      (keptLocal c locals remote).map c.idOf

/-- `decodeSyncRecords` and `decodeSyncTombstones`; a record is deleted if it says when. -/
def decodeSnapshot (c : Codec T) (records : List Record) : RemoteCollection T where
  live := (records.filter fun record => record.deletedAt.getD "" = "").map fun record =>
    c.decode record.encryptedPayload
  tombstones := (records.filter fun record => record.deletedAt.getD "" ≠ "").map fun record =>
    (record.id, record.deletedAt.getD "")

def mergeWith (c : Codec T) (kind : String) (locals : List T)
    (rows : List ((String × String) × SyncRecordRow)) : MergeResult T :=
  mergeSyncedRecords c locals (decodeSnapshot c ((listAllSyncRecordsTx rows).get kind))

def syncRecord (c : Codec T) (record : T) : Record where
  id := c.idOf record
  encryptedPayload := c.encode record
  updatedAt := (c.updatedAtOf record).getD ""
  deletedAt := none

def pushedRecords (c : Codec T) (result : MergeResult T) : List Record :=
  result.unpushedIds.filterMap fun id =>
    (result.merged.find? fun record => c.idOf record = id).map (syncRecord c)

end Dolgate.PhoneMerge
