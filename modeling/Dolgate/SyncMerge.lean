import Dolgate.LastWriter
import Dolgate.VaultFence

set_option autoImplicit false

namespace Dolgate.VaultStore
open LastWriter Transaction Transition

variable {cfg : Config} {s t u : Account} {fence : VaultPushFence}

theorem merges_update {records : String × String → Option SyncRecordRow} {key : String × String}
    {row : SyncRecordRow} (hk : keepsCurrent (records key) row = false) :
    Merges SyncRecordRow.updatedAt (fun k r => k = key ∧ r = row) records
      (Function.update records key (some row)) := by
  constructor
  · intro k r hr
    by_cases h : k = key
    · subst h
      rw [Function.update_self] at hr
      exact .inr ⟨rfl, (Option.some.inj hr).symm⟩
    · rw [Function.update_of_ne h] at hr
      exact .inl hr
  · intro k r hr
    by_cases h : k = key
    · subst h
      refine ⟨row, Function.update_self .., ?_⟩
      rcases hr with hr | ⟨-, rfl⟩
      · simp only [keepsCurrent, hr, Bool.or_eq_false_iff, decide_eq_false_iff_not] at hk
        exact Int.not_lt.mp hk.1
      · exact le_rfl
    · refine ⟨r, ?_, le_rfl⟩
      rw [Function.update_of_ne h]
      exact hr.resolve_right fun hr => h hr.1

theorem merges_keep {records : String × String → Option SyncRecordRow} {key : String × String}
    {row : SyncRecordRow} (hk : keepsCurrent (records key) row = true) :
    Merges SyncRecordRow.updatedAt (fun k r => k = key ∧ r = row) records records := by
  refine ⟨fun _ _ h => .inl h, fun k r hr => ?_⟩
  rcases hr with hr | ⟨rfl, rfl⟩
  · exact ⟨r, hr, le_rfl⟩
  · cases hc : records k with
    | none => simp [keepsCurrent, hc] at hk
    | some current =>
        refine ⟨current, rfl, ?_⟩
        simp only [keepsCurrent, hc, Bool.or_eq_true, decide_eq_true_eq, Bool.and_eq_true,
          beq_iff_eq] at hk
        rcases hk with hk | ⟨⟨hk, -⟩, -⟩
        · exact hk.le
        · exact hk.ge

theorem upsertSyncRecordTx_merges {kind : String} {record : Record} {n : Nat}
    (h : upsertSyncRecordTx kind record s = (.ok n, t)) :
    Merges SyncRecordRow.updatedAt
      (fun key row => key = (kind, record.id) ∧ toSyncRecordRow record = .ok row)
      s.records t.records := by
  unfold upsertSyncRecordTx at h
  cases hrow : toSyncRecordRow record with
  | error reason =>
      rw [hrow] at h
      exact (not_fail_ok h).elim
  | ok row =>
      rw [hrow] at h
      obtain ⟨current, v, hv, h⟩ := bind_ok.mp h
      obtain ⟨rfl, rfl⟩ := read_ok.mp hv
      have hnew : ∀ k r, k = (kind, record.id) ∧ r = row ↔
          k = (kind, record.id) ∧ (Except.ok row : Except BadRecord SyncRecordRow) = .ok r := by
        simp [eq_comm]
      split at h
      · rename_i hk
        obtain ⟨-, rfl⟩ := pure_ok.mp h
        exact (merges_keep hk).congr hnew
      · rename_i hk
        obtain ⟨_, v, hv, h⟩ := bind_ok.mp h
        obtain ⟨-, rfl⟩ := pure_ok.mp h
        have hv := write_ok.mp hv
        subst hv
        exact (merges_update (by simpa using hk)).congr hnew

theorem upsertSyncRecordsTx_merges {kind : String} {records : List Record} {n : Nat}
    (h : upsertSyncRecordsTx kind records s = (.ok n, t)) :
    Merges SyncRecordRow.updatedAt (fun key row => key.1 = kind ∧
      ∃ record ∈ records, record.id = key.2 ∧ toSyncRecordRow record = .ok row)
      s.records t.records := by
  induction records generalizing s n with
  | nil =>
      obtain ⟨-, rfl⟩ := pure_ok.mp h
      exact .refl (by simp)
  | cons record rest ih =>
      obtain ⟨written, v, hv, h⟩ := bind_ok.mp h
      obtain ⟨more, w, hw, h⟩ := bind_ok.mp h
      obtain ⟨-, rfl⟩ := pure_ok.mp h
      refine ((upsertSyncRecordTx_merges hv).trans (ih hw)).congr fun key row => ?_
      constructor
      · rintro (⟨rfl, hrow⟩ | ⟨hk, r, hr, hid, hrow⟩)
        · exact ⟨rfl, record, List.mem_cons_self, rfl, hrow⟩
        · exact ⟨hk, r, List.mem_cons_of_mem record hr, hid, hrow⟩
      · rintro ⟨hk, r, hr, hid, hrow⟩
        rcases List.mem_cons.mp hr with rfl | hr
        · exact .inl ⟨Prod.ext hk hid.symm, hrow⟩
        · exact .inr ⟨hk, r, hr, hid, hrow⟩

theorem upsertKindsTx_merges {payload : Payload} {kinds : List String} {n : Nat}
    (h : upsertKindsTx payload kinds s = (.ok n, t)) :
    Merges SyncRecordRow.updatedAt (fun key row => key.1 ∈ kinds ∧ payload.Carries key row)
      s.records t.records := by
  induction kinds generalizing s n with
  | nil =>
      obtain ⟨-, rfl⟩ := pure_ok.mp h
      exact .refl (by simp)
  | cons kind rest ih =>
      obtain ⟨written, v, hv, h⟩ := bind_ok.mp h
      obtain ⟨more, w, hw, h⟩ := bind_ok.mp h
      obtain ⟨-, rfl⟩ := pure_ok.mp h
      refine ((upsertSyncRecordsTx_merges hv).trans (ih hw)).congr fun key row => ?_
      constructor
      · rintro (⟨rfl, hrow⟩ | ⟨hk, hrow⟩)
        · exact ⟨List.mem_cons_self, hrow⟩
        · exact ⟨List.mem_cons_of_mem kind hk, hrow⟩
      · rintro ⟨hk, hrow⟩
        rcases List.mem_cons.mp hk with rfl | hk
        · exact .inl ⟨rfl, hrow⟩
        · exact .inr ⟨hk, hrow⟩

theorem Payload.mem_kinds_of_mem_get {p : Payload} {kind : String} {record : Record}
    (h : record ∈ p.get kind) : kind ∈ p.kinds := by
  unfold Payload.get at h
  cases hl : p.entries.lookup kind with
  | none => simp [hl] at h
  | some records =>
      obtain ⟨l₁, l₂, hl, -⟩ := List.lookup_eq_some_iff.mp hl
      simp [Payload.kinds, List.mem_insertionSort, hl]

theorem Payload.Carries.mem_kinds {p : Payload} {key : String × String} {row : SyncRecordRow}
    (h : p.Carries key row) : key.1 ∈ p.kinds := by
  obtain ⟨record, hr, -⟩ := h
  exact mem_kinds_of_mem_get hr

theorem applyPushRecords_merges {payload : Payload} {n : Int}
    (h : applyPushRecords cfg payload fence s = (.ok n, t)) :
    Merges SyncRecordRow.updatedAt payload.Carries s.records t.records := by
  obtain ⟨user, row, total, v, -, -, -, -, hv, ht⟩ := applyPushRecords_cases h
  have hm := (upsertKindsTx_merges hv).congr fun key row =>
    ⟨fun h => h.2, fun h => ⟨h.mem_kinds, h⟩⟩
  rcases ht with ⟨-, rfl⟩ | ⟨-, rfl⟩
  · exact hm
  · exact hm

def applied (cfg : Config) (fence : VaultPushFence) (s : Account) (payload : Payload) :
    Option Account :=
  match applyPushRecords cfg payload fence s with
  | (.ok _, t) => some t
  | (.error _, _) => none

theorem applied_eq_some {payload : Payload} (h : applied cfg fence s payload = some t) :
    ∃ n, applyPushRecords cfg payload fence s = (.ok n, t) := by
  unfold applied at h
  split at h
  · rename_i n _ hp
    cases h
    exact ⟨n, hp⟩
  · cases h

def Version (s : Account) (payloads : List Payload) (key : String × String)
    (row : SyncRecordRow) : Prop :=
  s.records key = some row ∨ ∃ p ∈ payloads, p.Carries key row

theorem run_merges {payloads : List Payload}
    (h : run (applied cfg fence) s payloads = some t) :
    Merges SyncRecordRow.updatedAt (fun key row => ∃ p ∈ payloads, p.Carries key row)
      s.records t.records := by
  induction payloads generalizing s with
  | nil =>
      cases h
      exact .refl (by simp)
  | cons payload payloads ih =>
      obtain ⟨v, hv, h⟩ := run_cons.mp h
      obtain ⟨n, hv⟩ := applied_eq_some hv
      refine ((applyPushRecords_merges hv).trans (ih h)).congr fun key row => ?_
      simp

theorem run_latest {payloads : List Payload} (h : run (applied cfg fence) s payloads = some t) :
    Latest SyncRecordRow.updatedAt (Version s payloads) t.records :=
  (run_merges h).latest

theorem push_again {versions : String × String → SyncRecordRow → Prop} {payload : Payload}
    (hd : Distinct SyncRecordRow.updatedAt versions)
    (ht : Latest SyncRecordRow.updatedAt versions t.records)
    (hp : ∀ key row, payload.Carries key row → versions key row) :
    (applyPushRecords cfg payload fence t).2.records = t.records := by
  cases h : applyPushRecords cfg payload fence t with
  | mk result u =>
      cases result with
      | ok n => exact ht.merges hd (applyPushRecords_merges h) hp
      | error e => rw [applyPushRecords_error h]

theorem merge_order_independent (payloads : List Payload)
    (hd : Distinct SyncRecordRow.updatedAt (Version s payloads))
    (ht : run (applied cfg fence) s payloads = some t) :
    Latest SyncRecordRow.updatedAt (Version s payloads) t.records ∧
      (∀ others u, (∀ key row, (∃ p ∈ others, p.Carries key row) ↔
          ∃ p ∈ payloads, p.Carries key row) →
        run (applied cfg fence) s others = some u → u.records = t.records) ∧
      (∀ p ∈ payloads, (applyPushRecords cfg p fence t).2.records = t.records) ∧
      ∀ before after u key row, payloads = before ++ after →
        run (applied cfg fence) s before = some u → u.records key = some row →
          ∃ row', t.records key = some row' ∧ row.updatedAt ≤ row'.updatedAt := by
  have hlatest := run_latest ht
  refine ⟨hlatest, ?_, ?_, ?_⟩
  · intro others u hsame hu
    have heq : Version s others = Version s payloads := by
      funext key row
      simp only [Version, hsame key row]
    exact Latest.unique hd (heq ▸ run_latest hu) hlatest
  · intro p hp
    exact push_again hd hlatest fun key row hc => .inr ⟨p, hp, hc⟩
  · rintro before after u key row rfl hu hrow
    obtain ⟨v, hv, hafter⟩ := run_append.mp ht
    cases hu.symm.trans hv
    exact (run_merges hafter).raised key row (.inl hrow)

def sampleAccount : Account := ⟨some ⟨0, 1, 2⟩, some (vaultRowV2 sampleVault), fun _ => none⟩

def hostRecord (deleted : Bool) : Record :=
  if deleted then ⟨"h1", "", "2024-05-02T00:00:00Z", some "2024-05-02T00:00:00Z"⟩
  else ⟨"h1", "cGF5bG9hZA==", "2024-05-01T00:00:00Z", none⟩

def hostPush (deleted : Bool) : Payload := ⟨[("hosts", [hostRecord deleted])], by simp⟩

def hostRow (deleted : Bool) : SyncRecordRow :=
  if deleted then ⟨"", 1714608000000000000, some 1714608000000000000⟩
  else ⟨"cGF5bG9hZA==", 1714521600000000000, none⟩

theorem hostPush_carries {deleted : Bool} {key : String × String} {row : SyncRecordRow}
    (h : (hostPush deleted).Carries key row) : row = hostRow deleted := by
  obtain ⟨record, hr, -, hrow⟩ := h
  have hrecord : record = hostRecord deleted := by
    unfold Payload.get at hr
    by_cases hk : key.1 = "hosts"
    · simpa [hostPush, hk] using hr
    · have hne : (key.1 == "hosts") = false := by simpa using hk
      simp [hostPush, List.lookup_cons, hne] at hr
  have hrows : ∀ deleted, toSyncRecordRow (hostRecord deleted) = .ok (hostRow deleted) := by
    decide +kernel
  rw [hrecord, hrows deleted] at hrow
  exact (Except.ok.inj hrow).symm

theorem merge_order_independent_hostPush :
    ∃ t u, run (applied sampleConfig ⟨1, 2⟩) sampleAccount [hostPush true, hostPush false] = some t ∧
      run (applied sampleConfig ⟨1, 2⟩) sampleAccount [hostPush false, hostPush true] = some u ∧
      t.records ("hosts", "h1") = some (hostRow true) ∧ u.records = t.records := by
  have hrun : ∀ first, (run (applied sampleConfig ⟨1, 2⟩) sampleAccount
      [hostPush first, hostPush (!first)]).map (fun s => s.records ("hosts", "h1")) =
        some (some (hostRow true)) := by
    decide +kernel
  obtain ⟨t, ht, hrow⟩ := Option.map_eq_some_iff.mp (hrun true)
  obtain ⟨u, hu, -⟩ := Option.map_eq_some_iff.mp (hrun false)
  refine ⟨t, u, ht, hu, hrow, (merge_order_independent [hostPush true, hostPush false] ?_ ht).2.1
    _ u ?_ hu⟩
  · have hver : ∀ key row, Version sampleAccount [hostPush true, hostPush false] key row →
        ∃ deleted, row = hostRow deleted := by
      rintro key row (h | ⟨p, hp, h⟩)
      · cases h
      · simp only [List.mem_cons, List.not_mem_nil, or_false] at hp
        rcases hp with rfl | rfl
        · exact ⟨true, hostPush_carries h⟩
        · exact ⟨false, hostPush_carries h⟩
    intro key row row' hv hv' heq
    obtain ⟨a, rfl⟩ := hver key row hv
    obtain ⟨b, rfl⟩ := hver key row' hv'
    cases a <;> cases b
    · rfl
    · exact absurd heq (by decide)
    · exact absurd heq (by decide)
    · rfl
  · intro key row
    simp [or_comm]

end Dolgate.VaultStore
