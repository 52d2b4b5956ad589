import Dolgate.PhoneMerge

set_option autoImplicit false

/-! When a merge, a push and another merge leave the phone and the server with the same records. -/

namespace Dolgate.PhoneMerge
open GoTime (parseRFC3339 formatMillis Printable parseRFC3339_formatMillis)
open VaultStore Transaction

variable {T : Type} {c : Codec T} {kind : String} {locals : List T} {s t : Account}
  {rows : List ((String × String) × SyncRecordRow)} {record : T} {row : SyncRecordRow}

structure Exact (t : Int) : Prop where
  printable : Printable t
  whole : t % 1000000 = 0

def time (c : Codec T) (record : T) : Int :=
  (parseRFC3339 ((c.updatedAtOf record).getD "")).getD 0

structure Timed (c : Codec T) (record : T) : Prop where
  text : c.updatedAtOf record = some (formatMillis (time c record))
  exact : Exact (time c record)

/-- The time of a stored row, as the phone sees it: of the deletion, or of the record in it. -/
def shownTime (c : Codec T) (row : SyncRecordRow) : Int :=
  row.deletedAt.getD (time c (c.decode row.encryptedPayload))

structure Collections (c : Codec T) (kind : String) (locals : List T) (s : Account) : Prop where
  distinct : (locals.map c.idOf).Nodup
  timed : ∀ record ∈ locals, Timed c record
  stored : ∀ id row, s.records (kind, id) = some row → Exact row.updatedAt
  deleted : ∀ id row deletedAt, s.records (kind, id) = some row →
    row.deletedAt = some deletedAt → Exact deletedAt
  live : ∀ id row, s.records (kind, id) = some row → row.deletedAt = none →
    c.idOf (c.decode row.encryptedPayload) = id ∧ Timed c (c.decode row.encryptedPayload)

theorem Exact.lt_iff {a b : Int} (ha : Exact a) (hb : Exact b) :
    a / 1000000 < b / 1000000 ↔ a < b := by
  have hwhole := ha.whole
  have hwhole' := hb.whole
  omega

theorem isAfter_exact {a b : Int} (ha : Exact a) (hb : Exact b) :
    isAfter (some (formatMillis a)) (some (formatMillis b)) = decide (b < a) := by
  simp [isAfter, afterText, formatMillis_ne_empty, dateParse,
    parseRFC3339_formatMillis ha.printable, parseRFC3339_formatMillis hb.printable,
    hb.lt_iff ha]

theorem isAfter_timed {l r : T} (hl : Timed c l) (hr : Timed c r) :
    isAfter (c.updatedAtOf l) (c.updatedAtOf r) = decide (time c r < time c l) := by
  rw [hl.text, hr.text, isAfter_exact hl.exact hr.exact]

/-! The snapshot, as the phone decodes it. -/

theorem get_foldl (rows : List ((String × String) × SyncRecordRow)) (p : Payload) :
    (rows.foldl (fun payload e => payload.append e.1.1 (toSyncRecord e.1.2 e.2)) p).get kind =
      p.get kind ++ (rows.filter fun e => e.1.1 = kind).map fun e => toSyncRecord e.1.2 e.2 := by
  induction rows generalizing p with
  | nil => simp
  | cons e rest ih =>
    rw [List.foldl_cons, ih, Payload.get_append]
    by_cases h : kind = e.1.1
    · simp [h]
    · have hne : ¬ e.1.1 = kind := fun heq => h heq.symm
      simp [h, hne]

theorem get_ids_nodup (hrows : Lists rows s) (kind : String) :
    (((listAllSyncRecordsTx rows).get kind).map Record.id).Nodup := by
  have hempty : (⟨[], List.nodup_nil⟩ : Payload).get kind = [] := rfl
  rw [listAllSyncRecordsTx, get_foldl, hempty, List.nil_append, List.map_map]
  have hkeys : ((rows.filter fun e => e.1.1 = kind).map Prod.fst).Nodup :=
    hrows.nodup.sublist (List.filter_sublist.map Prod.fst)
  have hids : ((rows.filter fun e => e.1.1 = kind).map (Record.id ∘ fun e =>
      toSyncRecord e.1.2 e.2)) = ((rows.filter fun e => e.1.1 = kind).map Prod.fst).map Prod.snd := by
    rw [List.map_map]
    rfl
  rw [hids]
  refine hkeys.map_on ?_
  intro key hkey key' hkey' hsnd
  obtain ⟨e, he, rfl⟩ := List.mem_map.mp hkey
  obtain ⟨e', he', rfl⟩ := List.mem_map.mp hkey'
  have hkind := (List.mem_filter.mp he).2
  have hkind' := (List.mem_filter.mp he').2
  rw [decide_eq_true_eq] at hkind hkind'
  exact Prod.ext (hkind.trans hkind'.symm) hsnd

def remoteOf (c : Codec T) (kind : String) (rows : List ((String × String) × SyncRecordRow)) :
    RemoteCollection T := decodeSnapshot c ((listAllSyncRecordsTx rows).get kind)

theorem mem_live (hrows : Lists rows s) : record ∈ (remoteOf c kind rows).live ↔
    ∃ id row, s.records (kind, id) = some row ∧ row.deletedAt = none ∧
      c.decode row.encryptedPayload = record := by
  simp only [remoteOf, decodeSnapshot, List.mem_map, List.mem_filter, decide_eq_true_eq]
  constructor
  · rintro ⟨r, ⟨hmem, hlive⟩, rfl⟩
    obtain ⟨id, row, hrow, rfl⟩ := hrows.mem_get.mp hmem
    refine ⟨id, row, hrow, ?_, rfl⟩
    cases hdeleted : row.deletedAt with
    | none => rfl
    | some d => simp [toSyncRecord, hdeleted, formatMillis_ne_empty] at hlive
  · rintro ⟨id, row, hrow, hlive, rfl⟩
    refine ⟨toSyncRecord id row, ⟨hrows.mem_get.mpr ⟨id, row, hrow, rfl⟩, ?_⟩, rfl⟩
    simp [toSyncRecord, hlive]

theorem mem_tombstones (hrows : Lists rows s) {id text : String} :
    (id, text) ∈ (remoteOf c kind rows).tombstones ↔
      ∃ row d, s.records (kind, id) = some row ∧ row.deletedAt = some d ∧
        formatMillis d = text := by
  simp only [remoteOf, decodeSnapshot, List.mem_map, List.mem_filter, decide_eq_true_eq,
    Prod.mk.injEq]
  constructor
  · rintro ⟨r, ⟨hmem, hdeleted⟩, rfl, rfl⟩
    obtain ⟨id, row, hrow, rfl⟩ := hrows.mem_get.mp hmem
    cases hd : row.deletedAt with
    | none => simp [toSyncRecord, hd] at hdeleted
    | some d => exact ⟨row, d, hrow, hd, by simp [toSyncRecord, hd]⟩
  · rintro ⟨row, d, hrow, hd, rfl⟩
    refine ⟨toSyncRecord id row, ⟨hrows.mem_get.mpr ⟨id, row, hrow, rfl⟩, ?_⟩, rfl, ?_⟩
    · simp [toSyncRecord, hd, formatMillis_ne_empty]
    · simp [toSyncRecord, hd]

theorem deletedAtById_rows (hrows : Lists rows s) (id : String) :
    deletedAtById (remoteOf c kind rows) id =
      ((s.records (kind, id)).bind SyncRecordRow.deletedAt).map formatMillis := by
  unfold deletedAtById
  cases hfind : (remoteOf c kind rows).tombstones.reverse.find? fun entry => entry.1 = id with
  | none =>
    rw [List.find?_eq_none] at hfind
    cases hrow : s.records (kind, id) with
    | none => rfl
    | some row =>
      cases hd : row.deletedAt with
      | none => simp [hd]
      | some d =>
        have hmem := (mem_tombstones (c := c) hrows).mpr ⟨row, d, hrow, hd, rfl⟩
        exact absurd (decide_eq_true rfl) (hfind _ (List.mem_reverse.mpr hmem))
  | some entry =>
    obtain ⟨id', text⟩ := entry
    obtain rfl : id' = id := by simpa using List.find?_some hfind
    obtain ⟨row, d, hrow, hd, rfl⟩ :=
      (mem_tombstones hrows).mp (List.mem_reverse.mp (List.mem_of_find?_eq_some hfind))
    simp [hrow, hd]

theorem find_unique {l : List T} (hl : (l.map c.idOf).Nodup) {id : String} :
    l.find? (fun r => c.idOf r = id) = some record ↔ record ∈ l ∧ c.idOf record = id := by
  constructor
  · intro h
    exact ⟨List.mem_of_find?_eq_some h, by simpa using List.find?_some h⟩
  · rintro ⟨hmem, hid⟩
    cases hfind : l.find? fun r => c.idOf r = id with
    | none =>
      rw [List.find?_eq_none] at hfind
      simpa [hid] using hfind record hmem
    | some r =>
      have hr : c.idOf r = id := by simpa using List.find?_some hfind
      have hsame := List.inj_on_of_nodup_map hl (List.mem_of_find?_eq_some hfind) hmem
        (hr.trans hid.symm)
      rw [hsame]

theorem localById_eq_some (hlocals : (locals.map c.idOf).Nodup) {id : String} :
    localById c locals id = some record ↔ record ∈ locals ∧ c.idOf record = id := by
  have hreverse : (locals.reverse.map c.idOf).Nodup := by
    rwa [List.map_reverse, List.nodup_reverse]
  rw [localById, find_unique hreverse, List.mem_reverse]

/-! What a merge has, id by id. -/

def Wins (c : Codec T) (kind : String) (locals : List T) (s : Account) (record : T) : Prop :=
  record ∈ locals ∧ ∀ row, s.records (kind, c.idOf record) = some row →
    shownTime c row < time c record

def Taken (c : Codec T) (kind : String) (locals : List T) (s : Account) (record : T) : Prop :=
  ∃ row, s.records (kind, c.idOf record) = some row ∧ row.deletedAt = none ∧
    c.decode row.encryptedPayload = record ∧
    ∀ l ∈ locals, c.idOf l = c.idOf record → time c l ≤ shownTime c row

theorem shownTime_live (h : row.deletedAt = none) :
    shownTime c row = time c (c.decode row.encryptedPayload) := by
  rw [shownTime, h, Option.getD_none]

theorem shownTime_deleted {d : Int} (h : row.deletedAt = some d) : shownTime c row = d := by
  rw [shownTime, h, Option.getD_some]

theorem localWinner_eq_some (h : Collections c kind locals s) {id : String} {l : T} (hrow : s.records (kind, id) = some row)
    (hlive : row.deletedAt = none) :
    localWinner c locals (c.decode row.encryptedPayload) = some l ↔
      c.idOf l = id ∧ Wins c kind locals s l := by
  obtain ⟨hid, htimed⟩ := h.live id row hrow hlive
  rw [localWinner, Option.filter_eq_some_iff, hid, localById_eq_some h.distinct]
  constructor
  · rintro ⟨⟨hmem, hl⟩, hafter⟩
    rw [isAfter_timed (h.timed l hmem) htimed, decide_eq_true_eq] at hafter
    refine ⟨hl, hmem, fun row' hrow' => ?_⟩
    rw [hl, hrow] at hrow'
    obtain rfl := Option.some.inj hrow'
    rwa [shownTime_live hlive]
  · rintro ⟨hl, hmem, hlater⟩
    refine ⟨⟨hmem, hl⟩, ?_⟩
    have hafter := hlater row (by rw [hl, hrow])
    rw [shownTime_live hlive] at hafter
    rw [isAfter_timed (h.timed l hmem) htimed, decide_eq_true_eq]
    exact hafter

theorem mem_live_ids (hrows : Lists rows s) (h : Collections c kind locals s) (id : String) :
    id ∈ (remoteOf c kind rows).live.map c.idOf ↔
      ∃ row, s.records (kind, id) = some row ∧ row.deletedAt = none := by
  rw [List.mem_map]
  constructor
  · rintro ⟨r, hr, rfl⟩
    obtain ⟨id, row, hrow, hlive, rfl⟩ := (mem_live hrows).mp hr
    rw [(h.live id row hrow hlive).1]
    exact ⟨row, hrow, hlive⟩
  · rintro ⟨row, hrow, hlive⟩
    exact ⟨_, (mem_live hrows).mpr ⟨id, row, hrow, hlive, rfl⟩, (h.live id row hrow hlive).1⟩

theorem mem_keptLocal (hrows : Lists rows s) (h : Collections c kind locals s) :
    record ∈ keptLocal c locals (remoteOf c kind rows) ↔
      Wins c kind locals s record ∧
        ∀ row, s.records (kind, c.idOf record) = some row → row.deletedAt ≠ none := by
  have hids := mem_live_ids hrows h (c.idOf record)
  have hcontains : (!((remoteOf c kind rows).live.map c.idOf).contains (c.idOf record)) = true ↔
      ∀ row, s.records (kind, c.idOf record) = some row → row.deletedAt ≠ none := by
    rw [Bool.not_eq_true', List.contains_eq_mem, decide_eq_false_iff_not, hids]
    simp
  rw [keptLocal, List.mem_filter, Bool.and_eq_true, hcontains, deletedAtById_rows hrows]
  constructor
  · rintro ⟨hmem, hlive, hdeleted⟩
    refine ⟨⟨hmem, fun row hrow => ?_⟩, hlive⟩
    obtain ⟨d, hd⟩ := Option.ne_none_iff_exists'.mp (hlive row hrow)
    have hexact := h.deleted _ row d hrow hd
    have htimed := h.timed record hmem
    simpa [hrow, hd, formatMillis_ne_empty, htimed.text, isAfter_exact htimed.exact hexact,
      shownTime] using hdeleted
  · rintro ⟨⟨hmem, hlater⟩, hlive⟩
    refine ⟨hmem, hlive, ?_⟩
    cases hrow : s.records (kind, c.idOf record) with
    | none => simp
    | some row =>
      obtain ⟨d, hd⟩ := Option.ne_none_iff_exists'.mp (hlive row hrow)
      have hexact := h.deleted _ row d hrow hd
      have htimed := h.timed record hmem
      have hafter := hlater row hrow
      rw [shownTime_deleted hd] at hafter
      simp [hd, htimed.text, isAfter_exact htimed.exact hexact, hafter]

theorem mem_merged (hrows : Lists rows s) (h : Collections c kind locals s) :
    record ∈ (mergeWith c kind locals rows).merged ↔
      Wins c kind locals s record ∨ Taken c kind locals s record := by
  change record ∈ _ ++ keptLocal c locals (remoteOf c kind rows) ↔ _
  rw [List.mem_append, mem_keptLocal hrows h, List.mem_map]
  constructor
  · rintro (⟨r, hr, hpicked⟩ | hkept)
    · obtain ⟨id, row, hrow, hlive, rfl⟩ := (mem_live hrows).mp hr
      have hid := (h.live id row hrow hlive).1
      cases hwinner : localWinner c locals (c.decode row.encryptedPayload) with
      | some l =>
        rw [hwinner, Option.getD_some] at hpicked
        rw [← hpicked]
        exact .inl ((localWinner_eq_some h hrow hlive).mp hwinner).2
      | none =>
        rw [hwinner, Option.getD_none] at hpicked
        rw [← hpicked]
        refine .inr ⟨row, by rw [hid, hrow], hlive, rfl, fun l hl hsame => ?_⟩
        rw [hid] at hsame
        by_contra hlater
        have hwins := (localWinner_eq_some h hrow hlive).mpr ⟨hsame, hl, fun row' hrow' => by
          rw [hsame, hrow] at hrow'
          rw [← Option.some.inj hrow']
          exact not_le.mp hlater⟩
        rw [hwinner] at hwins
        cases hwins
    · exact .inl hkept.1
  · rintro (hwins | ⟨row, hrow, hlive, hdecode, hnewest⟩)
    · by_cases hall : ∀ row, s.records (kind, c.idOf record) = some row → row.deletedAt ≠ none
      · exact .inr ⟨hwins, hall⟩
      · push Not at hall
        obtain ⟨row, hrow, hlive⟩ := hall
        refine .inl ⟨_, (mem_live hrows).mpr ⟨_, row, hrow, hlive, rfl⟩, ?_⟩
        rw [(localWinner_eq_some h hrow hlive).mpr ⟨rfl, hwins⟩, Option.getD_some]
    · refine .inl ⟨_, (mem_live hrows).mpr ⟨_, row, hrow, hlive, rfl⟩, ?_⟩
      cases hwinner : localWinner c locals (c.decode row.encryptedPayload) with
      | some l =>
        obtain ⟨hl, hwins⟩ := (localWinner_eq_some h hrow hlive).mp hwinner
        have hlater := hwins.2 row (by rw [hl, hrow])
        exact absurd (hnewest l hwins.1 hl) (not_le.mpr hlater)
      | none => rw [Option.getD_none, hdecode]

theorem mem_unpushedIds (hrows : Lists rows s) (h : Collections c kind locals s) {id : String} :
    id ∈ (mergeWith c kind locals rows).unpushedIds ↔
      ∃ r, Wins c kind locals s r ∧ c.idOf r = id := by
  change id ∈ _ ++ (keptLocal c locals (remoteOf c kind rows)).map c.idOf ↔ _
  rw [List.mem_append, List.mem_map, List.mem_map]
  constructor
  · rintro (⟨r, hr, rfl⟩ | ⟨r, hr, rfl⟩)
    · obtain ⟨hmem, hsome⟩ := List.mem_filter.mp hr
      obtain ⟨id, row, hrow, hlive, rfl⟩ := (mem_live hrows).mp hmem
      obtain ⟨l, hl⟩ := Option.isSome_iff_exists.mp hsome
      obtain ⟨hid, hwins⟩ := (localWinner_eq_some h hrow hlive).mp hl
      exact ⟨l, hwins, by rw [hid, (h.live id row hrow hlive).1]⟩
    · exact ⟨r, ((mem_keptLocal hrows h).mp hr).1, rfl⟩
  · rintro ⟨r, hwins, rfl⟩
    by_cases hall : ∀ row, s.records (kind, c.idOf r) = some row → row.deletedAt ≠ none
    · exact .inr ⟨r, (mem_keptLocal hrows h).mpr ⟨hwins, hall⟩, rfl⟩
    · push Not at hall
      obtain ⟨row, hrow, hlive⟩ := hall
      refine .inl ⟨c.decode row.encryptedPayload, List.mem_filter.mpr
        ⟨(mem_live hrows).mpr ⟨_, row, hrow, hlive, rfl⟩, ?_⟩, (h.live _ row hrow hlive).1⟩
      rw [(localWinner_eq_some h hrow hlive).mpr ⟨rfl, hwins⟩, Option.isSome_some]

theorem live_ids_nodup (hrows : Lists rows s) (h : Collections c kind locals s) :
    ((remoteOf c kind rows).live.map c.idOf).Nodup := by
  have hids : (remoteOf c kind rows).live.map c.idOf =
      (((listAllSyncRecordsTx rows).get kind).filter fun r => r.deletedAt.getD "" = "").map
        Record.id := by
    rw [remoteOf, decodeSnapshot, List.map_map]
    refine List.map_congr_left fun r hr => ?_
    obtain ⟨hmem, hlive⟩ := List.mem_filter.mp hr
    obtain ⟨id, row, hrow, rfl⟩ := hrows.mem_get.mp hmem
    have hnone : row.deletedAt = none := by
      cases hd : row.deletedAt with
      | none => rfl
      | some d => simp [toSyncRecord, hd, formatMillis_ne_empty] at hlive
    exact (h.live id row hrow hnone).1
  rw [hids]
  exact (get_ids_nodup hrows kind).sublist (List.filter_sublist.map Record.id)

theorem localWinner_id {remoteRecord : T} {l : T}
    (h : localWinner c locals remoteRecord = some l) : c.idOf l = c.idOf remoteRecord := by
  rw [localWinner, Option.filter_eq_some_iff] at h
  simpa using List.find?_some h.1

theorem kept_ids_disjoint {remote : RemoteCollection T} :
    ∀ id ∈ remote.live.map c.idOf, ∀ id' ∈ (keptLocal c locals remote).map c.idOf, id ≠ id' := by
  rintro id hid id' hid' rfl
  obtain ⟨r, hr, rfl⟩ := List.mem_map.mp hid'
  rw [keptLocal, List.mem_filter, Bool.and_eq_true] at hr
  have hnot := hr.2.1
  simp only [Bool.not_eq_true', List.contains_eq_mem, decide_eq_false_iff_not] at hnot
  exact hnot hid

theorem merged_ids_nodup (hrows : Lists rows s) (h : Collections c kind locals s) :
    ((mergeWith c kind locals rows).merged.map c.idOf).Nodup := by
  have hids : (mergeWith c kind locals rows).merged.map c.idOf =
      (remoteOf c kind rows).live.map c.idOf ++
        (keptLocal c locals (remoteOf c kind rows)).map c.idOf := by
    change (List.map _ (remoteOf c kind rows).live ++ _).map c.idOf = _
    rw [List.map_append, List.map_map]
    congr 1
    refine List.map_congr_left fun r _ => ?_
    rw [Function.comp_apply]
    cases hwinner : localWinner c locals r with
    | some l => exact localWinner_id hwinner
    | none => rfl
  rw [hids, List.nodup_append]
  exact ⟨live_ids_nodup hrows h, h.distinct.sublist (List.filter_sublist.map c.idOf),
    kept_ids_disjoint⟩

theorem unpushedIds_nodup (hrows : Lists rows s) (h : Collections c kind locals s) :
    (mergeWith c kind locals rows).unpushedIds.Nodup := by
  change (_ ++ (keptLocal c locals (remoteOf c kind rows)).map c.idOf).Nodup
  rw [List.nodup_append]
  have hsublist := (List.filter_sublist (l := (remoteOf c kind rows).live)
    (p := fun r => (localWinner c locals r).isSome)).map c.idOf
  exact ⟨(live_ids_nodup hrows h).sublist hsublist,
    h.distinct.sublist (List.filter_sublist.map c.idOf),
    fun id hid => kept_ids_disjoint id (hsublist.mem hid)⟩

/-! The push -/

def rowOf (c : Codec T) (record : T) : SyncRecordRow := ⟨c.encode record, time c record, none⟩

theorem toSyncRecordRow_syncRecord (h : Timed c record) :
    toSyncRecordRow (syncRecord c record) = .ok (rowOf c record) := by
  have hparse := parseRFC3339_formatMillis h.exact.printable
  have hwhole : time c record / 1000000 * 1000000 = time c record := by
    have := h.exact.whole
    omega
  rw [hwhole] at hparse
  simp [toSyncRecordRow, syncRecord, h.text, hparse, rowOf]

theorem mem_pushedRecords (hrows : Lists rows s) (h : Collections c kind locals s) {r : Record} :
    r ∈ pushedRecords c (mergeWith c kind locals rows) ↔
      ∃ record, Wins c kind locals s record ∧ syncRecord c record = r := by
  simp only [pushedRecords, List.mem_filterMap, Option.map_eq_some_iff,
    find_unique (merged_ids_nodup hrows h), mem_merged hrows h, mem_unpushedIds hrows h]
  constructor
  · rintro ⟨id, ⟨l, hl, rfl⟩, record, ⟨hmerged, hid⟩, rfl⟩
    refine ⟨record, ?_, rfl⟩
    rcases hmerged with hwins | ⟨row, hrow, hlive, hdecode, hnewest⟩
    · exact hwins
    · have hlater := hl.2 row (by rw [← hid, hrow])
      exact absurd (hnewest l hl.1 hid.symm) (not_le.mpr hlater)
  · rintro ⟨record, hwins, rfl⟩
    exact ⟨c.idOf record, ⟨record, hwins, rfl⟩, record, ⟨.inl hwins, rfl⟩, rfl⟩

theorem pushed_ids_nodup (hrows : Lists rows s) (h : Collections c kind locals s) :
    ((pushedRecords c (mergeWith c kind locals rows)).map Record.id).Nodup := by
  refine (unpushedIds_nodup hrows h).sublist ?_
  have hids : ∀ ids : List String, ((ids.filterMap fun id =>
      ((mergeWith c kind locals rows).merged.find? fun r => c.idOf r = id).map
        (syncRecord c)).map Record.id).Sublist ids := by
    intro ids
    induction ids with
    | nil => exact List.Sublist.refl []
    | cons id ids ih =>
      rw [List.filterMap_cons]
      cases hfind : (mergeWith c kind locals rows).merged.find? fun r => c.idOf r = id with
      | none => exact ih.cons id
      | some r =>
        have hid : c.idOf r = id := by simpa using List.find?_some hfind
        rw [Option.map_some, List.map_cons]
        change (c.idOf r :: _).Sublist _
        rw [hid]
        exact ih.cons_cons id
  exact hids _

theorem upsertSyncRecordTx_row {r : Record} {n : Nat} (hrow : toSyncRecordRow r = .ok row)
    (h : upsertSyncRecordTx kind r s = (.ok n, t)) (key : String × String) :
    t.records key = if key = (kind, r.id) ∧ keepsCurrent (s.records key) row = false then some row
      else s.records key := by
  unfold upsertSyncRecordTx at h
  rw [hrow] at h
  obtain ⟨current, v, hv, h⟩ := bind_ok.mp h
  obtain ⟨rfl, rfl⟩ := read_ok.mp hv
  split at h
  · next hkeeps =>
    obtain ⟨-, rfl⟩ := pure_ok.mp h
    rw [if_neg]
    rintro ⟨rfl, hnot⟩
    rw [hkeeps] at hnot
    cases hnot
  · next hkeeps =>
    obtain ⟨_, v, hv, h⟩ := bind_ok.mp h
    obtain ⟨-, rfl⟩ := pure_ok.mp h
    rw [← write_ok.mp hv]
    by_cases hkey : key = (kind, r.id)
    · rw [hkey, if_pos ⟨rfl, by simpa using hkeeps⟩]
      exact Function.update_self ..
    · rw [if_neg fun hboth => hkey hboth.1]
      exact Function.update_of_ne hkey ..

theorem upsertSyncRecordsTx_rows {records : List Record} {n : Nat}
    (hids : (records.map Record.id).Nodup)
    (h : upsertSyncRecordsTx kind records s = (.ok n, t)) :
    (∀ key, (∀ r ∈ records, key ≠ (kind, r.id)) → t.records key = s.records key) ∧
      ∀ r ∈ records, ∀ row, toSyncRecordRow r = .ok row → t.records (kind, r.id) =
        if keepsCurrent (s.records (kind, r.id)) row then s.records (kind, r.id) else some row := by
  induction records generalizing s n with
  | nil =>
    obtain ⟨-, rfl⟩ := pure_ok.mp h
    simp
  | cons r rest ih =>
    obtain ⟨written, v, hv, h⟩ := bind_ok.mp h
    obtain ⟨more, w, hw, h⟩ := bind_ok.mp h
    obtain ⟨-, rfl⟩ := pure_ok.mp h
    obtain ⟨hnew, hrest⟩ := List.nodup_cons.mp hids
    obtain ⟨hother, hown⟩ := ih hrest hw
    obtain ⟨row, hrow, -⟩ := upsertSyncRecordTx_reads hv
    have hfirst := upsertSyncRecordTx_row hrow hv
    have hne : ∀ r' ∈ rest, (kind, r.id) ≠ (kind, r'.id) := by
      intro r' hr' heq
      exact hnew (List.mem_map.mpr ⟨r', hr', (Prod.ext_iff.mp heq).2.symm⟩)
    constructor
    · intro key hkey
      rw [hother key fun r' hr' => hkey r' (List.mem_cons_of_mem r hr'), hfirst, if_neg]
      exact fun hboth => hkey r List.mem_cons_self hboth.1
    · intro r' hr' row' hrow'
      rcases List.mem_cons.mp hr' with rfl | hr'
      · obtain rfl := Except.ok.inj (hrow.symm.trans hrow')
        rw [hother _ hne, hfirst]
        cases keepsCurrent (s.records (kind, r'.id)) row <;> simp
      · have hsame : v.records (kind, r'.id) = s.records (kind, r'.id) := by
          rw [hfirst, if_neg]
          exact fun hboth => hne r' hr' hboth.1.symm
        rw [hown r' hr' row' hrow', hsame]

/-- The merged records that are not on the server are pushed, and `t` is the server after it. -/
def Pushes (c : Codec T) (kind : String) (locals : List T)
    (rows : List ((String × String) × SyncRecordRow)) (s t : Account) : Prop :=
  ∃ n, upsertSyncRecordsTx kind (pushedRecords c (mergeWith c kind locals rows)) s = (.ok n, t)

theorem pushes_total (hrows : Lists rows s) (h : Collections c kind locals s) :
    ∃ t, Pushes c kind locals rows s t := by
  have hparsed : ∀ r ∈ pushedRecords c (mergeWith c kind locals rows),
      ∃ row, toSyncRecordRow r = .ok row := by
    intro r hr
    obtain ⟨record, hwins, rfl⟩ := (mem_pushedRecords hrows h).mp hr
    exact ⟨_, toSyncRecordRow_syncRecord (h.timed record hwins.1)⟩
  obtain ⟨n, t, ht⟩ := upsertSyncRecordsTx_total hparsed s
  exact ⟨t, n, ht⟩

theorem Pushes.winner (hpush : Pushes c kind locals rows s t) (hrows : Lists rows s)
    (h : Collections c kind locals s) (hwins : Wins c kind locals s record) :
    t.records (kind, c.idOf record) =
      if keepsCurrent (s.records (kind, c.idOf record)) (rowOf c record) then
        s.records (kind, c.idOf record)
      else some (rowOf c record) := by
  obtain ⟨n, hn⟩ := hpush
  exact (upsertSyncRecordsTx_rows (pushed_ids_nodup hrows h) hn).2 _
    ((mem_pushedRecords hrows h).mpr ⟨record, hwins, rfl⟩) _
    (toSyncRecordRow_syncRecord (h.timed record hwins.1))

theorem Pushes.other (hpush : Pushes c kind locals rows s t) (hrows : Lists rows s)
    (h : Collections c kind locals s) {id : String}
    (hid : ∀ r, Wins c kind locals s r → c.idOf r ≠ id) :
    t.records (kind, id) = s.records (kind, id) := by
  obtain ⟨n, hn⟩ := hpush
  refine (upsertSyncRecordsTx_rows (pushed_ids_nodup hrows h) hn).1 _ fun r hr heq => ?_
  obtain ⟨record, hwins, rfl⟩ := (mem_pushedRecords hrows h).mp hr
  exact hid record hwins (Prod.ext_iff.mp heq).2.symm

theorem Pushes.row_cases (hpush : Pushes c kind locals rows s t) (hrows : Lists rows s)
    (h : Collections c kind locals s) {id : String} (hrow : t.records (kind, id) = some row) :
    s.records (kind, id) = some row ∨
      ∃ r, Wins c kind locals s r ∧ c.idOf r = id ∧ row = rowOf c r := by
  by_cases hid : ∀ r, Wins c kind locals s r → c.idOf r ≠ id
  · rw [hpush.other hrows h hid] at hrow
    exact .inl hrow
  · push Not at hid
    obtain ⟨r, hwins, rfl⟩ := hid
    rw [hpush.winner hrows h hwins] at hrow
    split at hrow
    · exact .inl hrow
    · exact .inr ⟨r, hwins, rfl, (Option.some.inj hrow).symm⟩

theorem Collections.timed_merged (hrows : Lists rows s) (h : Collections c kind locals s)
    (hmem : record ∈ (mergeWith c kind locals rows).merged) : Timed c record := by
  rcases (mem_merged hrows h).mp hmem with hwins | ⟨row, hrow, hlive, rfl, -⟩
  · exact h.timed record hwins.1
  · exact (h.live _ row hrow hlive).2

theorem Pushes.collections (hpush : Pushes c kind locals rows s t) (hrows : Lists rows s)
    (h : Collections c kind locals s) :
    Collections c kind (mergeWith c kind locals rows).merged t where
  distinct := merged_ids_nodup hrows h
  timed _ hmem := h.timed_merged hrows hmem
  stored id row hrow := by
    rcases hpush.row_cases hrows h hrow with hold | ⟨r, hwins, -, rfl⟩
    · exact h.stored id row hold
    · exact (h.timed r hwins.1).exact
  deleted id row deletedAt hrow hdeleted := by
    rcases hpush.row_cases hrows h hrow with hold | ⟨r, hwins, -, rfl⟩
    · exact h.deleted id row deletedAt hold hdeleted
    · cases hdeleted
  live id row hrow hlive := by
    rcases hpush.row_cases hrows h hrow with hold | ⟨r, hwins, hid, rfl⟩
    · exact h.live id row hold hlive
    · rw [rowOf, c.decode_encode]
      exact ⟨hid, h.timed r hwins.1⟩

def Agrees (c : Codec T) (kind : String) (locals : List T) (s : Account) : Prop :=
  ∀ record ∈ locals, ∀ row, s.records (kind, c.idOf record) = some row →
    shownTime c row < time c record → row.updatedAt ≤ time c record

theorem Pushes.winner_of_agrees (hpush : Pushes c kind locals rows s t) (hrows : Lists rows s)
    (h : Collections c kind locals s) (hagrees : Agrees c kind locals s)
    (hwins : Wins c kind locals s record) :
    t.records (kind, c.idOf record) = some (rowOf c record) := by
  rw [hpush.winner hrows h hwins]
  split
  · next hkeeps =>
    cases hrow : s.records (kind, c.idOf record) with
    | none => simp [hrow, keepsCurrent] at hkeeps
    | some row =>
      have hle := hagrees record hwins.1 row hrow (hwins.2 row hrow)
      obtain ⟨payload, updatedAt, deletedAt⟩ := row
      have hnot : ¬ time c record < updatedAt := not_lt.mpr hle
      simp only [hrow, keepsCurrent, rowOf, hnot, decide_false, Bool.false_or, Bool.and_eq_true,
        beq_iff_eq] at hkeeps
      obtain ⟨⟨rfl, rfl⟩, rfl⟩ := hkeeps
      rfl
  · rfl

structure LatestKept (c : Codec T) (kind : String) (locals : List T) (s : Account)
    (merged : List T) : Prop where
  edited : ∀ record ∈ locals, (∀ row, s.records (kind, c.idOf record) = some row →
    shownTime c row < time c record) → record ∈ merged
  live : ∀ id row, s.records (kind, id) = some row → row.deletedAt = none →
    (∀ record ∈ locals, c.idOf record = id → time c record < shownTime c row) →
    c.decode row.encryptedPayload ∈ merged
  deleted : ∀ id row, s.records (kind, id) = some row → row.deletedAt ≠ none →
    (∀ record ∈ locals, c.idOf record = id → time c record < shownTime c row) →
    ∀ record ∈ merged, c.idOf record ≠ id

/-- After one round: a merge with the server's new rows changes nothing and has nothing to push, and
the merged records are the server's live ones. -/
structure Converged (c : Codec T) (kind : String) (locals : List T) (s t : Account)
    (first second : MergeResult T) : Prop where
  same : second.merged.Perm first.merged
  pushed : second.unpushedIds = []
  live : ∀ record, record ∈ first.merged ↔ ∃ id row, t.records (kind, id) = some row ∧
    row.deletedAt = none ∧ c.decode row.encryptedPayload = record
  latest : LatestKept c kind locals s first.merged

theorem latestKept (hrows : Lists rows s) (h : Collections c kind locals s) :
    LatestKept c kind locals s (mergeWith c kind locals rows).merged := by
  constructor
  · intro record hmem hlater
    exact (mem_merged hrows h).mpr (.inl ⟨hmem, hlater⟩)
  · intro id row hrow hlive hlater
    obtain ⟨hid, -⟩ := h.live id row hrow hlive
    refine (mem_merged hrows h).mpr (.inr ⟨row, by rw [hid, hrow], hlive, rfl, ?_⟩)
    intro l hl hsame
    exact (hlater l hl (hsame.trans hid)).le
  · rintro id row hrow hdeleted hlater record hmem rfl
    rcases (mem_merged hrows h).mp hmem with hwins | ⟨row', hrow', hlive, -, -⟩
    · exact absurd (hwins.2 row hrow) (not_lt.mpr (hlater record hwins.1 rfl).le)
    · obtain rfl := Option.some.inj (hrow.symm.trans hrow')
      exact hdeleted hlive

theorem mem_merged_of_row (hrows : Lists rows s) (h : Collections c kind locals s)
    {id : String} (hrow : s.records (kind, id) = some row) (hlive : row.deletedAt = none)
    (hid : ∀ r, Wins c kind locals s r → c.idOf r ≠ id) :
    c.decode row.encryptedPayload ∈ (mergeWith c kind locals rows).merged := by
  obtain ⟨hdecode, -⟩ := h.live id row hrow hlive
  refine (mem_merged hrows h).mpr (.inr ⟨row, by rw [hdecode, hrow], hlive, rfl, ?_⟩)
  intro l hl hsame
  rw [hdecode] at hsame
  by_contra hlater
  refine hid l ⟨hl, fun row' hrow' => ?_⟩ hsame
  rw [hsame, hrow] at hrow'
  rw [← Option.some.inj hrow']
  exact not_le.mp hlater

theorem Pushes.merged_row (hpush : Pushes c kind locals rows s t) (hrows : Lists rows s)
    (h : Collections c kind locals s) (hagrees : Agrees c kind locals s)
    (hmem : record ∈ (mergeWith c kind locals rows).merged) :
    ∃ row, t.records (kind, c.idOf record) = some row ∧ row.deletedAt = none ∧
      c.decode row.encryptedPayload = record := by
  rcases (mem_merged hrows h).mp hmem with hwins | ⟨row, hrow, hlive, hdecode, hnewest⟩
  · exact ⟨rowOf c record, hpush.winner_of_agrees hrows h hagrees hwins, rfl, c.decode_encode record⟩
  · refine ⟨row, ?_, hlive, hdecode⟩
    rw [hpush.other hrows h, hrow]
    intro l hl hsame
    exact absurd (hnewest l hl.1 hsame) (not_le.mpr (hl.2 row (by rw [hsame, hrow])))

theorem Pushes.live_merged (hpush : Pushes c kind locals rows s t) (hrows : Lists rows s)
    (h : Collections c kind locals s) (hagrees : Agrees c kind locals s) {id : String}
    (hrow : t.records (kind, id) = some row) (hlive : row.deletedAt = none) :
    c.decode row.encryptedPayload ∈ (mergeWith c kind locals rows).merged := by
  by_cases hid : ∀ r, Wins c kind locals s r → c.idOf r ≠ id
  · rw [hpush.other hrows h hid] at hrow
    exact mem_merged_of_row hrows h hrow hlive hid
  · push Not at hid
    obtain ⟨r, hwins, rfl⟩ := hid
    rw [hpush.winner_of_agrees hrows h hagrees hwins] at hrow
    rw [← Option.some.inj hrow, rowOf, c.decode_encode]
    exact (mem_merged hrows h).mpr (.inl hwins)

theorem converged_of_agrees {rows' : List ((String × String) × SyncRecordRow)}
    (hrows : Lists rows s) (h : Collections c kind locals s)
    (hpush : Pushes c kind locals rows s t) (hrows' : Lists rows' t)
    (hagrees : Agrees c kind locals s) :
    Converged c kind locals s t (mergeWith c kind locals rows)
      (mergeWith c kind (mergeWith c kind locals rows).merged rows') := by
  have hafter := hpush.collections hrows h
  have hnone : ∀ r, ¬ Wins c kind (mergeWith c kind locals rows).merged t r := by
    rintro r ⟨hmem, hlater⟩
    obtain ⟨row, hrow, hlive, hdecode⟩ := hpush.merged_row hrows h hagrees hmem
    have hself := hlater row hrow
    rw [shownTime_live hlive, hdecode] at hself
    exact lt_irrefl _ hself
  have hlive : ∀ r, r ∈ (mergeWith c kind locals rows).merged ↔ ∃ id row,
      t.records (kind, id) = some row ∧ row.deletedAt = none ∧
        c.decode row.encryptedPayload = r := by
    intro r
    constructor
    · intro hmem
      obtain ⟨row, hrow⟩ := hpush.merged_row hrows h hagrees hmem
      exact ⟨c.idOf r, row, hrow⟩
    · rintro ⟨id, row, hrow, hlive, rfl⟩
      exact hpush.live_merged hrows h hagrees hrow hlive
  refine ⟨?_, ?_, hlive, latestKept hrows h⟩
  · have hnodup := (merged_ids_nodup hrows' hafter).of_map c.idOf
    have hnodup' := (merged_ids_nodup hrows h).of_map c.idOf
    rw [List.perm_ext_iff_of_nodup hnodup hnodup']
    intro r
    constructor
    · intro hmem
      rcases (mem_merged hrows' hafter).mp hmem with hwins | ⟨row, hrow, hrowLive, hdecode, -⟩
      · exact hwins.1
      · exact (hlive r).mpr ⟨c.idOf r, row, hrow, hrowLive, hdecode⟩
    · intro hmem
      obtain ⟨row, hrow, hrowLive, rfl⟩ := hpush.merged_row hrows h hagrees hmem
      exact mem_merged_of_row hrows' hafter hrow hrowLive fun r hwins => absurd hwins (hnone r)
  · rw [List.eq_nil_iff_forall_not_mem]
    intro id hid
    obtain ⟨r, hwins, -⟩ := (mem_unpushedIds hrows' hafter).mp hid
    exact hnone r hwins

theorem agrees_of_converged {rows' : List ((String × String) × SyncRecordRow)}
    (hrows : Lists rows s) (h : Collections c kind locals s)
    (hpush : Pushes c kind locals rows s t) (hrows' : Lists rows' t)
    (hconverged : Converged c kind locals s t (mergeWith c kind locals rows)
      (mergeWith c kind (mergeWith c kind locals rows).merged rows')) :
    Agrees c kind locals s := by
  intro record hmem row hrow hshown
  by_contra hlater
  have hwins : Wins c kind locals s record := by
    refine ⟨hmem, fun row' hrow' => ?_⟩
    obtain rfl := Option.some.inj (hrow.symm.trans hrow')
    exact hshown
  -- the server keeps its row, and the phone finds its own record later again
  have hkept : t.records (kind, c.idOf record) = some row := by
    rw [hpush.winner hrows h hwins, hrow, if_pos]
    simp [keepsCurrent, rowOf, not_le.mp hlater]
  have hagain : Wins c kind (mergeWith c kind locals rows).merged t record := by
    refine ⟨(mem_merged hrows h).mpr (.inl hwins), fun row' hrow' => ?_⟩
    obtain rfl := Option.some.inj (hkept.symm.trans hrow')
    exact hshown
  have hid := (mem_unpushedIds hrows' (hpush.collections hrows h)).mpr ⟨record, hagain, rfl⟩
  rw [hconverged.pushed] at hid
  cases hid

theorem exists_lists (keys : List (String × String))
    (h : ∀ key row, s.records key = some row → key ∈ keys) : ∃ rows, Lists rows s := by
  have hfound : ∀ key row, (key, row) ∈ (keys.dedup.filterMap fun key =>
      (s.records key).map fun row => (key, row)) ↔ s.records key = some row := by
    intro key row
    simp only [List.mem_filterMap, List.mem_dedup, Option.map_eq_some_iff, Prod.mk.injEq]
    constructor
    · rintro ⟨key', -, row', hrow, rfl, rfl⟩
      exact hrow
    · intro hrow
      exact ⟨key, h key row hrow, row, hrow, rfl, rfl⟩
  have hnodup : ∀ l : List (String × String), l.Nodup → ((l.filterMap fun key =>
      (s.records key).map fun row => (key, row)).map Prod.fst).Nodup := by
    intro l hl
    refine hl.sublist ?_
    clear hl
    induction l with
    | nil => exact List.Sublist.refl []
    | cons key l ih =>
      rw [List.filterMap_cons]
      cases s.records key with
      | none => exact ih.cons key
      | some row => exact ih.cons_cons key
  let later (a b : (String × String) × SyncRecordRow) : Prop := b.2.updatedAt ≤ a.2.updatedAt
  have : Std.Total later := ⟨fun a b => le_total b.2.updatedAt a.2.updatedAt⟩
  have : IsTrans _ later := ⟨fun _ _ _ hab hbc => le_trans hbc hab⟩
  refine ⟨List.insertionSort later (keys.dedup.filterMap fun key =>
    (s.records key).map fun row => (key, row)), ?_, ?_, List.pairwise_insertionSort later _⟩
  · intro key row
    rw [List.mem_insertionSort, hfound]
  · exact (List.perm_insertionSort later _).map Prod.fst |>.nodup_iff.mpr
      (hnodup _ (List.nodup_dedup keys))

theorem Pushes.exists_lists (hpush : Pushes c kind locals rows s t) (hrows : Lists rows s)
    (h : Collections c kind locals s) : ∃ rows', Lists rows' t := by
  obtain ⟨n, hn⟩ := hpush
  have hkeys := (upsertSyncRecordsTx_rows (pushed_ids_nodup hrows h) hn).1
  refine PhoneMerge.exists_lists (rows.map Prod.fst ++
    (pushedRecords c (mergeWith c kind locals rows)).map fun r => (kind, r.id)) ?_
  intro key row hrow
  rw [List.mem_append]
  by_cases hpushed : ∀ r ∈ pushedRecords c (mergeWith c kind locals rows), key ≠ (kind, r.id)
  · rw [hkeys key hpushed] at hrow
    exact .inl (List.mem_map.mpr ⟨(key, row), (hrows.found key row).mpr hrow, rfl⟩)
  · push Not at hpushed
    obtain ⟨r, hr, rfl⟩ := hpushed
    exact .inr (List.mem_map.mpr ⟨r, hr, rfl⟩)

/-- One round is enough just where the server takes what the phone finds to be later. A row whose
update time is the time that it shows is such a row. -/
theorem one_round_converges {rows' : List ((String × String) × SyncRecordRow)}
    (hrows : Lists rows s) (h : Collections c kind locals s)
    (hpush : Pushes c kind locals rows s t) (hrows' : Lists rows' t) :
    Converged c kind locals s t (mergeWith c kind locals rows)
      (mergeWith c kind (mergeWith c kind locals rows).merged rows') ↔
      Agrees c kind locals s :=
  ⟨agrees_of_converged hrows h hpush hrows', converged_of_agrees hrows h hpush hrows'⟩

/-! A record that is its own time, and a host deleted on the server. -/

def sampleCodec : Codec String := ⟨fun _ => "h1", some, id, id, fun _ => rfl⟩

def deletedRow (updatedAt : Int) : SyncRecordRow := ⟨"", updatedAt, some 1000000000⟩

theorem time_text {a : Int} (ha : Exact a) : time sampleCodec (formatMillis a) = a := by
  have hwhole := ha.whole
  have hsame : a / 1000000 * 1000000 = a := by omega
  simp [time, sampleCodec, parseRFC3339_formatMillis ha.printable, hsame]

theorem sample_collections {a b : Int} (ha : Exact a) (hb : Exact b) :
    Collections sampleCodec "hosts" [formatMillis a] (accountOf (deletedRow b)) := by
  have hrow : ∀ id row, (accountOf (deletedRow b)).records ("hosts", id) = some row →
      row = deletedRow b := by
    intro id row hrow
    have hmem := ((accountOf_lists (deletedRow b)).found _ row).mpr hrow
    exact (Prod.ext_iff.mp (List.mem_singleton.mp hmem)).2
  constructor
  · exact List.nodup_singleton _
  · intro record hrecord
    rw [List.mem_singleton.mp hrecord]
    have htime := time_text ha
    exact ⟨by rw [htime]; rfl, by rw [htime]; exact ha⟩
  · intro id row h
    rw [hrow id row h]
    exact hb
  · intro id row deletedAt h hdeleted
    rw [hrow id row h] at hdeleted
    rw [← Option.some.inj hdeleted]
    exact ⟨by decide, by decide⟩
  · intro id row h hlive
    rw [hrow id row h] at hlive
    cases hlive

/-- A tombstone whose update time lies after its deletion, and a local record between the two. -/
theorem late_tombstone_diverges :
    ¬ ∀ (c : Codec String) (kind : String) (locals : List String) (s t : Account)
      (rows rows' : List ((String × String) × SyncRecordRow)), Lists rows s →
      Collections c kind locals s → Pushes c kind locals rows s t → Lists rows' t →
      Converged c kind locals s t (mergeWith c kind locals rows)
        (mergeWith c kind (mergeWith c kind locals rows).merged rows') := by
  intro h
  have hexact : Exact 2000000000 := ⟨by decide, by decide⟩
  have hrows := accountOf_lists (deletedRow 3000000000)
  have hcollections := sample_collections hexact (⟨by decide, by decide⟩ : Exact 3000000000)
  obtain ⟨t, hpush⟩ := pushes_total hrows hcollections
  obtain ⟨rows', hrows'⟩ := hpush.exists_lists hrows hcollections
  have hagrees := agrees_of_converged hrows hcollections hpush hrows'
    (h _ _ _ _ _ _ _ hrows hcollections hpush hrows')
  have hle := hagrees _ List.mem_cons_self (deletedRow 3000000000)
    ((hrows.found _ _).mp List.mem_cons_self)
  rw [time_text hexact, shownTime_deleted rfl] at hle
  exact absurd (hle (by decide)) (by decide)

theorem one_round_converges_tombstone :
    ∃ (t : Account) (rows' : List ((String × String) × SyncRecordRow)),
      Pushes sampleCodec "hosts" [formatMillis 2000000000]
        [(("hosts", "h1"), deletedRow 1000000000)] (accountOf (deletedRow 1000000000)) t ∧
      Lists rows' t ∧
      Converged sampleCodec "hosts" [formatMillis 2000000000] (accountOf (deletedRow 1000000000)) t
        (mergeWith sampleCodec "hosts" [formatMillis 2000000000]
          [(("hosts", "h1"), deletedRow 1000000000)])
        (mergeWith sampleCodec "hosts" (mergeWith sampleCodec "hosts" [formatMillis 2000000000]
          [(("hosts", "h1"), deletedRow 1000000000)]).merged rows') := by
  have hexact : Exact 2000000000 := ⟨by decide, by decide⟩
  have hrows := accountOf_lists (deletedRow 1000000000)
  have hcollections := sample_collections hexact (⟨by decide, by decide⟩ : Exact 1000000000)
  obtain ⟨t, hpush⟩ := pushes_total hrows hcollections
  obtain ⟨rows', hrows'⟩ := hpush.exists_lists hrows hcollections
  refine ⟨t, rows', hpush, hrows', (one_round_converges hrows hcollections hpush hrows').mpr ?_⟩
  intro record hrecord row hrow _
  rw [List.mem_singleton.mp hrecord, time_text hexact]
  have hmem := (hrows.found _ row).mpr hrow
  have hsame : row = deletedRow 1000000000 := (Prod.ext_iff.mp (List.mem_singleton.mp hmem)).2
  rw [hsame]
  decide

end Dolgate.PhoneMerge
