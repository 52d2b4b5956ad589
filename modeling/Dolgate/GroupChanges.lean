import Dolgate.GroupTree

set_option autoImplicit false

/-! Paths as lists of segments: what lies within a path, and where it goes with it. -/

namespace Dolgate.GroupPaths

open Segments

def segments (path : Text) : List Text := path.splitOn slash

def pathOf (segs : List Text) : Option Text := if segs = [] then none else some (join slash segs)

variable {p q t n : Text} {segs rest : List Text}

@[simp] theorem join_segments (p : Text) : join slash (segments p) = p :=
  List.intercalate_splitOn slash

theorem segments_injective (h : segments p = segments q) : p = q := by
  rw [← join_segments p, h, join_segments]

theorem segments_ne_nil (p : Text) : segments p ≠ [] := List.splitOn_ne_nil slash p

theorem segments_join (hs : ∀ s ∈ segs, Segment s) (hne : segs ≠ []) :
    segments (join slash segs) = segs :=
  splitOn_join (fun s h => (hs s h).slash_not_mem) hne

theorem segment_of_normalised (h : Normalised p) : ∀ s ∈ segments p, Segment s := by
  obtain ⟨segs, hne, hs, rfl⟩ := segments_of_normalize h
  rw [segments_join hs hne]
  exact hs

theorem Normalised.ne_nil (h : Normalised p) : p ≠ [] := by
  rintro rfl
  have hnone : normalizeGroupPath (some []) = none := rfl
  rw [Normalised, hnone] at h
  cases h

theorem within_iff (hp : p ≠ []) (ht : t ≠ []) :
    isGroupWithinPath (some p) (some t) = true ↔ segments t <+: segments p := by
  have hcases : isGroupWithinPath (some p) (some t) = true ↔ p = t ∨ t ++ [slash] <+: p := by
    cases p with
    | nil => exact absurd rfl hp
    | cons c p =>
      cases t with
      | nil => exact absurd rfl ht
      | cons d t =>
        change ((c :: p == d :: t) || ((d :: t) ++ [slash]).isPrefixOf (c :: p)) = true ↔ _
        rw [Bool.or_eq_true, beq_iff_eq, List.isPrefixOf_iff_prefix]
  rw [hcases]
  constructor
  · rintro (rfl | ⟨rest, rfl⟩)
    · exact List.prefix_refl _
    · rw [List.append_assoc, List.singleton_append, segments, segments,
        List.splitOn_append_cons_self]
      exact List.prefix_append _ _
  · rintro ⟨rest, hrest⟩
    by_cases hnil : rest = []
    · rw [hnil, List.append_nil] at hrest
      exact .inl (segments_injective hrest).symm
    · refine .inr ⟨join slash rest, ?_⟩
      rw [← join_segments p, ← hrest, join_append (segments_ne_nil t) hnil, join_segments,
        List.append_assoc, List.singleton_append]

theorem prefix_join (t : Text) (rest : List Text) :
    segments t <+: segments (join slash (segments t ++ rest)) := by
  by_cases hnil : rest = []
  · rw [hnil, List.append_nil, join_segments]
  · rw [join_append (segments_ne_nil t) hnil, join_segments, segments, segments,
      List.splitOn_append_cons_self]
    exact List.prefix_append _ _

theorem normalize_pathOf (hs : ∀ s ∈ segs, Segment s) :
    normalizeGroupPath (pathOf segs) = pathOf segs := by
  rw [pathOf]
  split
  · rfl
  · next hne => exact normalised_join hs hne

theorem exists_rest (hp : p ≠ []) (ht : t ≠ []) (h : isGroupWithinPath (some p) (some t) = true) :
    ∃ rest, segments p = segments t ++ rest := by
  obtain ⟨rest, hrest⟩ := (within_iff hp ht).mp h
  exact ⟨rest, hrest.symm⟩

theorem drop_of_rest (h : segments p = segments t ++ rest) (hne : rest ≠ []) :
    p.drop (t.length + 1) = join slash rest := by
  rw [← join_segments p, h, join_append (segments_ne_nil t) hne, join_segments,
    ← List.singleton_append, ← List.append_assoc, List.drop_left' (by simp)]

theorem rest_segment (hp : Normalised p) (h : segments p = segments t ++ rest) :
    ∀ s ∈ rest, Segment s := fun s hs => segment_of_normalised hp s (h ▸ List.mem_append_right _ hs)

theorem segment_append (hsegs : ∀ s ∈ segs, Segment s) (hrest : ∀ s ∈ rest, Segment s) :
    ∀ s ∈ segs ++ rest, Segment s := fun s hs =>
  (List.mem_append.mp hs).elim (hsegs s) (hrest s)

theorem rebaseGroupPath_within (hp : Normalised p) (ht : Normalised t) (hn : Normalised n)
    (h : segments p = segments t ++ rest) :
    rebaseGroupPath (some p) t (some n) = some (join slash (segments n ++ rest)) := by
  have hwithin : isGroupWithinPath (some p) (some t) = true :=
    (within_iff hp.ne_nil ht.ne_nil).mpr ⟨rest, h.symm⟩
  unfold rebaseGroupPath
  rw [hp, ht, hn]
  simp only [hwithin, if_true]
  split
  · next heq =>
    have hnil : rest = [] := by
      rw [heq] at h
      exact List.append_cancel_left (h.symm.trans (List.append_nil _).symm)
    rw [hnil, List.append_nil, join_segments]
  · next hne =>
    have hrest : rest ≠ [] := by
      rintro rfl
      rw [List.append_nil] at h
      exact hne (segments_injective h)
    rw [drop_of_rest h hrest, under]
    have hjoin : n ++ slash :: join slash rest = join slash (segments n ++ rest) := by
      rw [join_append (segments_ne_nil n) hrest, join_segments]
    rw [hjoin]
    exact normalised_join (segment_append (segment_of_normalised hn) (rest_segment hp h))
      (List.append_ne_nil_of_left_ne_nil (segments_ne_nil n) rest)

theorem rebaseGroupPath_outside (hp : Normalised p) (ht : Normalised t)
    (h : isGroupWithinPath (some p) (some t) = false) (target : Option Text) :
    rebaseGroupPath (some p) t target = some p := by
  unfold rebaseGroupPath
  rw [hp, ht]
  simp [h]

theorem stripRemovedGroupSegment_within (hp : Normalised p) (ht : Normalised t)
    (h : segments p = segments t ++ rest) :
    stripRemovedGroupSegment (some p) t = pathOf ((segments t).dropLast ++ rest) := by
  have hwithin : isGroupWithinPath (some p) (some t) = true :=
    (within_iff hp.ne_nil ht.ne_nil).mpr ⟨rest, h.symm⟩
  obtain ⟨segs, l, hs, hl, rfl⟩ := ht.segments
  have hsegs : segments (join slash (segs ++ [l])) = segs ++ [l] := splitOn_path hs hl
  unfold stripRemovedGroupSegment
  rw [hp, ht]
  simp only [hwithin, if_true, getParentGroupPath_path hs hl, hsegs, List.dropLast_concat]
  split
  · next heq =>
    have hnil : rest = [] := by
      rw [heq] at h
      exact List.append_cancel_left (h.symm.trans (List.append_nil _).symm)
    rw [hnil, List.append_nil, pathOf]
  · next hne =>
    have hrest : rest ≠ [] := by
      rintro rfl
      rw [List.append_nil] at h
      exact hne (segments_injective h)
    rw [drop_of_rest h hrest, pathOf, if_neg (List.append_ne_nil_of_right_ne_nil segs hrest)]
    have hall := segment_append hs (rest_segment hp h)
    have hnormal := normalised_join hall (List.append_ne_nil_of_right_ne_nil segs hrest)
    by_cases hnil : segs = []
    · rw [if_pos hnil, under, hnil, List.nil_append]
      rw [hnil, List.nil_append] at hnormal
      exact hnormal
    · rw [if_neg hnil, under, ← join_append hnil hrest]
      exact hnormal

end Dolgate.GroupPaths

/-! What a rename or a move makes of the records, one by one. -/

namespace Dolgate.GroupMutations

open GroupPaths Segments

variable {env : Env} {groups kept records : List GroupRecord} {hosts : List HostRecord}
  {record x : GroupRecord} {target next : Text} {timestamp : String} {options : Options}
  {result : Library}

def implicitGroups (env : Env) (groups : List GroupRecord) (hosts : List HostRecord)
    (withinPath : Option Text) : List GroupRecord :=
  (materializeImplicitHostGroups env groups hosts withinPath).drop groups.length

def affected (env : Env) (groups : List GroupRecord) (hosts : List HostRecord) (target : Text) :
    List GroupRecord :=
  groups.filter (fun record => record.within (some target)) ++
    implicitGroups env groups hosts (some target)

def rebased (target next : Text) (record : GroupRecord) : Text :=
  (rebaseGroupPath (some record.path) target (some next)).getD []

def LastOf (groups : List GroupRecord) (record : GroupRecord) : Prop :=
  ∃ before after, groups = before ++ record :: after ∧ ∀ r ∈ after, r.path ≠ record.path

theorem materialize_eq (withinPath : Option Text) :
    materializeImplicitHostGroups env groups hosts withinPath =
      groups ++ implicitGroups env groups hosts withinPath := by
  obtain ⟨additions, heq, -⟩ := @materialize_within groups env hosts withinPath
  rw [implicitGroups, heq, List.drop_left]

theorem implicit_within (hx : x ∈ implicitGroups env groups hosts (some target)) :
    x.within (some target) = true := by
  obtain ⟨additions, heq, hwithin⟩ := @materialize_within groups env hosts (some target)
  rw [implicitGroups, heq, List.drop_left] at hx
  exact hwithin x hx

theorem affected_eq : (materializeImplicitHostGroups env groups hosts (some target)).filter
    (fun record => record.within (some target)) = affected env groups hosts target := by
  rw [materialize_eq, List.filter_append, affected]
  congr 1
  rw [List.filter_eq_self]
  exact fun x hx => implicit_within hx

theorem affected_within (hx : x ∈ affected env groups hosts target) :
    x.within (some target) = true := by
  rcases List.mem_append.mp hx with hx | hx
  · exact (List.mem_filter.mp hx).2
  · exact implicit_within hx

/-! ### The records outside -/

theorem mem_setByPath :
    x ∈ setByPath kept record ↔ x = record ∨ x ∈ kept ∧ x.path ≠ record.path := by
  unfold setByPath
  split
  · next hany =>
    rw [List.any_eq_true] at hany
    obtain ⟨old, hold, hpath⟩ := hany
    have hpath : old.path = record.path := of_decide_eq_true hpath
    rw [List.mem_map]
    constructor
    · rintro ⟨r, hr, rfl⟩
      split
      · exact .inl rfl
      · next hne => exact .inr ⟨hr, hne⟩
    · rintro (rfl | ⟨hx, hne⟩)
      · exact ⟨old, hold, if_pos hpath⟩
      · exact ⟨x, hx, if_neg hne⟩
  · next hnone =>
    rw [List.mem_append, List.mem_singleton, or_comm]
    refine or_congr_right ⟨fun hx => ⟨hx, fun heq => hnone ?_⟩, And.left⟩
    rw [List.any_eq_true]
    exact ⟨x, hx, decide_eq_true heq⟩

theorem nodup_paths_setByPath (h : (kept.map (·.path)).Nodup) :
    ((setByPath kept record).map (·.path)).Nodup := by
  unfold setByPath
  split
  · have hsame : (kept.map fun r => if r.path = record.path then record else r).map (·.path) =
        kept.map (·.path) := by
      rw [List.map_map]
      apply List.map_congr_left
      intro r _
      simp only [Function.comp]
      split
      · next heq => exact heq.symm
      · rfl
    rw [hsame]
    exact h
  · next hnone =>
    rw [List.map_append, List.nodup_append]
    refine ⟨h, List.nodup_singleton _, ?_⟩
    intro p hp q hq heq
    obtain ⟨r, hr, rfl⟩ := List.mem_map.mp hp
    apply hnone
    rw [List.any_eq_true]
    refine ⟨r, hr, decide_eq_true ?_⟩
    rw [heq, List.mem_singleton.mp hq]

theorem nodup_paths_foldl (h : (kept.map (·.path)).Nodup) :
    ((records.foldl setByPath kept).map (·.path)).Nodup := by
  induction records generalizing kept with
  | nil => exact h
  | cons record records ih => exact ih (nodup_paths_setByPath h)

theorem nodup_paths_outside (groups : List GroupRecord) (target : Text) :
    ((outside groups target).map (·.path)).Nodup := nodup_paths_foldl List.nodup_nil

theorem lastOf_concat : LastOf (records ++ [record]) x ↔
    x = record ∨ LastOf records x ∧ x.path ≠ record.path := by
  constructor
  · rintro ⟨before, after, heq, hafter⟩
    rcases List.eq_nil_or_concat' after with rfl | ⟨after, last, rfl⟩
    · exact .inl (List.cons.inj (List.append_inj' heq rfl).2).1.symm
    · rw [← List.cons_append, ← List.append_assoc] at heq
      obtain ⟨heq, hlast⟩ := List.append_inj' heq rfl
      have hlast := (List.cons.inj hlast).1
      refine .inr ⟨⟨before, after, heq, fun r hr => hafter r (List.mem_append_left _ hr)⟩, ?_⟩
      rw [hlast]
      exact (hafter last (by simp)).symm
  · rintro (rfl | ⟨⟨before, after, rfl, hafter⟩, hne⟩)
    · exact ⟨records, [], rfl, by simp⟩
    · refine ⟨before, after ++ [record], by simp, ?_⟩
      intro r hr
      rcases List.mem_append.mp hr with hr | hr
      · exact hafter r hr
      · rw [List.mem_singleton.mp hr]
        exact hne.symm

theorem mem_foldl_setByPath : x ∈ records.foldl setByPath [] ↔ LastOf records x := by
  induction records using List.reverseRecOn with
  | nil =>
    refine ⟨fun h => (by cases h), ?_⟩
    rintro ⟨before, after, heq, -⟩
    have hlength := congrArg List.length heq
    simp at hlength
  | append_singleton records record ih =>
    rw [List.foldl_append, List.foldl_cons, List.foldl_nil, mem_setByPath, ih, lastOf_concat]

theorem lastOf_mem (h : LastOf records x) : x ∈ records := by
  obtain ⟨before, after, rfl, -⟩ := h
  simp

theorem mem_outside : x ∈ outside groups target ↔
    LastOf (groups.filter fun record => !record.within (some target)) x := mem_foldl_setByPath

theorem outside_subset (h : x ∈ outside groups target) :
    x ∈ groups ∧ x.within (some target) = false := by
  have hmem := List.mem_filter.mp (lastOf_mem (mem_outside.mp h))
  exact ⟨hmem.1, by simpa using hmem.2⟩

theorem outside_of_nodup
    (h : ((groups.filter fun record => !record.within (some target)).map (·.path)).Nodup) :
    outside groups target = groups.filter fun record => !record.within (some target) := by
  have hfold : ∀ records kept : List GroupRecord, ((kept ++ records).map (·.path)).Nodup →
      records.foldl setByPath kept = kept ++ records := by
    intro records
    induction records with
    | nil => exact fun kept _ => (List.append_nil kept).symm
    | cons record records ih =>
      intro kept hnodup
      have hnew : ¬ kept.any (fun r => r.path = record.path) = true := by
        rw [List.any_eq_true]
        rintro ⟨r, hr, hpath⟩
        rw [List.map_append, List.map_cons] at hnodup
        refine List.disjoint_of_nodup_append hnodup (List.mem_map_of_mem hr) ?_
        rw [of_decide_eq_true hpath]
        exact List.mem_cons_self
      rw [List.foldl_cons, setByPath_new hnew, ih _ (by simpa using hnodup), List.append_assoc,
        List.singleton_append]
  exact hfold _ [] h

/-! ### The records inside -/

theorem foldlM_rebaseInto {moved : List GroupRecord}
    (h : records.foldlM (rebaseInto target next timestamp) kept = .ok moved) :
    moved = kept ++ records.map (fun r => r.placedAt (rebased target next r) timestamp) ∧
      (∀ r ∈ records,
        rebaseGroupPath (some r.path) target (some next) = some (rebased target next r)) ∧
      ((kept.map (·.path)).Nodup → (moved.map (·.path)).Nodup) := by
  induction records generalizing kept with
  | nil =>
    cases h
    exact ⟨(List.append_nil _).symm, by simp, id⟩
  | cons record records ih =>
    rw [List.foldlM_cons] at h
    cases hrecord : rebaseInto target next timestamp kept record with
    | error e =>
      rw [hrecord] at h
      cases h
    | ok with' =>
      rw [hrecord] at h
      obtain ⟨heq, hall, hnodup⟩ := ih h
      unfold rebaseInto at hrecord
      split at hrecord
      · cases hrecord
      · next path hpath =>
        split at hrecord
        · cases hrecord
        · next hnew =>
          have hrebased : rebased target next record = path := by rw [rebased, hpath]; rfl
          have hset := @setByPath_new kept (record.placedAt path timestamp) hnew
          cases hrecord
          refine ⟨?_, ?_, fun hkept => hnodup (nodup_paths_setByPath hkept)⟩
          · rw [heq, hset, List.map_cons, hrebased, List.append_assoc, List.singleton_append]
          · intro r hr
            rcases List.mem_cons.mp hr with rfl | hr
            · rw [hrebased, hpath]
            · exact hall r hr

theorem foldlM_rebaseInto_ok
    (hall : ∀ r ∈ records,
      rebaseGroupPath (some r.path) target (some next) = some (rebased target next r))
    (hnodup : (kept.map (·.path) ++ records.map (rebased target next)).Nodup) :
    records.foldlM (rebaseInto target next timestamp) kept =
      .ok (kept ++ records.map fun r => r.placedAt (rebased target next r) timestamp) := by
  induction records generalizing kept with
  | nil => simp [pure, Except.pure]
  | cons record records ih =>
    have hnew : ¬ kept.any (fun r => r.path = rebased target next record) = true := by
      rw [List.any_eq_true]
      rintro ⟨r, hr, hpath⟩
      refine List.disjoint_of_nodup_append hnodup (List.mem_map_of_mem hr) ?_
      rw [of_decide_eq_true hpath]
      exact List.mem_cons_self
    have hstep : rebaseInto target next timestamp kept record =
        .ok (kept ++ [record.placedAt (rebased target next record) timestamp]) := by
      rw [rebaseInto, hall record List.mem_cons_self]
      simp only [hnew]
      rw [@setByPath_new kept (record.placedAt (rebased target next record) timestamp) hnew]
      rfl
    rw [List.foldlM_cons, hstep]
    change records.foldlM _ _ = _
    rw [ih (fun r hr => hall r (List.mem_cons_of_mem _ hr))]
    · rw [List.map_cons, List.append_assoc, List.singleton_append]
    · rw [List.map_append, List.append_assoc]
      exact hnodup

def movedHost (target next : Text) (options : Options) (host : HostRecord) : HostRecord :=
  if host.within (some target) then
    options.normalizeHost { host with
      groupName := rebaseGroupPath (normalizeGroupPath host.groupName) target next
      updatedAt := options.timestamp }
  else host

structure Changed (env : Env) (groups : List GroupRecord) (hosts : List HostRecord)
    (target next : Text) (options : Options) (result : Library) : Prop where
  groups_eq : result.groups = outside groups target ++ (affected env groups hosts target).map
    fun r => r.placedAt (rebased target next r) options.timestamp
  hosts_eq : result.hosts = hosts.map (movedHost target next options)
  rebased_eq : ∀ r ∈ affected env groups hosts target,
    rebaseGroupPath (some r.path) target (some next) = some (rebased target next r)
  paths : (result.groups.map (·.path)).Nodup
  free : ∀ r ∈ outside groups target, r.path ≠ next
  found : affected env groups hosts target ≠ [] ∨
    (hosts.filter fun host => host.within (some target)) ≠ [] ∨ options.pathAlsoOccupied = true

theorem changed_of_ok (h : mutateGroupPathIn env groups hosts target next options = .ok result) :
    Changed env groups hosts target next options result := by
  unfold mutateGroupPathIn at h
  simp only [outside_materialize, affected_eq] at h
  split at h
  · cases h
  · next hfound =>
    split at h
    · cases h
    · next hfree =>
      cases hfold : (affected env groups hosts target).foldlM
        (rebaseInto target next options.timestamp) (outside groups target) with
      | error e =>
        rw [hfold] at h
        cases h
      | ok moved =>
        rw [hfold] at h
        cases h
        obtain ⟨heq, hall, hnodup⟩ := foldlM_rebaseInto hfold
        refine ⟨heq, rfl, hall, hnodup (nodup_paths_outside groups target), ?_, ?_⟩
        · intro r hr hpath
          apply hfree
          rw [List.any_eq_true]
          exact ⟨r, hr, decide_eq_true hpath⟩
        · by_contra hnone
          rw [not_or, not_or, not_not, not_not, Bool.not_eq_true] at hnone
          exact hfound hnone

theorem ok_of_free
    (hfound : affected env groups hosts target ≠ [] ∨
      (hosts.filter fun host => host.within (some target)) ≠ [] ∨ options.pathAlsoOccupied = true)
    (hfree : ∀ r ∈ outside groups target, r.path ≠ next)
    (hall : ∀ r ∈ affected env groups hosts target,
      rebaseGroupPath (some r.path) target (some next) = some (rebased target next r))
    (hnodup : ((outside groups target).map (·.path) ++
      (affected env groups hosts target).map (rebased target next)).Nodup) :
    ∃ result, mutateGroupPathIn env groups hosts target next options = .ok result := by
  unfold mutateGroupPathIn
  simp only [outside_materialize, affected_eq]
  rw [if_neg, if_neg, foldlM_rebaseInto_ok hall hnodup]
  · exact ⟨_, rfl⟩
  · rw [List.any_eq_true]
    rintro ⟨r, hr, hpath⟩
    exact hfree r hr (of_decide_eq_true hpath)
  · rintro ⟨hgroups, hhosts, hoccupied⟩
    rcases hfound with h | h | h
    · exact h hgroups
    · exact h hhosts
    · rw [hoccupied] at h
      cases h

end Dolgate.GroupMutations
