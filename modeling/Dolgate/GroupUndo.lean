import Dolgate.GroupSources
import Dolgate.GroupConservation

set_option autoImplicit false

/-! Whether a rename or a move is undone by the one back. What was below the new path before, of
records and of hosts, goes back as well. -/

namespace Dolgate.GroupMutations

open GroupPaths Segments

structure Clear (groups : List GroupRecord) (hosts : List HostRecord) (target next : Text) :
    Prop where
  group_within : ∀ group ∈ groups, group.within (some next) = true →
    group.within (some target) = true
  host_within : ∀ host ∈ hosts, host.within (some next) = true → host.within (some target) = true

/-- All groups are at the paths of before. Those that only hosts were in have records now. -/
structure Restored (env : Env) (groups : List GroupRecord) (hosts : List HostRecord)
    (target : Text) (final : Library) : Prop where
  group_paths : (final.groups.map fun group => (group.id, group.path)).Perm
    ((materializeImplicitHostGroups env groups hosts (some target)).map
      fun group => (group.id, group.path))
  host_groups : (final.hosts.map fun host => (host.id, host.groupName)) =
    hosts.map fun host => (host.id, host.groupName)

variable {env : Env} {groups : List GroupRecord} {hosts : List HostRecord} {record : GroupRecord}
  {host : HostRecord} {target next p : Text} {rest : List Text} {options back : Options}
  {result final : Library}

@[simp] theorem placedAt_path (path : Text) (timestamp : String) :
    (record.placedAt path timestamp).path = path := rfl

@[simp] theorem placedAt_id (path : Text) (timestamp : String) :
    (record.placedAt path timestamp).id = record.id := rfl

/-! ### One record and one host -/

theorem normalised_rest (hp : Normalised p) (hn : Normalised next)
    (h : segments p = segments target ++ rest) : Normalised (join slash (segments next ++ rest)) :=
  normalised_join (segment_append (segment_of_normalised hn) (rest_segment hp h))
    (List.append_ne_nil_of_left_ne_nil (segments_ne_nil next) rest)

theorem segments_rest (hp : Normalised p) (hn : Normalised next)
    (h : segments p = segments target ++ rest) :
    segments (join slash (segments next ++ rest)) = segments next ++ rest :=
  segments_join (segment_append (segment_of_normalised hn) (rest_segment hp h))
    (List.append_ne_nil_of_left_ne_nil (segments_ne_nil next) rest)

theorem rebased_rest (hp : Normalised record.path) (ht : Normalised target)
    (hn : Normalised next) (h : segments record.path = segments target ++ rest) :
    rebased target next record = join slash (segments next ++ rest) := by
  rw [rebased, rebaseGroupPath_within hp ht hn h]
  rfl

theorem within_rest (hp : Normalised record.path) (ht : Normalised target)
    (h : record.within (some target) = true) :
    ∃ rest, segments record.path = segments target ++ rest := exists_rest hp.ne_nil ht.ne_nil h

theorem within_rebased (hp : Normalised record.path) (ht : Normalised target)
    (hn : Normalised next) (h : record.within (some target) = true) :
    isGroupWithinPath (some (rebased target next record)) (some next) = true := by
  obtain ⟨rest, hrest⟩ := within_rest hp ht h
  rw [rebased_rest hp ht hn hrest, within_iff (normalised_rest hp hn hrest).ne_nil hn.ne_nil,
    segments_rest hp hn hrest]
  exact List.prefix_append _ _

theorem rebased_back {timestamp : String} (hp : Normalised record.path) (ht : Normalised target)
    (hn : Normalised next) (h : record.within (some target) = true) :
    rebased next target (record.placedAt (rebased target next record) timestamp) =
      record.path := by
  obtain ⟨rest, hrest⟩ := within_rest hp ht h
  have hthere := rebased_rest hp ht hn hrest
  have hnormal : Normalised (rebased target next record) := by
    rw [hthere]
    exact normalised_rest hp hn hrest
  have hsegs : segments (rebased target next record) = segments next ++ rest := by
    rw [hthere]
    exact segments_rest hp hn hrest
  rw [@rebased_rest (record.placedAt (rebased target next record) timestamp) next target rest
    hnormal hn ht hsegs, ← hrest, join_segments]

theorem movedHost_id (hoptions : options.KeepsPlaces) :
    (movedHost target next options host).id = host.id := by
  rw [movedHost]
  split
  · exact hoptions.id _
  · rfl

theorem movedHost_outside (h : ¬ host.within (some target) = true) :
    movedHost target next options host = host := if_neg h

theorem movedHost_rest (hoptions : options.KeepsPlaces) (ht : Normalised target)
    (hn : Normalised next) (hname : normalizeGroupPath host.groupName = some p)
    (h : segments p = segments target ++ rest) :
    (movedHost target next options host).groupName = some (join slash (segments next ++ rest)) := by
  have hp : Normalised p := normalised_of_normalize hname
  have hwithin : host.within (some target) = true := by
    rw [HostRecord.within, hname, within_iff hp.ne_nil ht.ne_nil]
    exact ⟨rest, h.symm⟩
  rw [movedHost, if_pos hwithin, hname]
  refine (hoptions.groupName _ ?_).trans (rebaseGroupPath_within hp ht hn h)
  dsimp only
  rw [rebaseGroupPath_within hp ht hn h]
  exact normalised_rest hp hn h

theorem host_rest (ht : Normalised target) (h : host.within (some target) = true) :
    ∃ p rest, normalizeGroupPath host.groupName = some p ∧
      segments p = segments target ++ rest := by
  cases hname : normalizeGroupPath host.groupName with
  | none =>
    obtain ⟨c, t, rfl⟩ := List.exists_cons_of_ne_nil ht.ne_nil
    rw [HostRecord.within, hname] at h
    cases h
  | some p =>
    rw [HostRecord.within, hname] at h
    obtain ⟨rest, hrest⟩ := exists_rest (normalised_of_normalize hname).ne_nil ht.ne_nil h
    exact ⟨p, rest, rfl, hrest⟩

theorem movedHost_within (hoptions : options.KeepsPlaces) (ht : Normalised target)
    (hn : Normalised next) (h : host.within (some target) = true) :
    (movedHost target next options host).within (some next) = true := by
  obtain ⟨p, rest, hname, hrest⟩ := host_rest ht h
  have hp : Normalised p := normalised_of_normalize hname
  have hnormal : Normalised (join slash (segments next ++ rest)) := normalised_rest hp hn hrest
  rw [HostRecord.within, movedHost_rest hoptions ht hn hname hrest, hnormal,
    within_iff hnormal.ne_nil hn.ne_nil, segments_rest hp hn hrest]
  exact List.prefix_append _ _

theorem movedHost_back (hoptions : options.KeepsPlaces) (hback : back.KeepsPlaces)
    (ht : Normalised target) (hn : Normalised next)
    (hname : normalizeGroupPath host.groupName = host.groupName)
    (h : host.within (some target) = true) :
    (movedHost next target back (movedHost target next options host)).groupName =
      host.groupName := by
  obtain ⟨p, rest, hp, hrest⟩ := host_rest ht h
  have hnormal : Normalised p := normalised_of_normalize hp
  have hthere : normalizeGroupPath (movedHost target next options host).groupName =
      some (join slash (segments next ++ rest)) := by
    rw [movedHost_rest hoptions ht hn hp hrest]
    exact normalised_rest hnormal hn hrest
  rw [movedHost_rest hback hn ht hthere (segments_rest hnormal hn hrest), ← hrest, join_segments,
    ← hname, hp]

/-! ### The way back -/

theorem affected_normalised (hgroups : ∀ group ∈ groups, Normalised group.path)
    (h : record ∈ affected env groups hosts target) : Normalised record.path := by
  rcases List.mem_append.mp h with h | h
  · exact hgroups record (List.mem_filter.mp h).1
  · obtain ⟨-, -, host, -, hin⟩ := mem_implicitGroups.mp (List.mem_map_of_mem h)
    obtain ⟨q, hq, hbelow⟩ := mem_withAncestors.mp hin
    exact normalised_above (normalised_of_normalize hq) hbelow

theorem Changed.no_implicit (h : Changed env groups hosts target next options result)
    (hgroups : ∀ group ∈ groups, Normalised group.path) (hoptions : options.KeepsPlaces)
    (ht : Normalised target) (hn : Normalised next) (hclear : Clear groups hosts target next) :
    implicitGroups env result.groups result.hosts (some next) = [] := by
  rw [← List.map_eq_nil_iff, List.eq_nil_iff_forall_not_mem]
  intro p hp
  obtain ⟨hnew, hwithin, host', hhost', hin⟩ := mem_implicitGroups.mp hp
  rw [h.hosts_eq] at hhost'
  obtain ⟨host, hhost, rfl⟩ := List.mem_map.mp hhost'
  have hnormal : Normalised p := by
    obtain ⟨q, hq, hbelow⟩ := mem_withAncestors.mp hin
    exact normalised_above (normalised_of_normalize hq) hbelow
  obtain ⟨above, habove⟩ := exists_rest hnormal.ne_nil hn.ne_nil hwithin
  by_cases hinside : host.within (some target) = true
  · obtain ⟨q, rest, hq, hrest⟩ := host_rest ht hinside
    have hqn : Normalised q := normalised_of_normalize hq
    obtain ⟨q', hq', hbelow⟩ := mem_withAncestors.mp hin
    rw [movedHost_rest hoptions ht hn hq hrest] at hq'
    have hqeq : join slash (segments next ++ rest) = q' :=
      Option.some.inj ((normalised_rest hqn hn hrest).symm.trans hq')
    rw [← hqeq, segments_rest hqn hn hrest, habove, List.prefix_append_right_inj] at hbelow
    -- the group of the target that the path comes from
    have hsource : segments (join slash (segments target ++ above)) = segments target ++ above :=
      segments_rest hnormal ht habove
    have hsourcemem : join slash (segments target ++ above) ∈ withAncestors host.groupName := by
      refine mem_withAncestors.mpr ⟨q, hq, ?_⟩
      rw [hsource, hrest, List.prefix_append_right_inj]
      exact hbelow
    have hsourcewithin : isGroupWithinPath (some (join slash (segments target ++ above)))
        (some target) = true := by
      rw [within_iff (normalised_rest hnormal ht habove).ne_nil ht.ne_nil, hsource]
      exact List.prefix_append _ _
    have hrecord : ∃ record ∈ affected env groups hosts target,
        record.path = join slash (segments target ++ above) := by
      by_cases hknown : ∃ group ∈ groups, group.path = join slash (segments target ++ above)
      · obtain ⟨group, hgroup, hpath⟩ := hknown
        refine ⟨group, List.mem_append_left _ (List.mem_filter.mpr ⟨hgroup, ?_⟩), hpath⟩
        rw [GroupRecord.within, hpath]
        exact hsourcewithin
      · have himplicit : join slash (segments target ++ above) ∈
            (implicitGroups env groups hosts (some target)).map (·.path) := by
          refine mem_implicitGroups.mpr ⟨?_, hsourcewithin, host, hhost, hsourcemem⟩
          intro group hgroup hpath
          exact hknown ⟨group, hgroup, hpath⟩
        obtain ⟨record, hrecord, hpath⟩ := List.mem_map.mp himplicit
        exact ⟨record, List.mem_append_right _ hrecord, hpath⟩
    obtain ⟨record, hrecord, hpath⟩ := hrecord
    refine hnew (record.placedAt (rebased target next record) options.timestamp) ?_ ?_
    · rw [h.groups_eq]
      exact List.mem_append_right _ (List.mem_map_of_mem hrecord)
    · rw [placedAt_path, rebased_rest (affected_normalised hgroups hrecord) ht hn
        (hpath ▸ hsource), ← habove, join_segments]
  · rw [movedHost_outside hinside] at hin
    apply hinside
    apply hclear.host_within host hhost
    obtain ⟨q, hq, hbelow⟩ := mem_withAncestors.mp hin
    rw [HostRecord.within, hq, within_iff (normalised_of_normalize hq).ne_nil hn.ne_nil]
    exact (habove ▸ List.prefix_append _ _).trans hbelow

def movedRecords (env : Env) (groups : List GroupRecord) (hosts : List HostRecord)
    (target next : Text) (options : Options) : List GroupRecord :=
  (affected env groups hosts target).map fun record =>
    record.placedAt (rebased target next record) options.timestamp

theorem movedRecords_within {x : GroupRecord} (hgroups : ∀ group ∈ groups, Normalised group.path)
    (ht : Normalised target) (hn : Normalised next)
    (h : x ∈ movedRecords env groups hosts target next options) :
    x.within (some next) = true := by
  obtain ⟨record, hrecord, rfl⟩ := List.mem_map.mp h
  exact within_rebased (affected_normalised hgroups hrecord) ht hn (affected_within hrecord)

theorem outside_not_within {x : GroupRecord} (hclear : Clear groups hosts target next)
    (h : x ∈ outside groups target) : ¬ x.within (some next) = true := by
  obtain ⟨hmem, hnot⟩ := outside_subset h
  intro hwithin
  rw [hclear.group_within x hmem hwithin] at hnot
  cases hnot

theorem Changed.affected_back (h : Changed env groups hosts target next options result)
    (hgroups : ∀ group ∈ groups, Normalised group.path) (hoptions : options.KeepsPlaces)
    (ht : Normalised target) (hn : Normalised next) (hclear : Clear groups hosts target next) :
    affected env result.groups result.hosts next =
      movedRecords env groups hosts target next options := by
  rw [affected, h.no_implicit hgroups hoptions ht hn hclear, List.append_nil, h.groups_eq,
    List.filter_append, List.filter_eq_nil_iff.mpr fun x hx => outside_not_within hclear hx,
    List.nil_append]
  exact List.filter_eq_self.mpr fun x hx => movedRecords_within hgroups ht hn hx

theorem Changed.outside_back (h : Changed env groups hosts target next options result)
    (hgroups : ∀ group ∈ groups, Normalised group.path) (ht : Normalised target)
    (hn : Normalised next) (hclear : Clear groups hosts target next) :
    outside result.groups next = outside groups target := by
  rw [outside_of_nodup (h.paths.sublist (List.filter_sublist.map _)), h.groups_eq,
    List.filter_append]
  rw [List.filter_eq_self.mpr fun x hx => by simp [outside_not_within hclear hx],
    List.filter_eq_nil_iff.mpr fun x hx => by simp [movedRecords_within hgroups ht hn hx],
    List.append_nil]

theorem map_rebased_back (hgroups : ∀ group ∈ groups, Normalised group.path)
    (ht : Normalised target) (hn : Normalised next) :
    (movedRecords env groups hosts target next options).map (rebased next target) =
      (affected env groups hosts target).map (·.path) := by
  rw [movedRecords, List.map_map]
  apply List.map_congr_left
  intro record hrecord
  exact rebased_back (affected_normalised hgroups hrecord) ht hn (affected_within hrecord)

theorem Changed.nodup_affected (h : Changed env groups hosts target next options result) :
    ((affected env groups hosts target).map (·.path)).Nodup := by
  have hpaths := h.paths
  rw [h.groups_eq, List.map_append, List.map_map] at hpaths
  have hmoved := hpaths.of_append_right
  have heq : (affected env groups hosts target).map
      ((·.path) ∘ fun r => r.placedAt (rebased target next r) options.timestamp) =
      ((affected env groups hosts target).map (·.path)).map
        fun path => (rebaseGroupPath (some path) target (some next)).getD [] := by
    rw [List.map_map]
    rfl
  rw [heq] at hmoved
  exact hmoved.of_map

theorem Changed.back_ok (h : Changed env groups hosts target next options result)
    (hgroups : ∀ group ∈ groups, Normalised group.path) (hoptions : options.KeepsPlaces)
    (hoccupied : back.pathAlsoOccupied = options.pathAlsoOccupied)
    (ht : Normalised target) (hn : Normalised next) (hclear : Clear groups hosts target next) :
    ∃ final, mutateGroupPathIn env result.groups result.hosts next target back = .ok final := by
  have haffected := h.affected_back hgroups hoptions ht hn hclear
  have houtside := h.outside_back hgroups ht hn hclear
  have hnotwithin : ∀ x ∈ outside groups target, ∀ y ∈ affected env groups hosts target,
      x.path ≠ y.path := by
    intro x hx y hy heq
    have hnot := (outside_subset hx).2
    rw [GroupRecord.within, heq] at hnot
    exact absurd (affected_within hy) (by rw [GroupRecord.within, hnot]; decide)
  apply ok_of_free
  · rw [haffected, hoccupied]
    rcases h.found with hfound | hfound | hfound
    · exact .inl fun hnil => hfound (List.map_eq_nil_iff.mp hnil)
    · obtain ⟨host, hhost⟩ := List.exists_mem_of_ne_nil _ hfound
      obtain ⟨hmem, hwithin⟩ := List.mem_filter.mp hhost
      refine .inr (.inl (List.ne_nil_of_mem (a := movedHost target next options host) ?_))
      rw [List.mem_filter, h.hosts_eq]
      exact ⟨List.mem_map_of_mem hmem, movedHost_within hoptions ht hn hwithin⟩
    · exact .inr (.inr hfound)
  · intro x hx hpath
    rw [houtside] at hx
    have hnot := (outside_subset hx).2
    rw [GroupRecord.within, hpath] at hnot
    exact absurd ((within_iff ht.ne_nil ht.ne_nil).mpr (List.prefix_refl _))
      (by rw [hnot]; decide)
  · intro x hx
    rw [haffected] at hx
    have hwithin := movedRecords_within hgroups ht hn hx
    obtain ⟨record, hrecord, rfl⟩ := List.mem_map.mp hx
    have hnormal : Normalised (rebased target next record) :=
      normalised_rebase (h.rebased_eq record hrecord)
    obtain ⟨rest, hrest⟩ := exists_rest hnormal.ne_nil hn.ne_nil hwithin
    change rebaseGroupPath (some (rebased target next record)) next (some target) =
      some ((rebaseGroupPath (some (rebased target next record)) next (some target)).getD [])
    rw [rebaseGroupPath_within hnormal hn ht hrest]
    rfl
  · rw [haffected, houtside, map_rebased_back hgroups ht hn]
    refine (nodup_paths_outside groups target).append h.nodup_affected ?_
    intro path hpath hpath'
    obtain ⟨x, hx, rfl⟩ := List.mem_map.mp hpath
    obtain ⟨y, hy, heq⟩ := List.mem_map.mp hpath'
    exact hnotwithin x hx y hy heq.symm

theorem Changed.restored (h : Changed env groups hosts target next options result)
    (hfinal : Changed env result.groups result.hosts next target back final)
    (hwf : WellFormed { groups, hosts })
    (hnames : ∀ host ∈ hosts, normalizeGroupPath host.groupName = host.groupName)
    (hoptions : options.KeepsPlaces) (hback : back.KeepsPlaces) (ht : Normalised target)
    (hn : Normalised next) (hclear : Clear groups hosts target next) :
    Restored env groups hosts target final := by
  have hgroups : ∀ group ∈ groups, Normalised group.path := fun group hgroup =>
    (hwf.placed group hgroup).normalised
  constructor
  · have hkeys : (movedRecords env groups hosts target next options).map (fun record =>
        (record.id, rebased next target record)) =
        (affected env groups hosts target).map fun record => (record.id, record.path) := by
      rw [movedRecords, List.map_map]
      apply List.map_congr_left
      intro record hrecord
      exact congrArg (Prod.mk record.id)
        (rebased_back (affected_normalised hgroups hrecord) ht hn (affected_within hrecord))
    have hall : (final.groups.map fun group => (group.id, group.path)) =
        ((outside groups target).map fun group => (group.id, group.path)) ++
          (affected env groups hosts target).map fun record => (record.id, record.path) := by
      rw [hfinal.groups_eq, h.outside_back hgroups ht hn hclear,
        h.affected_back hgroups hoptions ht hn hclear, List.map_append, List.map_map, ← hkeys]
      rfl
    rw [hall, materialize_eq, affected, ← List.map_append, ← List.append_assoc,
      outside_of_nodup (hwf.paths.sublist (List.filter_sublist.map _))]
    refine ((List.perm_append_comm.trans ?_).append_right _).map _
    exact List.filter_append_perm _ groups
  · rw [hfinal.hosts_eq, h.hosts_eq, List.map_map, List.map_map]
    apply List.map_congr_left
    intro host hhost
    simp only [Function.comp, movedHost_id hback, movedHost_id hoptions]
    by_cases hwithin : host.within (some target) = true
    · rw [movedHost_back hoptions hback ht hn (hnames host hhost) hwithin]
    · rw [movedHost_outside hwithin, movedHost_outside]
      exact fun hnext => hwithin (hclear.host_within host hhost hnext)

theorem Changed.clear (h : Changed env groups hosts target next options result)
    (hfinal : Changed env result.groups result.hosts next target back final)
    (hresult : Tree result.groups) (hback : back.KeepsPlaces) (ht : Normalised target)
    (hn : Normalised next) (hrestored : Restored env groups hosts target final) :
    Clear groups hosts target next := by
  constructor
  · intro group hgroup hwithin
    have hmem : (group.id, group.path) ∈ final.groups.map fun group => (group.id, group.path) := by
      refine hrestored.group_paths.mem_iff.mpr ?_
      rw [materialize_eq]
      exact List.mem_map_of_mem (List.mem_append_left _ hgroup)
    obtain ⟨x, hx, heq⟩ := List.mem_map.mp hmem
    have hpath : x.path = group.path := congrArg Prod.snd heq
    rw [GroupRecord.within] at hwithin ⊢
    rw [← hpath] at hwithin ⊢
    rw [hfinal.groups_eq] at hx
    rcases List.mem_append.mp hx with hx | hx
    · have hnot := (outside_subset hx).2
      rw [GroupRecord.within, hwithin] at hnot
      cases hnot
    · obtain ⟨record, hrecord, rfl⟩ := List.mem_map.mp hx
      have hnormal : Normalised record.path := affected_normalised
        (fun group hgroup => (hresult.placed group hgroup).normalised) hrecord
      exact within_rebased hnormal hn ht (affected_within hrecord)
  · intro host hhost hwithin
    by_contra houtside
    have hnames := hrestored.host_groups
    rw [hfinal.hosts_eq, h.hosts_eq, List.map_map, List.map_map] at hnames
    have hsame := congrArg Prod.snd (List.map_inj_left.mp hnames host hhost)
    simp only [Function.comp, movedHost_outside houtside] at hsame
    have hthere := movedHost_within hback hn ht hwithin
    rw [HostRecord.within, hsame] at hthere
    exact houtside hthere

/-- A rename or a move that succeeds is undone by the one back if and only if no record and no host
outside of the target was at the new path or below it. -/
theorem undo_iff (env : Env) (groups : List GroupRecord) (hosts : List HostRecord)
    (hwf : WellFormed { groups, hosts })
    (hnames : ∀ host ∈ hosts, normalizeGroupPath host.groupName = host.groupName)
    (target next : Text) (ht : Normalised target) (hn : Normalised next) (options back : Options)
    (hoptions : options.KeepsPlaces) (hback : back.KeepsPlaces)
    (hoccupied : back.pathAlsoOccupied = options.pathAlsoOccupied) (result : Library)
    (h : mutateGroupPathIn env groups hosts target next options = .ok result) :
    (∃ final, mutateGroupPathIn env result.groups result.hosts next target back = .ok final ∧
      Restored env groups hosts target final) ↔ Clear groups hosts target next := by
  have hchanged := changed_of_ok h
  constructor
  · rintro ⟨final, hfinal, hrestored⟩
    exact hchanged.clear (changed_of_ok hfinal) ((wellFormed_iff_tree.mp hwf).mutate h) hback ht
      hn hrestored
  · intro hclear
    have hgroups : ∀ group ∈ groups, Normalised group.path := fun group hgroup =>
      (hwf.placed group hgroup).normalised
    obtain ⟨final, hfinal⟩ := hchanged.back_ok hgroups hoptions hoccupied ht hn hclear
    exact ⟨final, hfinal, hchanged.restored (changed_of_ok hfinal) hwf hnames hoptions hback ht hn
      hclear⟩

theorem implicit_eq_nil {withinPath : Option Text}
    (h : ∀ host ∈ hosts, ∀ p ∈ withAncestors host.groupName,
      isGroupWithinPath (some p) withinPath = true → ∃ group ∈ groups, group.path = p) :
    implicitGroups env groups hosts withinPath = [] := by
  rw [← List.map_eq_nil_iff, List.eq_nil_iff_forall_not_mem]
  intro p hp
  obtain ⟨hnew, hwithin, host, hhost, hin⟩ := mem_implicitGroups.mp hp
  obtain ⟨group, hgroup, hpath⟩ := h host hhost p hin hwithin
  exact hnew group hgroup hpath

/-- The groups `a` and `a/b`. -/
def nested : List GroupRecord :=
  [⟨[1], [97], [97], none, none, "t", "t"⟩,
    ⟨[2], [98], [97, 47, 98], some [97], none, "t", "t"⟩]

/-- Renamed to `c` and back, with a host in `a/b`. -/
theorem undo_iff_nested :
    ∃ result, mutateGroupPathIn plainEnv nested [⟨[3], some [97, 47, 98], "t", "t"⟩] [97] [99]
        { timestamp := "u" } = .ok result ∧
      ∃ final, mutateGroupPathIn plainEnv result.groups result.hosts [99] [97]
          { timestamp := "v" } = .ok final ∧
        Restored plainEnv nested [⟨[3], some [97, 47, 98], "t", "t"⟩] [97] final := by
  have hnone : implicitGroups plainEnv nested [⟨[3], some [97, 47, 98], "t", "t"⟩]
      (some [97]) = [] := implicit_eq_nil (by decide)
  have haffected : affected plainEnv nested [⟨[3], some [97, 47, 98], "t", "t"⟩] [97] = nested := by
    rw [affected, hnone]
    decide
  have hok : ∃ result, mutateGroupPathIn plainEnv nested
      [⟨[3], some [97, 47, 98], "t", "t"⟩] [97] [99] { timestamp := "u" } = .ok result := by
    apply ok_of_free
    · rw [haffected]
      decide
    · decide
    · rw [haffected]
      decide
    · rw [haffected]
      decide
  obtain ⟨result, h⟩ := hok
  refine ⟨result, h, (undo_iff plainEnv nested [⟨[3], some [97, 47, 98], "t", "t"⟩] ?_ (by decide)
    [97] [99] rfl rfl { timestamp := "u" } { timestamp := "v" } (keepsPlaces_id "u" false)
    (keepsPlaces_id "v" false) rfl result h).mpr ⟨by decide, by decide⟩⟩
  refine ⟨?_, by decide⟩
  intro record hmem
  obtain rfl | rfl : record = ⟨[1], [97], [97], none, none, "t", "t"⟩ ∨
      record = ⟨[2], [98], [97, 47, 98], some [97], none, "t", "t"⟩ := by
    simpa [nested] using hmem
  · exact ⟨rfl, rfl, rfl⟩
  · exact ⟨rfl, rfl, rfl⟩

/-- A host in `b`, for which there is no record, goes to `a` when the rename of `a` to `b` is
undone. -/
theorem undo_takes_host :
    ∃ result, mutateGroupPathIn plainEnv (nested.take 1) [⟨[3], some [98], "t", "t"⟩] [97] [98]
        { timestamp := "u" } = .ok result ∧
      ¬ ∃ final, mutateGroupPathIn plainEnv result.groups result.hosts [98] [97]
          { timestamp := "v" } = .ok final ∧
        Restored plainEnv (nested.take 1) [⟨[3], some [98], "t", "t"⟩] [97] final := by
  have hnone : implicitGroups plainEnv (nested.take 1) [⟨[3], some [98], "t", "t"⟩]
      (some [97]) = [] := implicit_eq_nil (by decide)
  have haffected : affected plainEnv (nested.take 1) [⟨[3], some [98], "t", "t"⟩] [97] =
      nested.take 1 := by
    rw [affected, hnone]
    decide
  have hok : ∃ result, mutateGroupPathIn plainEnv (nested.take 1)
      [⟨[3], some [98], "t", "t"⟩] [97] [98] { timestamp := "u" } = .ok result := by
    apply ok_of_free
    · rw [haffected]
      decide
    · decide
    · rw [haffected]
      decide
    · rw [haffected]
      decide
  obtain ⟨result, h⟩ := hok
  refine ⟨result, h, ?_⟩
  rintro ⟨final, hfinal, hrestored⟩
  have htree : Tree (nested.take 1) := by
    refine ⟨?_, by decide⟩
    intro record hmem
    obtain rfl := List.mem_singleton.mp hmem
    exact ⟨rfl, rfl, rfl⟩
  have hclear := (changed_of_ok h).clear (changed_of_ok hfinal) (htree.mutate h)
    (keepsPlaces_id "v" false) rfl rfl hrestored
  exact absurd (hclear.host_within _ List.mem_cons_self (by decide)) (by decide)

end Dolgate.GroupMutations
