import Dolgate.GroupUndo

set_option autoImplicit false

/-! The saved workspaces after a rename: those of the device where it is made, and those of another
that infers it from the ids of the groups that it pulls. -/

namespace Dolgate.GroupMutations

open GroupPaths Segments

structure SavedWorkspaceRecord where
  id : Text
  groupName : Option Text
  updatedAt : String
  deriving DecidableEq, Repr

structure GroupPathRename where
  src : Text
  dst : Text
  deriving DecidableEq, Repr

def previousPathById (previousGroups : List GroupRecord) (id : Text) : Option Text :=
  (previousGroups.reverse.find? fun record => record.id = id).map (·.path)

def renameOf (previousGroups : List GroupRecord) (record : GroupRecord) : Option GroupPathRename :=
  match previousPathById previousGroups record.id with
  | none => none
  | some src =>
      if src ≠ [] ∧ record.path ≠ [] ∧ src ≠ record.path then some ⟨src, record.path⟩ else none

def collectRenamedGroupPaths (previousGroups nextGroups : List GroupRecord) :
    List GroupPathRename :=
  (nextGroups.filterMap (renameOf previousGroups)).mergeSort fun left right =>
    decide (right.src.length ≤ left.src.length)

def rebaseWorkspace (renames : List GroupPathRename) (survivingGroupPaths : List Text)
    (timestamp : String) (workspace : SavedWorkspaceRecord) : SavedWorkspaceRecord :=
  match normalizeGroupPath workspace.groupName with
  | none => workspace
  | some currentGroupName =>
      if currentGroupName ∈ survivingGroupPaths then workspace
      else
        match renames.find? fun rename =>
          isGroupWithinPath (some currentGroupName) (some rename.src) with
        | none => workspace
        | some rename =>
            let groupName := rebaseGroupPath (some currentGroupName) rename.src (some rename.dst)
            if groupName = some currentGroupName then workspace
            else { workspace with groupName, updatedAt := timestamp }

def rebaseSavedWorkspaceGroups (workspaces : List SavedWorkspaceRecord)
    (renames : List GroupPathRename) (survivingGroupPaths : List Text) (timestamp : String) :
    List SavedWorkspaceRecord :=
  workspaces.map (rebaseWorkspace renames survivingGroupPaths timestamp)

/-- What `applyRemoteSnapshotAtomically` does to the saved workspaces that come with the groups. -/
def applyRemoteWorkspaces (env : Env) (state pulled : Library)
    (workspaces : List SavedWorkspaceRecord) (timestamp : String) : List SavedWorkspaceRecord :=
  let renamedGroupPaths := collectRenamedGroupPaths
    (materializeImplicitHostGroups env state.groups state.hosts none) pulled.groups
  if renamedGroupPaths.length > 0 then
    rebaseSavedWorkspaceGroups workspaces renamedGroupPaths
      (collectGroupPaths env pulled.groups pulled.hosts) timestamp
  else workspaces

def mutateWorkspace (targetPath nextPath : Text) (timestamp : String)
    (workspace : SavedWorkspaceRecord) : SavedWorkspaceRecord :=
  let groupName :=
    rebaseGroupPath (normalizeGroupPath workspace.groupName) targetPath (some nextPath)
  if groupName = normalizeGroupPath workspace.groupName then workspace
  else { workspace with groupName, updatedAt := timestamp }

/-- What `applyPathMutation` does to them on the device itself. -/
def mutateWorkspaces (targetPath nextPath : Text) (timestamp : String)
    (workspaces : List SavedWorkspaceRecord) : List SavedWorkspaceRecord :=
  workspaces.map (mutateWorkspace targetPath nextPath timestamp)

/-- A path of the target that can be followed: some group that has been moved is at it or above it,
and none of what has been moved comes to be at it or below it. -/
structure Followed (groups : List GroupRecord) (hosts : List HostRecord) (target next path : Text) :
    Prop where
  seen : (∃ host ∈ hosts, host.within (some target) = true) ∨
    ∃ group ∈ groups, group.within (some target) = true ∧
      isGroupWithinPath (some path) (some group.path) = true
  no_group : ∀ group ∈ groups, group.within (some target) = true →
    isGroupWithinPath (rebaseGroupPath (some group.path) target (some next)) (some path) = false
  no_host : ∀ host ∈ hosts, host.within (some target) = true →
    isGroupWithinPath (rebaseGroupPath (normalizeGroupPath host.groupName) target (some next))
      (some path) = false

variable {env : Env} {groups previous : List GroupRecord} {hosts : List HostRecord}
  {record x : GroupRecord} {target next p : Text} {rest : List Text} {options : Options}
  {result pulled : Library} {rename : GroupPathRename}

theorem previousPathById_eq (hids : (previous.map (·.id)).Nodup) (h : record ∈ previous) :
    previousPathById previous record.id = some record.path := by
  rw [previousPathById]
  cases hfind : previous.reverse.find? fun r => decide (r.id = record.id) with
  | none =>
    have hnone := List.find?_eq_none.mp hfind record (List.mem_reverse.mpr h)
    simp at hnone
  | some r =>
    have hr := List.mem_reverse.mp (List.mem_of_find?_eq_some hfind)
    have hid : r.id = record.id := by simpa using List.find?_some hfind
    rw [List.inj_on_of_nodup_map hids hr h hid]
    rfl

theorem implicit_subset (h : record ∈ implicitGroups env groups hosts (some target)) :
    record ∈ implicitGroups env groups hosts none := by
  rw [implicitGroups, materializeImplicitHostGroups, List.drop_left] at h ⊢
  obtain ⟨path, hpath, heq⟩ := List.mem_filterMap.mp h
  refine List.mem_filterMap.mpr ⟨path, hpath, ?_⟩
  split at heq
  · cases heq
  · next hcontinue =>
    rw [Bool.or_eq_true, not_or] at hcontinue
    rw [if_neg]
    · exact heq
    · rw [Bool.or_eq_true, not_or]
      exact ⟨hcontinue.1, by simp [isGroupWithinPath]⟩

theorem affected_subset (h : record ∈ affected env groups hosts target) :
    record ∈ materializeImplicitHostGroups env groups hosts none := by
  rw [materialize_eq]
  rcases List.mem_append.mp h with h | h
  · exact List.mem_append_left _ (List.mem_filter.mp h).1
  · exact List.mem_append_right _ (implicit_subset h)

theorem rebased_ne (hp : Normalised record.path) (ht : Normalised target) (hn : Normalised next)
    (hne : next ≠ target) (h : record.within (some target) = true) :
    record.path ≠ rebased target next record := by
  obtain ⟨rest, hrest⟩ := within_rest hp ht h
  intro heq
  have hsegs := congrArg segments heq
  rw [rebased_rest hp ht hn hrest, segments_rest hp hn hrest, hrest] at hsegs
  exact hne (segments_injective (List.append_cancel_right hsegs)).symm

theorem mem_renames (h : Changed env groups hosts target next options result)
    (hgroups : ∀ group ∈ groups, Normalised group.path)
    (hids : ((materializeImplicitHostGroups env groups hosts none).map (·.id)).Nodup)
    (ht : Normalised target) (hn : Normalised next) (hne : next ≠ target)
    (hpulled : pulled.groups.Perm result.groups) :
    rename ∈ collectRenamedGroupPaths (materializeImplicitHostGroups env groups hosts none)
        pulled.groups ↔
      ∃ record ∈ affected env groups hosts target,
        rename = ⟨record.path, rebased target next record⟩ := by
  rw [collectRenamedGroupPaths, List.mem_mergeSort, List.mem_filterMap]
  have hmoved : ∀ record ∈ affected env groups hosts target,
      renameOf (materializeImplicitHostGroups env groups hosts none)
        (record.placedAt (rebased target next record) options.timestamp) =
        some ⟨record.path, rebased target next record⟩ := by
    intro record hrecord
    have hp := affected_normalised hgroups hrecord
    have hprevious := previousPathById_eq hids (affected_subset hrecord)
    have hthere : Normalised (rebased target next record) :=
      normalised_rebase (h.rebased_eq record hrecord)
    rw [renameOf, placedAt_id, hprevious]
    exact if_pos ⟨hp.ne_nil, hthere.ne_nil, rebased_ne hp ht hn hne (affected_within hrecord)⟩
  constructor
  · rintro ⟨x, hx, hrename⟩
    rw [hpulled.mem_iff, h.groups_eq] at hx
    rcases List.mem_append.mp hx with hx | hx
    · have hmem : x ∈ materializeImplicitHostGroups env groups hosts none := by
        rw [materialize_eq]
        exact List.mem_append_left _ (outside_subset hx).1
      rw [renameOf, previousPathById_eq hids hmem] at hrename
      simp at hrename
    · obtain ⟨record, hrecord, rfl⟩ := List.mem_map.mp hx
      rw [hmoved record hrecord] at hrename
      exact ⟨record, hrecord, (Option.some.inj hrename).symm⟩
  · rintro ⟨record, hrecord, rfl⟩
    refine ⟨record.placedAt (rebased target next record) options.timestamp, ?_,
      hmoved record hrecord⟩
    rw [hpulled.mem_iff, h.groups_eq]
    exact List.mem_append_right _ (List.mem_map_of_mem hrecord)

/-- A path of the target is still there if something of the target comes to be at it or below it. -/
theorem survives_iff (h : Changed env groups hosts target next options result)
    (hgroups : ∀ group ∈ groups, Normalised group.path) (hoptions : options.KeepsPlaces)
    (ht : Normalised target) (hn : Normalised next) (hp : Normalised p)
    (hwithin : isGroupWithinPath (some p) (some target) = true)
    (hpulled : pulled.groups.Perm result.groups) (hpulledHosts : pulled.hosts.Perm result.hosts) :
    p ∈ collectGroupPaths env pulled.groups pulled.hosts ↔
      (∃ group ∈ groups, group.within (some target) = true ∧
        isGroupWithinPath (rebaseGroupPath (some group.path) target (some next)) (some p) = true) ∨
      ∃ host ∈ hosts, host.within (some target) = true ∧
        isGroupWithinPath (rebaseGroupPath (normalizeGroupPath host.groupName) target (some next))
          (some p) = true := by
  have htarget := (within_iff hp.ne_nil ht.ne_nil).mp hwithin
  have hmoved : ∀ record ∈ affected env groups hosts target,
      p ∈ withAncestors (some (rebased target next record)) ↔
        isGroupWithinPath (rebaseGroupPath (some record.path) target (some next)) (some p) =
          true := by
    intro record hrecord
    have hthere : Normalised (rebased target next record) :=
      normalised_rebase (h.rebased_eq record hrecord)
    rw [h.rebased_eq record hrecord, ← within_iff_mem hp.ne_nil, hthere]
  have hmovedHost : ∀ host : HostRecord, host.within (some target) = true →
      (p ∈ withAncestors (movedHost target next options host).groupName ↔
        isGroupWithinPath (rebaseGroupPath (normalizeGroupPath host.groupName) target (some next))
          (some p) = true) := by
    intro host hhost
    obtain ⟨q, rest, hq, hrest⟩ := host_rest ht hhost
    have hqn : Normalised q := normalised_of_normalize hq
    rw [movedHost_rest hoptions ht hn hq hrest, hq, rebaseGroupPath_within hqn ht hn hrest,
      ← within_iff_mem hp.ne_nil, normalised_rest hqn hn hrest]
  rw [mem_collectGroupPaths]
  constructor
  · rintro (⟨x, hx, hin⟩ | ⟨x, hx, hin⟩)
    · rw [hpulled.mem_iff, h.groups_eq] at hx
      rcases List.mem_append.mp hx with hx | hx
      · obtain ⟨hmem, hnot⟩ := outside_subset hx
        obtain ⟨q, hq, hbelow⟩ := mem_withAncestors.mp hin
        have hnormal := hgroups x hmem
        rw [hnormal] at hq
        rw [← Option.some.inj hq] at hbelow
        rw [GroupRecord.within,
          (within_iff hnormal.ne_nil ht.ne_nil).mpr (htarget.trans hbelow)] at hnot
        cases hnot
      · obtain ⟨record, hrecord, rfl⟩ := List.mem_map.mp hx
        have hthere := (hmoved record hrecord).mp hin
        rcases List.mem_append.mp hrecord with hgroup | himplicit
        · exact .inl ⟨record, (List.mem_filter.mp hgroup).1, (List.mem_filter.mp hgroup).2, hthere⟩
        · -- the record is made for a host below it
          have hpath := affected_normalised hgroups hrecord
          obtain ⟨-, hrecordwithin, host, hhost, hsource⟩ :=
            mem_implicitGroups.mp (List.mem_map_of_mem himplicit)
          obtain ⟨q, hq, hbelow⟩ := mem_withAncestors.mp hsource
          have hqn : Normalised q := normalised_of_normalize hq
          obtain ⟨above, habove⟩ := within_rest hpath ht (implicit_within himplicit)
          obtain ⟨below, hbelow⟩ := hbelow
          have hrest : segments q = segments target ++ (above ++ below) := by
            rw [← hbelow, habove, List.append_assoc]
          refine .inr ⟨host, hhost, ?_, ?_⟩
          · rw [HostRecord.within, hq, within_iff hqn.ne_nil ht.ne_nil]
            exact ⟨above ++ below, hrest.symm⟩
          · rw [rebaseGroupPath_within hpath ht hn habove,
              within_iff (normalised_rest hpath hn habove).ne_nil hp.ne_nil,
              segments_rest hpath hn habove] at hthere
            rw [hq, rebaseGroupPath_within hqn ht hn hrest,
              within_iff (normalised_rest hqn hn hrest).ne_nil hp.ne_nil,
              segments_rest hqn hn hrest, ← List.append_assoc]
            exact hthere.trans (List.prefix_append _ _)
    · rw [hpulledHosts.mem_iff, h.hosts_eq] at hx
      obtain ⟨host, hhost, rfl⟩ := List.mem_map.mp hx
      by_cases hinside : host.within (some target) = true
      · exact .inr ⟨host, hhost, hinside, (hmovedHost host hinside).mp hin⟩
      · rw [movedHost_outside hinside] at hin
        obtain ⟨q, hq, hbelow⟩ := mem_withAncestors.mp hin
        refine absurd ?_ hinside
        rw [HostRecord.within, hq, within_iff (normalised_of_normalize hq).ne_nil ht.ne_nil]
        exact htarget.trans hbelow
  · rintro (⟨group, hgroup, hinside, hthere⟩ | ⟨host, hhost, hinside, hthere⟩)
    · have hrecord : group ∈ affected env groups hosts target :=
        List.mem_append_left _ (List.mem_filter.mpr ⟨hgroup, hinside⟩)
      refine .inl ⟨group.placedAt (rebased target next group) options.timestamp, ?_,
        (hmoved group hrecord).mpr hthere⟩
      rw [hpulled.mem_iff, h.groups_eq]
      exact List.mem_append_right _ (List.mem_map_of_mem hrecord)
    · refine .inr ⟨movedHost target next options host, ?_, (hmovedHost host hinside).mpr hthere⟩
      rw [hpulledHosts.mem_iff, h.hosts_eq]
      exact List.mem_map_of_mem hhost

theorem seen_iff (ht : Normalised target)
    (hwithin : isGroupWithinPath (some p) (some target) = true) :
    (∃ record ∈ affected env groups hosts target,
      isGroupWithinPath (some p) (some record.path) = true) ↔
    (∃ host ∈ hosts, host.within (some target) = true) ∨
      ∃ group ∈ groups, group.within (some target) = true ∧
        isGroupWithinPath (some p) (some group.path) = true := by
  constructor
  · rintro ⟨record, hrecord, hin⟩
    rcases List.mem_append.mp hrecord with hgroup | himplicit
    · exact .inr ⟨record, (List.mem_filter.mp hgroup).1, (List.mem_filter.mp hgroup).2, hin⟩
    · obtain ⟨-, hrecordwithin, host, hhost, hsource⟩ :=
        mem_implicitGroups.mp (List.mem_map_of_mem himplicit)
      obtain ⟨q, hq, hbelow⟩ := mem_withAncestors.mp hsource
      have hqn : Normalised q := normalised_of_normalize hq
      refine .inl ⟨host, hhost, ?_⟩
      rw [HostRecord.within, hq, within_iff hqn.ne_nil ht.ne_nil]
      exact ((within_iff (ne_nil_above hqn hbelow) ht.ne_nil).mp hrecordwithin).trans hbelow
  · rintro (⟨host, hhost, hinside⟩ | ⟨group, hgroup, hinside, hin⟩)
    · by_cases hknown : ∃ group ∈ groups, group.path = target
      · obtain ⟨group, hgroup, hpath⟩ := hknown
        refine ⟨group, List.mem_append_left _ (List.mem_filter.mpr ⟨hgroup, ?_⟩), ?_⟩
        · rw [GroupRecord.within, hpath, within_iff ht.ne_nil ht.ne_nil]
        · rw [hpath]
          exact hwithin
      · have himplicit : target ∈
            (implicitGroups env groups hosts (some target)).map (·.path) := by
          refine mem_implicitGroups.mpr ⟨?_, ?_, host, hhost, ?_⟩
          · intro group hgroup hpath
            exact hknown ⟨group, hgroup, hpath⟩
          · rw [within_iff ht.ne_nil ht.ne_nil]
          · exact (host_within_iff_mem ht.ne_nil).mp hinside
        obtain ⟨record, hrecord, hpath⟩ := List.mem_map.mp himplicit
        refine ⟨record, List.mem_append_right _ hrecord, ?_⟩
        rw [hpath]
        exact hwithin
    · exact ⟨group, List.mem_append_left _ (List.mem_filter.mpr ⟨hgroup, hinside⟩), hin⟩

/-! ### One workspace -/

variable {workspace : SavedWorkspaceRecord} {timestamp : String} {surviving : List Text}
  {renames : List GroupPathRename}

theorem mutateWorkspace_within (ht : Normalised target) (hn : Normalised next)
    (hne : next ≠ target) (hname : normalizeGroupPath workspace.groupName = some p)
    (hrest : segments p = segments target ++ rest) :
    (mutateWorkspace target next timestamp workspace).groupName =
      some (join slash (segments next ++ rest)) := by
  have hp : Normalised p := normalised_of_normalize hname
  have hmoved : rebaseGroupPath (some p) target (some next) =
      some (join slash (segments next ++ rest)) := rebaseGroupPath_within hp ht hn hrest
  rw [mutateWorkspace, hname, hmoved, if_neg]
  intro heq
  have hsegs := segments_rest hp hn hrest
  rw [Option.some.inj heq, hrest] at hsegs
  exact hne (segments_injective (List.append_cancel_right hsegs)).symm

theorem groupName_ne (hn : Normalised next) (hne : next ≠ target)
    (hname : normalizeGroupPath workspace.groupName = some p)
    (hrest : segments p = segments target ++ rest) :
    workspace.groupName ≠ some (join slash (segments next ++ rest)) := by
  have hp : Normalised p := normalised_of_normalize hname
  intro heq
  rw [heq, normalised_rest hp hn hrest] at hname
  have hsegs := segments_rest hp hn hrest
  rw [Option.some.inj hname, hrest] at hsegs
  exact hne (segments_injective (List.append_cancel_right hsegs)).symm

theorem rebaseWorkspace_kept (hname : normalizeGroupPath workspace.groupName = some p)
    (h : p ∈ surviving ∨
      ∀ rename ∈ renames, ¬ isGroupWithinPath (some p) (some rename.src) = true) :
    rebaseWorkspace renames surviving timestamp workspace = workspace := by
  unfold rebaseWorkspace
  rw [hname]
  dsimp only
  rcases h with h | h
  · exact if_pos h
  · split
    · rfl
    · rw [List.find?_eq_none.mpr h]

theorem rebaseWorkspace_followed (ht : Normalised target) (hn : Normalised next)
    (hne : next ≠ target) (hname : normalizeGroupPath workspace.groupName = some p)
    (hrest : segments p = segments target ++ rest) (hgone : p ∉ surviving)
    (hrenames : ∀ rename ∈ renames, ∃ record : GroupRecord, Normalised record.path ∧
      record.within (some target) = true ∧
        rename = ⟨record.path, rebased target next record⟩)
    (hseen : ∃ rename ∈ renames, isGroupWithinPath (some p) (some rename.src) = true) :
    (rebaseWorkspace renames surviving timestamp workspace).groupName =
      some (join slash (segments next ++ rest)) := by
  have hp : Normalised p := normalised_of_normalize hname
  unfold rebaseWorkspace
  rw [hname]
  dsimp only
  rw [if_neg hgone]
  cases hfind : renames.find? fun rename =>
      isGroupWithinPath (some p) (some rename.src) with
  | none =>
    obtain ⟨rename, hmem, hin⟩ := hseen
    exact absurd hin (List.find?_eq_none.mp hfind rename hmem)
  | some rename =>
    obtain ⟨record, hpath, hwithin, rfl⟩ := hrenames rename (List.mem_of_find?_eq_some hfind)
    have hin : isGroupWithinPath (some p) (some record.path) = true := by
      simpa using List.find?_some hfind
    obtain ⟨above, habove⟩ := within_rest hpath ht hwithin
    obtain ⟨below, hbelow⟩ := exists_rest hp.ne_nil hpath.ne_nil hin
    have hthere : Normalised (rebased target next record) := by
      rw [rebased_rest hpath ht hn habove]
      exact normalised_rest hpath hn habove
    have hall : segments target ++ rest = segments target ++ (above ++ below) := by
      rw [← hrest, hbelow, habove, List.append_assoc]
    have heq : rest = above ++ below := List.append_cancel_left hall
    have hmoved : rebaseGroupPath (some p) record.path (some (rebased target next record)) =
        some (join slash (segments next ++ rest)) := by
      rw [rebaseGroupPath_within hp hpath hthere hbelow, rebased_rest hpath ht hn habove,
        segments_rest hpath hn habove, List.append_assoc, ← heq]
    dsimp only
    rw [hmoved, if_neg]
    intro hsame
    have hsegs := segments_rest hp hn hrest
    rw [Option.some.inj hsame, hrest] at hsegs
    exact hne (segments_injective (List.append_cancel_right hsegs)).symm

theorem workspace_agrees_iff (h : Changed env groups hosts target next options result)
    (hgroups : ∀ group ∈ groups, Normalised group.path) (hoptions : options.KeepsPlaces)
    (hids : ((materializeImplicitHostGroups env groups hosts none).map (·.id)).Nodup)
    (ht : Normalised target) (hn : Normalised next) (hne : next ≠ target)
    (hpulled : pulled.groups.Perm result.groups) (hpulledHosts : pulled.hosts.Perm result.hosts)
    (timestamp timestamp' : String) (workspace : SavedWorkspaceRecord) :
    (rebaseWorkspace (collectRenamedGroupPaths
        (materializeImplicitHostGroups env groups hosts none) pulled.groups)
        (collectGroupPaths env pulled.groups pulled.hosts) timestamp workspace).groupName =
      (mutateWorkspace target next timestamp' workspace).groupName ↔
    ∀ path, normalizeGroupPath workspace.groupName = some path →
      isGroupWithinPath (some path) (some target) = true →
        Followed groups hosts target next path := by
  have hrenames : ∀ rename, rename ∈ collectRenamedGroupPaths
        (materializeImplicitHostGroups env groups hosts none) pulled.groups ↔
      ∃ record ∈ affected env groups hosts target,
        rename = ⟨record.path, rebased target next record⟩ := fun rename =>
    mem_renames h hgroups hids ht hn hne hpulled
  cases hname : normalizeGroupPath workspace.groupName with
  | none =>
    have hkept : mutateWorkspace target next timestamp' workspace = workspace := by
      rw [mutateWorkspace, hname]
      exact if_pos rfl
    unfold rebaseWorkspace
    rw [hkept, hname]
    simp
  | some p =>
    have hp : Normalised p := normalised_of_normalize hname
    by_cases hwithin : isGroupWithinPath (some p) (some target) = true
    · obtain ⟨rest, hrest⟩ := exists_rest hp.ne_nil ht.ne_nil hwithin
      have hsurvives := survives_iff h hgroups hoptions ht hn hp hwithin hpulled hpulledHosts
      have hseen := @seen_iff env groups hosts target p ht hwithin
      have hkept : workspace.groupName ≠ some (join slash (segments next ++ rest)) :=
        groupName_ne hn hne hname hrest
      rw [mutateWorkspace_within ht hn hne hname hrest]
      constructor
      · intro hagree path hpath _
        obtain rfl := Option.some.inj hpath
        have hgone : p ∉ collectGroupPaths env pulled.groups pulled.hosts := by
          intro hmem
          rw [rebaseWorkspace_kept hname (.inl hmem)] at hagree
          exact hkept hagree
        rw [hsurvives, not_or] at hgone
        refine ⟨hseen.mp ?_, ?_, ?_⟩
        · by_contra hnone
          rw [rebaseWorkspace_kept hname (.inr ?_)] at hagree
          · exact hkept hagree
          · intro rename hrename hin
            obtain ⟨record, hrecord, rfl⟩ := (hrenames rename).mp hrename
            exact hnone ⟨record, hrecord, hin⟩
        · intro group hgroup hinside
          rw [← Bool.not_eq_true]
          exact fun hin => hgone.1 ⟨group, hgroup, hinside, hin⟩
        · intro host hhost hinside
          rw [← Bool.not_eq_true]
          exact fun hin => hgone.2 ⟨host, hhost, hinside, hin⟩
      · intro hfollowed
        have hfollowed := hfollowed p rfl hwithin
        apply rebaseWorkspace_followed ht hn hne hname hrest
        · rw [hsurvives]
          rintro (⟨group, hgroup, hinside, hin⟩ | ⟨host, hhost, hinside, hin⟩)
          · rw [hfollowed.no_group group hgroup hinside] at hin
            cases hin
          · rw [hfollowed.no_host host hhost hinside] at hin
            cases hin
        · intro rename hrename
          obtain ⟨record, hrecord, rfl⟩ := (hrenames rename).mp hrename
          exact ⟨record, affected_normalised hgroups hrecord, affected_within hrecord, rfl⟩
        · obtain ⟨record, hrecord, hin⟩ := hseen.mpr hfollowed.seen
          exact ⟨_, (hrenames _).mpr ⟨record, hrecord, rfl⟩, hin⟩
    · have hlocal : mutateWorkspace target next timestamp' workspace = workspace := by
        rw [mutateWorkspace, hname]
        exact if_pos (rebaseGroupPath_outside hp ht (Bool.not_eq_true _ ▸ hwithin) (some next))
      rw [hlocal, rebaseWorkspace_kept hname (.inr ?_)]
      · refine iff_of_true rfl fun path hpath hin => absurd ?_ hwithin
        rwa [Option.some.inj hpath]
      · intro rename hrename hin
        obtain ⟨record, hrecord, rfl⟩ := (hrenames rename).mp hrename
        have hpath := affected_normalised hgroups hrecord
        apply hwithin
        rw [within_iff hp.ne_nil ht.ne_nil]
        exact ((within_iff hpath.ne_nil ht.ne_nil).mp (affected_within hrecord)).trans
          ((within_iff hp.ne_nil hpath.ne_nil).mp hin)

theorem applyRemoteWorkspaces_eq (env : Env) (state pulled : Library)
    (workspaces : List SavedWorkspaceRecord) (timestamp : String) :
    applyRemoteWorkspaces env state pulled workspaces timestamp =
      workspaces.map (rebaseWorkspace (collectRenamedGroupPaths
        (materializeImplicitHostGroups env state.groups state.hosts none) pulled.groups)
        (collectGroupPaths env pulled.groups pulled.hosts) timestamp) := by
  unfold applyRemoteWorkspaces rebaseSavedWorkspaceGroups
  dsimp only
  split
  · rfl
  · next hnone =>
    rw [List.length_eq_zero_iff.mp (Nat.eq_zero_of_not_pos hnone)]
    conv_lhs => rw [← List.map_id workspaces]
    apply List.map_congr_left
    intro workspace _
    cases hname : normalizeGroupPath workspace.groupName with
    | none =>
      unfold rebaseWorkspace
      rw [hname]
      rfl
    | some p => exact (rebaseWorkspace_kept hname (.inr (by simp))).symm

/-- The device that pulls a rename puts its workspaces into the groups that the device of the rename
has put them into if and only if the paths of those in the target can be followed. -/
theorem sync_agrees_iff (env : Env) (groups : List GroupRecord) (hosts : List HostRecord)
    (hwf : WellFormed { groups, hosts })
    (hids : ((materializeImplicitHostGroups env groups hosts none).map (·.id)).Nodup)
    (workspaces : List SavedWorkspaceRecord) (target next : Text) (ht : Normalised target)
    (hn : Normalised next) (hne : next ≠ target) (options : Options)
    (hoptions : options.KeepsPlaces) (result pulled : Library)
    (h : mutateGroupPathIn env groups hosts target next options = .ok result)
    (hpulled : pulled.groups.Perm result.groups) (hpulledHosts : pulled.hosts.Perm result.hosts)
    (timestamp : String) :
    (applyRemoteWorkspaces env { groups, hosts } pulled workspaces timestamp).map (·.groupName) =
      (mutateWorkspaces target next options.timestamp workspaces).map (·.groupName) ↔
    ∀ workspace ∈ workspaces, ∀ path, normalizeGroupPath workspace.groupName = some path →
      isGroupWithinPath (some path) (some target) = true →
        Followed groups hosts target next path := by
  rw [applyRemoteWorkspaces_eq, mutateWorkspaces, List.map_map, List.map_map, List.map_inj_left]
  refine forall₂_congr fun workspace _ => ?_
  have hgroups : ∀ group ∈ groups, Normalised group.path := fun group hgroup =>
    (hwf.placed group hgroup).normalised
  exact workspace_agrees_iff (changed_of_ok h) hgroups hoptions hids ht hn hne hpulled hpulledHosts
    timestamp options.timestamp workspace

/-- The groups `a` and `a/b` and a host in `a/b`, when `a` is renamed to `c`. -/
theorem sync_agrees_nested :
    ∃ result, mutateGroupPathIn plainEnv nested [⟨[3], some [97, 47, 98], "t", "t"⟩] [97] [99]
        { timestamp := "u" } = .ok result ∧
      (applyRemoteWorkspaces plainEnv
          { groups := nested, hosts := [⟨[3], some [97, 47, 98], "t", "t"⟩] }
          { groups := result.groups.reverse, hosts := result.hosts }
          [⟨[4], some [97, 47, 98], "t"⟩] "v").map (·.groupName) =
        (mutateWorkspaces [97] [99] "u" [⟨[4], some [97, 47, 98], "t"⟩]).map (·.groupName) := by
  have hnone : ∀ withinPath, implicitGroups plainEnv nested [⟨[3], some [97, 47, 98], "t", "t"⟩]
      withinPath = [] := by
    intro withinPath
    have hknown : ∀ host ∈ [(⟨[3], some [97, 47, 98], "t", "t"⟩ : HostRecord)],
        ∀ p ∈ withAncestors host.groupName, ∃ group ∈ nested, group.path = p := by
      decide
    exact implicit_eq_nil fun host hhost p hp _ => hknown host hhost p hp
  have haffected : affected plainEnv nested [⟨[3], some [97, 47, 98], "t", "t"⟩] [97] = nested := by
    rw [affected, hnone]
    decide
  have hok : ∃ result, mutateGroupPathIn plainEnv nested
      [⟨[3], some [97, 47, 98], "t", "t"⟩] [97] [99] { timestamp := "u" } = .ok result := by
    apply ok_of_free
    · rw [haffected]
      decide
    · decide
    · rw [haffected]
      decide
    · rw [haffected]
      decide
  obtain ⟨result, h⟩ := hok
  refine ⟨result, h, (sync_agrees_iff plainEnv nested [⟨[3], some [97, 47, 98], "t", "t"⟩] ?_ ?_
    [⟨[4], some [97, 47, 98], "t"⟩] [97] [99] rfl rfl (by decide) { timestamp := "u" }
    (keepsPlaces_id "u" false) result
    { groups := result.groups.reverse, hosts := result.hosts } h (List.reverse_perm _) (.refl _)
    "v").mpr ?_⟩
  · refine ⟨?_, by decide⟩
    intro record hmem
    obtain rfl | rfl : record = ⟨[1], [97], [97], none, none, "t", "t"⟩ ∨
        record = ⟨[2], [98], [97, 47, 98], some [97], none, "t", "t"⟩ := by
      simpa [nested] using hmem
    · exact ⟨rfl, rfl, rfl⟩
    · exact ⟨rfl, rfl, rfl⟩
  · rw [materialize_eq, hnone]
    decide
  · intro workspace hworkspace path hpath _
    obtain rfl := List.mem_singleton.mp hworkspace
    obtain rfl : [97, 47, 98] = path := Option.some.inj hpath
    exact ⟨by decide, by decide, by decide⟩

/-- The group `a/b`, whose parent has no record. -/
def orphan : List GroupRecord := [⟨[2], [98], [97, 47, 98], some [97], none, "t", "t"⟩]

/-- A workspace in `a` goes with `a` to `c` on the device of the rename, and stays on the other. -/
theorem sync_leaves_workspace :
    ∃ result, mutateGroupPathIn plainEnv orphan [] [97] [99] { timestamp := "u" } = .ok result ∧
      (applyRemoteWorkspaces plainEnv { groups := orphan, hosts := [] } result
          [⟨[4], some [97], "t"⟩] "v").map (·.groupName) = [some [97]] ∧
      (mutateWorkspaces [97] [99] "u" [⟨[4], some [97], "t"⟩]).map (·.groupName) =
        [some [99]] := by
  have hnone : ∀ withinPath, implicitGroups plainEnv orphan [] withinPath = [] := fun withinPath =>
    implicit_eq_nil fun _ hhost => (by cases hhost)
  have haffected : affected plainEnv orphan [] [97] = orphan := by
    rw [affected, hnone]
    decide
  have hok : ∃ result, mutateGroupPathIn plainEnv orphan [] [97] [99] { timestamp := "u" } =
      .ok result := by
    apply ok_of_free
    · rw [haffected]
      decide
    · decide
    · rw [haffected]
      decide
    · rw [haffected]
      decide
  obtain ⟨result, h⟩ := hok
  have hids : ((materializeImplicitHostGroups plainEnv orphan [] none).map (·.id)).Nodup := by
    rw [materialize_eq, hnone]
    decide
  have hgroups : ∀ group ∈ orphan, Normalised group.path := by
    intro group hgroup
    obtain rfl := List.mem_singleton.mp hgroup
    rfl
  refine ⟨result, h, ?_, by decide⟩
  rw [applyRemoteWorkspaces_eq, List.map_singleton, List.map_singleton,
    @rebaseWorkspace_kept [97] ⟨[4], some [97], "t"⟩ _ _ _ rfl (.inr ?_)]
  intro rename hrename
  obtain ⟨record, hrecord, rfl⟩ := (mem_renames (changed_of_ok h) hgroups hids rfl rfl (by decide)
    (.refl _)).mp hrename
  rw [haffected] at hrecord
  obtain rfl := List.mem_singleton.mp hrecord
  decide

end Dolgate.GroupMutations
