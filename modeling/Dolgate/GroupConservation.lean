import Dolgate.GroupChanges

set_option autoImplicit false

/-! Whether a change of the groups keeps every record. Records that share a path, and groups that
only hosts are in, are where it may not. -/

namespace Dolgate.GroupMutations

open GroupPaths Segments

structure Options.KeepsPlaces (options : Options) : Prop where
  id : ∀ host, (options.normalizeHost host).id = host.id
  groupName : ∀ host, normalizeGroupPath host.groupName = host.groupName →
    (options.normalizeHost host).groupName = host.groupName

/-- What was below the target is below `onto`, and everything else where it was. -/
def MovesBelow (target : Text) (onto : List Text) (old new : Option Text) : Prop :=
  (∃ rest, normalizeGroupPath old = some (join slash (segments target ++ rest)) ∧
    new = pathOf (onto ++ rest)) ∨
  (¬ ∃ rest, normalizeGroupPath old = some (join slash (segments target ++ rest))) ∧ new = old

/-- Every host and every group is there once, and the hosts have gone with their groups. -/
structure KeepsAll (target : Text) (onto : List Text) (groups : List GroupRecord)
    (hosts : List HostRecord) (result : Library) : Prop where
  hostIds : result.hosts.map (·.id) = hosts.map (·.id)
  groupIds : ∀ record ∈ groups, (result.groups.map (·.id)).count record.id = 1
  places : List.Forall₂ (fun host host' => MovesBelow target onto host.groupName host'.groupName)
    hosts result.hosts

/-- The ids are those of before; hosts go only with the whole subtree, and then those in it. -/
structure RemovesOnly (target : Text) (mode : GroupRemoveMode) (groups : List GroupRecord)
    (hosts : List HostRecord) (result : GroupRemoval) : Prop where
  ids : (result.groups.map (·.id) ++ result.removedGroupIds).Perm (groups.map (·.id))
  subtree : mode = .deleteSubtree →
    result.hosts = hosts.filter fun host => !host.within (some target)
  hostIds : mode = .reparentDescendants → result.hosts.map (·.id) = hosts.map (·.id)
  places : mode = .reparentDescendants → List.Forall₂ (fun host host' =>
    MovesBelow target (segments target).dropLast host.groupName host'.groupName) hosts result.hosts

/-- A record that stays in the map of paths: inside of the target, or the last with its path. -/
def Stays (groups : List GroupRecord) (target : Text) (record : GroupRecord) : Prop :=
  record.within (some target) = true ∨
    LastOf (groups.filter fun record => !record.within (some target)) record

variable {env : Env} {groups kept records : List GroupRecord} {hosts : List HostRecord}
  {target next : Text} {options : Options} {result : Library}

theorem host_within_iff {host : HostRecord} (ht : Normalised target) :
    host.within (some target) = true ↔
      ∃ rest, normalizeGroupPath host.groupName = some (join slash (segments target ++ rest)) := by
  rw [HostRecord.within]
  cases hpath : normalizeGroupPath host.groupName with
  | none =>
    obtain ⟨c, rest, hcons⟩ := List.exists_cons_of_ne_nil ht.ne_nil
    simp [hcons, isGroupWithinPath]
  | some p =>
    have hp : Normalised p := normalised_of_normalize hpath
    rw [within_iff hp.ne_nil ht.ne_nil]
    constructor
    · rintro ⟨rest, hrest⟩
      exact ⟨rest, by rw [hrest, join_segments]⟩
    · rintro ⟨rest, hrest⟩
      rw [Option.some.inj hrest]
      exact prefix_join target rest

theorem movesBelow_host {onto : List Text} {groupName : Option Text} {timestamp : String}
    {host : HostRecord} (hoptions : options.KeepsPlaces) (ht : Normalised target)
    (honto : ∀ s ∈ onto, Segment s)
    (hname : ∀ p rest, normalizeGroupPath host.groupName = some p →
      segments p = segments target ++ rest → groupName = pathOf (onto ++ rest)) :
    MovesBelow target onto host.groupName
      (if host.within (some target) then
        options.normalizeHost { host with groupName, updatedAt := timestamp }
      else host).groupName := by
  by_cases hwithin : host.within (some target) = true
  · rw [if_pos hwithin]
    left
    cases hpath : normalizeGroupPath host.groupName with
    | none =>
      obtain ⟨rest, hrest⟩ := (host_within_iff ht).mp hwithin
      rw [hpath] at hrest
      cases hrest
    | some p =>
      have hp : Normalised p := normalised_of_normalize hpath
      rw [HostRecord.within, hpath] at hwithin
      obtain ⟨rest, hrest⟩ := exists_rest hp.ne_nil ht.ne_nil hwithin
      refine ⟨rest, by rw [← hrest, join_segments], ?_⟩
      rw [hname p rest hpath hrest]
      exact hoptions.groupName _
        (normalize_pathOf (segment_append honto (rest_segment hp hrest)))
  · rw [if_neg hwithin]
    exact .inr ⟨mt (host_within_iff ht).mpr hwithin, rfl⟩

theorem pathOf_segments_append (n : Text) (rest : List Text) :
    pathOf (segments n ++ rest) = some (join slash (segments n ++ rest)) :=
  if_neg (List.append_ne_nil_of_left_ne_nil (segments_ne_nil n) rest)

theorem Changed.places (h : Changed env groups hosts target next options result)
    (hoptions : options.KeepsPlaces) (ht : Normalised target) (hn : Normalised next) :
    List.Forall₂ (fun host host' =>
      MovesBelow target (segments next) host.groupName host'.groupName) hosts result.hosts := by
  rw [h.hosts_eq, List.forall₂_map_right_iff, List.forall₂_same]
  intro host _
  refine movesBelow_host hoptions ht (segment_of_normalised hn) ?_
  intro p rest hpath hrest
  rw [hpath, rebaseGroupPath_within (normalised_of_normalize hpath) ht hn hrest,
    pathOf_segments_append]

theorem Changed.hostIds (h : Changed env groups hosts target next options result)
    (hoptions : options.KeepsPlaces) : result.hosts.map (·.id) = hosts.map (·.id) := by
  rw [h.hosts_eq, List.map_map]
  apply List.map_congr_left
  intro host _
  simp only [Function.comp, movedHost]
  split
  · exact hoptions.id _
  · rfl

def stayed (groups : List GroupRecord) (target : Text) : List GroupRecord :=
  outside groups target ++ groups.filter fun record => record.within (some target)

theorem mem_stayed {record : GroupRecord} (hmem : record ∈ groups) :
    record ∈ stayed groups target ↔ Stays groups target record := by
  rw [stayed, List.mem_append, mem_outside, List.mem_filter, and_iff_right hmem, or_comm, Stays]

theorem stayed_subset {record : GroupRecord} (h : record ∈ stayed groups target) :
    record ∈ groups := by
  rcases List.mem_append.mp h with h | h
  · exact (outside_subset h).1
  · exact (List.mem_filter.mp h).1

theorem nodup_stayed (hids : (groups.map (·.id)).Nodup) :
    ((stayed groups target).map (·.id)).Nodup := by
  refine List.Nodup.map_on ?_ ?_
  · intro x hx y hy heq
    exact List.inj_on_of_nodup_map hids (stayed_subset hx) (stayed_subset hy) heq
  · refine List.Nodup.append (List.Nodup.of_map _ (nodup_paths_outside groups target))
      ((List.Nodup.of_map _ hids).filter _) ?_
    intro x hx hx'
    have hnot := (outside_subset hx).2
    rw [(List.mem_filter.mp hx').2] at hnot
    cases hnot

theorem id_mem_stayed {record : GroupRecord} (hids : (groups.map (·.id)).Nodup)
    (hmem : record ∈ groups) :
    record.id ∈ (stayed groups target).map (·.id) ↔ Stays groups target record := by
  rw [← mem_stayed hmem]
  refine ⟨fun h => ?_, List.mem_map_of_mem⟩
  obtain ⟨x, hx, heq⟩ := List.mem_map.mp h
  rwa [← List.inj_on_of_nodup_map hids (stayed_subset hx) hmem heq]

theorem Changed.count_id (h : Changed env groups hosts target next options result)
    (hids : (groups.map (·.id)).Nodup) {record : GroupRecord} (hmem : record ∈ groups) :
    (Stays groups target record → (result.groups.map (·.id)).count record.id =
      1 + ((implicitGroups env groups hosts (some target)).map (·.id)).count record.id) ∧
    (¬ Stays groups target record → (result.groups.map (·.id)).count record.id =
      ((implicitGroups env groups hosts (some target)).map (·.id)).count record.id) := by
  have hsplit : result.groups.map (·.id) = (stayed groups target).map (·.id) ++
      (implicitGroups env groups hosts (some target)).map (·.id) := by
    rw [h.groups_eq, affected, stayed, List.map_append, List.map_map, List.map_append,
      List.map_append, List.append_assoc]
    rfl
  rw [hsplit, List.count_append, ← id_mem_stayed hids hmem]
  constructor
  · intro hstays
    rw [List.count_eq_one_of_mem (nodup_stayed hids) hstays]
  · intro hgone
    rw [List.count_eq_zero.mpr hgone, Nat.zero_add]

/-- Every record stays and no group that only hosts are in gets its id; or it does not stay, and
one such group gets its id. -/
def KeptOnce (env : Env) (groups : List GroupRecord) (hosts : List HostRecord) (target : Text) :
    Prop :=
  ∀ record ∈ groups,
    (Stays groups target record ∧
      record.id ∉ (implicitGroups env groups hosts (some target)).map (·.id)) ∨
    (¬ Stays groups target record ∧
      ((implicitGroups env groups hosts (some target)).map (·.id)).count record.id = 1)

theorem keepsAll_iff (h : mutateGroupPathIn env groups hosts target next options = .ok result)
    (hids : (groups.map (·.id)).Nodup) (hoptions : options.KeepsPlaces) (ht : Normalised target)
    (hn : Normalised next) :
    KeepsAll target (segments next) groups hosts result ↔ KeptOnce env groups hosts target := by
  have h := changed_of_ok h
  constructor
  · intro hkeeps record hmem
    have hone := hkeeps.groupIds record hmem
    obtain ⟨hstays, hgone⟩ := h.count_id hids hmem
    by_cases hstay : Stays groups target record
    · rw [hstays hstay] at hone
      exact .inl ⟨hstay, List.count_eq_zero.mp (by omega)⟩
    · exact .inr ⟨hstay, (hgone hstay).symm.trans hone⟩
  · intro hkept
    refine ⟨h.hostIds hoptions, ?_, h.places hoptions ht hn⟩
    intro record hmem
    obtain ⟨hstays, hgone⟩ := h.count_id hids hmem
    rcases hkept record hmem with ⟨hstay, hnot⟩ | ⟨hstay, hone⟩
    · rw [hstays hstay, List.count_eq_zero.mpr hnot]
    · rw [hgone hstay, hone]

/-! ### Removal -/

theorem foldl_stripInto_ids {timestamp : String} {removed : List Text} :
    ((records.foldl (stripInto target timestamp) (kept, removed)).1.map (·.id) ++
      (records.foldl (stripInto target timestamp) (kept, removed)).2).Perm
      (kept.map (·.id) ++ removed ++ records.map (·.id)) := by
  induction records generalizing kept removed with
  | nil => rw [List.map_nil, List.append_nil, List.foldl_nil]
  | cons record records ih =>
    have hdropped : ((records.foldl (stripInto target timestamp)
        (kept, removed ++ [record.id])).1.map (·.id) ++ (records.foldl (stripInto target timestamp)
        (kept, removed ++ [record.id])).2).Perm
        (kept.map (·.id) ++ removed ++ (record :: records).map (·.id)) := by
      refine ih.trans ?_
      simp
    rw [List.foldl_cons, stripInto]
    split
    · exact hdropped
    · split
      · exact hdropped
      · next path _ =>
        split
        · exact hdropped
        · next hnew =>
          refine ih.trans ?_
          rw [@setByPath_new kept (record.placedAt path timestamp) hnew, List.map_append,
            List.map_cons, List.append_assoc, List.append_assoc, List.append_assoc]
          refine List.Perm.append_left _ ?_
          exact (@List.perm_middle _ record.id removed _).symm

theorem removesOnly_iff {mode : GroupRemoveMode} {removal : GroupRemoval} {targetPath : Text}
    (hpath : normalizeGroupPath (some targetPath) = some target)
    (h : removeGroupFrom groups hosts targetPath mode options = .ok removal)
    (hids : (groups.map (·.id)).Nodup) (hoptions : options.KeepsPlaces) :
    RemovesOnly target mode groups hosts removal ↔
      (mode = .reparentDescendants → ∀ record ∈ groups, Stays groups target record) := by
  have ht : Normalised target := normalised_of_normalize hpath
  unfold removeGroupFrom at h
  rw [hpath] at h
  simp only at h
  split at h
  · cases h
  cases mode with
  | deleteSubtree =>
    cases h
    refine ⟨fun _ hmode => (by cases hmode), fun _ => ⟨?_, fun _ => rfl, ?_, ?_⟩⟩
    · rw [← List.map_append]
      refine List.Perm.map _ ?_
      exact List.perm_append_comm.trans (List.filter_append_perm _ groups)
    · intro hmode
      cases hmode
    · intro hmode
      cases hmode
  | reparentDescendants =>
    cases h
    have hperm := @foldl_stripInto_ids (outside groups target)
      (groups.filter fun record => record.within (some target)) target options.timestamp []
    rw [List.append_nil, ← List.map_append, ← stayed] at hperm
    constructor
    · intro hremoves _ record hmem
      rw [← id_mem_stayed hids hmem, ← hperm.mem_iff]
      exact hremoves.ids.mem_iff.mpr (List.mem_map_of_mem hmem)
    · intro hstay
      refine ⟨hperm.trans ?_, fun hmode => (by cases hmode), fun _ => ?_, fun _ => ?_⟩
      · refine (List.perm_ext_iff_of_nodup (nodup_stayed hids) hids).mpr fun id => ?_
        constructor
        · intro hid
          obtain ⟨x, hx, rfl⟩ := List.mem_map.mp hid
          exact List.mem_map_of_mem (stayed_subset hx)
        · intro hid
          obtain ⟨x, hx, rfl⟩ := List.mem_map.mp hid
          exact (id_mem_stayed hids hx).mpr (hstay rfl x hx)
      · simp only [List.map_map]
        apply List.map_congr_left
        intro host _
        simp only [Function.comp]
        split
        · exact hoptions.id _
        · rfl
      · simp only
        rw [List.forall₂_map_right_iff, List.forall₂_same]
        intro host _
        refine movesBelow_host hoptions ht ?_ ?_
        · intro s hs
          exact segment_of_normalised ht s (List.mem_of_mem_dropLast hs)
        · intro p rest hp hrest
          rw [hp, stripRemovedGroupSegment_within (normalised_of_normalize hp) ht hrest]

theorem rename_cases {name targetPath : Text}
    (h : renameGroupIn env groups hosts targetPath name options = .ok result) :
    ∃ target next, normalizeGroupPath (some targetPath) = some target ∧
      normalizeGroupPath (some (under (getParentGroupPath (some target)) (trim name))) = some next ∧
      next ≠ target ∧ mutateGroupPathIn env groups hosts target next options = .ok result := by
  unfold renameGroupIn at h
  split at h
  · cases h
  · next target htarget =>
    split at h
    · cases h
    · split at h
      · cases h
      · next next hnext =>
        split at h
        · cases h
        · next hne => exact ⟨target, next, htarget, hnext, hne, h⟩

theorem move_cases {parent : Option Text} {targetPath : Text}
    (h : moveGroupIn env groups hosts targetPath parent options = .ok result) :
    ∃ target next, normalizeGroupPath (some targetPath) = some target ∧
      normalizeGroupPath (some (under (normalizeGroupPath parent) (getGroupLabel target))) =
        some next ∧
      next ≠ target ∧ mutateGroupPathIn env groups hosts target next options = .ok result := by
  unfold moveGroupIn at h
  split at h
  · cases h
  · next target htarget =>
    simp only at h
    split at h
    · cases h
    · split at h
      · cases h
      · next next hnext =>
        split at h
        · cases h
        · next hne => exact ⟨target, next, htarget, hnext, hne, h⟩

/-- A change of the groups keeps every record exactly if, outside of the group that it is about, no
two records share a path, and no group that only hosts are in gets the id of a record. -/
theorem conserves_iff (env : Env) (groups : List GroupRecord) (hosts : List HostRecord)
    (hids : (groups.map (·.id)).Nodup) (options : Options) (hoptions : options.KeepsPlaces)
    (targetPath : Text) :
    (∀ (name : Text) (result : Library),
      renameGroupIn env groups hosts targetPath name options = .ok result →
      ∃ target next, normalizeGroupPath (some targetPath) = some target ∧
        normalizeGroupPath (some (under (getParentGroupPath (some target)) (trim name))) =
          some next ∧
        (KeepsAll target (segments next) groups hosts result ↔
          KeptOnce env groups hosts target)) ∧
    (∀ (parent : Option Text) (result : Library),
      moveGroupIn env groups hosts targetPath parent options = .ok result →
      ∃ target next, normalizeGroupPath (some targetPath) = some target ∧
        normalizeGroupPath (some (under (normalizeGroupPath parent) (getGroupLabel target))) =
          some next ∧
        (KeepsAll target (segments next) groups hosts result ↔
          KeptOnce env groups hosts target)) ∧
    ∀ (mode : GroupRemoveMode) (result : GroupRemoval),
      removeGroupFrom groups hosts targetPath mode options = .ok result →
      ∃ target, normalizeGroupPath (some targetPath) = some target ∧
        (RemovesOnly target mode groups hosts result ↔
          (mode = .reparentDescendants → ∀ record ∈ groups, Stays groups target record)) := by
  refine ⟨?_, ?_, ?_⟩
  · intro name result h
    obtain ⟨target, next, htarget, hnext, -, h⟩ := rename_cases h
    exact ⟨target, next, htarget, hnext, keepsAll_iff h hids hoptions
      (normalised_of_normalize htarget) (normalised_of_normalize hnext)⟩
  · intro parent result h
    obtain ⟨target, next, htarget, hnext, -, h⟩ := move_cases h
    exact ⟨target, next, htarget, hnext, keepsAll_iff h hids hoptions
      (normalised_of_normalize htarget) (normalised_of_normalize hnext)⟩
  · intro mode result h
    cases htarget : normalizeGroupPath (some targetPath) with
    | none =>
      unfold removeGroupFrom at h
      rw [htarget] at h
      cases h
    | some target => exact ⟨target, rfl, removesOnly_iff htarget h hids hoptions⟩

theorem keepsPlaces_id (timestamp : String) (pathAlsoOccupied : Bool) :
    Options.KeepsPlaces { timestamp, pathAlsoOccupied } := ⟨fun _ => rfl, fun _ _ => rfl⟩

/-- The group `a`, and a record for `b` from each of two devices. -/
def twoDevices : List GroupRecord :=
  [⟨[1], [97], [97], none, none, "t", "t"⟩, ⟨[2], [98], [98], none, none, "t", "t"⟩,
    ⟨[3], [98], [98], none, none, "t", "t"⟩]

/-- Without the first of the two records for `b`. -/
theorem conserves_iff_removed :
    ∃ result, removeGroupFrom (twoDevices.take 2) [] [97] .reparentDescendants
        { timestamp := "u" } = .ok result ∧
      ∃ target, normalizeGroupPath (some [97]) = some target ∧
        RemovesOnly target .reparentDescendants (twoDevices.take 2) [] result := by
  refine ⟨_, rfl, ?_⟩
  obtain ⟨target, htarget, hiff⟩ := (conserves_iff plainEnv (twoDevices.take 2) [] (by decide)
    { timestamp := "u" } (keepsPlaces_id "u" false) [97]).2.2 .reparentDescendants _ rfl
  refine ⟨target, htarget, hiff.mpr fun _ record hmem => ?_⟩
  obtain rfl | rfl : record = ⟨[1], [97], [97], none, none, "t", "t"⟩ ∨
      record = ⟨[2], [98], [98], none, none, "t", "t"⟩ := by
    simpa [twoDevices] using hmem
  · left
    cases htarget
    decide
  · right
    cases htarget
    exact ⟨[], [], by decide, by simp⟩

/-- The record of one device for `b` is nowhere once `a` has been removed. -/
theorem removal_loses_record :
    ∃ result, removeGroupFrom twoDevices [] [97] .reparentDescendants { timestamp := "u" } =
        .ok result ∧
      result.groups.map (·.id) = [[3]] ∧ result.removedGroupIds = [[1]] ∧
      ¬ RemovesOnly [97] .reparentDescendants twoDevices [] result := by
  refine ⟨_, rfl, by decide, by decide, fun h => ?_⟩
  exact absurd h.ids (by decide)

end Dolgate.GroupMutations
