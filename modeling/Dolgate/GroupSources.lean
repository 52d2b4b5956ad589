import Dolgate.GroupChanges

set_option autoImplicit false

/-! The paths that there are: those of the records and of the hosts, and all above them. -/

namespace Dolgate.GroupMutations

open GroupPaths Segments

variable {env : Env} {groups : List GroupRecord} {hosts : List HostRecord} {all : List Text}
  {p q : Text} {x : Option Text}

theorem ne_nil_above (hq : Normalised q) (h : segments p <+: segments q) : p ≠ [] := by
  rintro rfl
  have hnil : ([] : Text) ∈ segments q := h.subset (by decide)
  exact (segment_of_normalised hq [] hnil).ne_nil rfl

theorem segment_above (hq : Normalised q) (h : segments p <+: segments q) :
    ∀ s ∈ segments p, Segment s := fun s hs => segment_of_normalised hq s (h.subset hs)

theorem normalised_above (hq : Normalised q) (h : segments p <+: segments q) :
    Normalised p := by
  rw [← join_segments p]
  exact normalised_join (segment_above hq h) (segments_ne_nil p)

theorem mem_withAncestors :
    p ∈ withAncestors x ↔ ∃ q, normalizeGroupPath x = some q ∧ segments p <+: segments q := by
  unfold withAncestors
  cases hx : normalizeGroupPath x with
  | none => simp
  | some q =>
    have hq : Normalised q := normalised_of_normalize hx
    simp only [List.mem_map, List.mem_range, Option.some.injEq, exists_eq_left']
    constructor
    · rintro ⟨index, hlt, rfl⟩
      have hne : (segments q).take (index + 1) ≠ [] := by
        rw [Ne, List.take_eq_nil_iff, not_or]
        exact ⟨Nat.succ_ne_zero index, segments_ne_nil q⟩
      have hsegs : ∀ s ∈ (segments q).take (index + 1), Segment s := fun s hs =>
        segment_of_normalised hq s (List.mem_of_mem_take hs)
      change segments (join slash ((segments q).take (index + 1))) <+: segments q
      rw [segments_join hsegs hne]
      exact List.take_prefix _ _
    · intro h
      have hpos : 0 < (segments p).length := List.length_pos_iff.mpr (segments_ne_nil p)
      refine ⟨(segments p).length - 1, ?_, ?_⟩
      · have hle : (segments p).length ≤ (segments q).length := h.length_le
        change (segments p).length - 1 < (segments q).length
        omega
      · change join slash ((segments q).take ((segments p).length - 1 + 1)) = p
        rw [Nat.sub_add_cancel hpos, ← List.prefix_iff_eq_take.mp h, join_segments]

structure Closed (all : List Text) : Prop where
  normalised : ∀ p ∈ all, Normalised p
  above : ∀ p ∈ all, ∀ q, segments q <+: segments p → q ∈ all

theorem mem_of_mem_emitPaths {fuel : Nat} {parent : Text}
    (h : p ∈ emitPaths env groups all fuel parent) : p ∈ all := by
  induction fuel generalizing parent with
  | zero => cases h
  | succ fuel ih =>
    rw [emitPaths] at h
    obtain ⟨child, hchild, hp⟩ := List.mem_flatMap.mp h
    rcases List.mem_cons.mp hp with rfl | hp
    · exact (List.mem_filter.mp (List.mem_mergeSort.mp hchild)).1
    · exact ih hp

theorem emitPaths_complete (hall : Closed all) {fuel : Nat} {above rest : List Text}
    (hp : p ∈ all) (hsegs : segments p = above ++ rest) (hrest : rest ≠ [])
    (hfuel : rest.length ≤ fuel) :
    p ∈ emitPaths env groups all fuel ((pathOf above).getD []) := by
  induction fuel generalizing above rest with
  | zero => exact absurd (List.length_eq_zero_iff.mp (Nat.le_zero.mp hfuel)) hrest
  | succ fuel ih =>
    obtain ⟨s, rest, rfl⟩ := List.exists_cons_of_ne_nil hrest
    have hsegment : ∀ t ∈ above ++ s :: rest, Segment t := fun t ht =>
      segment_of_normalised (hall.normalised p hp) t (hsegs ▸ ht)
    have habove : ∀ t ∈ above, Segment t := fun t ht =>
      hsegment t (List.mem_append_left _ ht)
    have hs : Segment s := hsegment s (by simp)
    have hchildsegs : segments (join slash (above ++ [s])) = above ++ [s] := splitOn_path habove hs
    have hchild : join slash (above ++ [s]) ∈ all := by
      refine hall.above p hp _ ?_
      rw [hchildsegs, hsegs]
      exact ⟨rest, by simp⟩
    have hparent : (getParentGroupPath (some (join slash (above ++ [s])))).getD [] =
        (pathOf above).getD [] := by
      rw [getParentGroupPath_path habove hs, pathOf]
    rw [emitPaths]
    refine List.mem_flatMap.mpr ⟨join slash (above ++ [s]), ?_, ?_⟩
    · rw [List.mem_mergeSort, List.mem_filter]
      exact ⟨hchild, decide_eq_true hparent⟩
    · cases rest with
      | nil =>
        have heq : p = join slash (above ++ [s]) := by rw [← join_segments p, hsegs]
        rw [heq]
        exact List.mem_cons_self
      | cons t rest =>
        refine List.mem_cons_of_mem _ ?_
        have hnext : segments p = (above ++ [s]) ++ t :: rest := by rw [hsegs]; simp
        have hbelow := ih hnext (List.cons_ne_nil t rest) (Nat.le_of_succ_le_succ hfuel)
        rwa [pathOf, if_neg (by simp)] at hbelow

theorem depth_le (hall : Closed all) (hp : p ∈ all) : (segments p).length ≤ all.length := by
  have hsegments : ∀ index, segments (join slash ((segments p).take (index + 1))) =
      (segments p).take (index + 1) := by
    intro index
    apply segments_join
    · intro s hs
      exact segment_of_normalised (hall.normalised p hp) s (List.mem_of_mem_take hs)
    · rw [Ne, List.take_eq_nil_iff, not_or]
      exact ⟨Nat.succ_ne_zero index, segments_ne_nil p⟩
  have hnodup : ((List.range (segments p).length).map fun index =>
      join slash ((segments p).take (index + 1))).Nodup := by
    refine List.Nodup.map_on ?_ List.nodup_range
    intro i hi j hj heq
    have hlength := congrArg (fun path => (segments path).length) heq
    simp only [hsegments, List.length_take] at hlength
    have hi := List.mem_range.mp hi
    have hj := List.mem_range.mp hj
    omega
  have hsubset : ((List.range (segments p).length).map fun index =>
      join slash ((segments p).take (index + 1))) ⊆ all := by
    intro path hpath
    obtain ⟨index, -, rfl⟩ := List.mem_map.mp hpath
    refine hall.above p hp _ ?_
    rw [hsegments]
    exact List.take_prefix _ _
  have hlength := (hnodup.subperm hsubset).length_le
  rwa [List.length_map, List.length_range] at hlength

theorem mem_foldl_new {paths : List Text} {kept : List Text} :
    p ∈ paths.foldl (fun kept path => if path ∈ kept then kept else kept ++ [path]) kept ↔
      p ∈ kept ∨ p ∈ paths := by
  induction paths generalizing kept with
  | nil => simp
  | cons path paths ih =>
    rw [List.foldl_cons, ih]
    by_cases h : path ∈ kept
    · rw [if_pos h, List.mem_cons]
      refine ⟨Or.imp_right .inr, ?_⟩
      rintro (hp | rfl | hp)
      · exact .inl hp
      · exact .inl h
      · exact .inr hp
    · rw [if_neg h, List.mem_append, List.mem_singleton, List.mem_cons, or_assoc]

def mentions (groups : List GroupRecord) (hosts : List HostRecord) : List Text :=
  (groups.flatMap fun group => withAncestors (some group.path)) ++
    hosts.flatMap fun host => withAncestors host.groupName

def allPaths (groups : List GroupRecord) (hosts : List HostRecord) : List Text :=
  (mentions groups hosts).foldl
    (fun paths path => if path ∈ paths then paths else paths ++ [path]) []

theorem collectGroupPaths_eq : collectGroupPaths env groups hosts =
    emitPaths env groups (allPaths groups hosts) ((allPaths groups hosts).length + 1) [] := rfl

theorem mem_mentions : p ∈ mentions groups hosts ↔
    (∃ group ∈ groups, p ∈ withAncestors (some group.path)) ∨
      ∃ host ∈ hosts, p ∈ withAncestors host.groupName := by
  rw [mentions, List.mem_append, List.mem_flatMap, List.mem_flatMap]

theorem mem_allPaths : p ∈ allPaths groups hosts ↔ p ∈ mentions groups hosts := by
  rw [allPaths, mem_foldl_new]
  simp

theorem closed_allPaths (groups : List GroupRecord) (hosts : List HostRecord) :
    Closed (allPaths groups hosts) := by
  constructor
  · intro path hpath
    obtain ⟨_, -, hin⟩ | ⟨_, -, hin⟩ := mem_mentions.mp (mem_allPaths.mp hpath)
    all_goals
      obtain ⟨source, hsource, hbelow⟩ := mem_withAncestors.mp hin
      exact normalised_above (normalised_of_normalize hsource) hbelow
  · intro path hpath above habove
    rw [mem_allPaths, mem_mentions] at hpath ⊢
    refine hpath.imp ?_ ?_
    all_goals
      rintro ⟨place, hplace, hin⟩
      obtain ⟨source, hsource, hbelow⟩ := mem_withAncestors.mp hin
      exact ⟨place, hplace, mem_withAncestors.mpr ⟨source, hsource, habove.trans hbelow⟩⟩

theorem mem_collected : p ∈ collectGroupPaths env groups hosts ↔ p ∈ allPaths groups hosts := by
  rw [collectGroupPaths_eq]
  refine ⟨mem_of_mem_emitPaths, fun hp => ?_⟩
  have hclosed := closed_allPaths groups hosts
  exact emitPaths_complete hclosed hp (List.nil_append _).symm (segments_ne_nil p)
    (Nat.le_succ_of_le (depth_le hclosed hp))

theorem mem_collectGroupPaths : p ∈ collectGroupPaths env groups hosts ↔
    (∃ group ∈ groups, p ∈ withAncestors (some group.path)) ∨
      ∃ host ∈ hosts, p ∈ withAncestors host.groupName := by
  rw [mem_collected, mem_allPaths, mem_mentions]

theorem normalised_of_mem_collect (h : p ∈ collectGroupPaths env groups hosts) :
    Normalised p := by
  obtain ⟨_, -, hin⟩ | ⟨_, -, hin⟩ := mem_collectGroupPaths.mp h
  all_goals
    obtain ⟨source, hsource, hbelow⟩ := mem_withAncestors.mp hin
    exact normalised_above (normalised_of_normalize hsource) hbelow

theorem within_iff_mem (hp : p ≠ []) :
    isGroupWithinPath (normalizeGroupPath x) (some p) = true ↔ p ∈ withAncestors x := by
  rw [mem_withAncestors]
  cases hname : normalizeGroupPath x with
  | none =>
    obtain ⟨c, rest, rfl⟩ := List.exists_cons_of_ne_nil hp
    simp [isGroupWithinPath]
  | some q =>
    rw [within_iff (normalised_of_normalize hname).ne_nil hp]
    simp

theorem host_within_iff_mem {host : HostRecord} (hp : p ≠ []) :
    host.within (some p) = true ↔ p ∈ withAncestors host.groupName := within_iff_mem hp

theorem mem_implicitGroups {withinPath : Option Text} :
    p ∈ (implicitGroups env groups hosts withinPath).map (·.path) ↔
      (∀ group ∈ groups, group.path ≠ p) ∧ isGroupWithinPath (some p) withinPath = true ∧
        ∃ host ∈ hosts, p ∈ withAncestors host.groupName := by
  have hknown : (∀ group ∈ groups, group.path ≠ p) ↔
      ¬ (groups.any fun record => record.path = p) = true := by
    rw [List.any_eq_true]
    simp
  rw [hknown, implicitGroups, materializeImplicitHostGroups, List.drop_left, List.mem_map]
  constructor
  · rintro ⟨record, hrecord, rfl⟩
    obtain ⟨path, hcollected, hpath⟩ := List.mem_filterMap.mp hrecord
    split at hpath
    · cases hpath
    · next hcontinue =>
      obtain ⟨anchor, hanchor, rfl⟩ := Option.map_eq_some_iff.mp hpath
      rw [Bool.or_eq_true, not_or, Bool.not_eq_true', Bool.not_eq_false] at hcontinue
      refine ⟨hcontinue.1, hcontinue.2, anchor, ?_⟩
      obtain ⟨hmem, hwithin⟩ := List.mem_filter.mp (List.mem_mergeSort.mp
        (List.mem_of_head? hanchor))
      exact ⟨hmem, (host_within_iff_mem (normalised_of_mem_collect hcollected).ne_nil).mp hwithin⟩
  · rintro ⟨hnew, hwithin, host, hhost, hp⟩
    obtain ⟨q, hq, hbelow⟩ := mem_withAncestors.mp hp
    have hne : p ≠ [] := ne_nil_above (normalised_of_normalize hq) hbelow
    have hanchor : host ∈ (hosts.filter fun host => host.within (some p)).mergeSort
        fun left right => decide (env.localeCompare left.id right.id ≤ 0) := by
      rw [List.mem_mergeSort, List.mem_filter]
      exact ⟨hhost, (host_within_iff_mem hne).mpr hp⟩
    obtain ⟨anchor, rest, hsorted⟩ := List.exists_cons_of_ne_nil (List.ne_nil_of_mem hanchor)
    refine ⟨{
        id := env.implicitId anchor.id p
        name := getGroupLabel p
        path := p
        parentPath := getParentGroupPath (some p)
        createdAt := anchor.createdAt
        updatedAt := anchor.updatedAt }, List.mem_filterMap.mpr ⟨p, ?_, ?_⟩, rfl⟩
    · exact mem_collectGroupPaths.mpr (.inr ⟨host, hhost, hp⟩)
    · rw [if_neg]
      · rw [hsorted]
        rfl
      · rw [Bool.or_eq_true, not_or, hwithin]
        exact ⟨hnew, by decide⟩

end Dolgate.GroupMutations
