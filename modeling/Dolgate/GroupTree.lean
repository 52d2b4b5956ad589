import Dolgate.GroupMutations

set_option autoImplicit false

/-! The tree of groups stays well formed as long as no new group has a slash in its name. -/

namespace Dolgate.GroupMutations

open GroupPaths Segments Transition

variable {p q : Text} {groups kept : List GroupRecord} {record : GroupRecord}

theorem getParentGroupPath_of_normalised (h : Normalised p) :
    getParentGroupPath (some p) = parentOf p := by
  obtain ⟨segs, l, hs, hl, rfl⟩ := h.segments
  rw [getParentGroupPath_path hs hl, parentOf, splitOn_path hs hl, List.dropLast_concat]
  cases segs <;> rfl

theorem getLast_of_normalised (h : Normalised p) :
    (p.splitOn slash).getLast? = some (getGroupLabel p) := by
  obtain ⟨segs, l, hs, hl, rfl⟩ := h.segments
  rw [getGroupLabel_path hs hl, splitOn_path hs hl, List.getLast?_concat]

theorem placed_placedAt (h : Normalised p) (timestamp : String) :
    (record.placedAt p timestamp).Placed where
  normalised := h
  name := getLast_of_normalised h
  parentPath := getParentGroupPath_of_normalised h

theorem normalised_parent (h : getParentGroupPath (some p) = some q) : Normalised q := by
  unfold getParentGroupPath at h
  cases hp : normalizeGroupPath (some p) with
  | none =>
      rw [hp] at h
      cases h
  | some r =>
      have hr : Normalised r := normalised_of_normalize hp
      have heq : getParentGroupPath (some r) = some q := by
        unfold getParentGroupPath
        rw [hr]
        rw [hp] at h
        exact h
      obtain ⟨segs, l, hs, hl, rfl⟩ := hr.segments
      rw [getParentGroupPath_path hs hl] at heq
      split at heq
      · cases heq
      · next hne =>
        cases heq
        exact normalised_join hs hne

theorem normalised_rebase {source target : Option Text} {src : Text}
    (h : rebaseGroupPath source src target = some p) : Normalised p := by
  unfold rebaseGroupPath at h
  split at h
  · next s f hs hf =>
    split at h
    · simp only at h
      split at h
      · exact normalised_of_normalize h
      · exact normalised_of_normalize h
    · cases h
      exact normalised_of_normalize hs
  · exact normalised_of_normalize h

theorem normalised_strip {source : Option Text} {removed : Text}
    (h : stripRemovedGroupSegment source removed = some p) : Normalised p := by
  unfold stripRemovedGroupSegment at h
  split at h
  · next s r hs hr =>
    split at h
    · simp only at h
      split at h
      · exact normalised_parent h
      · exact normalised_of_normalize h
    · cases h
      exact normalised_of_normalize hs
  · exact normalised_of_normalize h

structure Tree (groups : List GroupRecord) : Prop where
  placed : ∀ record ∈ groups, record.Placed
  paths : (groups.map fun record => record.path).Nodup

theorem Tree.filter (h : Tree groups) (keep : GroupRecord → Bool) : Tree (groups.filter keep) where
  placed record hr := h.placed record (List.mem_filter.mp hr).1
  paths := h.paths.sublist (List.filter_sublist.map _)

theorem Tree.snoc (h : Tree groups) (hr : record.Placed)
    (hnew : ¬ groups.any (fun r => r.path = record.path) = true) : Tree (groups ++ [record]) := by
  constructor
  · intro r hmem
    obtain hmem | hmem := List.mem_append.mp hmem
    · exact h.placed r hmem
    · obtain rfl := List.mem_singleton.mp hmem
      exact hr
  · rw [List.map_append, List.nodup_append]
    refine ⟨h.paths, by simp, ?_⟩
    rintro x hx y hy rfl
    obtain ⟨r, hmem, rfl⟩ := List.mem_map.mp hx
    apply hnew
    rw [List.any_eq_true]
    exact ⟨r, hmem, by simpa using hy⟩

theorem setByPath_new (hnew : ¬ groups.any (fun r => r.path = record.path) = true) :
    setByPath groups record = groups ++ [record] := by
  rw [setByPath, if_neg hnew]

theorem Tree.set (h : Tree groups) (hr : record.Placed) : Tree (setByPath groups record) := by
  unfold setByPath
  split
  · constructor
    · intro r hmem
      obtain ⟨x, hx, rfl⟩ := List.mem_map.mp hmem
      split
      · exact hr
      · exact h.placed x hx
    · rw [List.map_map]
      have hsame : (fun r => r.path) ∘ (fun r => if r.path = record.path then record else r) =
          fun r : GroupRecord => r.path := by
        funext r
        simp only [Function.comp]
        split
        · next heq => exact heq.symm
        · rfl
      rw [hsame]
      exact h.paths
  · next hnew => exact h.snoc hr hnew

theorem tree_foldl_set {records : List GroupRecord} (h : Tree kept)
    (hr : ∀ record ∈ records, record.Placed) : Tree (records.foldl setByPath kept) := by
  induction records generalizing kept with
  | nil => exact h
  | cons record records ih =>
      exact ih (h.set (hr record List.mem_cons_self))
        fun r hmem => hr r (List.mem_cons_of_mem _ hmem)

theorem Tree.outside (h : Tree groups) (path : Text) : Tree (outside groups path) :=
  tree_foldl_set ⟨by simp, by simp⟩ (h.filter _).placed

theorem materialize_within {env : Env} {hosts : List HostRecord} {path : Option Text} :
    ∃ additions, materializeImplicitHostGroups env groups hosts path = groups ++ additions ∧
      ∀ record ∈ additions, record.within path = true := by
  refine ⟨_, rfl, ?_⟩
  intro x hx
  obtain ⟨q, -, hq⟩ := List.mem_filterMap.mp hx
  split at hq
  · cases hq
  · next hcontinue =>
    obtain ⟨anchor, -, rfl⟩ := Option.map_eq_some_iff.mp hq
    simp only [Bool.or_eq_true, not_or, Bool.not_eq_true', Bool.not_eq_false] at hcontinue
    exact hcontinue.2

theorem outside_materialize {env : Env} {hosts : List HostRecord} {path : Text} :
    outside (materializeImplicitHostGroups env groups hosts (some path)) path =
      outside groups path := by
  obtain ⟨additions, heq, hwithin⟩ :=
    @materialize_within groups env hosts (some path)
  have hnone : additions.filter (fun record => !record.within (some path)) = [] := by
    rw [List.filter_eq_nil_iff]
    intro x hx
    simp [hwithin x hx]
  rw [GroupMutations.outside, heq, List.filter_append, hnone, List.append_nil,
    GroupMutations.outside]

theorem Tree.rebaseInto {target next : Text} {timestamp : String} {result : List GroupRecord}
    (h : Tree kept) (he : rebaseInto target next timestamp kept record = .ok result) :
    Tree result := by
  unfold GroupMutations.rebaseInto at he
  split at he
  · cases he
  · next path hpath =>
    split at he
    · cases he
    · cases he
      exact h.set (placed_placedAt (normalised_rebase hpath) timestamp)

theorem Tree.foldlM {γ : Type} {f : List GroupRecord → γ → Except Failure (List GroupRecord)}
    (hstep : ∀ groups x result, Tree groups → f groups x = .ok result → Tree result)
    {xs : List γ} {result : List GroupRecord} (h : Tree kept) (he : xs.foldlM f kept = .ok result) :
    Tree result := by
  induction xs generalizing kept with
  | nil =>
      cases he
      exact h
  | cons x xs ih =>
      rw [List.foldlM_cons] at he
      cases hx : f kept x with
      | error e =>
          rw [hx] at he
          cases he
      | ok next =>
          rw [hx] at he
          exact ih (hstep kept x next h hx) he

theorem Tree.mutate {env : Env} {hosts : List HostRecord} {target next : Text} {options : Options}
    {library : Library} (h : Tree groups)
    (he : mutateGroupPathIn env groups hosts target next options = .ok library) :
    Tree library.groups := by
  unfold mutateGroupPathIn at he
  simp only [outside_materialize] at he
  split at he
  · cases he
  · split at he
    · cases he
    · match hfold : List.foldlM (GroupMutations.rebaseInto target next options.timestamp)
        (GroupMutations.outside groups target) ((materializeImplicitHostGroups env groups hosts
          (some target)).filter fun record => record.within (some target)) with
      | .error e =>
          rw [hfold] at he
          cases he
      | .ok result =>
          rw [hfold] at he
          cases he
          exact (h.outside target).foldlM (fun _ _ _ h he => h.rebaseInto he) hfold

theorem Tree.rename {env : Env} {hosts : List HostRecord} {target name : Text} {options : Options}
    {library : Library} (h : Tree groups)
    (he : renameGroupIn env groups hosts target name options = .ok library) :
    Tree library.groups := by
  unfold renameGroupIn at he
  split at he
  · cases he
  · split at he
    · cases he
    · split at he
      · cases he
      · split at he
        · cases he
        · exact h.mutate he

theorem Tree.move {env : Env} {hosts : List HostRecord} {target : Text} {parent : Option Text}
    {options : Options} {library : Library} (h : Tree groups)
    (he : moveGroupIn env groups hosts target parent options = .ok library) :
    Tree library.groups := by
  unfold moveGroupIn at he
  split at he
  · cases he
  · simp only at he
    split at he
    · cases he
    · split at he
      · cases he
      · split at he
        · cases he
        · exact h.mutate he

theorem Tree.stripInto {target : Text} {timestamp : String} {removed : List Text}
    (h : Tree kept) : Tree (stripInto target timestamp (kept, removed) record).1 := by
  unfold GroupMutations.stripInto
  split
  · exact h
  · split
    · exact h
    · next path hpath =>
      split
      · exact h
      · exact h.set (placed_placedAt (normalised_strip hpath) timestamp)

theorem Tree.foldl_stripInto {target : Text} {timestamp : String} {records : List GroupRecord}
    {removed : List Text} (h : Tree kept) :
    Tree (records.foldl (GroupMutations.stripInto target timestamp) (kept, removed)).1 := by
  induction records generalizing kept removed with
  | nil => exact h
  | cons record records ih => exact ih h.stripInto

theorem Tree.remove {hosts : List HostRecord} {target : Text} {mode : GroupRemoveMode}
    {options : Options} {removal : GroupRemoval} (h : Tree groups)
    (he : removeGroupFrom groups hosts target mode options = .ok removal) :
    Tree removal.groups := by
  unfold removeGroupFrom at he
  split at he
  · cases he
  · simp only at he
    split at he
    · cases he
    · cases mode with
      | deleteSubtree =>
          cases he
          exact h.filter _
      | reparentDescendants =>
          cases he
          exact (h.outside _).foldl_stripInto

variable {id name : Text} {parentPath : Option Text} {timestamp : String}

theorem placed_create (hname : trim name ≠ []) (hslash : slash ∉ trim name)
    (hp : createPath name parentPath = some p) :
    GroupRecord.Placed {
      id, path := p, name := trim name, parentPath := normalizeGroupPath parentPath
      createdAt := timestamp, updatedAt := timestamp } := by
  have hl : Segment (trim name) := ⟨hname, hslash, trim_trim name⟩
  unfold createPath at hp
  cases hparent : normalizeGroupPath parentPath with
  | none =>
      rw [hparent] at hp
      have hpath : Normalised (join slash ([] ++ [trim name])) := normalised_path (by simp) hl
      rw [List.nil_append, join_singleton] at hpath
      cases hpath.symm.trans hp
      have hsplit : (join slash ([] ++ [trim name])).splitOn slash = [] ++ [trim name] :=
        splitOn_path (by simp) hl
      rw [List.nil_append, join_singleton] at hsplit
      exact ⟨hpath, by rw [hsplit]; rfl, by rw [parentOf, hsplit]; rfl⟩
  | some parent =>
      rw [hparent] at hp
      obtain ⟨segs, hne, hs, rfl⟩ := segments_of_normalize hparent
      have hunder : under (some (join slash segs)) (trim name) =
          join slash (segs ++ [trim name]) := by
        rw [under, join_append hne (by simp), join_singleton]
      rw [hunder, normalised_path hs hl] at hp
      cases hp
      have hsplit := splitOn_path hs hl
      refine ⟨normalised_path hs hl, by rw [hsplit, List.getLast?_concat], ?_⟩
      rw [parentOf, hsplit, List.dropLast_concat]
      cases segs with
      | nil => exact absurd rfl hne
      | cons s segs => rfl

theorem GroupRecord.Placed.slash_not_mem (h : record.Placed) : slash ∉ record.name :=
  sep_not_mem_of_mem_splitOn (List.mem_of_getLast? h.name)

theorem Tree.create {result : List GroupRecord} (h : Tree groups)
    (hplain : slash ∈ trim name → ∀ path, createPath name parentPath = some path →
      ∃ record ∈ groups, record.path = path)
    (he : createGroupIn groups id name parentPath timestamp = .ok result) : Tree result := by
  unfold createGroupIn at he
  split at he
  · cases he
  · next hname =>
    split at he
    · cases he
    · next path hpath =>
      split at he
      · cases he
      · next hnew =>
        cases he
        apply h.snoc
        · apply placed_create hname ?_ hpath
          intro hslash
          obtain ⟨r, hr, hrp⟩ := hplain hslash path hpath
          apply hnew
          rw [List.any_eq_true]
          exact ⟨r, hr, by simpa using hrp⟩
        · exact hnew

theorem wellFormed_iff_tree {library : Library} : WellFormed library ↔ Tree library.groups :=
  ⟨fun h => ⟨h.placed, h.paths⟩, fun h => ⟨h.placed, h.paths⟩⟩

theorem WellFormed.apply {env : Env} {library next : Library} {operation : Operation}
    (h : WellFormed library) (hplain : Plain library operation)
    (he : apply env library operation = .ok next) : WellFormed next := by
  rw [wellFormed_iff_tree] at h ⊢
  cases operation with
  | create id name parentPath timestamp =>
      simp only [GroupMutations.apply] at he
      cases hc : createGroupIn library.groups id name parentPath timestamp with
      | error e =>
          rw [hc] at he
          cases he
      | ok result =>
          rw [hc] at he
          cases he
          exact h.create hplain hc
  | rename targetPath name options => exact h.rename he
  | move targetPath targetParentPath options => exact h.move he
  | remove targetPath mode options =>
      simp only [GroupMutations.apply] at he
      cases hr : removeGroupFrom library.groups library.hosts targetPath mode options with
      | error e =>
          rw [hr] at he
          cases he
      | ok removal =>
          rw [hr] at he
          cases he
          exact h.remove hr

theorem WellFormed.step {env : Env} {library next : Library} {operation : Operation}
    (h : WellFormed library) (hplain : Plain library operation)
    (he : step env library operation = some next) : WellFormed next := by
  unfold GroupMutations.step at he
  split at he
  · next t ht =>
    cases he
    exact h.apply hplain ht
  · cases he
    exact h

theorem not_wellFormed_of_not_plain {env : Env} {library next : Library} {operation : Operation}
    (hplain : ¬ Plain library operation) (he : step env library operation = some next) :
    ¬ WellFormed next := by
  intro h
  cases operation with
  | create id name parentPath timestamp =>
      simp only [Plain, not_forall] at hplain
      obtain ⟨hslash, path, hpath, hnew⟩ := hplain
      have hname : trim name ≠ [] := List.ne_nil_of_mem hslash
      have hany : ¬ library.groups.any (fun record => record.path = path) = true := by
        intro hany
        obtain ⟨r, hr, hrp⟩ := List.any_eq_true.mp hany
        exact hnew ⟨r, hr, by simpa using hrp⟩
      simp only [GroupMutations.step, GroupMutations.apply, createGroupIn, hname, hpath, hany] at he
      cases he
      have hplaced := h.placed _ (List.mem_append_right _ (List.mem_singleton_self _))
      exact hplaced.slash_not_mem hslash
  | rename targetPath name options => exact hplain trivial
  | move targetPath targetParentPath options => exact hplain trivial
  | remove targetPath mode options => exact hplain trivial

theorem run_total (env : Env) (library : Library) (operations : List Operation) :
    ∃ next, run (step env) library operations = some next := by
  induction operations generalizing library with
  | nil => exact ⟨library, rfl⟩
  | cons operation operations ih =>
      cases ha : apply env library operation with
      | ok next =>
          obtain ⟨u, hu⟩ := ih next
          exact ⟨u, run_cons.mpr ⟨next, by rw [GroupMutations.step, ha], hu⟩⟩
      | error e =>
          obtain ⟨u, hu⟩ := ih library
          exact ⟨u, run_cons.mpr ⟨library, by rw [GroupMutations.step, ha], hu⟩⟩

/-- The tree is well formed after every operation exactly if the names of the groups that are
created have no slash. -/
theorem groups_well_formed_iff_plain (env : Env) (library : Library) (h : WellFormed library)
    (operations : List Operation) :
    (Always WellFormed (step env) library operations ↔
      Admissible Plain (step env) library operations) ∧
    ∀ (library : Library) (operation : Operation) (e : Failure),
      apply env library operation = .error e → step env library operation = some library := by
  obtain ⟨next, hr⟩ := run_total env library operations
  constructor
  · exact always_iff_admissible (fun _ h => h) (fun _ _ _ h hplain he => h.step hplain he)
      (fun _ _ _ _ hplain he => not_wellFormed_of_not_plain hplain he) h hr
  · intro library operation e he
    rw [GroupMutations.step, he]

theorem wellFormed_empty : WellFormed {} := ⟨by simp, by simp⟩

/-- `work`, ` aws ` under it, and both under `of/x`. -/
def workRename : List Operation :=
  [.create [1] [119, 111, 114, 107] none "t",
   .create [2] [32, 97, 119, 115, 32] (some [119, 111, 114, 107]) "t",
   .rename [119, 111, 114, 107] [111, 102, 47, 120] { timestamp := "u" }]

def plainEnv : Env where
  localeCompare left right := if left = right then 0 else if left < right then -1 else 1
  implicitId id path := id ++ path

theorem renamed_groups_are_well_formed : Always WellFormed (step plainEnv) {} workRename := by
  have hplain : Admissible Plain (step plainEnv) {} workRename := by
    apply admissible_of_mem
    intro operation hmem library
    simp only [workRename, List.mem_cons, List.not_mem_nil, or_false] at hmem
    obtain rfl | rfl | rfl := hmem
    · exact fun hslash => absurd hslash (by decide)
    · exact fun hslash => absurd hslash (by decide)
    · trivial
  exact (groups_well_formed_iff_plain plainEnv {} wellFormed_empty workRename).1.mpr hplain

/-- A group that is created with the name `a/b`. -/
theorem slash_in_name_is_kept : ¬ ∀ (env : Env) (library : Library), WellFormed library →
    ∀ operations : List Operation, Always WellFormed (step env) library operations := by
  intro h
  have halways := h plainEnv {} wellFormed_empty [.create [1] [97, 47, 98] none "t"]
  have hstep : step plainEnv {} (.create [1] [97, 47, 98] none "t") = some {
      groups := [{
        id := [1], name := [97, 47, 98], path := [97, 47, 98], parentPath := none
        createdAt := "t", updatedAt := "t" }] } := by
    decide
  have hplaced := (halways.2 _ hstep).placed _ (List.mem_singleton_self _)
  exact hplaced.slash_not_mem (by decide)

end Dolgate.GroupMutations
