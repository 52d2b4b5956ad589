import Mathlib
import Dolgate.FreshName
import Dolgate.ScreenText

set_option autoImplicit false

/-! The names of the AWS profiles that a pull brings: of those with one name all but the newest get
another. -/

namespace Dolgate.AwsProfileNames

open GroupPaths (Text)
open ScreenText (units units_repr_injective)

structure ManagedAwsProfilePayload (α : Type) where
  id : Text
  name : Text
  updatedAt : Text
  details : α
  deriving DecidableEq, Repr

structure Env where
  localeCompare : Text → Text → Int
  nowIso : Nat → Text

def conflictName (name shortId : Text) (suffix : Nat) : Text :=
  if suffix = 0 then name ++ units "-conflict-" ++ shortId
  else name ++ units "-conflict-" ++ shortId ++ units "-" ++ units suffix.repr

section

variable {α : Type} (env : Env)

/-- `byName.set` of the bucket with one more profile. -/
def pushByName (byName : List (Text × List (ManagedAwsProfilePayload α)))
    (profile : ManagedAwsProfilePayload α) : List (Text × List (ManagedAwsProfilePayload α)) :=
  if byName.any fun bucket => bucket.1 = profile.name then
    byName.map fun bucket =>
      if bucket.1 = profile.name then (bucket.1, bucket.2 ++ [profile]) else bucket
  else byName ++ [(profile.name, [profile])]

def groupByName (profiles : List (ManagedAwsProfilePayload α)) :
    List (Text × List (ManagedAwsProfilePayload α)) :=
  profiles.foldl pushByName []

def compareUpdated (left right : ManagedAwsProfilePayload α) : Int :=
  let updatedCompare := env.localeCompare right.updatedAt left.updatedAt
  if updatedCompare ≠ 0 then updatedCompare else env.localeCompare left.id right.id

def order (duplicates : List (ManagedAwsProfilePayload α)) : List (ManagedAwsProfilePayload α) :=
  duplicates.mergeSort fun left right => decide (compareUpdated env left right ≤ 0)

/-- `renames` counts how often the clock has been read. -/
structure Resolution (α : Type) where
  occupiedNames : List Text
  renamedProfiles : Text → Option (ManagedAwsProfilePayload α) := fun _ => none
  renames : Nat := 0

def rename (name : Text) (state : Resolution α) (profile : ManagedAwsProfilePayload α) :
    Resolution α :=
  let occupiedNames := state.occupiedNames.filter fun occupied => occupied ≠ profile.name
  let series := conflictName name (profile.id.take 8)
  let nextName := series (FreshName.index occupiedNames series)
  { occupiedNames := nextName :: occupiedNames
    renamedProfiles := Function.update state.renamedProfiles profile.id
      (some { profile with name := nextName, updatedAt := env.nowIso state.renames })
    renames := state.renames + 1 }

def resolveBucket (state : Resolution α) (bucket : Text × List (ManagedAwsProfilePayload α)) :
    Resolution α :=
  if bucket.2.length < 2 then state
  else (order env bucket.2).tail.foldl (rename env bucket.1) state

def resolveManagedAwsProfileNameConflicts (profiles : List (ManagedAwsProfilePayload α)) :
    List (ManagedAwsProfilePayload α) × Bool :=
  if profiles.length < 2 then (profiles, false)
  else
    let byName := groupByName profiles
    let resolution := byName.foldl (resolveBucket env)
      { occupiedNames := profiles.map (·.name) }
    if byName.any fun bucket => 2 ≤ bucket.2.length then
      (profiles.map fun profile =>
        (resolution.renamedProfiles profile.id).getD profile, true)
    else (profiles, false)

/-- The profiles that do not keep their names, in the order in which they get others. -/
def renamings (profiles : List (ManagedAwsProfilePayload α)) :
    List (ManagedAwsProfilePayload α) :=
  (groupByName profiles).flatMap fun bucket =>
    if bucket.2.length < 2 then [] else (order env bucket.2).tail

end

variable {α : Type}

structure Resolved (profiles result : List (ManagedAwsProfilePayload α)) : Prop where
  ids : result.map (·.id) = profiles.map (·.id)
  names : (result.map (·.name)).Nodup
  kept : ∀ name ∈ profiles.map (·.name), ∃ entry ∈ profiles.zip result,
    entry.1.name = name ∧ entry.2.name = name
  unique : ∀ entry ∈ profiles.zip result,
    (profiles.map (·.name)).count entry.1.name = 1 → entry.2 = entry.1

/-- The names of groups that have been treated, and those that have been given. When every profile
takes the first name of its series that is neither another profile's nor given before, it passes
over no name of a group that has been treated. -/
def NonePassed (names : List Text) :
    List Text → List Text → List (ManagedAwsProfilePayload α) → Prop
  | _, _, [] => True
  | treated, given, profile :: rest =>
      let series := conflictName profile.name (profile.id.take 8)
      let free := FreshName.index (names ++ given) series
      (∀ j, j < free → series j ∉ treated) ∧
        NonePassed names (profile.name :: treated) (series free :: given) rest

/-! ### The names that are tried -/

theorem conflictName_injective (name shortId : Text) :
    Function.Injective (conflictName name shortId) := by
  have hlonger : ∀ k : Nat, name ++ units "-conflict-" ++ shortId ++ units "-" ++ units k.repr ≠
      name ++ units "-conflict-" ++ shortId := by
    intro k heq
    have hlength := congrArg List.length heq
    simp [units] at hlength
  intro i j h
  rw [conflictName, conflictName] at h
  split at h
  · next hi =>
    split at h
    · next hj => rw [hi, hj]
    · exact absurd h.symm (hlonger j)
  · split at h
    · exact absurd h (hlonger i)
    · exact units_repr_injective (List.append_cancel_left h)

theorem conflictName_ne (name shortId : Text) (suffix : Nat) :
    conflictName name shortId suffix ≠ name := by
  intro heq
  have hlength := congrArg List.length heq
  rw [conflictName] at hlength
  split at hlength <;> simp [units] at hlength

/-! ### The buckets -/

variable {env : Env} {profiles renamed : List (ManagedAwsProfilePayload α)}
  {profile : ManagedAwsProfilePayload α} {byName : List (Text × List (ManagedAwsProfilePayload α))}

theorem map_fst_pushByName :
    (pushByName byName profile).map Prod.fst =
      if profile.name ∈ byName.map Prod.fst then byName.map Prod.fst
      else byName.map Prod.fst ++ [profile.name] := by
  have hiff : byName.any (fun bucket => bucket.1 = profile.name) = true ↔
      profile.name ∈ byName.map Prod.fst := by
    simp only [List.any_eq_true, List.mem_map, decide_eq_true_eq]
  rw [pushByName]
  by_cases h : profile.name ∈ byName.map Prod.fst
  · rw [if_pos (hiff.mpr h), if_pos h, List.map_map]
    apply List.map_congr_left
    intro bucket _
    simp only [Function.comp]
    split <;> rfl
  · rw [if_neg (mt hiff.mp h), if_neg h, List.map_append]
    rfl

theorem pushByName_mem {bucket : Text × List (ManagedAwsProfilePayload α)}
    (hbyName : ∀ bucket ∈ byName, bucket.2 = profiles.filter fun p => p.name = bucket.1)
    (hall : ∀ p ∈ profiles, p.name ∈ byName.map Prod.fst)
    (hmem : bucket ∈ pushByName byName profile) :
    bucket.2 = (profiles ++ [profile]).filter fun p => p.name = bucket.1 := by
  rw [List.filter_append]
  rw [pushByName] at hmem
  split at hmem
  · obtain ⟨old, hold, rfl⟩ := List.mem_map.mp hmem
    have hbucket := hbyName old hold
    split
    · next heq =>
      rw [heq] at hbucket
      simp [heq, hbucket]
    · next hne => simp [Ne.symm hne, ← hbucket]
  · next hnone =>
    rcases List.mem_append.mp hmem with hold | hnew
    · have hne : profile.name ≠ bucket.1 := by
        intro heq
        apply hnone
        rw [List.any_eq_true]
        exact ⟨bucket, hold, by simp [heq]⟩
      simp [hne, ← hbyName bucket hold]
    · rw [List.mem_singleton.mp hnew]
      have hempty : profiles.filter (fun p => p.name = profile.name) = [] := by
        rw [List.filter_eq_nil_iff]
        intro p hp hname
        apply hnone
        obtain ⟨old, hold, hfst⟩ := List.mem_map.mp (hall p hp)
        rw [List.any_eq_true]
        exact ⟨old, hold, by simpa [hfst] using hname⟩
      simp [hempty]

structure Buckets (profiles : List (ManagedAwsProfilePayload α))
    (byName : List (Text × List (ManagedAwsProfilePayload α))) : Prop where
  nodup : (byName.map Prod.fst).Nodup
  bucket : ∀ bucket ∈ byName, bucket.2 = profiles.filter fun p => p.name = bucket.1
  all : ∀ name, name ∈ byName.map Prod.fst ↔ name ∈ profiles.map (·.name)
  perm : (byName.flatMap Prod.snd).Perm profiles

theorem flatMap_pushByName (hnodup : (byName.map Prod.fst).Nodup) :
    ((pushByName byName profile).flatMap Prod.snd).Perm (byName.flatMap Prod.snd ++ [profile]) := by
  rw [pushByName]
  split
  · next hany =>
    rw [List.any_eq_true] at hany
    obtain ⟨bucket, hbucket, hname⟩ := hany
    have hname : bucket.1 = profile.name := of_decide_eq_true hname
    obtain ⟨before, after, rfl⟩ := List.append_of_mem hbucket
    rw [List.map_append, List.map_cons] at hnodup
    have hnot := (List.nodup_middle.mp hnodup).notMem
    have hsame : ∀ other ∈ before ++ after,
        (if other.1 = profile.name then (other.1, other.2 ++ [profile]) else other) = other := by
      intro other hother
      rw [if_neg]
      intro heq
      apply hnot
      rw [hname, ← heq, ← List.map_append]
      exact List.mem_map_of_mem hother
    rw [List.map_append, List.map_cons, if_pos hname,
      List.map_congr_left fun other h => hsame other (List.mem_append_left _ h),
      List.map_congr_left fun other h => hsame other (List.mem_append_right _ h)]
    simp only [List.map_id', List.flatMap_append, List.flatMap_cons, List.append_assoc]
    refine List.Perm.append_left _ (List.Perm.append_left _ ?_)
    exact List.perm_append_comm
  · rw [List.flatMap_append]
    simp

theorem buckets_groupByName (profiles : List (ManagedAwsProfilePayload α)) :
    Buckets profiles (groupByName profiles) := by
  induction profiles using List.reverseRecOn with
  | nil => exact ⟨List.nodup_nil, by simp [groupByName], by simp [groupByName], .refl _⟩
  | append_singleton profiles profile ih =>
    have hpush : groupByName (profiles ++ [profile]) =
        pushByName (groupByName profiles) profile := by
      rw [groupByName, List.foldl_append]
      rfl
    rw [hpush]
    constructor
    · rw [map_fst_pushByName]
      split
      · exact ih.nodup
      · next hnot => exact ih.nodup.append (List.nodup_singleton _) (by simpa using hnot)
    · intro bucket hbucket
      exact pushByName_mem ih.bucket
        (fun p hp => (ih.all p.name).mpr (List.mem_map_of_mem hp)) hbucket
    · intro name
      rw [map_fst_pushByName, List.map_append, List.mem_append]
      split
      · next hmem =>
        rw [ih.all name]
        refine ⟨.inl, fun h => h.elim id fun h => ?_⟩
        rw [List.map_singleton, List.mem_singleton] at h
        rw [h]
        exact (ih.all _).mp hmem
      · rw [List.mem_append, ih.all name]
        rfl
    · exact (flatMap_pushByName ih.nodup).trans (ih.perm.append_right _)

/-! ### Which profiles keep their names -/

theorem mem_renamings {q : ManagedAwsProfilePayload α} (h : q ∈ renamings env profiles) :
    ∃ bucket ∈ groupByName profiles, 2 ≤ bucket.2.length ∧ q ∈ (order env bucket.2).tail := by
  obtain ⟨bucket, hbucket, hq⟩ := List.mem_flatMap.mp h
  split at hq
  · cases hq
  · next hlen => exact ⟨bucket, hbucket, Nat.not_lt.mp hlen, hq⟩

theorem renamings_subperm : (renamings env profiles).Subperm profiles := by
  have hbuckets : ∀ byName : List (Text × List (ManagedAwsProfilePayload α)),
      (byName.flatMap fun bucket =>
        if bucket.2.length < 2 then [] else (order env bucket.2).tail).Subperm
      (byName.flatMap Prod.snd) := by
    intro byName
    induction byName with
    | nil => exact List.Subperm.refl _
    | cons bucket rest ih =>
      rw [List.flatMap_cons, List.flatMap_cons]
      refine List.Subperm.append ?_ ih
      split
      · exact List.nil_subperm
      · exact (List.tail_sublist _).subperm.trans (List.mergeSort_perm _ _).subperm
  exact (hbuckets _).trans (buckets_groupByName profiles).perm.subperm

theorem count_id_renamings (id : Text) :
    ((renamings env profiles).map (·.id)).count id ≤ (profiles.map (·.id)).count id := by
  have hsubperm : (renamings env profiles).Subperm profiles := renamings_subperm
  obtain ⟨l, hperm, hsub⟩ := hsubperm
  rw [← (hperm.map _).count_eq]
  exact (hsub.map _).count_le _

def OwnIds (env : Env) (profiles : List (ManagedAwsProfilePayload α)) : Prop :=
  ∀ q ∈ renamings env profiles, (profiles.map (·.id)).count q.id = 1

theorem nodup_ids_renamings (h : OwnIds env profiles) :
    ((renamings env profiles).map (·.id)).Nodup := by
  rw [List.nodup_iff_count_le_one]
  intro id
  by_cases hmem : id ∈ (renamings env profiles).map (·.id)
  · obtain ⟨q, hq, rfl⟩ := List.mem_map.mp hmem
    exact (count_id_renamings q.id).trans (h q hq).le
  · rw [List.count_eq_zero.mpr hmem]
    exact Nat.zero_le 1

theorem eq_of_count {p q : ManagedAwsProfilePayload α}
    (hcount : (profiles.map (·.id)).count q.id = 1) (hq : q ∈ profiles) (hp : p ∈ profiles)
    (hid : p.id = q.id) : p = q := by
  obtain ⟨before, after, rfl⟩ := List.append_of_mem hq
  rw [List.map_append, List.map_cons, List.count_append, List.count_cons_self] at hcount
  have hbefore : q.id ∉ before.map (·.id) := List.count_eq_zero.mp (by omega)
  have hafter : q.id ∉ after.map (·.id) := List.count_eq_zero.mp (by omega)
  rcases List.mem_append.mp hp with hp | hp
  · exact absurd (hid ▸ List.mem_map_of_mem hp) hbefore
  · rcases List.mem_cons.mp hp with rfl | hp
    · rfl
    · exact absurd (hid ▸ List.mem_map_of_mem hp) hafter

def keeping (env : Env) (profiles : List (ManagedAwsProfilePayload α)) :
    List (ManagedAwsProfilePayload α) :=
  profiles.filter fun p => p.id ∉ (renamings env profiles).map (·.id)

theorem bucket_cases (env : Env) {bucket : Text × List (ManagedAwsProfilePayload α)}
    (hbucket : bucket ∈ groupByName profiles) (hlen : 2 ≤ bucket.2.length) :
    ∃ head tail, order env bucket.2 = head :: tail ∧ ∀ q ∈ tail, q ∈ renamings env profiles := by
  have hperm : (order env bucket.2).Perm bucket.2 := List.mergeSort_perm _ _
  cases horder : order env bucket.2 with
  | nil =>
    have hlength := hperm.length_eq
    rw [horder, List.length_nil] at hlength
    omega
  | cons head tail =>
    refine ⟨head, tail, rfl, ?_⟩
    intro q hq
    refine List.mem_flatMap.mpr ⟨bucket, hbucket, ?_⟩
    rw [if_neg (Nat.not_lt.mpr hlen), horder]
    exact hq

theorem exists_bucket {name : Text} (h : name ∈ profiles.map (·.name)) :
    ∃ bucket ∈ groupByName profiles, bucket.1 = name ∧
      bucket.2 = profiles.filter fun p => p.name = name := by
  have hbuckets := buckets_groupByName profiles
  obtain ⟨bucket, hbucket, rfl⟩ := List.mem_map.mp ((hbuckets.all name).mpr h)
  exact ⟨bucket, hbucket, rfl, hbuckets.bucket bucket hbucket⟩

theorem nodup_names_keeping : ((keeping env profiles).map (·.name)).Nodup := by
  rw [List.nodup_iff_count_le_one]
  intro name
  have hcount : ((keeping env profiles).map (·.name)).count name =
      ((profiles.filter fun p => p.name = name).filter
        fun p => p.id ∉ (renamings env profiles).map (·.id)).length := by
    rw [List.count, List.countP_map, List.countP_eq_length_filter, keeping, List.filter_filter,
      List.filter_filter]
    congr 1
    apply List.filter_congr
    intro p _
    rw [Bool.eq_iff_iff]
    simp [and_comm]
  rw [hcount]
  by_cases hname : name ∈ profiles.map (·.name)
  · obtain ⟨bucket, hbucket, -, hsnd⟩ := exists_bucket hname
    rw [← hsnd]
    by_cases hlen : 2 ≤ bucket.2.length
    · obtain ⟨head, tail, horder, htail⟩ := bucket_cases env hbucket hlen
      have hperm : (head :: tail).Perm bucket.2 := horder ▸ List.mergeSort_perm _ _
      rw [← (hperm.filter _).length_eq]
      have hnone : tail.filter (fun p => p.id ∉ (renamings env profiles).map (·.id)) = [] := by
        rw [List.filter_eq_nil_iff]
        intro q hq
        simpa using ⟨q, htail q hq, rfl⟩
      rw [List.filter_cons, hnone]
      split <;> simp
    · exact (List.length_filter_le _ _).trans (by omega)
  · have hempty : profiles.filter (fun p => p.name = name) = [] := by
      rw [List.filter_eq_nil_iff]
      intro p hp heq
      exact hname (List.mem_map.mpr ⟨p, hp, of_decide_eq_true heq⟩)
    rw [hempty]
    exact Nat.zero_le 1

theorem two_le_of_renamed {q : ManagedAwsProfilePayload α} (hq : q ∈ renamings env profiles) :
    2 ≤ (profiles.filter fun p => p.name = q.name).length := by
  obtain ⟨bucket, hbucket, hlen, hq⟩ := mem_renamings hq
  have hmem : q ∈ bucket.2 := (List.mergeSort_perm _ _).subset (List.mem_of_mem_tail hq)
  rw [(buckets_groupByName profiles).bucket bucket hbucket] at hmem hlen
  rw [of_decide_eq_true (List.mem_filter.mp hmem).2]
  exact hlen

theorem mem_names_keeping (hown : OwnIds env profiles) {name : Text}
    (hname : name ∈ profiles.map (·.name)) : name ∈ (keeping env profiles).map (·.name) := by
  have hbuckets := buckets_groupByName profiles
  obtain ⟨bucket, hbucket, -, hsnd⟩ := exists_bucket hname
  have hin : ∀ p ∈ bucket.2, p ∈ profiles ∧ p.name = name := by
    intro p hp
    rw [hsnd] at hp
    exact ⟨(List.mem_filter.mp hp).1, of_decide_eq_true (List.mem_filter.mp hp).2⟩
  have hkeep : ∀ p ∈ bucket.2, p ∉ renamings env profiles →
      name ∈ (keeping env profiles).map (·.name) := by
    intro p hp hnot
    obtain ⟨hmem, hpname⟩ := hin p hp
    refine List.mem_map.mpr ⟨p, List.mem_filter.mpr ⟨hmem, ?_⟩, hpname⟩
    refine decide_eq_true fun hid => ?_
    obtain ⟨q, hq, hid⟩ := List.mem_map.mp hid
    exact hnot (eq_of_count (hown q hq) (renamings_subperm.subset hq) hmem hid.symm ▸ hq)
  by_cases hlen : 2 ≤ bucket.2.length
  · obtain ⟨head, tail, horder, htail⟩ := bucket_cases env hbucket hlen
    have hperm : (head :: tail).Perm bucket.2 := horder ▸ List.mergeSort_perm _ _
    have hhead : head ∈ bucket.2 := hperm.subset List.mem_cons_self
    refine hkeep head hhead fun hrenamed => ?_
    -- the first of the bucket would be in it twice
    obtain ⟨other, hother, -, hmem⟩ := mem_renamings hrenamed
    have hin' : head ∈ other.2 := (List.mergeSort_perm _ _).subset (List.mem_of_mem_tail hmem)
    rw [hbuckets.bucket other hother] at hin'
    have hfst : other.1 = bucket.1 := by
      rw [← of_decide_eq_true (List.mem_filter.mp hin').2]
      rw [hbuckets.bucket bucket hbucket] at hhead
      exact of_decide_eq_true (List.mem_filter.mp hhead).2
    rw [List.inj_on_of_nodup_map hbuckets.nodup hother hbucket hfst, horder] at hmem
    have hcount := hown head hrenamed
    have htwice : 2 ≤ ((head :: tail).map (·.id)).count head.id := by
      rw [List.map_cons, List.count_cons_self]
      exact Nat.succ_le_succ (List.count_pos_iff.mpr (List.mem_map_of_mem hmem))
    have hle : ((head :: tail).map (·.id)).count head.id ≤ (profiles.map (·.id)).count head.id := by
      rw [(hperm.map _).count_eq, hsnd]
      exact (List.filter_sublist.map _).count_le _
    omega
  · obtain ⟨p, hp, hpname⟩ := List.mem_map.mp hname
    have hmem : p ∈ bucket.2 := by
      rw [hsnd]
      exact List.mem_filter.mpr ⟨hp, decide_eq_true hpname⟩
    refine hkeep p hmem fun hrenamed => ?_
    have hlong := two_le_of_renamed hrenamed
    rw [hpname, ← hsnd] at hlong
    exact hlen hlong

/-! ### The names that are given -/

def given (occupied : List Text) : List (ManagedAwsProfilePayload α) → List Text
  | [] => []
  | profile :: rest =>
      let occupied := occupied.filter fun name => name ≠ profile.name
      let series := conflictName profile.name (profile.id.take 8)
      let nextName := series (FreshName.index occupied series)
      nextName :: given (nextName :: occupied) rest

def renameAll (env : Env) (state : Resolution α) (renamed : List (ManagedAwsProfilePayload α)) :
    Resolution α :=
  renamed.foldl (fun state profile => rename env profile.name state profile) state

theorem renameAll_cons {state : Resolution α} :
    renameAll env state (profile :: renamed) =
      renameAll env (rename env profile.name state profile) renamed := rfl

theorem rename_self {state : Resolution α} {name : Text} :
    (rename env name state profile).renamedProfiles profile.id =
      some { profile with
        name := conflictName name (profile.id.take 8) (FreshName.index
          (state.occupiedNames.filter fun occupied => occupied ≠ profile.name)
          (conflictName name (profile.id.take 8)))
        updatedAt := env.nowIso state.renames } :=
  Function.update_self _ _ _

theorem rename_other {state : Resolution α} {name id : Text} (h : id ≠ profile.id) :
    (rename env name state profile).renamedProfiles id = state.renamedProfiles id :=
  Function.update_of_ne h _ _

theorem renameAll_other {state : Resolution α} {id : Text} (h : id ∉ renamed.map (·.id)) :
    (renameAll env state renamed).renamedProfiles id = state.renamedProfiles id := by
  induction renamed generalizing state with
  | nil => rfl
  | cons profile renamed ih =>
    rw [List.map_cons, List.mem_cons, not_or] at h
    rw [renameAll_cons, ih h.2]
    exact rename_other h.1

theorem renameAll_id {state : Resolution α} {id : Text} {p : ManagedAwsProfilePayload α}
    (hstate : ∀ id p, state.renamedProfiles id = some p → p.id = id)
    (h : (renameAll env state renamed).renamedProfiles id = some p) : p.id = id := by
  induction renamed generalizing state with
  | nil => exact hstate id p h
  | cons profile renamed ih =>
    refine ih ?_ h
    intro id' p' h'
    by_cases heq : id' = profile.id
    · subst heq
      rw [rename_self] at h'
      rw [← Option.some.inj h']
    · rw [rename_other heq] at h'
      exact hstate id' p' h'

theorem renameAll_names {state : Resolution α} (hnodup : (renamed.map (·.id)).Nodup) :
    renamed.map (fun q => ((renameAll env state renamed).renamedProfiles q.id).map (·.name)) =
      (given state.occupiedNames renamed).map some := by
  induction renamed generalizing state with
  | nil => rfl
  | cons profile renamed ih =>
    rw [List.map_cons, List.nodup_cons] at hnodup
    rw [List.map_cons, renameAll_cons, ih hnodup.2, renameAll_other hnodup.1]
    simp only [rename, Function.update_self, Option.map_some, given, List.map_cons]

theorem resolveBucket_eq {state : Resolution α} {bucket : Text × List (ManagedAwsProfilePayload α)}
    (hname : ∀ p ∈ bucket.2, p.name = bucket.1) :
    resolveBucket env state bucket = renameAll env state
      (if bucket.2.length < 2 then [] else (order env bucket.2).tail) := by
  rw [resolveBucket]
  split
  · rfl
  · have hmem : ∀ q ∈ (order env bucket.2).tail, q.name = bucket.1 := fun q hq =>
      hname q ((List.mergeSort_perm _ _).subset (List.mem_of_mem_tail hq))
    generalize (order env bucket.2).tail = tail at hmem
    rw [renameAll]
    exact List.foldl_ext _ _ _ fun state q hq => by rw [hmem q hq]

theorem resolve_eq : (resolveManagedAwsProfileNameConflicts env profiles).1 =
    profiles.map fun p => ((renameAll env { occupiedNames := profiles.map (·.name) }
      (renamings env profiles)).renamedProfiles p.id).getD p := by
  have hbuckets := buckets_groupByName profiles
  have hsame : (∀ bucket ∈ groupByName profiles, bucket.2.length < 2) →
      profiles = profiles.map fun p => ((renameAll env { occupiedNames := profiles.map (·.name) }
        (renamings env profiles)).renamedProfiles p.id).getD p := by
    intro hshort
    have hnone : renamings env profiles = [] := by
      rw [renamings, List.flatMap_eq_nil_iff]
      intro bucket hbucket
      rw [if_pos (hshort bucket hbucket)]
    conv_lhs => rw [← List.map_id profiles]
    rw [hnone]
    rfl
  rw [resolveManagedAwsProfileNameConflicts]
  split
  · next hlen =>
    refine hsame fun bucket hbucket => ?_
    rw [hbuckets.bucket bucket hbucket]
    exact (List.length_filter_le _ _).trans_lt hlen
  · dsimp only
    split
    · have hfold : (groupByName profiles).foldl (resolveBucket env)
          { occupiedNames := profiles.map (·.name) } =
          renameAll env { occupiedNames := profiles.map (·.name) } (renamings env profiles) := by
        rw [renameAll, renamings, List.foldl_flatMap]
        refine List.foldl_ext _ _ _ fun state bucket hbucket => resolveBucket_eq ?_
        intro p hp
        rw [hbuckets.bucket bucket hbucket] at hp
        exact of_decide_eq_true (List.mem_filter.mp hp).2
      rw [hfold]
    · next hany =>
      refine hsame fun bucket hbucket => ?_
      by_contra hlen
      apply hany
      rw [List.any_eq_true]
      exact ⟨bucket, hbucket, decide_eq_true (Nat.not_lt.mp hlen)⟩

theorem given_cases {names treated news occupied : List Text}
    (hoccupied : ∀ name, name ∈ occupied ↔ (name ∈ names ∧ name ∉ treated) ∨ name ∈ news)
    (htreated : ∀ name ∈ treated, name ∈ names) (hnews : ∀ name ∈ news, name ∉ names)
    (hnames : ∀ q ∈ renamed, q.name ∈ names) :
    (NonePassed names treated news renamed → (given occupied renamed).Nodup ∧
      ∀ name ∈ given occupied renamed, name ∉ names ∧ name ∉ news) ∧
    (¬ NonePassed names treated news renamed → ∃ name ∈ given occupied renamed, name ∈ names) := by
  induction renamed generalizing treated news occupied with
  | nil => exact ⟨fun _ => ⟨List.nodup_nil, by simp [given]⟩, fun h => absurd trivial h⟩
  | cons profile renamed ih =>
    have hname : profile.name ∈ names := hnames profile List.mem_cons_self
    have hseries := conflictName_injective profile.name (profile.id.take 8)
    set series := conflictName profile.name (profile.id.take 8) with hseriesdef
    have hfree : series (FreshName.index (names ++ news) series) ∉ names ++ news :=
      FreshName.series_index_not_mem hseries
    rw [List.mem_append, not_or] at hfree
    -- what is taken once the name of the profile has been freed
    have hafter : ∀ name, name ∈ occupied.filter (fun name => name ≠ profile.name) ↔
        (name ∈ names ∧ name ∉ profile.name :: treated) ∨ name ∈ news := by
      intro name
      rw [List.mem_filter, hoccupied, List.mem_cons, not_or, decide_eq_true_iff]
      constructor
      · rintro ⟨⟨hmem, hnot⟩ | hmem, hne⟩
        · exact .inl ⟨hmem, hne, hnot⟩
        · exact .inr hmem
      · rintro (⟨hmem, hne, hnot⟩ | hmem)
        · exact ⟨.inl ⟨hmem, hnot⟩, hne⟩
        · exact ⟨.inr hmem, fun heq => hnews name hmem (heq ▸ hname)⟩
    by_cases hpass : ∀ j, j < FreshName.index (names ++ news) series → series j ∉ treated
    · have hindex : FreshName.index (occupied.filter fun name => name ≠ profile.name) series =
          FreshName.index (names ++ news) series := by
        apply FreshName.index_eq_of_freed hseries
        · intro name hmem
          exact List.mem_append.mpr (((hafter name).mp hmem).imp_left And.left)
        · intro j hj
          refine (hafter _).mpr ((List.mem_append.mp (FreshName.mem_of_lt_index hj)).imp_left ?_)
          intro hmem
          refine ⟨hmem, ?_⟩
          rw [List.mem_cons, not_or]
          exact ⟨conflictName_ne _ _ _, hpass j hj⟩
      obtain ⟨hgood, hbad⟩ := @ih (profile.name :: treated)
        (series (FreshName.index (names ++ news) series) :: news)
        (series (FreshName.index (names ++ news) series) ::
          occupied.filter fun name => name ≠ profile.name)
        (by
          intro name
          rw [List.mem_cons, hafter, List.mem_cons (l := news)]
          exact or_left_comm)
        (by
          intro name hmem
          rcases List.mem_cons.mp hmem with rfl | hmem
          · exact hname
          · exact htreated name hmem)
        (by
          intro name hmem
          rcases List.mem_cons.mp hmem with rfl | hmem
          · exact hfree.1
          · exact hnews name hmem)
        fun q hq => hnames q (List.mem_cons_of_mem _ hq)
      simp only [given, NonePassed, ← hseriesdef, hindex]
      constructor
      · rintro ⟨-, hrest⟩
        obtain ⟨hnodup, hnew⟩ := hgood hrest
        refine ⟨List.nodup_cons.mpr ⟨fun hmem => ?_, hnodup⟩, ?_⟩
        · exact (hnew _ hmem).2 List.mem_cons_self
        · intro name hmem
          rcases List.mem_cons.mp hmem with rfl | hmem
          · exact hfree
          · exact ⟨(hnew name hmem).1, fun h => (hnew name hmem).2 (List.mem_cons_of_mem _ h)⟩
      · intro hnot
        obtain ⟨name, hmem, hin⟩ := hbad fun hrest => hnot ⟨hpass, hrest⟩
        exact ⟨name, List.mem_cons_of_mem _ hmem, hin⟩
    · constructor
      · intro h
        exact absurd h.1 hpass
      · intro _
        simp only [not_forall, not_not] at hpass
        obtain ⟨j, hj, hmet⟩ := hpass
        have hnot : series j ∉ occupied.filter fun name => name ≠ profile.name := by
          rw [hafter]
          rintro (⟨-, hmem⟩ | hmem)
          · exact hmem (List.mem_cons_of_mem _ hmet)
          · exact hnews _ hmem (htreated _ hmet)
        have htaken := FreshName.index_freed ⟨j, hj, hnot⟩
        refine ⟨_, List.mem_cons_self, (List.mem_append.mp htaken).resolve_right fun hmem => ?_⟩
        exact FreshName.series_index_not_mem hseries ((hafter _).mpr (.inr hmem))

theorem renameAll_some {state : Resolution α} {id : Text} (h : id ∈ renamed.map (·.id)) :
    ((renameAll env state renamed).renamedProfiles id).isSome := by
  induction renamed generalizing state with
  | nil => cases h
  | cons profile renamed ih =>
    rw [renameAll_cons]
    by_cases hmem : id ∈ renamed.map (·.id)
    · exact ih hmem
    · rw [renameAll_other hmem, (List.mem_cons.mp h).resolve_right hmem, rename_self]
      rfl

/-! ### The result -/

def renamedProfiles (env : Env) (profiles : List (ManagedAwsProfilePayload α)) :
    Text → Option (ManagedAwsProfilePayload α) :=
  (renameAll env { occupiedNames := profiles.map (·.name) }
    (renamings env profiles)).renamedProfiles

theorem exists_renamed {q : ManagedAwsProfilePayload α} (hq : q ∈ renamings env profiles) :
    ∃ r, renamedProfiles env profiles q.id = some r :=
  Option.isSome_iff_exists.mp (renameAll_some (List.mem_map_of_mem hq))

def resolve (env : Env) (profiles : List (ManagedAwsProfilePayload α))
    (p : ManagedAwsProfilePayload α) : ManagedAwsProfilePayload α :=
  (renamedProfiles env profiles p.id).getD p

theorem resolve_id (p : ManagedAwsProfilePayload α) : (resolve env profiles p).id = p.id := by
  rw [resolve]
  cases h : renamedProfiles env profiles p.id with
  | none => rfl
  | some r => exact renameAll_id (fun _ _ h => by cases h) h

theorem resolve_of_keeping {p : ManagedAwsProfilePayload α}
    (h : p.id ∉ (renamings env profiles).map (·.id)) : resolve env profiles p = p := by
  rw [resolve, renamedProfiles, renameAll_other h]
  rfl

theorem resolve_names (hown : OwnIds env profiles) :
    (renamings env profiles).map (fun q => (resolve env profiles q).name) =
      given (profiles.map (·.name)) (renamings env profiles) := by
  have hnames : (renamings env profiles).map
      (fun q => (renamedProfiles env profiles q.id).map (·.name)) =
        (given (profiles.map (·.name)) (renamings env profiles)).map some :=
    renameAll_names (nodup_ids_renamings hown)
  apply List.map_injective_iff.mpr (Option.some_injective Text)
  rw [← hnames, List.map_map]
  apply List.map_congr_left
  intro q hq
  obtain ⟨r, hr⟩ := exists_renamed hq
  rw [Function.comp, resolve, hr]
  rfl

theorem renamed_perm (hown : OwnIds env profiles) :
    (profiles.filter fun p => p.id ∈ (renamings env profiles).map (·.id)).Perm
      (renamings env profiles) := by
  rw [List.perm_ext_iff_of_nodup]
  · intro p
    rw [List.mem_filter, decide_eq_true_iff]
    constructor
    · rintro ⟨hp, hid⟩
      obtain ⟨q, hq, hid⟩ := List.mem_map.mp hid
      rw [eq_of_count (hown q hq) (renamings_subperm.subset hq) hp hid.symm]
      exact hq
    · intro hp
      exact ⟨renamings_subperm.subset hp, List.mem_map_of_mem hp⟩
  · refine List.Nodup.of_map (·.id) (List.nodup_iff_count_le_one.mpr fun id => ?_)
    by_cases hmem : id ∈ (renamings env profiles).map (·.id)
    · obtain ⟨q, hq, rfl⟩ := List.mem_map.mp hmem
      rw [← hown q hq]
      exact (List.filter_sublist.map _).count_le _
    · rw [List.count_eq_zero.mpr]
      · exact Nat.zero_le 1
      · intro hid
        obtain ⟨p, hp, rfl⟩ := List.mem_map.mp hid
        exact hmem (of_decide_eq_true (List.mem_filter.mp hp).2)
  · exact List.Nodup.of_map _ (nodup_ids_renamings hown)

theorem names_perm (hown : OwnIds env profiles) :
    ((profiles.map (resolve env profiles)).map (·.name)).Perm
      ((keeping env profiles).map (·.name) ++
        given (profiles.map (·.name)) (renamings env profiles)) := by
  have hsplit : profiles.Perm (keeping env profiles ++
      profiles.filter fun p => p.id ∈ (renamings env profiles).map (·.id)) := by
    have hfilter := List.filter_append_perm
      (fun p : ManagedAwsProfilePayload α => p.id ∉ (renamings env profiles).map (·.id)) profiles
    refine hfilter.symm.trans (List.Perm.append_left _ ?_)
    rw [List.filter_congr]
    intro p _
    rw [decide_not, Bool.not_not]
  rw [List.map_map]
  refine (hsplit.map _).trans ?_
  rw [List.map_append, ← resolve_names hown]
  refine List.Perm.append ?_ ((renamed_perm hown).map _)
  rw [List.map_congr_left]
  intro p hp
  rw [Function.comp, resolve_of_keeping (of_decide_eq_true (List.mem_filter.mp hp).2)]

theorem ownIds_of_nodup (h : ((profiles.map (resolve env profiles)).map (·.name)).Nodup) :
    OwnIds env profiles := by
  intro q hq
  obtain ⟨r, hr⟩ := exists_renamed hq
  have hpos : 0 < (profiles.map (·.id)).count q.id :=
    List.count_pos_iff.mpr (List.mem_map_of_mem (renamings_subperm.subset hq))
  have hle : (profiles.map (·.id)).count q.id ≤
      ((profiles.map (resolve env profiles)).map (·.name)).count r.name := by
    rw [List.map_map, List.count, List.count, List.countP_map, List.countP_map]
    apply List.countP_mono_left
    intro p _ hid
    have hid : p.id = q.id := by simpa using hid
    simp [resolve, hid, hr]
  have hone := List.nodup_iff_count_le_one.mp h r.name
  omega

/-- Names conflict no more if and only if no two profiles, of which one gets another name, have one
id, and no name of a group that has been treated is passed over. -/
theorem resolved_iff (env : Env) (profiles : List (ManagedAwsProfilePayload α)) :
    Resolved profiles (resolveManagedAwsProfileNameConflicts env profiles).1 ↔
      OwnIds env profiles ∧
        NonePassed (profiles.map (·.name)) [] [] (renamings env profiles) := by
  have hresult : (resolveManagedAwsProfileNameConflicts env profiles).1 =
      profiles.map (resolve env profiles) := resolve_eq
  rw [hresult]
  have hnames : ∀ q ∈ renamings env profiles, q.name ∈ profiles.map (·.name) := fun q hq =>
    List.mem_map_of_mem (renamings_subperm.subset hq)
  have hcases := @given_cases _ _ (profiles.map (·.name)) [] [] (profiles.map (·.name))
    (by simp) (by simp) (by simp) hnames
  constructor
  · intro h
    have hown := ownIds_of_nodup h.names
    refine ⟨hown, ?_⟩
    by_contra hpassed
    obtain ⟨name, hgiven, hname⟩ := hcases.2 hpassed
    have hnodup := (names_perm hown).nodup_iff.mp h.names
    exact List.disjoint_of_nodup_append hnodup (mem_names_keeping hown hname) hgiven
  · rintro ⟨hown, hpassed⟩
    obtain ⟨hgiven, hnew⟩ := hcases.1 hpassed
    refine ⟨?_, ?_, ?_, ?_⟩
    · rw [List.map_map]
      exact List.map_congr_left fun p _ => resolve_id p
    · rw [(names_perm hown).nodup_iff]
      refine nodup_names_keeping.append hgiven fun name hkept hname => ?_
      exact (hnew name hname).1 ((List.filter_sublist.map _).subset hkept)
    · intro name hname
      obtain ⟨p, hp, hpname⟩ := List.mem_map.mp (mem_names_keeping hown hname)
      obtain ⟨hp, hkeeps⟩ := List.mem_filter.mp hp
      rw [← List.map_prod_left_eq_zip]
      refine ⟨_, List.mem_map_of_mem hp, hpname, ?_⟩
      rw [resolve_of_keeping (of_decide_eq_true hkeeps)]
      exact hpname
    · intro entry hentry hcount
      rw [← List.map_prod_left_eq_zip] at hentry
      obtain ⟨p, hp, rfl⟩ := List.mem_map.mp hentry
      apply resolve_of_keeping
      intro hid
      obtain ⟨q, hq, hid⟩ := List.mem_map.mp hid
      have heq := eq_of_count (hown q hq) (renamings_subperm.subset hq) hp hid.symm
      have htwo := two_le_of_renamed hq
      rw [List.count, List.countP_map, List.countP_eq_length_filter] at hcount
      rw [← heq] at htwo
      have hsame : profiles.filter (fun p' => p'.name = p.name) =
          profiles.filter ((fun name => name == p.name) ∘ fun p => p.name) :=
        List.filter_congr fun p' _ => by
          rw [Bool.eq_iff_iff]
          simp
      rw [hsame] at htwo
      dsimp only at hcount
      omega

/-- The name that the second of two profiles gets is that of two others, the first of which has just
been said to keep it. -/
def colliding : List (ManagedAwsProfilePayload Unit) :=
  [⟨units "x", units "a-conflict-1", [], ()⟩, ⟨units "y", units "a-conflict-1", [], ()⟩,
    ⟨units "0", units "a", [], ()⟩, ⟨units "1", units "a", [], ()⟩]

def plainEnv : Env where
  localeCompare left right := if left = right then 0 else if left < right then -1 else 1
  nowIso _ := []

theorem order_pair {p q : ManagedAwsProfilePayload Unit} (h : compareUpdated plainEnv p q ≤ 0) :
    order plainEnv [p, q] = [p, q] :=
  List.mergeSort_of_pairwise (by simpa using h)

theorem renamings_colliding : renamings plainEnv colliding =
    [⟨units "y", units "a-conflict-1", [], ()⟩, ⟨units "1", units "a", [], ()⟩] := by
  have hgroups : groupByName colliding =
      [(units "a-conflict-1", [⟨units "x", units "a-conflict-1", [], ()⟩,
        ⟨units "y", units "a-conflict-1", [], ()⟩]),
      (units "a", [⟨units "0", units "a", [], ()⟩, ⟨units "1", units "a", [], ()⟩])] := by
    decide
  rw [renamings, hgroups, List.flatMap_cons, List.flatMap_cons, List.flatMap_nil,
    if_neg (by decide), if_neg (by decide), order_pair (by decide), order_pair (by decide)]
  rfl

/-- The first of the pair named `a-conflict-1` keeps that name, and the second `a` gets it. -/
theorem names_collide : ¬ Resolved colliding
    (resolveManagedAwsProfileNameConflicts plainEnv colliding).1 := by
  intro h
  have hnames := h.names
  rw [resolve_eq, renamings_colliding] at hnames
  revert hnames
  decide

end Dolgate.AwsProfileNames
