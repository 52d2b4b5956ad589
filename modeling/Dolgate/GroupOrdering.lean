import Mathlib
import Dolgate.GroupPaths

set_option autoImplicit false

/-! The order that groups are given by hand: sparse ranks, most of which stay as they are. -/

namespace Dolgate.GroupOrdering

open GroupPaths

def groupRankStep : Int := 1024

structure Sibling where
  id : Text
  path : Text
  sortRank : Option Int
  deriving DecidableEq, Repr

structure GroupRankAssignment where
  id : Text
  sortRank : Int
  deriving DecidableEq, Repr

/-- Those with a rank come first. Of equal ranks the ids decide, where there is none the paths. -/
def compareGroupSiblings (localeCompare : Text → Text → Int) (left right : Sibling) : Int :=
  match left.sortRank, right.sortRank with
  | some leftRank, some rightRank =>
      if leftRank ≠ rightRank then leftRank - rightRank else localeCompare left.id right.id
  | some _, none => -1
  | none, some _ => 1
  | none, none => localeCompare left.path right.path

def sortGroupSiblings (localeCompare : Text → Text → Int) (siblings : List Sibling) :
    List Sibling :=
  siblings.mergeSort fun left right => decide (compareGroupSiblings localeCompare left right ≤ 0)

/-- `Math.max(0, Math.min(targetIndex, length))` -/
def clamp (targetIndex : Int) (length : Nat) : Nat := (max 0 (min targetIndex length)).toNat

def renumber (reordered : List Sibling) : List GroupRankAssignment :=
  reordered.mapIdx fun index sibling =>
    { id := sibling.id, sortRank := (index + 1) * groupRankStep }

/-- The ranks that have to change. `none` for a neighbour that there is not, or for its rank. -/
def assignRanks (reordered : List Sibling) (moved : Sibling) (before after : Option Sibling) :
    List GroupRankAssignment :=
  match before, before.bind (·.sortRank), after, after.bind (·.sortRank) with
  | none, _, _, some afterRank => [{ id := moved.id, sortRank := afterRank - groupRankStep }]
  | _, some beforeRank, none, _ => [{ id := moved.id, sortRank := beforeRank + groupRankStep }]
  | _, some beforeRank, _, some afterRank =>
      if afterRank - beforeRank > 1 then
        [{ id := moved.id, sortRank := (beforeRank + afterRank) / 2 }]
      else renumber reordered
  | none, _, none, _ => [{ id := moved.id, sortRank := groupRankStep }]
  | _, _, _, _ => renumber reordered

def planGroupReorder (siblings : List Sibling) (movedId : Text) (targetIndex : Int) :
    List GroupRankAssignment :=
  match siblings.findIdx? fun sibling => sibling.id = movedId with
  | none => []
  | some src =>
      match siblings[src]? with
      | none => []
      | some moved =>
          let rest := siblings.eraseIdx src
          let clamped := clamp targetIndex rest.length
          let reordered := rest.take clamped ++ moved :: rest.drop clamped
          assignRanks reordered moved
            (if clamped > 0 then reordered[clamped - 1]? else none) reordered[clamped + 1]?

def setSortRanks (assignments : List GroupRankAssignment) (siblings : List Sibling) :
    List Sibling :=
  siblings.map fun sibling =>
    match assignments.reverse.find? fun entry => entry.id = sibling.id with
    | some entry => { sibling with sortRank := some entry.sortRank }
    | none => sibling

def dropAt (siblings : List Sibling) (moved : Sibling) (targetIndex : Int) : List Sibling :=
  let others := siblings.filter fun sibling => sibling.id ≠ moved.id
  let place := clamp targetIndex others.length
  others.take place ++ moved :: others.drop place

structure StrictOrder (localeCompare : Text → Text → Int) : Prop where
  eq_iff : ∀ x y, localeCompare x y = 0 ↔ x = y
  swap : ∀ x y, localeCompare x y < 0 ↔ 0 < localeCompare y x
  trans : ∀ x y z, localeCompare x y < 0 → localeCompare y z < 0 → localeCompare x z < 0

structure WeakOrder (localeCompare : Text → Text → Int) : Prop where
  total : ∀ x y, localeCompare x y ≤ 0 ∨ localeCompare y x ≤ 0
  trans : ∀ x y z, localeCompare x y ≤ 0 → localeCompare y z ≤ 0 → localeCompare x z ≤ 0

structure Distinct (siblings : List Sibling) : Prop where
  ids : (siblings.map (·.id)).Nodup
  paths : (siblings.map (·.path)).Nodup

def Ordered (localeCompare : Text → Text → Int) (siblings : List Sibling) : Prop :=
  siblings.Pairwise fun left right => compareGroupSiblings localeCompare left right ≤ 0

section

variable {localeCompare : Text → Text → Int} {siblings others : List Sibling}
  {moved left right sibling : Sibling} {assignments : List GroupRankAssignment}

theorem StrictOrder.le_antisymm (h : StrictOrder localeCompare) {x y : Text}
    (hxy : localeCompare x y ≤ 0) (hyx : localeCompare y x ≤ 0) : x = y := by
  have hswap := h.swap x y
  exact (h.eq_iff x y).mp (by omega)

theorem StrictOrder.weak (h : StrictOrder localeCompare) : WeakOrder localeCompare where
  total := by
    intro x y
    have hswap := h.swap y x
    omega
  trans := by
    intro x y z hxy hyz
    rcases hxy.lt_or_eq with hxy | hxy
    · rcases hyz.lt_or_eq with hyz | hyz
      · exact (h.trans x y z hxy hyz).le
      · rw [(h.eq_iff y z).mp hyz] at hxy
        exact hxy.le
    · rw [(h.eq_iff x y).mp hxy]
      exact hyz

/-! ### The comparison -/

theorem compare_ranked {l r : Int} (hl : left.sortRank = some l) (hr : right.sortRank = some r) :
    compareGroupSiblings localeCompare left right =
      if l ≠ r then l - r else localeCompare left.id right.id := by
  rw [compareGroupSiblings, hl, hr]

theorem ranked_of_compare {r : Int} (hr : right.sortRank = some r)
    (h : compareGroupSiblings localeCompare left right ≤ 0) :
    ∃ l, left.sortRank = some l ∧ l ≤ r := by
  cases hl : left.sortRank with
  | none =>
    rw [compareGroupSiblings, hl, hr] at h
    change (1 : Int) ≤ 0 at h
    omega
  | some l =>
    refine ⟨l, rfl, ?_⟩
    rw [compare_ranked hl hr] at h
    split at h <;> omega

theorem compare_of_lt {l r : Int} (hl : left.sortRank = some l) (hr : right.sortRank = some r)
    (h : l < r) : compareGroupSiblings localeCompare left right ≤ 0 := by
  rw [compare_ranked hl hr, if_pos h.ne]
  omega

theorem compare_unranked {l : Int} (hl : left.sortRank = some l) (hr : right.sortRank = none) :
    compareGroupSiblings localeCompare left right ≤ 0 := by
  rw [compareGroupSiblings, hl, hr]
  change (-1 : Int) ≤ 0
  omega

theorem compare_of_after {l m : Int} (hl : left.sortRank = some l) (hm : moved.sortRank = some m)
    (hlt : m < l) (h : right = left ∨ compareGroupSiblings localeCompare left right ≤ 0) :
    compareGroupSiblings localeCompare moved right ≤ 0 := by
  cases hr : right.sortRank with
  | none => exact compare_unranked hm hr
  | some r =>
    refine compare_of_lt hm hr ?_
    rcases h with rfl | h
    · rw [hl] at hr
      cases hr
      exact hlt
    · rw [compare_ranked hl hr] at h
      split at h <;> omega

theorem compare_total (hlc : WeakOrder localeCompare) (left right : Sibling) :
    compareGroupSiblings localeCompare left right ≤ 0 ∨
      compareGroupSiblings localeCompare right left ≤ 0 := by
  cases hl : left.sortRank with
  | none =>
    cases hr : right.sortRank with
    | none =>
      rw [compareGroupSiblings, compareGroupSiblings, hl, hr]
      exact hlc.total left.path right.path
    | some r => exact .inr (compare_unranked hr hl)
  | some l =>
    cases hr : right.sortRank with
    | none => exact .inl (compare_unranked hl hr)
    | some r =>
      rw [compare_ranked hl hr, compare_ranked hr hl]
      by_cases heq : l = r
      · rw [if_neg (not_not.mpr heq), if_neg (not_not.mpr heq.symm)]
        exact hlc.total left.id right.id
      · rw [if_pos heq, if_pos (Ne.symm heq)]
        omega

theorem compare_trans (hlc : WeakOrder localeCompare) {a b c : Sibling}
    (hab : compareGroupSiblings localeCompare a b ≤ 0)
    (hbc : compareGroupSiblings localeCompare b c ≤ 0) :
    compareGroupSiblings localeCompare a c ≤ 0 := by
  cases hc : c.sortRank with
  | some z =>
    obtain ⟨y, hb, hyz⟩ := ranked_of_compare hc hbc
    obtain ⟨x, ha, hxy⟩ := ranked_of_compare hb hab
    rw [compare_ranked ha hb] at hab
    rw [compare_ranked hb hc] at hbc
    rw [compare_ranked ha hc]
    split
    · omega
    · next heq =>
      have hxz : x = z := not_not.mp heq
      rw [if_neg (by omega)] at hab hbc
      exact hlc.trans _ _ _ hab hbc
  | none =>
    cases ha : a.sortRank with
    | some x => exact compare_unranked ha hc
    | none =>
      have hb : b.sortRank = none := by
        by_contra hne
        obtain ⟨y, hb⟩ := Option.ne_none_iff_exists'.mp hne
        obtain ⟨x, hx, _⟩ := ranked_of_compare hb hab
        rw [ha] at hx
        cases hx
      rw [compareGroupSiblings, ha, hb] at hab
      rw [compareGroupSiblings, hb, hc] at hbc
      rw [compareGroupSiblings, ha, hc]
      exact hlc.trans _ _ _ hab hbc

theorem compare_antisymm (hlc : StrictOrder localeCompare) (hdistinct : Distinct siblings)
    (hl : left ∈ siblings) (hr : right ∈ siblings)
    (h : compareGroupSiblings localeCompare left right ≤ 0)
    (h' : compareGroupSiblings localeCompare right left ≤ 0) : left = right := by
  cases hrank : right.sortRank with
  | some r =>
    obtain ⟨l, hlrank, hle⟩ := ranked_of_compare hrank h
    rw [compare_ranked hlrank hrank] at h
    rw [compare_ranked hrank hlrank] at h'
    have heq : l = r := by
      by_contra hne
      rw [if_pos hne] at h
      rw [if_pos (Ne.symm hne)] at h'
      omega
    rw [if_neg (not_not.mpr heq)] at h
    rw [if_neg (not_not.mpr heq.symm)] at h'
    exact List.inj_on_of_nodup_map hdistinct.ids hl hr (hlc.le_antisymm h h')
  | none =>
    cases hlrank : left.sortRank with
    | some l =>
      obtain ⟨r, hr', _⟩ := ranked_of_compare hlrank h'
      rw [hrank] at hr'
      cases hr'
    | none =>
      rw [compareGroupSiblings, hlrank, hrank] at h
      rw [compareGroupSiblings, hrank, hlrank] at h'
      exact List.inj_on_of_nodup_map hdistinct.paths hl hr (hlc.le_antisymm h h')

theorem sort_eq_of_perm (hlc : StrictOrder localeCompare) (hdistinct : Distinct others)
    (hperm : siblings.Perm others) (hordered : Ordered localeCompare others) :
    sortGroupSiblings localeCompare siblings = others := by
  have hsorted : (sortGroupSiblings localeCompare siblings).Perm others :=
    (List.mergeSort_perm _ _).trans hperm
  refine List.Perm.eq_of_pairwise ?_ ?_ hordered hsorted
  · intro left right hl hr h h'
    exact compare_antisymm hlc hdistinct (hsorted.mem_iff.mp hl) hr h h'
  · have hpairwise : (sortGroupSiblings localeCompare siblings).Pairwise fun left right =>
        decide (compareGroupSiblings localeCompare left right ≤ 0) = true := by
      apply List.pairwise_mergeSort
      · intro a b c hab hbc
        exact decide_eq_true (compare_trans hlc.weak (of_decide_eq_true hab) (of_decide_eq_true hbc))
      · intro a b
        rw [Bool.or_eq_true]
        exact (compare_total hlc.weak a b).imp decide_eq_true decide_eq_true
    exact hpairwise.imp of_decide_eq_true

/-! ### The plan -/

theorem map_id_setSortRanks : (setSortRanks assignments siblings).map (·.id) =
    siblings.map (·.id) := by
  rw [setSortRanks, List.map_map]
  apply List.map_congr_left
  intro sibling _
  simp only [Function.comp]
  split <;> rfl

theorem map_path_setSortRanks : (setSortRanks assignments siblings).map (·.path) =
    siblings.map (·.path) := by
  rw [setSortRanks, List.map_map]
  apply List.map_congr_left
  intro sibling _
  simp only [Function.comp]
  split <;> rfl

theorem setSortRanks_one {before after : List Sibling} {m : Int}
    (hbefore : ∀ sibling ∈ before, sibling.id ≠ moved.id)
    (hafter : ∀ sibling ∈ after, sibling.id ≠ moved.id) :
    setSortRanks [{ id := moved.id, sortRank := m }] (before ++ moved :: after) =
      before ++ { moved with sortRank := some m } :: after := by
  have hsame : ∀ siblings : List Sibling, (∀ sibling ∈ siblings, sibling.id ≠ moved.id) →
      setSortRanks [{ id := moved.id, sortRank := m }] siblings = siblings := by
    intro siblings hne
    rw [setSortRanks]
    conv_rhs => rw [← List.map_id siblings]
    apply List.map_congr_left
    intro sibling hmem
    simp [Ne.symm (hne sibling hmem)]
  have hcons : setSortRanks [{ id := moved.id, sortRank := m }] (moved :: after) =
      { moved with sortRank := some m } ::
        setSortRanks [{ id := moved.id, sortRank := m }] after := by
    simp [setSortRanks]
  rw [← hsame before hbefore, ← hsame after hafter]
  conv_lhs => rw [hsame before hbefore, hsame after hafter]
  rw [setSortRanks, List.map_append, ← setSortRanks, ← setSortRanks, hcons]

theorem ordered_between {before after : List Sibling} {m : Int}
    (h : Ordered localeCompare (before ++ after)) (hm : moved.sortRank = some m)
    (hbefore : ∀ sibling, before.getLast? = some sibling →
      ∃ rank, sibling.sortRank = some rank ∧ rank < m)
    (hafter : ∀ sibling, after.head? = some sibling →
      ∃ rank, sibling.sortRank = some rank ∧ m < rank) :
    Ordered localeCompare (before ++ moved :: after) := by
  obtain ⟨hb, ha, hcross⟩ := List.pairwise_append.mp h
  have hleft : ∀ sibling ∈ before, compareGroupSiblings localeCompare sibling moved ≤ 0 := by
    intro sibling hmem
    rcases List.eq_nil_or_concat' before with rfl | ⟨front, last, rfl⟩
    · cases hmem
    · obtain ⟨rank, hrank, hlt⟩ := hbefore last (List.getLast?_concat ..)
      obtain ⟨_, _, hlast⟩ := List.pairwise_append.mp hb
      rcases List.mem_append.mp hmem with hmem | hmem
      · obtain ⟨rank', hrank', hle⟩ :=
          ranked_of_compare hrank (hlast sibling hmem last (List.mem_singleton_self last))
        exact compare_of_lt hrank' hm (hle.trans_lt hlt)
      · rw [List.mem_singleton.mp hmem]
        exact compare_of_lt hrank hm hlt
  have hright : ∀ sibling ∈ after, compareGroupSiblings localeCompare moved sibling ≤ 0 := by
    intro sibling hmem
    cases after with
    | nil => cases hmem
    | cons first rest =>
      obtain ⟨rank, hrank, hlt⟩ := hafter first rfl
      have hfirst := (List.pairwise_cons.mp ha).1
      exact compare_of_after hrank hm hlt
        ((List.mem_cons.mp hmem).imp_right fun hmem => hfirst sibling hmem)
  refine List.pairwise_append.mpr ⟨hb, List.pairwise_cons.mpr ⟨hright, ha⟩, ?_⟩
  intro sibling hmem other hother
  rcases List.mem_cons.mp hother with rfl | hother
  · exact hleft sibling hmem
  · exact hcross sibling hmem other hother

theorem find_assignment {entry : GroupRankAssignment} (hnodup : (assignments.map (·.id)).Nodup)
    (hmem : entry ∈ assignments) :
    assignments.reverse.find? (fun other => other.id = entry.id) = some entry := by
  cases hfind : assignments.reverse.find? fun other => other.id = entry.id with
  | none =>
    have hnone := List.find?_eq_none.mp hfind entry (List.mem_reverse.mpr hmem)
    simp at hnone
  | some other =>
    have hother := List.mem_reverse.mp (List.mem_of_find?_eq_some hfind)
    have hid : other.id = entry.id := by simpa using List.find?_some hfind
    rw [List.inj_on_of_nodup_map hnodup hother hmem hid]

theorem map_id_renumber : (renumber siblings).map (·.id) = siblings.map (·.id) := by
  apply List.ext_getElem?
  intro i
  simp [renumber, List.getElem?_mapIdx, Function.comp_def]

theorem ordered_renumbered (hids : (siblings.map (·.id)).Nodup) :
    Ordered localeCompare (setSortRanks (renumber siblings) siblings) := by
  have hranks : ∀ (i : Nat) (hi : i < (setSortRanks (renumber siblings) siblings).length),
      (setSortRanks (renumber siblings) siblings)[i].sortRank =
        some ((i + 1) * groupRankStep : Int) := by
    intro i hi
    have hi' : i < siblings.length := by simpa [setSortRanks] using hi
    have hmem : ({ id := siblings[i].id, sortRank := (i + 1) * groupRankStep } :
        GroupRankAssignment) ∈ renumber siblings :=
      List.mem_mapIdx.mpr ⟨i, hi', rfl⟩
    have hfind := find_assignment (by rw [map_id_renumber]; exact hids) hmem
    simp only [setSortRanks, List.getElem_map]
    rw [hfind]
  refine List.pairwise_iff_getElem.mpr ?_
  intro i j hi hj hlt
  refine compare_of_lt (hranks i hi) (hranks j hj) ?_
  rw [groupRankStep]
  omega

theorem ordered_assigned {before after : List Sibling}
    (hids : ((before ++ moved :: after).map (·.id)).Nodup)
    (h : Ordered localeCompare (before ++ after)) :
    Ordered localeCompare (setSortRanks
      (assignRanks (before ++ moved :: after) moved before.getLast? after.head?)
      (before ++ moved :: after)) := by
  have hrenumbered : Ordered localeCompare (setSortRanks
      (renumber (before ++ moved :: after)) (before ++ moved :: after)) :=
    ordered_renumbered hids
  have hne : ∀ sibling ∈ before ++ after, sibling.id ≠ moved.id := by
    rw [List.map_append, List.map_cons] at hids
    have hnot := (List.nodup_middle.mp hids).notMem
    intro sibling hmem heq
    apply hnot
    rw [← heq, ← List.map_append]
    exact List.mem_map_of_mem hmem
  have hone : ∀ m : Int, (∀ sibling, before.getLast? = some sibling →
      ∃ rank, sibling.sortRank = some rank ∧ rank < m) →
      (∀ sibling, after.head? = some sibling → ∃ rank, sibling.sortRank = some rank ∧ m < rank) →
      Ordered localeCompare
        (setSortRanks [{ id := moved.id, sortRank := m }] (before ++ moved :: after)) := by
    intro m hbefore hafter
    rw [setSortRanks_one (fun s hs => hne s (List.mem_append_left _ hs))
      fun s hs => hne s (List.mem_append_right _ hs)]
    exact ordered_between h rfl hbefore hafter
  have hstep : groupRankStep = 1024 := rfl
  cases hb : before.getLast? with
  | none =>
    have hbefore : ∀ m : Int, ∀ sibling, before.getLast? = some sibling →
        ∃ rank, sibling.sortRank = some rank ∧ rank < m := by
      intro m sibling hsome
      rw [hb] at hsome
      cases hsome
    cases ha : after.head? with
    | none =>
      refine hone _ (hbefore _) ?_
      intro sibling hsome
      rw [ha] at hsome
      cases hsome
    | some next =>
      cases hrank : next.sortRank with
      | none => simpa only [assignRanks, Option.bind_none, Option.bind_some, hrank]
      | some rank =>
        simp only [assignRanks, Option.bind_some, hrank]
        refine hone _ (hbefore _) ?_
        intro sibling hsome
        rw [ha] at hsome
        cases hsome
        exact ⟨rank, hrank, by omega⟩
  | some last =>
    cases hlast : last.sortRank with
    | none =>
      cases ha : after.head? with
      | none => simpa only [assignRanks, Option.bind_none, Option.bind_some, hlast]
      | some next =>
        cases hrank : next.sortRank <;>
          simpa only [assignRanks, Option.bind_some, hlast, hrank]
    | some low =>
      have hbefore : ∀ m : Int, low < m → ∀ sibling, before.getLast? = some sibling →
          ∃ rank, sibling.sortRank = some rank ∧ rank < m := by
        intro m hlt sibling hsome
        rw [hb] at hsome
        cases hsome
        exact ⟨low, hlast, hlt⟩
      cases ha : after.head? with
      | none =>
        simp only [assignRanks, Option.bind_some, hlast]
        refine hone _ (hbefore _ (by omega)) ?_
        intro sibling hsome
        rw [ha] at hsome
        cases hsome
      | some next =>
        cases hrank : next.sortRank with
        | none => simpa only [assignRanks, Option.bind_some, hlast, hrank]
        | some high =>
          simp only [assignRanks, Option.bind_some, hlast, hrank]
          split
          · refine hone _ (hbefore _ (by omega)) ?_
            intro sibling hsome
            rw [ha] at hsome
            cases hsome
            exact ⟨high, hrank, by omega⟩
          · exact hrenumbered

theorem ids_ne {as bs : List Sibling} (hids : ((as ++ moved :: bs).map (·.id)).Nodup) :
    ∀ sibling ∈ as ++ bs, sibling.id ≠ moved.id := by
  rw [List.map_append, List.map_cons] at hids
  have hnot := (List.nodup_middle.mp hids).notMem
  intro sibling hmem heq
  apply hnot
  rw [← heq, ← List.map_append]
  exact List.mem_map_of_mem hmem

theorem filter_others {as bs : List Sibling} (hids : ((as ++ moved :: bs).map (·.id)).Nodup) :
    ((as ++ moved :: bs).filter fun sibling => sibling.id ≠ moved.id) = as ++ bs := by
  rw [List.filter_append, List.filter_cons_of_neg (by simp), ← List.filter_append,
    List.filter_eq_self]
  intro sibling hmem
  simpa using ids_ne hids sibling hmem

theorem planGroupReorder_eq {as bs : List Sibling} {targetIndex : Int} {place : Nat}
    (hids : ((as ++ moved :: bs).map (·.id)).Nodup)
    (hplace : clamp targetIndex (as ++ bs).length = place) :
    planGroupReorder (as ++ moved :: bs) moved.id targetIndex =
      assignRanks ((as ++ bs).take place ++ moved :: (as ++ bs).drop place) moved
        ((as ++ bs).take place).getLast? ((as ++ bs).drop place).head? := by
  have hfind : (as ++ moved :: bs).findIdx? (fun sibling => sibling.id = moved.id) =
      some as.length := by
    rw [List.findIdx?_append, List.findIdx?_eq_none_iff.mpr]
    · simp [List.findIdx?_cons]
    · intro sibling hmem
      simpa using ids_ne hids sibling (List.mem_append_left _ hmem)
  have herase : (as ++ moved :: bs).eraseIdx as.length = as ++ bs := by
    rw [List.eraseIdx_append_of_length_le (Nat.le_refl _), Nat.sub_self, List.eraseIdx_cons_zero]
  have htake : ((as ++ bs).take place).length = place := by
    rw [List.length_take, ← hplace]
    unfold clamp
    omega
  unfold planGroupReorder
  rw [hfind]
  simp only [List.getElem?_append_right (Nat.le_refl _), Nat.sub_self, List.getElem?_cons_zero,
    herase, hplace]
  congr 1
  · rw [List.getLast?_eq_getElem?, htake]
    split
    · rw [List.getElem?_append_left (by omega)]
    · rw [List.getElem?_eq_none (by omega)]
  · rw [List.getElem?_append_right (by omega), htake, Nat.add_sub_cancel_left,
      List.getElem?_cons_succ, List.head?_eq_getElem?]

end

def compareUnits (left right : Text) : Int :=
  if left = right then 0 else if left < right then -1 else 1

theorem compareUnits_neg {left right : Text} : compareUnits left right < 0 ↔ left < right := by
  unfold compareUnits
  by_cases h : left = right
  · subst h
    simp [List.lt_irrefl]
  · by_cases hlt : left < right <;> simp [h, hlt]

theorem strictOrder_compareUnits : StrictOrder compareUnits where
  eq_iff x y := by
    unfold compareUnits
    by_cases h : x = y
    · simp [h]
    · by_cases hlt : x < y <;> simp [h, hlt]
  swap x y := by
    rw [compareUnits_neg]
    by_cases h : x = y
    · subst h
      simp [compareUnits, List.lt_irrefl]
    · by_cases hlt : x < y
      · simp [compareUnits, Ne.symm h, List.lt_asymm hlt, hlt]
      · have hgt : y < x := by
          by_contra hnot
          exact h (List.le_antisymm (List.not_lt.mp hnot) (List.not_lt.mp hlt))
        simp [compareUnits, Ne.symm h, hgt, hlt]
  trans x y z := by
    rw [compareUnits_neg, compareUnits_neg, compareUnits_neg]
    exact List.lt_trans

end Dolgate.GroupOrdering
