import Dolgate.GroupOrdering
import Dolgate.GroupSources

set_option autoImplicit false

/-! The paths of the groups as a tree that is written down from the top. -/

namespace Dolgate.GroupMutations

open GroupPaths Segments
open GroupOrdering (Sibling WeakOrder)

section

variable {α : Type} {place : α → Nat} {l : List α} {a b : α}

theorem pair_sublist (ha : a ∈ l) (hb : b ∈ l) (hne : a ≠ b) :
    [a, b].Sublist l ∨ [b, a].Sublist l := by
  have hsymm : Std.Symm fun x y => [x, y].Sublist l ∨ [y, x].Sublist l := ⟨fun _ _ => Or.symm⟩
  have hl : l.Pairwise fun x y => [x, y].Sublist l ∨ [y, x].Sublist l :=
    List.pairwise_iff_forall_sublist.mpr Or.inl
  exact hl.forall ha hb hne

theorem not_sublist_of_sublist (hl : l.Nodup) (hab : [a, b].Sublist l) :
    ¬ [b, a].Sublist l := by
  induction l with
  | nil => cases hab
  | cons x l ih =>
    obtain ⟨hx, hl⟩ := List.nodup_cons.mp hl
    intro hba
    cases hab with
    | cons _ hab =>
      cases hba with
      | cons _ hba => exact ih hl hab hba
      | cons_cons _ hba => exact hx (hab.subset (by simp))
    | cons_cons _ hab =>
      cases hba with
      | cons _ hba => exact hx (hba.subset (by simp))
      | cons_cons _ hba => exact hx (hab.subset (by simp))

theorem pairwise_mergeSort_stable (le : α → α → Bool) (trans : ∀ a b c, le a b → le b c → le a c)
    (total : ∀ a b, le a b || le b a) (hl : l.Pairwise fun a b => place a < place b) :
    (l.mergeSort le).Pairwise fun a b => le a b = true ∧ (le b a = true → place a < place b) := by
  rw [List.pairwise_iff_forall_sublist]
  intro a b hab
  have hle := List.pairwise_iff_forall_sublist.mp (List.pairwise_mergeSort trans total l) hab
  refine ⟨hle, fun hba => ?_⟩
  have hnodup : l.Nodup := by
    refine hl.imp ?_
    rintro x y hlt rfl
    exact Nat.lt_irrefl _ hlt
  have hsorted : (l.mergeSort le).Nodup := (List.mergeSort_perm l le).nodup_iff.mpr hnodup
  have ha : a ∈ l := List.mem_mergeSort.mp (hab.subset (by simp))
  have hb : b ∈ l := List.mem_mergeSort.mp (hab.subset (by simp))
  have hne : a ≠ b := List.pairwise_iff_forall_sublist.mp hsorted hab
  obtain hfirst | hfirst := pair_sublist ha hb hne
  · exact List.pairwise_iff_forall_sublist.mp hl hfirst
  · have hstays := List.pair_sublist_mergeSort trans total hba hfirst
    exact absurd hstays (not_sublist_of_sublist hsorted hab)

end

variable {env : Env} {groups : List GroupRecord} {hosts : List HostRecord} {all : List Text}
  {parent p q c d x y : Text} {fuel : Nat}

/-! ### Parents -/

def parentKey (path : Text) : Text := (getParentGroupPath (some path)).getD []

theorem pathOf_injective {as bs : List Text} (has : ∀ s ∈ as, Segment s)
    (hbs : ∀ s ∈ bs, Segment s) (h : (pathOf as).getD [] = (pathOf bs).getD []) : as = bs := by
  unfold pathOf at h
  by_cases ha : as = []
  · by_cases hb : bs = []
    · rw [ha, hb]
    · rw [if_pos ha, if_neg hb] at h
      exact absurd h.symm (join_ne_nil hbs hb)
  · by_cases hb : bs = []
    · rw [if_neg ha, if_pos hb] at h
      exact absurd h (join_ne_nil has ha)
    · rw [if_neg ha, if_neg hb] at h
      rw [← segments_join has ha, ← segments_join hbs hb]
      exact congrArg segments h

theorem exists_above (hp : Normalised p) : ∃ above s, segments p = above ++ [s] ∧
    (∀ t ∈ above, Segment t) ∧ getParentGroupPath (some p) = pathOf above := by
  obtain ⟨above, s, habove, hs, rfl⟩ := hp.segments
  exact ⟨above, s, splitOn_path habove hs, habove, getParentGroupPath_path habove hs⟩

theorem sibling_segments (hp : Normalised p) (hq : Normalised q) (h : parentKey p = parentKey q) :
    ∃ above s t, segments p = above ++ [s] ∧ segments q = above ++ [t] := by
  obtain ⟨above, s, hsegs, habove, hparent⟩ := exists_above hp
  obtain ⟨beside, t, hsegs', hbeside, hparent'⟩ := exists_above hq
  rw [parentKey, parentKey, hparent, hparent'] at h
  obtain rfl := pathOf_injective habove hbeside h
  exact ⟨above, s, t, hsegs, hsegs'⟩

theorem child_segments (hp : Normalised p) (hc : Normalised c) (h : parentKey p = c) :
    ∃ s, segments p = segments c ++ [s] := by
  obtain ⟨above, s, hsegs, habove, hparent⟩ := exists_above hp
  rw [parentKey, hparent, pathOf] at h
  split at h
  · exact absurd h.symm hc.ne_nil
  · next hne =>
    refine ⟨s, ?_⟩
    change join slash above = c at h
    rw [hsegs, ← h, segments_join habove hne]

theorem sibling_eq (hc : Normalised c) (hd : Normalised d) (h : parentKey c = parentKey d)
    (hcx : segments c <+: segments x) (hdx : segments d <+: segments x) : c = d := by
  obtain ⟨above, s, t, hsegs, hsegs'⟩ := sibling_segments hc hd h
  have hlength : (segments c).length = (segments d).length := by
    rw [hsegs, hsegs', List.length_append, List.length_append]
    rfl
  exact segments_injective ((List.prefix_of_prefix_length_le hcx hdx hlength.le).eq_of_length
    hlength)

/-! ### What is emitted below a path -/

def childrenOf (env : Env) (groups : List GroupRecord) (all : List Text) (parent : Text) :
    List Text :=
  (all.filter fun path => parentKey path = parent).mergeSort fun left right =>
    decide (compareGroupSiblings env groups left right ≤ 0)

theorem emitPaths_succ : emitPaths env groups all (fuel + 1) parent =
    (childrenOf env groups all parent).flatMap fun path =>
      path :: emitPaths env groups all fuel path := rfl

theorem mem_childrenOf :
    p ∈ childrenOf env groups all parent ↔ p ∈ all ∧ parentKey p = parent := by
  rw [childrenOf, List.mem_mergeSort, List.mem_filter, decide_eq_true_iff]

theorem below_of_mem_emit (hall : Closed all) (hc : c ∈ all)
    (hx : x ∈ emitPaths env groups all fuel c) :
    segments c <+: segments x ∧ (segments c).length < (segments x).length := by
  induction fuel generalizing c with
  | zero => cases hx
  | succ fuel ih =>
    rw [emitPaths_succ] at hx
    obtain ⟨d, hd, hx⟩ := List.mem_flatMap.mp hx
    obtain ⟨hdall, hparent⟩ := mem_childrenOf.mp hd
    obtain ⟨s, hsegs⟩ :=
      child_segments (hall.normalised d hdall) (hall.normalised c hc) hparent
    have hcd : segments c <+: segments d := ⟨[s], hsegs.symm⟩
    have hlength : (segments c).length < (segments d).length := by
      rw [hsegs, List.length_append]
      exact Nat.lt_succ_self _
    obtain rfl | hx := List.mem_cons.mp hx
    · exact ⟨hcd, hlength⟩
    · obtain ⟨hdx, hdeeper⟩ := ih hdall hx
      exact ⟨hcd.trans hdx, hlength.trans hdeeper⟩

theorem below_of_mem_subtree (hall : Closed all) (hc : c ∈ all)
    (hx : x ∈ c :: emitPaths env groups all fuel c) : segments c <+: segments x := by
  obtain rfl | hx := List.mem_cons.mp hx
  · exact List.prefix_refl _
  · exact (below_of_mem_emit hall hc hx).1

theorem not_above_of_ne (hall : Closed all) (hc : c ∈ childrenOf env groups all parent)
    (hd : d ∈ childrenOf env groups all parent) (hne : c ≠ d) (hx : segments c <+: segments x)
    (hy : segments d <+: segments y) : ¬ segments y <+: segments x := by
  intro hyx
  obtain ⟨hcall, hcparent⟩ := mem_childrenOf.mp hc
  obtain ⟨hdall, hdparent⟩ := mem_childrenOf.mp hd
  exact hne (sibling_eq (hall.normalised c hcall) (hall.normalised d hdall)
    (hcparent.trans hdparent.symm) hx (hy.trans hyx))

theorem not_sibling_of_ne (hall : Closed all) (hc : c ∈ childrenOf env groups all parent)
    (hd : d ∈ childrenOf env groups all parent) (hne : c ≠ d)
    (hx : x ∈ emitPaths env groups all fuel c)
    (hy : y ∈ d :: emitPaths env groups all fuel d) : parentKey x ≠ parentKey y := by
  intro h
  obtain ⟨hcall, -⟩ := mem_childrenOf.mp hc
  obtain ⟨hdall, -⟩ := mem_childrenOf.mp hd
  have hyall : y ∈ all := by
    obtain rfl | hy := List.mem_cons.mp hy
    · exact hdall
    · exact mem_of_mem_emitPaths hy
  obtain ⟨above, s, t, hsegs, hsegs'⟩ := sibling_segments
    (hall.normalised x (mem_of_mem_emitPaths hx)) (hall.normalised y hyall) h
  obtain ⟨hcx, hlength⟩ := below_of_mem_emit hall hcall hx
  have habove : segments c <+: above := by
    refine List.prefix_of_prefix_length_le hcx ⟨[s], hsegs.symm⟩ ?_
    rw [hsegs, List.length_append] at hlength
    exact Nat.le_of_lt_succ hlength
  have hcy : segments c <+: segments y := habove.trans ⟨[t], hsegs'.symm⟩
  exact not_above_of_ne hall hc hd hne hcy (below_of_mem_subtree hall hdall hy)
    (List.prefix_refl _)

variable {R : Text → Text → Prop}

theorem pairwise_emitPaths (hall : Closed all)
    (hsorted : ∀ parent, (childrenOf env groups all parent).Pairwise fun l r => l ≠ r ∧ R l r) :
    (emitPaths env groups all fuel parent).Pairwise fun l r =>
      ¬ segments r <+: segments l ∧ (parentKey l = parentKey r → R l r) := by
  induction fuel generalizing parent with
  | zero => exact List.Pairwise.nil
  | succ fuel ih =>
    rw [emitPaths_succ, List.pairwise_flatMap]
    constructor
    · intro c hc
      obtain ⟨hcall, -⟩ := mem_childrenOf.mp hc
      refine List.pairwise_cons.mpr ⟨?_, ih⟩
      intro y hy
      obtain ⟨-, hlength⟩ := below_of_mem_emit hall hcall hy
      refine ⟨fun habove => absurd habove.length_le (Nat.not_le.mpr hlength), fun hparent => ?_⟩
      obtain ⟨above, s, t, hsegs, hsegs'⟩ := sibling_segments (hall.normalised c hcall)
        (hall.normalised y (mem_of_mem_emitPaths hy)) hparent
      rw [hsegs, hsegs', List.length_append, List.length_append] at hlength
      exact absurd hlength (Nat.lt_irrefl _)
    · refine (hsorted parent).imp_of_mem ?_
      rintro c d hc hd ⟨hne, hcd⟩ x hx y hy
      have hcx := below_of_mem_subtree hall (mem_childrenOf.mp hc).1 hx
      have hdy := below_of_mem_subtree hall (mem_childrenOf.mp hd).1 hy
      refine ⟨not_above_of_ne hall hc hd hne hcx hdy, fun hparent => ?_⟩
      obtain rfl | hx' := List.mem_cons.mp hx
      · obtain rfl | hy' := List.mem_cons.mp hy
        · exact hcd
        · exact absurd hparent.symm (not_sibling_of_ne hall hd hc hne.symm hy' hx)
      · exact absurd hparent (not_sibling_of_ne hall hc hd hne hx' hy)

def Contiguous (paths : List Text) (p : Text) : Prop :=
  ∃ before below after, paths = before ++ p :: below ++ after ∧
    (∀ q ∈ below, segments p <+: segments q) ∧
    ∀ q ∈ before ++ after, ¬ segments p <+: segments q

theorem contiguous_emitPaths (hall : Closed all)
    (hdistinct : ∀ parent, (childrenOf env groups all parent).Nodup)
    (hp : p ∈ emitPaths env groups all fuel parent) :
    Contiguous (emitPaths env groups all fuel parent) p := by
  induction fuel generalizing parent with
  | zero => cases hp
  | succ fuel ih =>
    rw [emitPaths_succ] at hp
    obtain ⟨c, hc, hp⟩ := List.mem_flatMap.mp hp
    obtain ⟨hcall, -⟩ := mem_childrenOf.mp hc
    obtain ⟨first, last, hchildren⟩ := List.append_of_mem hc
    have hother : ∀ q ∈ (first.flatMap fun path => path :: emitPaths env groups all fuel path) ++
        (last.flatMap fun path => path :: emitPaths env groups all fuel path),
        ¬ segments p <+: segments q := by
      intro q hq
      rw [← List.flatMap_append] at hq
      obtain ⟨d, hd, hq⟩ := List.mem_flatMap.mp hq
      have hdc : d ∈ childrenOf env groups all parent := by
        rw [hchildren]
        exact (List.perm_middle.mem_iff).mpr (List.mem_cons_of_mem _ hd)
      have hne : d ≠ c := by
        rintro rfl
        have hnodup := hdistinct parent
        rw [hchildren, List.nodup_middle, List.nodup_cons] at hnodup
        exact hnodup.1 hd
      exact not_above_of_ne hall hdc hc hne
        (below_of_mem_subtree hall (mem_childrenOf.mp hdc).1 hq)
        (below_of_mem_subtree hall hcall hp)
    rw [emitPaths_succ, hchildren, List.flatMap_append, List.flatMap_cons]
    obtain rfl | hp := List.mem_cons.mp hp
    · refine ⟨_, _, _, (List.append_assoc _ _ _).symm, ?_, hother⟩
      intro q hq
      exact (below_of_mem_emit hall hcall hq).1
    · obtain ⟨before, below, after, hsplit, hbelow, haround⟩ := ih hp
      refine ⟨(first.flatMap fun path => path :: emitPaths env groups all fuel path) ++ c :: before,
        below, after ++ last.flatMap fun path => path :: emitPaths env groups all fuel path,
        ?_, hbelow, ?_⟩
      · rw [hsplit]
        simp
      · intro q hq
        have hcases : q ∈ (first.flatMap fun path => path :: emitPaths env groups all fuel path) ++
            (last.flatMap fun path => path :: emitPaths env groups all fuel path) ∨ q = c ∨
            q ∈ before ++ after := by
          simp only [List.mem_append, List.mem_cons] at hq ⊢
          tauto
        obtain hq | rfl | hq := hcases
        · exact hother q hq
        · intro habove
          exact absurd habove.length_le (Nat.not_le.mpr (below_of_mem_emit hall hcall hp).2)
        · exact haround q hq

/-! ### The order of siblings -/

def GroupRecord.sibling (record : GroupRecord) : Sibling :=
  { id := record.id, path := record.path, sortRank := record.sortRank }

/-- `recordByPath.get(path) ?? { path }` where the records are kept under these keys. -/
def siblingAt (key : Text → Option Text) (groups : List GroupRecord) (path : Text) : Sibling :=
  ((groups.reverse.find? fun record => key record.path = some path).map
    GroupRecord.sibling).getD { id := [], path, sortRank := none }

def compareBy (env : Env) (key : Text → Option Text) (groups : List GroupRecord)
    (left right : Text) : Int :=
  GroupOrdering.compareGroupSiblings env.localeCompare (siblingAt key groups left)
    (siblingAt key groups right)

theorem compareGroupSiblings_eq (env : Env) (groups : List GroupRecord) (left right : Text) :
    compareGroupSiblings env groups left right = compareBy env some groups left right := by
  have hpath : ∀ path, (siblingAt some groups path).path = path := by
    intro path
    cases hfind : groups.reverse.find? fun record => some record.path = some path with
    | none => rw [siblingAt, hfind]; rfl
    | some record =>
      rw [siblingAt, hfind]
      have hat := List.find?_some hfind
      exact Option.some.inj (of_decide_eq_true hat)
  have hfind : ∀ path, (groups.reverse.find? fun record => record.path = path) =
      groups.reverse.find? fun record => some record.path = some path := by
    intro path
    simp only [Option.some.injEq]
  have hrank : ∀ path, (siblingAt some groups path).sortRank =
      (groups.reverse.find? fun record => record.path = path).bind (·.sortRank) := by
    intro path
    rw [hfind, siblingAt]
    cases groups.reverse.find? fun record => some record.path = some path <;> rfl
  have hid : ∀ path, (siblingAt some groups path).id =
      ((groups.reverse.find? fun record => record.path = path).map (·.id)).getD [] := by
    intro path
    rw [hfind, siblingAt]
    cases groups.reverse.find? fun record => some record.path = some path <;> rfl
  rw [compareGroupSiblings, compareBy, GroupOrdering.compareGroupSiblings, hrank, hrank, hid, hid,
    hpath, hpath]
  all_goals rfl

/-- The siblings are put in this order: equal ones in the order of their first mention. -/
def ComesFirst (env : Env) (groups : List GroupRecord) (hosts : List HostRecord)
    (left right : Text) : Prop :=
  0 < compareGroupSiblings env groups right left ∨
    (compareGroupSiblings env groups left right ≤ 0 ∧
      (mentions groups hosts).idxOf left < (mentions groups hosts).idxOf right)

instance : Decidable (ComesFirst env groups hosts p q) := by
  unfold ComesFirst
  infer_instance

theorem first_mentions {done rest kept : List Text} (hkept : ∀ p, p ∈ kept ↔ p ∈ done)
    (hplaces : kept.Pairwise fun l r => done.idxOf l < done.idxOf r) :
    (rest.foldl (fun kept path => if path ∈ kept then kept else kept ++ [path]) kept).Pairwise
      fun l r => (done ++ rest).idxOf l < (done ++ rest).idxOf r := by
  induction rest generalizing done kept with
  | nil => rwa [List.append_nil]
  | cons path rest ih =>
    have hsame : ∀ p ∈ kept, (done ++ [path]).idxOf p = done.idxOf p := fun p hp =>
      List.idxOf_append_of_mem ((hkept p).mp hp)
    have hold : kept.Pairwise fun l r => (done ++ [path]).idxOf l < (done ++ [path]).idxOf r := by
      refine hplaces.imp_of_mem ?_
      intro l r hl hr hlt
      rwa [hsame l hl, hsame r hr]
    rw [List.foldl_cons, ← List.singleton_append, ← List.append_assoc]
    split
    · next hin =>
      refine ih ?_ hold
      intro p
      rw [hkept, List.mem_append, List.mem_singleton]
      refine ⟨Or.inl, ?_⟩
      rintro (hp | rfl)
      · exact hp
      · exact (hkept p).mp hin
    · next hnew =>
      refine ih ?_ ?_
      · intro p
        rw [List.mem_append, List.mem_append, hkept]
      · refine List.pairwise_append.mpr ⟨hold, List.pairwise_singleton _ _, ?_⟩
        intro l hl r hr
        obtain rfl := List.mem_singleton.mp hr
        rw [hsame l hl, List.idxOf_append_of_notMem (fun h => hnew ((hkept r).mpr h))]
        exact (List.idxOf_lt_length_of_mem ((hkept l).mp hl)).trans_le (Nat.le_add_right _ _)

theorem places_allPaths (groups : List GroupRecord) (hosts : List HostRecord) :
    (allPaths groups hosts).Pairwise fun l r =>
      (mentions groups hosts).idxOf l < (mentions groups hosts).idxOf r :=
  @first_mentions [] (mentions groups hosts) [] (fun _ => Iff.rfl) List.Pairwise.nil

theorem comesFirst_of_le (hle : compareGroupSiblings env groups p q ≤ 0)
    (hplace : compareGroupSiblings env groups q p ≤ 0 →
      (mentions groups hosts).idxOf p < (mentions groups hosts).idxOf q) :
    ComesFirst env groups hosts p q := by
  by_cases hback : compareGroupSiblings env groups q p ≤ 0
  · exact .inr ⟨hle, hplace hback⟩
  · exact .inl (Int.not_le.mp hback)

theorem pairwise_childrenOf (hlc : WeakOrder env.localeCompare) (parent : Text) :
    (childrenOf env groups (allPaths groups hosts) parent).Pairwise fun l r =>
      l ≠ r ∧ ComesFirst env groups hosts l r := by
  have hplaces := (places_allPaths groups hosts).filter
    fun path => decide (parentKey path = parent)
  have hnodup := hplaces.imp (S := (· ≠ ·)) (by
    rintro x y hlt rfl
    exact Nat.lt_irrefl _ hlt)
  have hstable := pairwise_mergeSort_stable
    (fun left right => decide (compareGroupSiblings env groups left right ≤ 0))
    (by
      intro a b c hab hbc
      rw [decide_eq_true_iff, compareGroupSiblings_eq] at hab hbc ⊢
      exact GroupOrdering.compare_trans hlc hab hbc)
    (by
      intro a b
      rw [Bool.or_eq_true, decide_eq_true_iff, decide_eq_true_iff, compareGroupSiblings_eq,
        compareGroupSiblings_eq]
      exact GroupOrdering.compare_total hlc _ _)
    hplaces
  refine ((List.mergeSort_perm _ _).nodup_iff.mpr hnodup).imp₂ ?_ hstable
  rintro l r hne ⟨hle, hplace⟩
  exact ⟨hne, comesFirst_of_le (of_decide_eq_true hle)
    (fun hback => hplace (decide_eq_true hback))⟩

theorem not_comesFirst (hlc : WeakOrder env.localeCompare) (h : ComesFirst env groups hosts p q) :
    ¬ ComesFirst env groups hosts q p := by
  have htotal := GroupOrdering.compare_total hlc (siblingAt some groups p)
    (siblingAt some groups q)
  change compareBy env some groups p q ≤ 0 ∨ compareBy env some groups q p ≤ 0 at htotal
  rw [← compareGroupSiblings_eq, ← compareGroupSiblings_eq] at htotal
  unfold ComesFirst at h ⊢
  omega

/-! ### The listing as a whole -/

def Named (groups : List GroupRecord) (hosts : List HostRecord) (path : Text) : Prop :=
  (∃ group ∈ groups, normalizeGroupPath (some group.path) = some path) ∨
    ∃ host ∈ hosts, normalizeGroupPath host.groupName = some path

structure TreeListing (groups : List GroupRecord) (hosts : List HostRecord)
    (compare : Text → Text → Int) (paths : List Text) : Prop where
  mem : ∀ p, p ∈ paths ↔ ∃ q, Named groups hosts q ∧ segments p <+: segments q
  once : paths.Nodup
  parent_first : ∀ p ∈ paths, ∀ parent, getParentGroupPath (some p) = some parent →
    [parent, p].Sublist paths
  contiguous : ∀ p ∈ paths, Contiguous paths p
  siblings : paths.Pairwise fun l r =>
    getParentGroupPath (some l) = getParentGroupPath (some r) → compare l r ≤ 0

theorem mem_collect_iff_named : p ∈ collectGroupPaths env groups hosts ↔
    ∃ q, Named groups hosts q ∧ segments p <+: segments q := by
  rw [mem_collectGroupPaths]
  constructor
  · rintro (⟨group, hgroup, hp⟩ | ⟨host, hhost, hp⟩)
    · obtain ⟨q, hq, habove⟩ := mem_withAncestors.mp hp
      exact ⟨q, .inl ⟨group, hgroup, hq⟩, habove⟩
    · obtain ⟨q, hq, habove⟩ := mem_withAncestors.mp hp
      exact ⟨q, .inr ⟨host, hhost, hq⟩, habove⟩
  · rintro ⟨q, ⟨group, hgroup, hq⟩ | ⟨host, hhost, hq⟩, habove⟩
    · exact .inl ⟨group, hgroup, mem_withAncestors.mpr ⟨q, hq, habove⟩⟩
    · exact .inr ⟨host, hhost, mem_withAncestors.mpr ⟨q, hq, habove⟩⟩

theorem pairwise_collect (hlc : WeakOrder env.localeCompare) :
    (collectGroupPaths env groups hosts).Pairwise fun l r =>
      ¬ segments r <+: segments l ∧ (parentKey l = parentKey r → ComesFirst env groups hosts l r) :=
  pairwise_emitPaths (closed_allPaths groups hosts) (pairwise_childrenOf hlc)

theorem nodup_collect (hlc : WeakOrder env.localeCompare) :
    (collectGroupPaths env groups hosts).Nodup := by
  refine (pairwise_collect hlc).imp ?_
  rintro l r ⟨habove, -⟩ rfl
  exact habove (List.prefix_refl _)

theorem parent_sublist (hlc : WeakOrder env.localeCompare)
    (hp : p ∈ collectGroupPaths env groups hosts)
    (hparent : getParentGroupPath (some p) = some parent) :
    [parent, p].Sublist (collectGroupPaths env groups hosts) := by
  obtain ⟨above, s, hsegs, habove, hpath⟩ := exists_above (normalised_of_mem_collect hp)
  rw [hpath, pathOf] at hparent
  split at hparent
  · cases hparent
  · next hne =>
    obtain rfl := Option.some.inj hparent
    have hprefix : segments (join slash above) <+: segments p := by
      rw [segments_join habove hne, hsegs]
      exact List.prefix_append _ _
    have hdiffer : join slash above ≠ p := by
      intro heq
      have hlength := congrArg List.length hsegs
      rw [← heq, segments_join habove hne, List.length_append] at hlength
      exact absurd hlength (Nat.ne_of_lt (Nat.lt_succ_self _))
    have hmem : join slash above ∈ collectGroupPaths env groups hosts := by
      rw [mem_collected] at hp ⊢
      exact (closed_allPaths groups hosts).above p hp _ hprefix
    obtain hfirst | hlast := pair_sublist hmem hp hdiffer
    · exact hfirst
    · exact absurd hprefix
        (List.pairwise_iff_forall_sublist.mp (pairwise_collect hlc) hlast).1

theorem siblings_iff (hlc : WeakOrder env.localeCompare) {compare : Text → Text → Int} :
    ((collectGroupPaths env groups hosts).Pairwise fun l r =>
      getParentGroupPath (some l) = getParentGroupPath (some r) → compare l r ≤ 0) ↔
    ∀ l ∈ mentions groups hosts, ∀ r ∈ mentions groups hosts,
      getParentGroupPath (some l) = getParentGroupPath (some r) →
        ComesFirst env groups hosts l r → compare l r ≤ 0 := by
  have hmem : ∀ p, p ∈ collectGroupPaths env groups hosts ↔ p ∈ mentions groups hosts := by
    intro p
    rw [mem_collected, mem_allPaths]
  have hkey : ∀ {l r}, getParentGroupPath (some l) = getParentGroupPath (some r) →
      parentKey l = parentKey r := fun h => congrArg (·.getD []) h
  constructor
  · intro hordered l hl r hr hparent hfirst
    have hne : l ≠ r := by
      rintro rfl
      exact not_comesFirst hlc hfirst hfirst
    rw [← hmem] at hl hr
    obtain hsub | hsub := pair_sublist hl hr hne
    · exact List.pairwise_iff_forall_sublist.mp hordered hsub hparent
    · have hback := (List.pairwise_iff_forall_sublist.mp (pairwise_collect hlc) hsub).2
        (hkey hparent.symm)
      exact absurd hback (not_comesFirst hlc hfirst)
  · intro hall
    refine (pairwise_collect hlc).imp_of_mem ?_
    rintro l r hl hr ⟨-, hfirst⟩ hparent
    exact hall l ((hmem l).mp hl) r ((hmem r).mp hr) hparent (hfirst (hkey hparent))

/-- All of it holds but for the siblings, which are in the order of the records that normalise to
them if the records under the paths themselves put none of them first that belongs behind. -/
theorem collectGroupPaths_lists_iff (env : Env) (hlc : WeakOrder env.localeCompare)
    (groups : List GroupRecord) (hosts : List HostRecord) :
    TreeListing groups hosts (compareBy env (fun path => normalizeGroupPath (some path)) groups)
        (collectGroupPaths env groups hosts) ↔
      ∀ l ∈ mentions groups hosts, ∀ r ∈ mentions groups hosts,
        getParentGroupPath (some l) = getParentGroupPath (some r) →
          ComesFirst env groups hosts l r →
            compareBy env (fun path => normalizeGroupPath (some path)) groups l r ≤ 0 := by
  rw [← siblings_iff hlc]
  refine ⟨fun h => h.siblings, fun hsiblings => ?_⟩
  refine ⟨fun p => mem_collect_iff_named, nodup_collect hlc,
    fun p hp parent hparent => parent_sublist hlc hp hparent, fun p hp => ?_, hsiblings⟩
  refine contiguous_emitPaths (closed_allPaths groups hosts) ?_ hp
  intro parent
  exact (pairwise_childrenOf hlc parent).imp And.left

def unitsEnv : Env := { localeCompare := GroupOrdering.compareUnits, implicitId := fun id _ => id }

theorem weakOrder_unitsEnv : WeakOrder unitsEnv.localeCompare :=
  GroupOrdering.strictOrder_compareUnits.weak

/-- A group with a rank at this path, and one without at `a`. -/
def rankedAt (path : Text) : List GroupRecord :=
  [{ id := [1], name := [98], path, parentPath := none, sortRank := some 1024,
     createdAt := "", updatedAt := "" },
   { id := [2], name := [97], path := [97], parentPath := none, createdAt := "", updatedAt := "" }]

def deepHost : HostRecord :=
  { id := [3], groupName := some [99, 47, 100], createdAt := "", updatedAt := "" }

theorem collectGroupPaths_lists_ranked :
    TreeListing (rankedAt [98]) [deepHost]
      (compareBy unitsEnv (fun path => normalizeGroupPath (some path)) (rankedAt [98]))
      (collectGroupPaths unitsEnv (rankedAt [98]) [deepHost]) := by
  refine (collectGroupPaths_lists_iff unitsEnv weakOrder_unitsEnv _ _).mpr ?_
  decide

/-- The path `b` with a space after it: the rank of its record is not found. -/
theorem collectGroupPaths_loses_rank :
    ¬ TreeListing (rankedAt [98, 32]) []
      (compareBy unitsEnv (fun path => normalizeGroupPath (some path)) (rankedAt [98, 32]))
      (collectGroupPaths unitsEnv (rankedAt [98, 32]) []) := by
  intro h
  have hordered := (siblings_iff weakOrder_unitsEnv).mp h.siblings [97] (by decide) [98]
    (by decide) (by decide) (by decide)
  exact absurd hordered (by decide)

end Dolgate.GroupMutations
