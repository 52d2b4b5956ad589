import Mathlib
import Dolgate.Segments
import Dolgate.ScreenText

set_option autoImplicit false

/-! The names that shared folders get on the remote side. -/

namespace Dolgate.RdpDrives

open GroupPaths (Text trim slash)
open ScreenText (units backslash units_repr_injective mem_units_repr)

def fallbackDriveName : Text := units "Dolgate"

structure RdpDriveShare where
  path : Option Text
  readOnly : Option Bool
  deriving DecidableEq, Repr

structure DescribedRdpDrive where
  path : Text
  readOnly : Bool
  name : Text
  deriving DecidableEq, Repr

def lastSegment (path : Text) : Text :=
  let segments := ((path.splitOnP fun c => c = slash || c = backslash).map trim).filter
    fun segment => segment ≠ []
  segments.getLast?.getD []

/-- `lastSegment(path) || FALLBACK_DRIVE_NAME` -/
def baseOf (path : Text) : Text :=
  if lastSegment path ≠ [] then lastSegment path else fallbackDriveName

def numbered (base : Text) (n : Nat) : Text := base ++ units " " ++ units n.repr

/-- What the loop over the shares changes. `used` is 0 where the map has nothing. -/
structure Naming where
  used : Text → Nat := fun _ => 0
  described : List DescribedRdpDrive := []

def Naming.add (naming : Naming) (drive : RdpDriveShare) : Naming :=
  let path := (drive.path.map trim).getD []
  if path = [] then naming
  else
    let base := baseOf path
    let seen := naming.used base
    { used := Function.update naming.used base (seen + 1)
      described := naming.described ++
        [{ path
           readOnly := drive.readOnly = some true
           name := if seen = 0 then base else numbered base (seen + 1) }] }

def describeRdpDrives (drives : Option (List RdpDriveShare)) : List DescribedRdpDrive :=
  ((drives.getD []).foldl Naming.add {}).described

/-! ### What the names are for -/

def shares (drives : List RdpDriveShare) : List (Text × Bool) :=
  drives.filterMap fun drive =>
    let path := (drive.path.map trim).getD []
    if path = [] then none else some (path, decide (drive.readOnly = some true))

/-- Every share is there, no two have one name, and the first with a segment has it as its name. -/
structure Named (drives : List RdpDriveShare) (described : List DescribedRdpDrive) : Prop where
  order : described.map (fun drive => (drive.path, drive.readOnly)) = shares drives
  distinct : (described.map (·.name)).Nodup
  first : ∀ i segment, ((shares drives).map fun share => lastSegment share.1)[i]? = some segment →
    segment ≠ [] → segment ∉ ((shares drives).map fun share => lastSegment share.1).take i →
    (described.map (·.name))[i]? = some segment

/-- No segment looks like the numbered name of a base that comes as often, and the name for shares
without a segment is not first given to one and then another's segment. -/
structure Separate (drives : List RdpDriveShare) : Prop where
  numbers : ∀ base n, 2 ≤ n → n ≤ ((shares drives).map fun share => baseOf share.1).count base →
    numbered base n ∉ (shares drives).map fun share => baseOf share.1
  fallback : ∀ i, ((shares drives).map fun share => lastSegment share.1)[i]? =
      some fallbackDriveName →
    [] ∈ ((shares drives).map fun share => lastSegment share.1).take i →
    fallbackDriveName ∈ ((shares drives).map fun share => lastSegment share.1).take i

/-! ### Names one by one -/

/-- The name of a share behind those with the bases in `before`. -/
def nameOf (before : List Text) (base : Text) : Text :=
  if before.count base = 0 then base else numbered base (before.count base + 1)

def named (before : List Text) : List (Text × Bool) → List DescribedRdpDrive
  | [] => []
  | (path, readOnly) :: shares =>
    ⟨path, readOnly, nameOf before (baseOf path)⟩ :: named (before ++ [baseOf path]) shares

theorem foldl_add {drives : List RdpDriveShare} {naming : Naming} {before : List Text}
    (h : ∀ base, naming.used base = before.count base) :
    (drives.foldl Naming.add naming).described = naming.described ++ named before (shares drives) := by
  induction drives generalizing naming before with
  | nil => exact (List.append_nil _).symm
  | cons drive drives ih =>
    rw [List.foldl_cons, shares, List.filterMap_cons]
    by_cases hpath : (drive.path.map trim).getD [] = []
    · have hskip : naming.add drive = naming := if_pos hpath
      rw [hskip, ih h]
      simp only [hpath, if_true]
      rfl
    · have hused : ∀ base, (naming.add drive).used base =
          (before ++ [baseOf ((drive.path.map trim).getD [])]).count base := by
        intro base
        rw [Naming.add, if_neg hpath]
        dsimp only
        rw [List.count_append, h, List.count_singleton]
        by_cases heq : base = baseOf ((drive.path.map trim).getD [])
        · rw [heq, Function.update_self, beq_self_eq_true, if_pos rfl]
        · rw [Function.update_of_ne heq, h, beq_eq_false_iff_ne.mpr fun hsame => heq hsame.symm]
          rfl
      rw [ih hused]
      simp only [if_neg hpath]
      rw [named, Naming.add, if_neg hpath]
      dsimp only
      rw [h, List.append_assoc, List.singleton_append]
      rfl

theorem describeRdpDrives_eq (drives : Option (List RdpDriveShare)) :
    describeRdpDrives drives = named [] (shares (drives.getD [])) :=
  (@foldl_add _ {} [] fun _ => rfl).trans (List.nil_append _)

theorem map_named (before : List Text) (shares : List (Text × Bool)) :
    (named before shares).map (fun drive => (drive.path, drive.readOnly)) = shares := by
  induction shares generalizing before with
  | nil => rfl
  | cons share shares ih => rw [named, List.map_cons, ih]

theorem name_named {before : List Text} {shares : List (Text × Bool)} {i : Nat} {base : Text}
    (h : (shares.map fun share => baseOf share.1)[i]? = some base) :
    ((named before shares).map (·.name))[i]? =
      some (nameOf (before ++ (shares.map fun share => baseOf share.1).take i) base) := by
  induction shares generalizing before i with
  | nil => cases h
  | cons share shares ih =>
    cases i with
    | zero =>
      rw [List.map_cons, List.getElem?_cons_zero, Option.some.injEq] at h
      rw [named, List.map_cons, List.getElem?_cons_zero, List.take_zero, List.append_nil, h]
    | succ i =>
      rw [List.map_cons, List.getElem?_cons_succ] at h
      rw [named, List.map_cons, List.getElem?_cons_succ, ih h, List.map_cons, List.take_succ_cons,
        List.append_assoc, List.singleton_append]

theorem length_named (before : List Text) (shares : List (Text × Bool)) :
    (named before shares).length = shares.length := by
  rw [← List.length_map, map_named]

/-! ### When the names differ -/

theorem numbered_ne (base : Text) (n : Nat) : numbered base n ≠ base := by
  intro h
  have hlength := congrArg List.length h
  simp [numbered, units] at hlength

theorem numbered_inj {base base' : Text} {n n' : Nat} (h : numbered base n = numbered base' n') :
    base = base' ∧ n = n' := by
  have hspace : units " " = [32] := rfl
  have hdigits : ∀ k : Nat, (32 : UInt16) ∉ (units k.repr).reverse := fun k hmem =>
    absurd (mem_units_repr (List.mem_reverse.mp hmem)).1 (by decide)
  have hshape : ∀ (text : Text) (k : Nat),
      (numbered text k).reverse = (units k.repr).reverse ++ 32 :: text.reverse := by
    intro text k
    rw [numbered, hspace, List.reverse_append, List.reverse_append]
    rfl
  have hreverse := congrArg List.reverse h
  rw [hshape, hshape] at hreverse
  have hnumber := Segments.eq_of_append_sep (hdigits n) (hdigits n') hreverse
  rw [hnumber] at hreverse
  have hbase := (List.cons.inj (List.append_cancel_left hreverse)).2
  exact ⟨List.reverse_injective hbase, units_repr_injective (List.reverse_injective hnumber)⟩

theorem exists_getElem_count {xs : List Text} {x : Text} {n : Nat} (h : n < xs.count x) :
    ∃ i, xs[i]? = some x ∧ (xs.take i).count x = n := by
  induction xs generalizing n with
  | nil => exact absurd h (Nat.not_lt_zero n)
  | cons y xs ih =>
    by_cases hy : y = x
    · cases n with
      | zero => exact ⟨0, congrArg some hy, rfl⟩
      | succ n =>
        rw [hy, List.count_cons_self] at h
        obtain ⟨i, hi, hcount⟩ := ih (Nat.lt_of_succ_lt_succ h)
        refine ⟨i + 1, hi, ?_⟩
        rw [List.take_succ_cons, hy, List.count_cons_self, hcount]
    · rw [List.count_cons_of_ne hy] at h
      obtain ⟨i, hi, hcount⟩ := ih h
      refine ⟨i + 1, hi, ?_⟩
      rw [List.take_succ_cons, List.count_cons_of_ne hy, hcount]

theorem count_take_lt {xs : List Text} {x : Text} {i j : Nat} (hij : i < j) (hi : xs[i]? = some x) :
    (xs.take i).count x < (xs.take j).count x := by
  have hsplit : xs.take (i + 1) = xs.take i ++ [x] := by
    rw [List.take_add_one, hi]
    rfl
  have hone : (xs.take i).count x + 1 = (xs.take (i + 1)).count x := by
    rw [hsplit, List.count_append, List.count_singleton_self]
  have hmore : (xs.take (i + 1)).count x ≤ (xs.take j).count x :=
    (List.take_sublist_take_left hij).count_le x
  omega

theorem count_take_lt_count {xs : List Text} {x : Text} {i : Nat} (hi : xs[i]? = some x) :
    (xs.take i).count x < xs.count x := by
  obtain ⟨hlt, -⟩ := List.getElem?_eq_some_iff.mp hi
  have hless := count_take_lt hlt hi
  rwa [List.take_length] at hless

section

variable {shares : List (Text × Bool)}

theorem name_eq {i : Nat} {base : Text}
    (h : (shares.map fun share => baseOf share.1)[i]? = some base) :
    ((named [] shares).map (·.name))[i]? =
      some (nameOf ((shares.map fun share => baseOf share.1).take i) base) := name_named h

theorem nodup_names_iff : ((named [] shares).map (·.name)).Nodup ↔
    ∀ base n, 2 ≤ n → n ≤ (shares.map fun share => baseOf share.1).count base →
      numbered base n ∉ shares.map fun share => baseOf share.1 := by
  constructor
  · intro hnodup base n htwo hcount hmem
    obtain ⟨i, hi, hbefore⟩ := exists_getElem_count (show n - 1 <
      (shares.map fun share => baseOf share.1).count base by omega)
    obtain ⟨j, hj, hfirst⟩ := exists_getElem_count (List.count_pos_iff.mpr hmem)
    have hname := name_eq hi
    have hname' := name_eq hj
    rw [nameOf, hbefore, if_neg (by omega), Nat.sub_add_cancel (by omega)] at hname
    rw [nameOf, if_pos hfirst] at hname'
    -- the two places differ, since the bases there do
    have hne : i ≠ j := by
      rintro rfl
      rw [hi, Option.some.injEq] at hj
      exact numbered_ne base n hj.symm
    obtain ⟨hlt, hget⟩ := List.getElem?_eq_some_iff.mp hname
    obtain ⟨hlt', hget'⟩ := List.getElem?_eq_some_iff.mp hname'
    exact hne ((List.Nodup.getElem_inj_iff hnodup).mp (hget.trans hget'.symm))
  · intro hnumbers
    have hbases : ∀ {i : Nat} (h : i < ((named [] shares).map (·.name)).length),
        ∃ base, (shares.map fun share => baseOf share.1)[i]? = some base ∧
          ((named [] shares).map (·.name))[i] =
            nameOf ((shares.map fun share => baseOf share.1).take i) base := by
      intro i h
      have hlength : i < (shares.map fun share => baseOf share.1).length := by
        rw [List.length_map, length_named] at h
        rwa [List.length_map]
      have hbase := List.getElem?_eq_getElem hlength
      exact ⟨_, hbase, (List.getElem?_eq_some_iff.mp (name_eq hbase)).2⟩
    refine List.pairwise_iff_getElem.mpr fun i j hi hj hij heq => ?_
    obtain ⟨base, hbase, hname⟩ := hbases hi
    obtain ⟨base', hbase', hname'⟩ := hbases hj
    rw [hname, hname', nameOf, nameOf] at heq
    have hmem := List.mem_of_getElem? hbase
    have hmem' := List.mem_of_getElem? hbase'
    have hcount := count_take_lt_count hbase
    have hcount' := count_take_lt_count hbase'
    split at heq
    · split at heq
      · next hzero' =>
        obtain rfl := heq
        have hless := count_take_lt hij hbase
        omega
      · obtain rfl := heq
        exact hnumbers base' _ (by omega) hcount' hmem
    · split at heq
      · obtain rfl := heq
        exact hnumbers base _ (by omega) hcount hmem'
      · obtain ⟨rfl, hsame⟩ := numbered_inj heq
        have hless := count_take_lt hij hbase
        omega

theorem mem_take_bases {segment : Text} {i : Nat} (h : segment ≠ []) :
    segment ∈ (shares.map fun share => baseOf share.1).take i ↔
      segment ∈ (shares.map fun share => lastSegment share.1).take i ∨
        (segment = fallbackDriveName ∧
          [] ∈ (shares.map fun share => lastSegment share.1).take i) := by
  rw [← List.map_take, ← List.map_take, List.mem_map, List.mem_map, List.mem_map]
  constructor
  · rintro ⟨share, hshare, rfl⟩
    unfold baseOf
    split
    · exact .inl ⟨share, hshare, rfl⟩
    · next hblank => exact .inr ⟨rfl, share, hshare, not_not.mp hblank⟩
  · rintro (⟨share, hshare, rfl⟩ | ⟨rfl, share, hshare, hblank⟩)
    · exact ⟨share, hshare, if_pos h⟩
    · exact ⟨share, hshare, if_neg (not_not.mpr hblank)⟩

theorem base_of_segment {segment : Text} {i : Nat} (h : segment ≠ [])
    (hi : (shares.map fun share => lastSegment share.1)[i]? = some segment) :
    (shares.map fun share => baseOf share.1)[i]? = some segment := by
  rw [List.getElem?_map, Option.map_eq_some_iff] at hi ⊢
  obtain ⟨share, hshare, rfl⟩ := hi
  exact ⟨share, hshare, if_pos h⟩

theorem name_eq_segment_iff {segment : Text} {i : Nat} (h : segment ≠ [])
    (hi : (shares.map fun share => lastSegment share.1)[i]? = some segment) :
    ((named [] shares).map (·.name))[i]? = some segment ↔
      segment ∉ (shares.map fun share => lastSegment share.1).take i ∧
        ¬(segment = fallbackDriveName ∧
          [] ∈ (shares.map fun share => lastSegment share.1).take i) := by
  rw [name_eq (base_of_segment h hi), Option.some.injEq, nameOf, ← not_or, ← mem_take_bases h,
    ← List.count_eq_zero]
  split
  · next hzero => exact ⟨fun _ => hzero, fun _ => rfl⟩
  · next hnot => exact ⟨fun heq => absurd heq (numbered_ne _ _), fun hzero => absurd hzero hnot⟩

end

theorem named_iff_separate (drives : Option (List RdpDriveShare)) :
    Named (drives.getD []) (describeRdpDrives drives) ↔ Separate (drives.getD []) := by
  rw [describeRdpDrives_eq]
  have hfallback : fallbackDriveName ≠ [] := by decide
  constructor
  · intro h
    refine ⟨nodup_names_iff.mp h.distinct, fun i hi hblank => ?_⟩
    by_contra hnew
    have hname := h.first i fallbackDriveName hi hfallback hnew
    exact ((name_eq_segment_iff hfallback hi).mp hname).2 ⟨rfl, hblank⟩
  · intro h
    refine ⟨map_named _ _, nodup_names_iff.mpr h.numbers, fun i segment hi hne hnew => ?_⟩
    refine (name_eq_segment_iff hne hi).mpr ⟨hnew, fun hboth => ?_⟩
    obtain ⟨rfl, hblank⟩ := hboth
    exact hnew (h.fallback i hi hblank)

/-- Two folders of one name, and a third whose name is the second's with its number. -/
theorem describeRdpDrives_clash :
    let drives := ["/a/docs", "/b/docs", "/c/docs 2"].map fun path : String =>
      (⟨some (units path), none⟩ : RdpDriveShare)
    ¬ Named drives (describeRdpDrives (some drives)) := by
  intro drives h
  have hnames : (describeRdpDrives (some drives)).map (·.name) =
      [units "docs", units "docs 2", units "docs 2"] := by decide
  have hdistinct := h.distinct
  rw [hnames] at hdistinct
  exact absurd hdistinct (by decide)

end Dolgate.RdpDrives
