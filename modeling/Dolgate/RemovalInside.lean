import Mathlib.Algebra.Order.BigOperators.Group.List
import Mathlib.Algebra.Order.Group.Nat
import Dolgate.PathWalk

set_option autoImplicit false

/-! The recursive removals of the SFTP service and of its transfers. -/

namespace Dolgate.SftpRemoval
open FileTree

variable {Name Content : Type} [DecidableEq Name]

/-- Where a transfer works: on this machine, where `RemoveDirectory` is `os.Remove`, or at the
server. -/
inductive Accessor where
  | localFilesystem
  | remoteFilesystem
deriving DecidableEq, Repr

def Accessor.removeDirectory (accessor : Accessor) (fs : FileTree Name Content) (p : Path Name) :
    Except PathError (FileTree Name Content) :=
  match accessor with
  | .localFilesystem => fs.remove p
  | .remoteFilesystem => fs.removeDirectory p

abbrev Outcome (Name Content : Type) := FileTree Name Content × Option PathError

def after (fs : FileTree Name Content) :
    Except PathError (FileTree Name Content) → Outcome Name Content
  | .ok fs' => (fs', none)
  | .error err => (fs, some err)

def unlessFailed (r : Outcome Name Content)
    (next : FileTree Name Content → Option (Outcome Name Content)) :
    Option (Outcome Name Content) :=
  match r.2 with
  | some _ => some r
  | none => next r.1

omit [DecidableEq Name] in
theorem unlessFailed_eq_some {r r' : Outcome Name Content}
    {next : FileTree Name Content → Option (Outcome Name Content)}
    (h : unlessFailed r next = some r') : r' = r ∨ (r.2 = none ∧ next r.1 = some r') := by
  cases herr : r.2 with
  | some err =>
    simp only [unlessFailed, herr, Option.some.injEq] at h
    exact .inl h.symm
  | none =>
    simp only [unlessFailed, herr] at h
    exact .inr ⟨rfl, h⟩

def removeEach (removeOne : FileTree Name Content → Path Name → Option (Outcome Name Content))
    (p : Path Name) : FileTree Name Content → List Name → Option (Outcome Name Content)
  | fs, [] => some (fs, none)
  | fs, n :: ns =>
    (removeOne fs (p ++ [n])).bind fun r =>
      unlessFailed r fun fs' => removeEach removeOne p fs' ns

/-- Both removals are this recursion. `none` when it goes deeper than `fuel`. -/
def removeTree (accessor : Accessor) (statError : PathError → Option PathError) :
    Nat → FileTree Name Content → Path Name → Option (Outcome Name Content)
  | 0, _, _ => none
  | fuel + 1, fs, p =>
    match fs.stat p with
    | .error err => some (fs, statError err)
    | .ok false => some (after fs (fs.remove p))
    | .ok true =>
      match fs.readDir p with
      | .error err => some (fs, some err)
      | .ok names =>
        (removeEach (removeTree accessor statError fuel) p fs names).bind fun r =>
          unlessFailed r fun fs' => some (after fs' (accessor.removeDirectory fs' p))

def removeRemotePath :
    Nat → FileTree Name Content → Path Name → Option (Outcome Name Content) :=
  removeTree .remoteFilesystem some

def removePath (accessor : Accessor) :
    Nat → FileTree Name Content → Path Name → Option (Outcome Name Content) :=
  removeTree accessor fun err => if err = .notExist then none else some err

def delete (fuel : Nat) :
    FileTree Name Content → List (Path Name) → Option (Outcome Name Content)
  | fs, [] => some (fs, none)
  | fs, p :: ps =>
    (removeRemotePath fuel fs p).bind fun r => unlessFailed r fun fs' => delete fuel fs' ps

section Preserved

variable {accessor : Accessor} {statError : PathError → Option PathError}
  {I : FileTree Name Content → Prop} {fuel : Nat} {fs fs' : FileTree Name Content}
  {p : Path Name} {r : Outcome Name Content}

omit [DecidableEq Name] in
theorem removeEach_preserves
    {removeOne : FileTree Name Content → Path Name → Option (Outcome Name Content)}
    (hone : ∀ fs p r, removeOne fs p = some r → I fs → I r.1) {ns : List Name}
    (hrun : removeEach removeOne p fs ns = some r) (h : I fs) : I r.1 := by
  induction ns generalizing fs with
  | nil =>
    obtain rfl := Option.some.inj hrun
    exact h
  | cons n ns ih =>
    obtain ⟨r', hr', hrest⟩ := Option.bind_eq_some_iff.mp hrun
    have hafter := hone _ _ _ hr' h
    rcases unlessFailed_eq_some hrest with rfl | ⟨-, hnext⟩
    · exact hafter
    · exact ih hnext hafter

theorem removeTree_preserves
    (hremove : ∀ fs q fs', I fs → fs.stat q = .ok false → fs.remove q = .ok fs' → I fs')
    (hdirectory : ∀ fs q fs', I fs → accessor.removeDirectory fs q = .ok fs' → I fs')
    (hrun : removeTree accessor statError fuel fs p = some r) (h : I fs) : I r.1 := by
  induction fuel generalizing fs p r with
  | zero => cases hrun
  | succ fuel ih =>
    rw [removeTree] at hrun
    cases hstat : fs.stat p with
    | error err =>
      simp only [hstat, Option.some.injEq] at hrun
      rwa [← hrun]
    | ok isDirectory =>
      cases isDirectory with
      | false =>
        simp only [hstat, Option.some.injEq] at hrun
        rw [← hrun]
        cases hcall : fs.remove p with
        | error err => exact h
        | ok fs' => exact hremove _ _ _ h hstat hcall
      | true =>
        simp only [hstat] at hrun
        cases hread : fs.readDir p with
        | error err =>
          simp only [hread, Option.some.injEq] at hrun
          rwa [← hrun]
        | ok names =>
          simp only [hread] at hrun
          obtain ⟨r', hr', hlast⟩ := Option.bind_eq_some_iff.mp hrun
          have hone : ∀ fs p r, removeTree accessor statError fuel fs p = some r → I fs → I r.1 :=
            fun _ _ _ => ih
          have hloop := removeEach_preserves hone hr' h
          rcases unlessFailed_eq_some hlast with rfl | ⟨-, hnext⟩
          · exact hloop
          · obtain rfl := Option.some.inj hnext
            cases hcall : accessor.removeDirectory r'.1 p with
            | error err => exact hloop
            | ok fs' => exact hdirectory _ _ _ hloop hcall

theorem removeDirectory_eq_ok (h : accessor.removeDirectory fs p = .ok fs') :
    ∃ e, fs' = fs.erase e := by
  cases accessor with
  | localFilesystem =>
    obtain ⟨e, -, -, rfl⟩ := remove_eq_ok h
    exact ⟨e, rfl⟩
  | remoteFilesystem =>
    obtain ⟨e, -, -, -, -, rfl⟩ := FileTree.removeDirectory_eq_ok.mp h
    exact ⟨e, rfl⟩

/-- Every entry of `fs'` is one of `fs`. -/
def Subset (fs' fs : FileTree Name Content) : Prop :=
  ∀ q k, fs'.kind q = some k → fs.kind q = some k

theorem Subset.trans {fs₁ fs₂ fs₃ : FileTree Name Content} (h : Subset fs₁ fs₂)
    (h' : Subset fs₂ fs₃) : Subset fs₁ fs₃ :=
  fun q k hk => h' q k (h q k hk)

theorem subset_erase (fs : FileTree Name Content) (e : Path Name) : Subset (fs.erase e) fs :=
  fun _ _ => kind_of_kind_erase

theorem after_removeDirectory_subset (fs : FileTree Name Content) (p : Path Name) :
    Subset (after fs (accessor.removeDirectory fs p)).1 fs := by
  cases hcall : accessor.removeDirectory fs p with
  | error err => exact fun _ _ => id
  | ok fs' =>
    obtain ⟨e, rfl⟩ := removeDirectory_eq_ok hcall
    exact subset_erase fs e

theorem removeTree_subset (hrun : removeTree accessor statError fuel fs p = some r) :
    Subset r.1 fs := by
  refine removeTree_preserves (I := fun fs' => Subset fs' fs) ?_ ?_ hrun fun _ _ => id
  · intro fs₁ q fs₂ hsub _ hcall
    obtain ⟨e, -, -, rfl⟩ := remove_eq_ok hcall
    exact (subset_erase fs₁ e).trans hsub
  · intro fs₁ q fs₂ hsub hcall
    obtain ⟨e, rfl⟩ := removeDirectory_eq_ok hcall
    exact (subset_erase fs₁ e).trans hsub

theorem removeEach_subset {ns : List Name}
    (hrun : removeEach (removeTree accessor statError fuel) p fs ns = some r) :
    Subset r.1 fs :=
  removeEach_preserves (I := fun fs' => Subset fs' fs)
    (fun _ _ _ hone hsub => (removeTree_subset hone).trans hsub) hrun fun _ _ => id

end Preserved

end Dolgate.SftpRemoval

/-! What a removal touches when it meets symbolic links. -/

namespace Dolgate.SftpRemoval
open FileTree

variable {Name Content : Type} [DecidableEq Name]

/-- Only what lies at or below `g` was touched, and of the links at or below the entry that `g`
names none is left. -/
structure StaysInside (fs fs' : FileTree Name Content) (g : Path Name) : Prop where
  outside : ∀ q, ¬ g <+: q → fs'.kind q = fs.kind q
  links : ∀ e q target, fs.locate g = .ok e → e <+: q → fs.kind q = some (.link target) →
    fs'.kind q = none

/-- Each call that `Delete` makes, up to the first error, stays inside its path. -/
def EachStaysInside (fuel : Nat) : FileTree Name Content → List (Path Name) → Prop
  | _, [] => True
  | fs, g :: gs =>
    ∃ r, removeRemotePath fuel fs g = some r ∧ StaysInside fs r.1 g ∧
      (r.2 = none → EachStaysInside fuel r.1 gs)

/-- `Delete` returns, and nothing but the given paths and what lies below them was touched. -/
def DeleteStaysInside (fs : FileTree Name Content) (gs : List (Path Name)) : Prop :=
  ∃ fuel r, delete fuel fs gs = some r ∧
    (∀ q, (∀ g ∈ gs, ¬ g <+: q) → r.1.kind q = fs.kind q) ∧ EachStaysInside fuel fs gs

def RemovePathStaysInside (accessor : Accessor) (fs : FileTree Name Content) (g : Path Name) :
    Prop :=
  ∃ fuel r, removePath accessor fuel fs g = some r ∧ StaysInside fs r.1 g

mutual

/-- Each link at or below `p` leads to a file when its turn comes: what stands before it in the
listings is gone by then. -/
inductive Plain : FileTree Name Content → Path Name → Prop where
  | file {fs : FileTree Name Content} {p : Path Name} {content : Content}
      (hkind : fs.kind p = some (.file content)) : Plain fs p
  | link {fs : FileTree Name Content} {p : Path Name} {target : Target Name}
      (hkind : fs.kind p = some (.link target)) (hstat : fs.stat p = .ok false) : Plain fs p
  | directory {fs : FileTree Name Content} {p : Path Name}
      (hkind : fs.kind p = some .directory) (heach : PlainEach p fs (fs.names p)) : Plain fs p

inductive PlainEach : Path Name → FileTree Name Content → List Name → Prop where
  | nil {p : Path Name} {fs : FileTree Name Content} : PlainEach p fs []
  | cons {p : Path Name} {fs : FileTree Name Content} {n : Name} {ns : List Name}
      (hfirst : Plain fs (p ++ [n])) (hrest : PlainEach p (fs.erase (p ++ [n])) ns) :
      PlainEach p fs (n :: ns)

end

/-- The path names nothing, or an entry that no link stands above and whose links are plain. -/
def MeetsPlain (fs : FileTree Name Content) (g : Path Name) : Prop :=
  match fs.kind g with
  | some _ => Plain fs g
  | none => ∀ e, fs.locate g ≠ .ok e

def MeetsPlainEach : FileTree Name Content → List (Path Name) → Prop
  | _, [] => True
  | fs, g :: gs =>
    MeetsPlain fs g ∧ (fs.kind g ≠ none → g ≠ [] → MeetsPlainEach (fs.erase g) gs)

theorem Plain.kind {fs : FileTree Name Content} {p : Path Name} (h : Plain fs p) :
    fs.kind p ≠ none := by
  cases h with
  | file hkind => simp [hkind]
  | link hkind _ => simp [hkind]
  | directory hkind _ => simp [hkind]

/-- The directory `p` without the named entries. -/
def eraseEach (p : Path Name) (fs : FileTree Name Content) (ns : List Name) :
    FileTree Name Content :=
  ns.foldl (fun fs n => fs.erase (p ++ [n])) fs

theorem kind_eraseEach {p q : Path Name} {fs : FileTree Name Content} {ns : List Name}
    (h : ∀ n ∈ ns, ¬ p ++ [n] <+: q) : (eraseEach p fs ns).kind q = fs.kind q := by
  induction ns generalizing fs with
  | nil => rfl
  | cons n ns ih =>
    have hrest := @ih (fs.erase (p ++ [n])) fun m hm => h m (List.mem_cons_of_mem n hm)
    rw [kind_erase_of_not_below _ (h n List.mem_cons_self)] at hrest
    exact hrest

theorem kind_of_kind_eraseEach {p q : Path Name} {fs : FileTree Name Content} {ns : List Name}
    {k : Kind Name Content} (h : (eraseEach p fs ns).kind q = some k) : fs.kind q = some k := by
  induction ns generalizing fs with
  | nil => exact h
  | cons n ns ih => exact kind_of_kind_erase (ih h)

theorem kind_eraseEach_below {p q : Path Name} {fs : FileTree Name Content} {ns : List Name}
    {n : Name} (hn : n ∈ ns) (h : p ++ [n] <+: q) : (eraseEach p fs ns).kind q = none := by
  induction ns generalizing fs with
  | nil => simp at hn
  | cons m ns ih =>
    rcases List.mem_cons.mp hn with rfl | hn
    · rw [Option.eq_none_iff_forall_ne_some]
      intro k hk
      have hk' : (fs.erase (p ++ [n])).kind q = some k := kind_of_kind_eraseEach hk
      have hnone : (fs.erase (p ++ [n])).kind q = none := kind_erase_below fs (by simp) h
      simp [hnone] at hk'
    · exact ih hn

theorem erase_eraseEach {p : Path Name} {fs : FileTree Name Content} {ns : List Name} :
    (eraseEach p fs ns).erase p = fs.erase p := by
  induction ns generalizing fs with
  | nil => rfl
  | cons n ns ih =>
    have hrest := @ih (fs.erase (p ++ [n]))
    rw [erase_erase (List.prefix_append p [n])] at hrest
    exact hrest

theorem names_eraseEach {p : Path Name} {fs : FileTree Name Content} :
    (eraseEach p fs (fs.names p)).names p = [] := by
  refine List.eq_nil_iff_forall_not_mem.mpr fun n hn => ?_
  obtain ⟨k, hk⟩ := Option.ne_none_iff_exists'.mp (mem_names.mp hn)
  have hmem : n ∈ fs.names p := mem_names.mpr (by simp [kind_of_kind_eraseEach hk])
  simp [kind_eraseEach_below hmem (List.prefix_refl _)] at hk

section Runs

variable {accessor : Accessor} {statError : PathError → Option PathError} {fuel : Nat}
  {fs : FileTree Name Content} {p : Path Name} {r : Outcome Name Content}

theorem removeDirectory_of_empty (hk : fs.kind p = some .directory) (hp : p ≠ [])
    (hnames : fs.names p = []) : accessor.removeDirectory fs p = .ok (fs.erase p) := by
  have hlocate : fs.locate p = .ok p := locate_physical (by simp [hk])
  have hrmdir : fs.removeDirectory p = .ok (fs.erase p) :=
    FileTree.removeDirectory_eq_ok.mpr ⟨p, hlocate, hk, hp, hnames, rfl⟩
  cases accessor with
  | localFilesystem => simp [Accessor.removeDirectory, remove, hlocate, hk, hrmdir]
  | remoteFilesystem => exact hrmdir

theorem removeDirectory_root (accessor : Accessor) (fs : FileTree Name Content) :
    ∃ err, accessor.removeDirectory fs [] = .error err := by
  have hrmdir : fs.removeDirectory [] = .error .notEmpty := by
    simp [FileTree.removeDirectory, locate]
  cases accessor with
  | localFilesystem =>
    exact ⟨.notEmpty, by simpa [Accessor.removeDirectory, remove, locate] using hrmdir⟩
  | remoteFilesystem => exact ⟨.notEmpty, hrmdir⟩

theorem removeTree_directory {e : Path Name} (hreal : fs.realPath p = .ok e)
    (hk : fs.kind e = some .directory) :
    removeTree accessor statError (fuel + 1) fs p =
      (removeEach (removeTree accessor statError fuel) p fs (fs.names e)).bind fun r =>
        unlessFailed r fun fs' => some (after fs' (accessor.removeDirectory fs' p)) := by
  simp only [removeTree, stat_of_directory hreal hk, readDir_of_directory hreal hk]

theorem removeEach_plain {ns : List Name}
    (hone : ∀ (fs : FileTree Name Content) n r, Plain fs (p ++ [n]) →
      removeTree accessor statError fuel fs (p ++ [n]) = some r →
        r = (fs.erase (p ++ [n]), none))
    (h : PlainEach p fs ns)
    (hrun : removeEach (removeTree accessor statError fuel) p fs ns = some r) :
    r = (eraseEach p fs ns, none) := by
  induction ns generalizing fs with
  | nil => exact (Option.some.inj hrun).symm
  | cons n ns ih =>
    cases h with
    | cons hfirst hrest =>
      obtain ⟨r', hr', hnext⟩ := Option.bind_eq_some_iff.mp hrun
      obtain rfl := hone _ _ _ hfirst hr'
      exact ih hrest hnext

theorem removeTree_plain (h : Plain fs p) (hp : p ≠ [])
    (hrun : removeTree accessor statError fuel fs p = some r) : r = (fs.erase p, none) := by
  induction fuel generalizing fs p r with
  | zero => cases hrun
  | succ fuel ih =>
    have hlocate := locate_physical h.kind
    cases h with
    | file hkind =>
      simp only [removeTree, stat_of_located_file hlocate hkind, Option.some.injEq] at hrun
      rw [← hrun, remove_of_located hlocate hkind (by simp), after]
    | link hkind hstat =>
      simp only [removeTree, hstat, Option.some.injEq] at hrun
      rw [← hrun, remove_of_located hlocate hkind (by simp), after]
    | directory hkind heach =>
      rw [removeTree_directory (realPath_of_directory hkind) hkind] at hrun
      obtain ⟨r', hr', hlast⟩ := Option.bind_eq_some_iff.mp hrun
      obtain rfl := removeEach_plain (fun fs n r hone hcall => ih hone (by simp) hcall) heach hr'
      have hself : (eraseEach p fs (fs.names p)).kind p = some .directory := by
        rw [kind_eraseEach, hkind]
        intro n _ hprefix
        have hlength := hprefix.length_le
        simp only [List.length_append, List.length_singleton] at hlength
        omega
      simp only [unlessFailed, removeDirectory_of_empty hself hp names_eraseEach, after,
        Option.some.injEq] at hlast
      rw [← hlast, erase_eraseEach]

theorem removeTree_root (h : Plain fs [])
    (hrun : removeTree accessor statError fuel fs [] = some r) :
    r.1 = eraseEach [] fs (fs.names []) ∧ r.2 ≠ none := by
  cases fuel with
  | zero => cases hrun
  | succ fuel =>
    cases h with
    | file hkind => simp at hkind
    | link hkind _ => simp at hkind
    | directory hkind heach =>
      rw [removeTree_directory (realPath_of_directory hkind) hkind] at hrun
      obtain ⟨r', hr', hlast⟩ := Option.bind_eq_some_iff.mp hrun
      obtain rfl :=
        removeEach_plain (fun fs n r hone hcall => removeTree_plain hone (by simp) hcall) heach hr'
      obtain ⟨err, herr⟩ := removeDirectory_root accessor (eraseEach [] fs (fs.names []))
      simp only [unlessFailed, herr, after, Option.some.injEq] at hlast
      simp [← hlast]

/-- No entry lies deeper than `depth`. -/
def Within (depth : Nat) (fs : FileTree Name Content) : Prop :=
  ∀ q, fs.kind q ≠ none → q.length ≤ depth

theorem Within.erase {depth : Nat} (h : Within depth fs) (q : Path Name) :
    Within depth (fs.erase q) := by
  intro q' hq'
  obtain ⟨k, hk⟩ := Option.ne_none_iff_exists'.mp hq'
  exact h q' (by simp [kind_of_kind_erase hk])

theorem within_of_entries (fs : FileTree Name Content) : ∃ depth, Within depth fs := by
  refine ⟨(fs.entries.map fun e => e.1.length).sum, fun q hq => ?_⟩
  by_cases hnil : q = []
  · simp [hnil]
  · obtain ⟨k, hk⟩ := Option.ne_none_iff_exists'.mp hq
    have hmem : q.length ∈ fs.entries.map fun e => e.1.length :=
      List.mem_map.mpr ⟨(q, k), (kind_eq_some hnil).mp hk, rfl⟩
    exact List.le_sum_of_mem hmem

theorem removeEach_total {depth : Nat} {ns : List Name}
    (hone : ∀ (fs : FileTree Name Content) n, Plain fs (p ++ [n]) → Within depth fs →
      (removeTree accessor statError fuel fs (p ++ [n])).isSome)
    (h : PlainEach p fs ns) (hdepth : Within depth fs) :
    (removeEach (removeTree accessor statError fuel) p fs ns).isSome := by
  induction ns generalizing fs with
  | nil => rfl
  | cons n ns ih =>
    cases h with
    | cons hfirst hrest =>
      obtain ⟨r', hr'⟩ := Option.isSome_iff_exists.mp (hone fs n hfirst hdepth)
      obtain rfl := removeTree_plain hfirst (by simp) hr'
      simpa only [removeEach, hr', Option.bind_some, unlessFailed] using ih hrest (hdepth.erase _)

theorem removeTree_total {depth : Nat} (h : Plain fs p) (hdepth : Within depth fs)
    (hfuel : depth < fuel + p.length) : (removeTree accessor statError fuel fs p).isSome := by
  induction fuel generalizing fs p with
  | zero =>
    have := hdepth p h.kind
    omega
  | succ fuel ih =>
    have hlocate := locate_physical h.kind
    cases h with
    | file hkind => simp [removeTree, stat_of_located_file hlocate hkind]
    | link hkind hstat => simp [removeTree, hstat]
    | directory hkind heach =>
      have hlonger : ∀ n : Name, depth < fuel + (p ++ [n]).length := by
        intro n
        simp only [List.length_append, List.length_singleton]
        omega
      have hloop := removeEach_total
        (fun fs n hplain hdepth => ih hplain hdepth (hlonger n)) heach hdepth
      obtain ⟨r', hr'⟩ := Option.isSome_iff_exists.mp hloop
      rw [removeTree_directory (realPath_of_directory hkind) hkind, hr', Option.bind_some,
        unlessFailed]
      split <;> rfl

end Runs

end Dolgate.SftpRemoval
