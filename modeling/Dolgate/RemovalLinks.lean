import Dolgate.RemovalInside

set_option autoImplicit false

/-! A link that leads to no file stays, so that the removals stay inside the given paths exactly
where the links are plain. -/

namespace Dolgate.SftpRemoval
open FileTree

variable {Name Content : Type} [DecidableEq Name]

/-- A link that no `Remove` gets at. -/
def Stuck (fs : FileTree Name Content) (l : Path Name) : Prop :=
  (∃ target, fs.kind l = some (.link target)) ∧ fs.stat l ≠ .ok false

theorem Stuck.erase {fs : FileTree Name Content} {l e : Path Name} (h : Stuck fs l)
    (he : ¬ e <+: l) : Stuck (fs.erase e) l := by
  obtain ⟨⟨target, hlink⟩, hstat⟩ := h
  refine ⟨⟨target, ?_⟩, fun hfile => hstat (stat_of_stat_erase hfile)⟩
  rw [kind_erase_of_not_below fs he, hlink]

theorem eq_of_leaf {fs : FileTree Name Content} {l e : Path Name} (hleaf : fs.Leaf e)
    (hl : fs.kind l ≠ none) (h : e <+: l) : l = e := by
  obtain ⟨q, rfl⟩ := h
  by_contra hne
  exact hl (hleaf.2 q fun hnil => hne (by simp [hnil]))

theorem Stuck.remove {fs fs' : FileTree Name Content} {l q : Path Name} (h : Stuck fs l)
    (hstat : fs.stat q = .ok false) (hcall : fs.remove q = .ok fs') : Stuck fs' l := by
  obtain ⟨e, hlocate, hleaf, rfl⟩ := remove_eq_ok hcall
  refine h.erase fun hel => ?_
  obtain ⟨⟨target, hlink⟩, hnot⟩ := h
  obtain rfl := eq_of_leaf hleaf (by simp [hlink]) hel
  exact hnot (stat_of_locate hlocate hstat)

theorem Stuck.removeDirectory {fs fs' : FileTree Name Content} {l q : Path Name} (h : Stuck fs l)
    (hcall : Accessor.remoteFilesystem.removeDirectory fs q = .ok fs') : Stuck fs' l := by
  obtain ⟨e, hlocate, hdir, hne, hnames, rfl⟩ := FileTree.removeDirectory_eq_ok.mp hcall
  refine h.erase fun hel => ?_
  obtain ⟨⟨target, hlink⟩, -⟩ := h
  obtain rfl := eq_of_leaf (leaf_of_names hne hnames) (by simp [hlink]) hel
  simp [hdir] at hlink

variable {statError : PathError → Option PathError} {fuel : Nat}
  {fs : FileTree Name Content} {p : Path Name} {r : Outcome Name Content}

theorem Stuck.run {l : Path Name} (h : Stuck fs l)
    (hrun : removeTree .remoteFilesystem statError fuel fs p = some r) : Stuck r.1 l :=
  removeTree_preserves (I := fun fs => Stuck fs l)
    (fun _ _ _ hstuck hstat hcall => hstuck.remove hstat hcall)
    (fun _ _ _ hstuck hcall => hstuck.removeDirectory hcall) hrun h

theorem Stuck.loop {l : Path Name} {ns : List Name} (h : Stuck fs l)
    (hrun : removeEach (removeTree .remoteFilesystem statError fuel) p fs ns = some r) :
    Stuck r.1 l :=
  removeEach_preserves (I := fun fs => Stuck fs l) (fun _ _ _ hone hstuck => hstuck.run hone)
    hrun h

theorem plainEach_or_stuck {ns : List Name}
    (hone : ∀ (fs : FileTree Name Content) n r, fs.kind (p ++ [n]) ≠ none →
      removeTree .remoteFilesystem statError fuel fs (p ++ [n]) = some r →
        Plain fs (p ++ [n]) ∨ ∃ l, p ++ [n] <+: l ∧ Stuck r.1 l)
    (hnames : ∀ n ∈ ns, fs.kind (p ++ [n]) ≠ none) (hnodup : ns.Nodup)
    (hrun : removeEach (removeTree .remoteFilesystem statError fuel) p fs ns = some r) :
    PlainEach p fs ns ∨ ∃ l, p <+: l ∧ Stuck r.1 l := by
  induction ns generalizing fs with
  | nil => exact .inl .nil
  | cons n ns ih =>
    obtain ⟨r', hr', hrest⟩ := Option.bind_eq_some_iff.mp hrun
    rcases hone fs n r' (hnames n List.mem_cons_self) hr' with hplain | ⟨l, hl, hstuck⟩
    · obtain rfl := removeTree_plain hplain (by simp) hr'
      obtain ⟨hn, hnodup⟩ := List.nodup_cons.mp hnodup
      have hothers : ∀ m ∈ ns, (fs.erase (p ++ [n])).kind (p ++ [m]) ≠ none := by
        intro m hm
        rw [kind_erase_of_not_below]
        · exact hnames m (List.mem_cons_of_mem n hm)
        · intro hprefix
          have heq := hprefix.eq_of_length (by simp)
          simp only [List.append_cancel_left_eq, List.cons.injEq, and_true] at heq
          exact hn (heq ▸ hm)
      exact (ih hothers hnodup hrest).imp_left fun heach => .cons hplain heach
    · refine .inr ⟨l, (List.prefix_append p [n]).trans hl, ?_⟩
      rcases unlessFailed_eq_some hrest with rfl | ⟨-, hnext⟩
      · exact hstuck
      · exact hstuck.loop hnext

theorem plain_or_stuck (hp : fs.kind p ≠ none)
    (hrun : removeTree .remoteFilesystem statError fuel fs p = some r) :
    Plain fs p ∨ ∃ l, p <+: l ∧ Stuck r.1 l := by
  induction fuel generalizing fs p r with
  | zero => cases hrun
  | succ fuel ih =>
    obtain ⟨k, hk⟩ := Option.ne_none_iff_exists'.mp hp
    cases k with
    | file content => exact .inl (.file hk)
    | link target =>
      by_cases hstat : fs.stat p = .ok false
      · exact .inl (.link hk hstat)
      · have hstuck : Stuck fs p := ⟨⟨target, hk⟩, hstat⟩
        exact .inr ⟨p, List.prefix_refl p, hstuck.run hrun⟩
    | directory =>
      rw [removeTree_directory (realPath_of_directory hk) hk] at hrun
      obtain ⟨r', hr', hlast⟩ := Option.bind_eq_some_iff.mp hrun
      have hnames : ∀ n ∈ fs.names p, fs.kind (p ++ [n]) ≠ none := fun n hn => mem_names.mp hn
      rcases plainEach_or_stuck (fun fs n r => ih) hnames (fs.names_nodup p) hr' with
        heach | ⟨l, hl, hstuck⟩
      · exact .inl (.directory hk heach)
      · refine .inr ⟨l, hl, ?_⟩
        rcases unlessFailed_eq_some hlast with rfl | ⟨-, hnext⟩
        · exact hstuck
        · obtain rfl := Option.some.inj hnext
          cases hcall : Accessor.remoteFilesystem.removeDirectory r'.1 p with
          | error err => exact hstuck
          | ok fs' => exact hstuck.removeDirectory hcall

/-- A removal at the entry `e` takes something away, or a link at or below `e` stays. -/
def Effective (fs fs' : FileTree Name Content) (e : Path Name) : Prop :=
  (∃ q, fs.kind q ≠ none ∧ fs'.kind q = none) ∨
    ∃ q target, e <+: q ∧ fs'.kind q = some (.link target)

theorem Effective.mono {fs₁ fs₂ : FileTree Name Content} {e e' : Path Name}
    (h : Effective fs fs₁ e') (he : e <+: e') (hfs : Subset fs₁ fs) (hsub : Subset fs₂ fs₁) :
    Effective fs fs₂ e := by
  rcases h with ⟨q, hq, hgone⟩ | ⟨q, target, heq, hlink⟩
  · refine .inl ⟨q, hq, Option.eq_none_iff_forall_ne_some.mpr fun k hk => ?_⟩
    simp [hsub q k hk] at hgone
  · cases hafter : fs₂.kind q with
    | none => exact .inl ⟨q, by simp [hfs q _ hlink], hafter⟩
    | some k =>
      have hsame := hsub q k hafter
      rw [hlink] at hsame
      exact .inr ⟨q, target, he.trans heq, by rw [hafter, hsame]⟩

theorem effective_of_link {e : Path Name} {target : Target Name}
    (hk : fs.kind e = some (.link target))
    (hrun : removeTree .remoteFilesystem statError fuel fs p = some r) : Effective fs r.1 e := by
  cases hafter : r.1.kind e with
  | none => exact .inl ⟨e, by simp [hk], hafter⟩
  | some k =>
    have hsame := removeTree_subset hrun e k hafter
    rw [hk] at hsame
    exact .inr ⟨e, target, List.prefix_refl e, by rw [hafter, hsame]⟩

theorem effective_of_located {e : Path Name} (hlocate : fs.locate p = .ok e) (he : e ≠ [])
    (hrun : removeTree .remoteFilesystem statError fuel fs p = some r) : Effective fs r.1 e := by
  induction fuel generalizing fs p e r with
  | zero => cases hrun
  | succ fuel ih =>
    obtain ⟨k, hk⟩ := Option.ne_none_iff_exists'.mp (kind_of_locate hlocate)
    cases k with
    | link target => exact effective_of_link hk hrun
    | file content =>
      simp only [removeTree, stat_of_located_file hlocate hk, Option.some.injEq,
        remove_of_located hlocate hk (by simp : Kind.file content ≠ .directory), after] at hrun
      obtain rfl := hrun
      exact .inl ⟨e, by simp [hk], kind_erase_below fs he (List.prefix_refl e)⟩
    | directory =>
      have hreal := realPath_of_located hlocate hk (by simp)
      rw [removeTree_directory hreal hk] at hrun
      obtain ⟨r', hr', hlast⟩ := Option.bind_eq_some_iff.mp hrun
      cases hnames : fs.names e with
      | nil =>
        rw [hnames] at hr'
        obtain rfl := Option.some.inj hr'
        have hrmdir : fs.removeDirectory p = .ok (fs.erase e) :=
          FileTree.removeDirectory_eq_ok.mpr ⟨e, hlocate, hk, he, hnames, rfl⟩
        simp only [unlessFailed, Accessor.removeDirectory, hrmdir, after, Option.some.injEq]
          at hlast
        obtain rfl := hlast
        exact .inl ⟨e, by simp [hk], kind_erase_below fs he (List.prefix_refl e)⟩
      | cons n ns =>
        rw [hnames] at hr'
        obtain ⟨r₁, hfirst, hrest⟩ := Option.bind_eq_some_iff.mp hr'
        have hn : fs.kind (e ++ [n]) ≠ none := mem_names.mp (by simp [hnames])
        have hlocate' : fs.locate (p ++ [n]) = .ok (e ++ [n]) :=
          locate_append.mpr ⟨e, hreal, hk, hn, rfl⟩
        have hloop : Subset r'.1 r₁.1 := by
          rcases unlessFailed_eq_some hrest with rfl | ⟨-, hnext⟩
          · exact fun _ _ => id
          · exact removeEach_subset hnext
        have hend : Subset r.1 r'.1 := by
          rcases unlessFailed_eq_some hlast with rfl | ⟨-, hnext⟩
          · exact fun _ _ => id
          · obtain rfl := Option.some.inj hnext
            exact after_removeDirectory_subset r'.1 p
        have heffective := ih hlocate' (by simp) hfirst
        exact heffective.mono (List.prefix_append e [n]) (removeTree_subset hfirst)
          (hend.trans hloop)

theorem staysInside_of_stuck {l : Path Name} (hrun : removeTree .remoteFilesystem statError fuel
    fs p = some r) (hp : fs.kind p ≠ none) (hl : p <+: l) (hstuck : Stuck r.1 l) :
    ¬ StaysInside fs r.1 p := by
  intro h
  obtain ⟨⟨target, hlink⟩, -⟩ := hstuck
  have hgone := h.links p l target (locate_physical hp) hl (removeTree_subset hrun l _ hlink)
  simp [hlink] at hgone

theorem not_staysInside_of_effective {e : Path Name} (hp : fs.kind p = none)
    (hlocate : fs.locate p = .ok e) (hsub : Subset r.1 fs) (h : Effective fs r.1 e) :
    ¬ StaysInside fs r.1 p := by
  intro hinside
  rcases h with ⟨q, hq, hgone⟩ | ⟨q, target, heq, hlink⟩
  · have hbelow : ¬ p <+: q := by
      rintro ⟨s, rfl⟩
      by_cases hs : s = []
      · simp [hs, hp] at hq
      · simp [kind_above hs hq] at hp
    exact hq ((hinside.outside q hbelow).symm.trans hgone)
  · have hgone := hinside.links e q target hlocate heq (hsub q _ hlink)
    simp [hlink] at hgone

theorem removeTree_missing (accessor : Accessor) (statError : PathError → Option PathError)
    (fuel : Nat) (h : ∀ e, fs.locate p ≠ .ok e) :
    ∃ err, removeTree accessor statError (fuel + 1) fs p = some (fs, statError err) := by
  cases hstat : fs.stat p with
  | error err => exact ⟨err, by simp only [removeTree, hstat]⟩
  | ok isDirectory =>
    exfalso
    simp only [stat] at hstat
    cases hreal : fs.realPath p with
    | error err => simp [hreal] at hstat
    | ok x =>
      obtain ⟨e, he⟩ := locate_of_realPath hreal
      exact h e he

theorem mem_names_root {n : Name} {q : Path Name} (h : fs.kind (n :: q) ≠ none) :
    n ∈ fs.names [] := by
  rw [mem_names, List.nil_append]
  by_cases hq : q = []
  · rwa [hq] at h
  · have hdir : fs.kind [n] = some .directory := kind_above hq h
    simp [hdir]

theorem staysInside_of_plain {accessor : Accessor}
    (hrun : removeTree accessor statError fuel fs p = some r) (h : MeetsPlain fs p) :
    StaysInside fs r.1 p := by
  cases hk : fs.kind p with
  | none =>
    simp only [MeetsPlain, hk] at h
    cases fuel with
    | zero => cases hrun
    | succ fuel =>
      obtain ⟨err, hmissing⟩ := removeTree_missing accessor statError fuel h
      obtain rfl := Option.some.inj (hmissing.symm.trans hrun)
      exact ⟨fun _ _ => rfl, fun e _ _ he => absurd he (h e)⟩
  | some k =>
    simp only [MeetsPlain, hk] at h
    have hlocate := locate_physical h.kind
    by_cases hp : p = []
    · subst hp
      obtain ⟨hr, -⟩ := removeTree_root h hrun
      refine ⟨fun q hq => absurd (List.nil_prefix) hq, fun e q target _ _ hlink => ?_⟩
      cases q with
      | nil => simp at hlink
      | cons n q =>
        have hn : n ∈ fs.names [] := mem_names_root (q := q) (by rw [hlink]; simp)
        rw [hr]
        exact kind_eraseEach_below hn ⟨q, rfl⟩
    · obtain rfl := removeTree_plain h hp hrun
      refine ⟨fun q hq => kind_erase_of_not_below fs hq, fun e q target he heq _ => ?_⟩
      obtain rfl := Except.ok.inj (hlocate.symm.trans he)
      exact kind_erase_below fs hp heq

theorem staysInside_iff (hrun : removeTree .remoteFilesystem statError fuel fs p = some r) :
    StaysInside fs r.1 p ↔ MeetsPlain fs p := by
  refine ⟨fun h => ?_, staysInside_of_plain hrun⟩
  cases hk : fs.kind p with
  | some k =>
    simp only [MeetsPlain, hk]
    have hp : fs.kind p ≠ none := by simp [hk]
    rcases plain_or_stuck hp hrun with hplain | ⟨l, hl, hstuck⟩
    · exact hplain
    · exact absurd h (staysInside_of_stuck hrun hp hl hstuck)
  | none =>
    simp only [MeetsPlain, hk]
    intro e he
    have hne : e ≠ [] := by
      rcases List.eq_nil_or_concat' p with rfl | ⟨q, n, rfl⟩
      · simp at hk
      · obtain ⟨d, -, -, -, rfl⟩ := locate_append.mp he
        simp
    exact not_staysInside_of_effective hk he (removeTree_subset hrun)
      (effective_of_located he hne hrun) h

theorem removeTree_returns {accessor : Accessor} {depth : Nat} (h : MeetsPlain fs p)
    (hdepth : Within depth fs) :
    ∃ r, removeTree accessor statError (depth + 1) fs p = some r := by
  cases hk : fs.kind p with
  | none =>
    simp only [MeetsPlain, hk] at h
    obtain ⟨err, hmissing⟩ := removeTree_missing accessor statError depth h
    exact ⟨_, hmissing⟩
  | some k =>
    simp only [MeetsPlain, hk] at h
    exact Option.isSome_iff_exists.mp (removeTree_total h hdepth (by omega))

theorem removePath_staysInside_iff :
    RemovePathStaysInside .remoteFilesystem fs p ↔ MeetsPlain fs p := by
  constructor
  · rintro ⟨fuel, r, hrun, hinside⟩
    exact (staysInside_iff hrun).mp hinside
  · intro h
    obtain ⟨depth, hdepth⟩ := within_of_entries fs
    obtain ⟨r, hrun⟩ := removeTree_returns h hdepth
    exact ⟨depth + 1, r, hrun, staysInside_of_plain hrun h⟩

theorem removePath_staysInside_of_plain (accessor : Accessor) (h : MeetsPlain fs p) :
    RemovePathStaysInside accessor fs p := by
  obtain ⟨depth, hdepth⟩ := within_of_entries fs
  obtain ⟨r, hrun⟩ := removeTree_returns h hdepth
  exact ⟨depth + 1, r, hrun, staysInside_of_plain hrun h⟩

theorem removeRemotePath_ends (hrun : removeRemotePath fuel fs p = some r)
    (h : MeetsPlain fs p) :
    (fs.kind p ≠ none ∧ p ≠ [] ∧ r = (fs.erase p, none)) ∨
      ((fs.kind p = none ∨ p = []) ∧ r.2 ≠ none) := by
  cases hk : fs.kind p with
  | none =>
    simp only [MeetsPlain, hk] at h
    cases fuel with
    | zero => cases hrun
    | succ fuel =>
      obtain ⟨err, hmissing⟩ := removeTree_missing .remoteFilesystem some fuel h
      obtain rfl := Option.some.inj (hmissing.symm.trans hrun)
      exact .inr ⟨.inl rfl, by simp⟩
  | some k =>
    simp only [MeetsPlain, hk] at h
    by_cases hp : p = []
    · subst hp
      exact .inr ⟨.inr rfl, (removeTree_root h hrun).2⟩
    · exact .inl ⟨by simp, hp, removeTree_plain h hp hrun⟩

theorem meetsPlainEach_of_staysInside {gs : List (Path Name)}
    (h : EachStaysInside fuel fs gs) : MeetsPlainEach fs gs := by
  induction gs generalizing fs with
  | nil => trivial
  | cons g gs ih =>
    obtain ⟨r, hrun, hinside, hrest⟩ := h
    have hplain := (staysInside_iff hrun).mp hinside
    refine ⟨hplain, fun hg hne => ?_⟩
    rcases removeRemotePath_ends hrun hplain with ⟨-, -, rfl⟩ | ⟨hend, -⟩
    · exact ih (hrest rfl)
    · exact absurd hend (by simp [hg, hne])

theorem delete_staysInside_of_plain {depth : Nat} {gs : List (Path Name)}
    (h : MeetsPlainEach fs gs) (hdepth : Within depth fs) :
    ∃ r, delete (depth + 1) fs gs = some r ∧
      (∀ q, (∀ g ∈ gs, ¬ g <+: q) → r.1.kind q = fs.kind q) ∧
      EachStaysInside (depth + 1) fs gs := by
  induction gs generalizing fs with
  | nil => exact ⟨_, rfl, fun _ _ => rfl, trivial⟩
  | cons g gs ih =>
    obtain ⟨hplain, hrest⟩ := h
    obtain ⟨r, hrun⟩ : ∃ r, removeRemotePath (depth + 1) fs g = some r :=
      removeTree_returns hplain hdepth
    have hinside := staysInside_of_plain hrun hplain
    rcases removeRemotePath_ends hrun hplain with ⟨hg, hne, rfl⟩ | ⟨-, herr⟩
    · obtain ⟨r', hdelete, houtside, heach⟩ := ih (hrest hg hne) (hdepth.erase g)
      refine ⟨r', ?_, fun q hq => ?_, _, hrun, hinside, fun _ => heach⟩
      · rw [delete, hrun, Option.bind_some, unlessFailed]
        exact hdelete
      · rw [houtside q fun g' hg' => hq g' (List.mem_cons_of_mem g hg')]
        exact hinside.outside q (hq g List.mem_cons_self)
    · obtain ⟨err, herr'⟩ := Option.ne_none_iff_exists'.mp herr
      refine ⟨r, ?_, fun q hq => hinside.outside q (hq g List.mem_cons_self), r, hrun, hinside,
        fun hnone => absurd hnone herr⟩
      simp only [delete, hrun, Option.bind_some, unlessFailed, herr']

theorem delete_staysInside_iff {gs : List (Path Name)} :
    DeleteStaysInside fs gs ↔ MeetsPlainEach fs gs := by
  constructor
  · rintro ⟨fuel, r, -, -, heach⟩
    exact meetsPlainEach_of_staysInside heach
  · intro h
    obtain ⟨depth, hdepth⟩ := within_of_entries fs
    obtain ⟨r, hrun⟩ := delete_staysInside_of_plain h hdepth
    exact ⟨depth + 1, r, hrun⟩

/-- Both removals at the server stay inside exactly where the links are plain, and a removal on
this machine does there, too. -/
theorem removals_stay_inside :
    (∀ (fs : FileTree Name Content) gs, DeleteStaysInside fs gs ↔ MeetsPlainEach fs gs) ∧
      (∀ (fs : FileTree Name Content) g,
        RemovePathStaysInside .remoteFilesystem fs g ↔ MeetsPlain fs g) ∧
      ∀ (fs : FileTree Name Content) g, MeetsPlain fs g →
        RemovePathStaysInside .localFilesystem fs g :=
  ⟨fun _ _ => delete_staysInside_iff, fun _ _ => removePath_staysInside_iff,
    fun _ _ => removePath_staysInside_of_plain _⟩

/-- A directory `t` with a link to the directory `keep`. -/
def linkToDirectory : FileTree String Unit where
  entries := [(["keep"], .directory), (["keep", "x"], .file ()), (["t"], .directory),
    (["t", "l"], .link ⟨true, [.name "keep"]⟩)]
  distinct := by decide
  closed := by decide

theorem Plain.stat_of_link {target : Target Name} (h : Plain fs p)
    (hk : fs.kind p = some (.link target)) : fs.stat p = .ok false := by
  cases h with
  | file hkind => simp [hk] at hkind
  | link _ hstat => exact hstat
  | directory hkind _ => simp [hk] at hkind

theorem Plain.first {n : Name} {ns : List Name} (h : Plain fs p)
    (hk : fs.kind p = some .directory) (hnames : fs.names p = n :: ns) : Plain fs (p ++ [n]) := by
  cases h with
  | file hkind => simp [hk] at hkind
  | link hkind _ => simp [hk] at hkind
  | directory _ heach =>
    rw [hnames] at heach
    cases heach with
    | cons hfirst _ => exact hfirst

/-- What the link leads to is emptied, though it does not lie below the given path. -/
theorem removed_through_link :
    ¬ DeleteStaysInside linkToDirectory [["t"]] ∧
      (∃ fuel r, delete fuel linkToDirectory [["t"]] = some r ∧
        linkToDirectory.kind ["keep", "x"] = some (.file ()) ∧ r.1.kind ["keep", "x"] = none) ∧
      ∀ accessor, ∃ fuel r, removePath accessor fuel linkToDirectory ["t"] = some r ∧
        ¬ ["t"] <+: ["keep", "x"] ∧ r.1.kind ["keep", "x"] = none := by
  refine ⟨fun h => ?_, ?_, fun accessor => ?_⟩
  · have hplain : MeetsPlain linkToDirectory ["t"] := (delete_staysInside_iff.mp h).1
    have hkind : linkToDirectory.kind ["t"] = some .directory := by decide
    have hnames : linkToDirectory.names ["t"] = ["l"] := by decide
    have hlink : linkToDirectory.kind ["t", "l"] = some (.link ⟨true, [.name "keep"]⟩) := by
      decide
    have hstat : linkToDirectory.stat ["t", "l"] = .ok true := by decide
    simp only [MeetsPlain, hkind] at hplain
    have hfile := (hplain.first hkind hnames).stat_of_link hlink
    simp [hstat] at hfile
  · have hrun : (delete 5 linkToDirectory [["t"]]).map (fun r => r.1.kind ["keep", "x"]) =
        some none := by decide
    obtain ⟨r, hr, hgone⟩ := Option.map_eq_some_iff.mp hrun
    exact ⟨5, r, hr, by decide, hgone⟩
  · have hrun : (removePath accessor 5 linkToDirectory ["t"]).map
        (fun r => r.1.kind ["keep", "x"]) = some none := by
      cases accessor with
      | localFilesystem => decide
      | remoteFilesystem => decide
    obtain ⟨r, hr, hgone⟩ := Option.map_eq_some_iff.mp hrun
    exact ⟨5, r, hr, by decide, hgone⟩

end Dolgate.SftpRemoval
