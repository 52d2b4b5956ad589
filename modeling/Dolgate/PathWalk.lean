import Dolgate.FileTree

set_option autoImplicit false

/-! How a path is resolved, and the calls that name an entry by a path. -/

namespace Dolgate.FileTree

variable {Name Content : Type}

abbrev Path (Name : Type) := List Name

def components (p : Path Name) : List (Component Name) := p.map .name

/-- One walk from the directory `current`. `follow` walks on behind a link. -/
def walk (kind : Path Name → Option (Kind Name Content))
    (follow : List (Component Name) → Path Name → Except PathError (Path Name)) :
    List (Component Name) → Path Name → Except PathError (Path Name)
  | [], current => .ok current
  | .up :: rest, current => walk kind follow rest current.dropLast
  | .name n :: rest, current =>
    match kind (current ++ [n]) with
    | none => .error .notExist
    | some (.file _) => if rest.isEmpty then .ok (current ++ [n]) else .error .notDirectory
    | some .directory => walk kind follow rest (current ++ [n])
    | some (.link target) => follow (target.components ++ rest) (target.base current)

/-- The walk with at most `budget` links behind each other, all of them followed. -/
def resolve (kind : Path Name → Option (Kind Name Content)) :
    Nat → List (Component Name) → Path Name → Except PathError (Path Name)
  | 0 => walk kind fun _ _ => .error .loop
  | budget + 1 => walk kind (resolve kind budget)

def linkLimit : Nat := 40

variable [DecidableEq Name]

def realPath (fs : FileTree Name Content) (p : Path Name) : Except PathError (Path Name) :=
  resolve fs.kind linkLimit (components p) []

/-- The physical path of the entry that `p` names. A link in the last place is not followed. -/
def locate (fs : FileTree Name Content) (p : Path Name) : Except PathError (Path Name) :=
  match p.getLast? with
  | none => .ok []
  | some n =>
    match fs.realPath p.dropLast with
    | .error err => .error err
    | .ok directory =>
      match fs.kind directory, fs.kind (directory ++ [n]) with
      | some .directory, some _ => .ok (directory ++ [n])
      | some .directory, none => .error .notExist
      | _, _ => .error .notDirectory

/-- What `Stat` tells of a file: whether it is a directory. -/
def stat (fs : FileTree Name Content) (p : Path Name) : Except PathError Bool :=
  match fs.realPath p with
  | .error err => .error err
  | .ok q =>
    match fs.kind q with
    | none => .error .notExist
    | some .directory => .ok true
    | some _ => .ok false

def readDir (fs : FileTree Name Content) (p : Path Name) : Except PathError (List Name) :=
  match fs.realPath p with
  | .error err => .error err
  | .ok q =>
    match fs.kind q with
    | none => .error .notExist
    | some .directory => .ok (fs.names q)
    | some _ => .error .notDirectory

/-- `rmdir`, which does not follow a link in the last place. -/
def removeDirectory (fs : FileTree Name Content) (p : Path Name) :
    Except PathError (FileTree Name Content) :=
  match fs.locate p with
  | .error err => .error err
  | .ok q =>
    match fs.kind q with
    | none => .error .notExist
    | some .directory => if q ≠ [] ∧ fs.names q = [] then .ok (fs.erase q) else .error .notEmpty
    | some _ => .error .notDirectory

/-- `unlink`, and `rmdir` where that fails at a directory. -/
def remove (fs : FileTree Name Content) (p : Path Name) :
    Except PathError (FileTree Name Content) :=
  match fs.locate p with
  | .error err => .error err
  | .ok q =>
    match fs.kind q with
    | none => .error .notExist
    | some .directory => fs.removeDirectory p
    | some _ => .ok (fs.erase q)

section Walks

variable {kind kind' : Path Name → Option (Kind Name Content)}

omit [DecidableEq Name] in
theorem resolve_eq_walk (kind : Path Name → Option (Kind Name Content)) (budget : Nat) :
    ∃ follow, resolve kind budget = walk kind follow := by
  cases budget with
  | zero => exact ⟨_, rfl⟩
  | succ budget => exact ⟨_, rfl⟩

omit [DecidableEq Name] in
@[simp] theorem resolve_nil (budget : Nat) (current : Path Name) :
    resolve kind budget [] current = .ok current := by
  obtain ⟨follow, hwalk⟩ := resolve_eq_walk kind budget
  rw [hwalk, walk]

omit [DecidableEq Name] in
@[simp] theorem resolve_up (budget : Nat) (rest : List (Component Name)) (current : Path Name) :
    resolve kind budget (.up :: rest) current = resolve kind budget rest current.dropLast := by
  obtain ⟨follow, hwalk⟩ := resolve_eq_walk kind budget
  rw [hwalk, walk]

def afterName (kind : Path Name → Option (Kind Name Content)) (budget : Nat)
    (rest : List (Component Name)) (current : Path Name) (n : Name) :
    Option (Kind Name Content) → Except PathError (Path Name)
  | none => .error .notExist
  | some (.file _) => if rest.isEmpty then .ok (current ++ [n]) else .error .notDirectory
  | some .directory => resolve kind budget rest (current ++ [n])
  | some (.link target) =>
    match budget with
    | 0 => .error .loop
    | budget + 1 => resolve kind budget (target.components ++ rest) (target.base current)

omit [DecidableEq Name] in
theorem resolve_name (budget : Nat) (n : Name) (rest : List (Component Name))
    (current : Path Name) :
    resolve kind budget (.name n :: rest) current =
      afterName kind budget rest current n (kind (current ++ [n])) := by
  cases budget with
  | zero =>
    rw [resolve, walk]
    cases kind (current ++ [n]) with
    | none => rfl
    | some k => cases k <;> rfl
  | succ budget =>
    rw [resolve, walk]
    cases kind (current ++ [n]) with
    | none => rfl
    | some k => cases k <;> rfl

omit [DecidableEq Name] in
theorem resolve_induction (kind : Path Name → Option (Kind Name Content))
    {P : Nat → List (Component Name) → Path Name → Prop}
    (nil : ∀ budget current, P budget [] current)
    (up : ∀ budget rest current, P budget rest current.dropLast → P budget (.up :: rest) current)
    (name : ∀ budget n rest current,
      (kind (current ++ [n]) = some .directory → P budget rest (current ++ [n])) →
      (∀ target left, kind (current ++ [n]) = some (.link target) → budget = left + 1 →
        P left (target.components ++ rest) (target.base current)) →
      P budget (.name n :: rest) current)
    (budget : Nat) (cs : List (Component Name)) (current : Path Name) : P budget cs current := by
  induction budget generalizing cs current with
  | zero =>
    induction cs generalizing current with
    | nil => exact nil 0 current
    | cons c cs ih =>
      cases c with
      | up => exact up 0 cs current (ih _)
      | name n => exact name 0 n cs current (fun _ => ih _) (fun _ _ _ h => by omega)
  | succ budget ih' =>
    induction cs generalizing current with
    | nil => exact nil _ current
    | cons c cs ih =>
      cases c with
      | up => exact up _ cs current (ih _)
      | name n =>
        refine name _ n cs current (fun _ => ih _) fun target left _ h => ?_
        rw [← Nat.succ.inj h]
        exact ih' _ _

omit [DecidableEq Name] in
theorem resolve_append {budget : Nat} {cs : List (Component Name)} {current d : Path Name}
    (h : resolve kind budget cs current = .ok d) (hd : kind d = some .directory) :
    ∃ left, left ≤ budget ∧
      ∀ ds, resolve kind budget (cs ++ ds) current = resolve kind left ds d := by
  induction budget, cs, current using resolve_induction kind with
  | nil budget current =>
    simp only [resolve_nil, Except.ok.injEq] at h
    exact ⟨budget, Nat.le_refl _, fun ds => by rw [h, List.nil_append]⟩
  | up budget rest current ih =>
    simp only [resolve_up, List.cons_append] at h ⊢
    exact ih h
  | name budget n rest current ihdir ihlink =>
    simp only [resolve_name, List.cons_append] at h ⊢
    cases hk : kind (current ++ [n]) with
    | none => simp [hk, afterName] at h
    | some k =>
      cases k with
      | file content =>
        simp only [hk, afterName] at h
        split at h
        · cases h
          simp [hd] at hk
        · cases h
      | directory =>
        simp only [hk, afterName] at h ⊢
        exact ihdir hk h
      | link target =>
        cases budget with
        | zero => simp [hk, afterName] at h
        | succ budget =>
          simp only [hk, afterName, ← List.append_assoc] at h ⊢
          obtain ⟨left, hleft, heq⟩ := ihlink target budget hk rfl h
          exact ⟨left, Nat.le_succ_of_le hleft, heq⟩

omit [DecidableEq Name] in
theorem resolve_mono {budget more : Nat} (hmore : budget ≤ more) {cs : List (Component Name)}
    {current x : Path Name} (h : resolve kind budget cs current = .ok x) :
    resolve kind more cs current = .ok x := by
  induction budget, cs, current using resolve_induction kind generalizing more with
  | nil budget current => simpa using h
  | up budget rest current ih =>
    rw [resolve_up] at h ⊢
    exact ih hmore h
  | name budget n rest current ihdir ihlink =>
    rw [resolve_name] at h ⊢
    cases hk : kind (current ++ [n]) with
    | none => simp [hk, afterName] at h
    | some k =>
      cases k with
      | file content => simpa only [hk, afterName] using h
      | directory =>
        simp only [hk, afterName] at h ⊢
        exact ihdir hk hmore h
      | link target =>
        cases budget with
        | zero => simp [hk, afterName] at h
        | succ budget =>
          obtain ⟨more, rfl⟩ : ∃ m, more = m + 1 := ⟨more - 1, by omega⟩
          simp only [hk, afterName] at h ⊢
          exact ihlink target budget hk rfl (Nat.le_of_succ_le_succ hmore) h

omit [DecidableEq Name] in
theorem resolve_of_subset (hsub : ∀ q k, kind' q = some k → kind q = some k) {budget : Nat}
    {cs : List (Component Name)} {current x : Path Name}
    (h : resolve kind' budget cs current = .ok x) : resolve kind budget cs current = .ok x := by
  induction budget, cs, current using resolve_induction kind' with
  | nil budget current => simpa using h
  | up budget rest current ih =>
    rw [resolve_up] at h ⊢
    exact ih h
  | name budget n rest current ihdir ihlink =>
    rw [resolve_name] at h ⊢
    cases hk : kind' (current ++ [n]) with
    | none => simp [hk, afterName] at h
    | some k =>
      rw [hsub _ _ hk]
      cases k with
      | file content => simpa only [hk, afterName] using h
      | directory =>
        simp only [hk, afterName] at h ⊢
        exact ihdir hk h
      | link target =>
        cases budget with
        | zero => simp [hk, afterName] at h
        | succ budget =>
          simp only [hk, afterName] at h ⊢
          exact ihlink target budget hk rfl h

end Walks

variable {fs : FileTree Name Content}

theorem resolve_down {budget : Nat} {p current : Path Name} (cs : List (Component Name))
    (h : fs.kind (current ++ p) = some .directory) :
    resolve fs.kind budget (components p ++ cs) current =
      resolve fs.kind budget cs (current ++ p) := by
  induction p generalizing current with
  | nil => simp [components]
  | cons n p ih =>
    have hsplit : current ++ n :: p = current ++ [n] ++ p := by simp
    have hdir : fs.kind (current ++ [n]) = some .directory := by
      by_cases hp : p = []
      · simpa [hp] using h
      · exact kind_above hp (by rw [← hsplit, h]; simp)
    rw [hsplit] at h ⊢
    have hstep := ih h
    simpa only [components, List.map_cons, List.cons_append, resolve_name, hdir, afterName]
      using hstep

theorem realPath_of_directory {p : Path Name} (h : fs.kind p = some .directory) :
    fs.realPath p = .ok p := by
  have hdown : resolve fs.kind linkLimit (components p ++ []) [] =
      resolve fs.kind linkLimit [] ([] ++ p) := resolve_down [] h
  simpa [realPath] using hdown

theorem locate_append {p l : Path Name} {n : Name} :
    fs.locate (p ++ [n]) = .ok l ↔
      ∃ d, fs.realPath p = .ok d ∧ fs.kind d = some .directory ∧ fs.kind (d ++ [n]) ≠ none ∧
        l = d ++ [n] := by
  simp only [locate, List.getLast?_concat, List.dropLast_concat]
  cases hreal : fs.realPath p with
  | error e => simp
  | ok d =>
    simp only [Except.ok.injEq, exists_eq_left', ne_eq]
    cases hd : fs.kind d with
    | none => simp
    | some k =>
      cases k with
      | file content => simp
      | link target => simp
      | directory =>
        cases hn : fs.kind (d ++ [n]) with
        | none => simp
        | some k' => simp [eq_comm]

theorem locate_physical {p : Path Name} (h : fs.kind p ≠ none) : fs.locate p = .ok p := by
  rcases List.eq_nil_or_concat' p with rfl | ⟨q, n, rfl⟩
  · simp [locate]
  · have hdir := kind_parent h
    exact locate_append.mpr ⟨q, realPath_of_directory hdir, hdir, h, rfl⟩

theorem kind_of_locate {p l : Path Name} (h : fs.locate p = .ok l) : fs.kind l ≠ none := by
  rcases List.eq_nil_or_concat' p with rfl | ⟨q, n, rfl⟩
  · simp only [locate, List.getLast?_nil, Except.ok.injEq] at h
    simp [← h]
  · obtain ⟨d, -, -, hkind, rfl⟩ := locate_append.mp h
    exact hkind

theorem realPath_of_locate {p l x : Path Name} (hlocate : fs.locate p = .ok l)
    (hreal : fs.realPath p = .ok x) : fs.realPath l = .ok x := by
  rcases List.eq_nil_or_concat' p with rfl | ⟨q, n, rfl⟩
  · simp only [locate, List.getLast?_nil, Except.ok.injEq] at hlocate
    rwa [← hlocate]
  · obtain ⟨d, hq, hd, -, rfl⟩ := locate_append.mp hlocate
    obtain ⟨left, hleft, hrest⟩ := resolve_append hq hd
    have hlast : resolve fs.kind left [.name n] d = .ok x := by
      rw [← hrest]
      simpa [realPath, components] using hreal
    have hdown : fs.realPath (d ++ [n]) = resolve fs.kind linkLimit [.name n] d := by
      have hdown : resolve fs.kind linkLimit (components d ++ [.name n]) [] =
          resolve fs.kind linkLimit [.name n] ([] ++ d) := resolve_down [.name n] hd
      simpa [realPath, components] using hdown
    rw [hdown]
    exact resolve_mono hleft hlast

theorem stat_eq_true {p : Path Name} :
    fs.stat p = .ok true ↔ ∃ x, fs.realPath p = .ok x ∧ fs.kind x = some .directory := by
  simp only [stat]
  cases hreal : fs.realPath p with
  | error e => simp
  | ok x =>
    cases hk : fs.kind x with
    | none => simp [hk]
    | some k => cases k <;> simp [hk]

theorem stat_eq_false {p : Path Name} :
    fs.stat p = .ok false ↔
      ∃ x k, fs.realPath p = .ok x ∧ fs.kind x = some k ∧ k ≠ .directory := by
  simp only [stat]
  cases hreal : fs.realPath p with
  | error e => simp
  | ok x =>
    cases hk : fs.kind x with
    | none => simp [hk]
    | some k => cases k <;> simp [hk]

theorem kind_dropLast {p : Path Name} (h : fs.kind p = some .directory) :
    fs.kind p.dropLast = some .directory := by
  rcases List.eq_nil_or_concat' p with rfl | ⟨q, n, rfl⟩
  · exact h
  · rw [List.dropLast_concat]
    exact kind_parent (by rw [h]; simp)

theorem resolve_last {budget : Nat} {cs : List (Component Name)} {n : Name}
    {current x : Path Name} (hcurrent : fs.kind current = some .directory)
    (h : resolve fs.kind budget (cs ++ [.name n]) current = .ok x) :
    ∃ d, resolve fs.kind budget cs current = .ok d ∧ fs.kind d = some .directory ∧
      fs.kind (d ++ [n]) ≠ none := by
  induction budget, cs, current using resolve_induction fs.kind with
  | nil budget current =>
    refine ⟨current, resolve_nil budget current, hcurrent, fun hnone => ?_⟩
    simp [resolve_name, hnone, afterName] at h
  | up budget rest current ih =>
    simp only [resolve_up, List.cons_append] at h ⊢
    exact ih (kind_dropLast hcurrent) h
  | name budget m rest current ihdir ihlink =>
    simp only [resolve_name, List.cons_append] at h ⊢
    cases hk : fs.kind (current ++ [m]) with
    | none => simp [hk, afterName] at h
    | some k =>
      cases k with
      | file content => simp [hk, afterName] at h
      | directory =>
        simp only [hk, afterName] at h ⊢
        exact ihdir hk hk h
      | link target =>
        cases budget with
        | zero => simp [hk, afterName] at h
        | succ budget =>
          simp only [hk, afterName, ← List.append_assoc] at h ⊢
          refine ihlink target budget hk rfl ?_ h
          cases habsolute : target.absolute <;> simp [Target.base, habsolute, hcurrent]

theorem locate_of_realPath {p x : Path Name} (h : fs.realPath p = .ok x) :
    ∃ e, fs.locate p = .ok e := by
  rcases List.eq_nil_or_concat' p with rfl | ⟨q, n, rfl⟩
  · exact ⟨[], by simp [locate]⟩
  · have hwalk : resolve fs.kind linkLimit (components q ++ [.name n]) [] = .ok x := by
      simpa [realPath, components] using h
    obtain ⟨d, hq, hd, hn⟩ := resolve_last fs.kind_root hwalk
    exact ⟨d ++ [n], locate_append.mpr ⟨d, hq, hd, hn, rfl⟩⟩

theorem realPath_of_located {p e : Path Name} {k : Kind Name Content} (h : fs.locate p = .ok e)
    (hk : fs.kind e = some k) (hlink : ∀ target, k ≠ .link target) : fs.realPath p = .ok e := by
  rcases List.eq_nil_or_concat' p with rfl | ⟨q, n, rfl⟩
  · simp only [locate, List.getLast?_nil, Except.ok.injEq] at h
    simp [realPath, components, ← h]
  · obtain ⟨d, hq, hd, -, rfl⟩ := locate_append.mp h
    obtain ⟨left, -, hrest⟩ := resolve_append hq hd
    have hlast : fs.realPath (q ++ [n]) = resolve fs.kind left [.name n] d := by
      rw [← hrest]
      simp [realPath, components]
    rw [hlast, resolve_name, hk]
    cases k with
    | file content => rfl
    | directory => simp [afterName]
    | link target => exact absurd rfl (hlink target)

theorem stat_of_directory {p e : Path Name} (h : fs.realPath p = .ok e)
    (hk : fs.kind e = some .directory) : fs.stat p = .ok true :=
  stat_eq_true.mpr ⟨e, h, hk⟩

theorem readDir_of_directory {p e : Path Name} (h : fs.realPath p = .ok e)
    (hk : fs.kind e = some .directory) : fs.readDir p = .ok (fs.names e) := by
  simp [readDir, h, hk]

theorem stat_of_located_file {p e : Path Name} {content : Content} (h : fs.locate p = .ok e)
    (hk : fs.kind e = some (.file content)) : fs.stat p = .ok false :=
  stat_eq_false.mpr ⟨e, _, realPath_of_located h hk (by simp), hk, by simp⟩

theorem stat_of_locate {p l : Path Name} (hlocate : fs.locate p = .ok l)
    (h : fs.stat p = .ok false) : fs.stat l = .ok false := by
  obtain ⟨x, k, hreal, hk, hne⟩ := stat_eq_false.mp h
  exact stat_eq_false.mpr ⟨x, k, realPath_of_locate hlocate hreal, hk, hne⟩

theorem stat_of_stat_erase {p q : Path Name} (h : (fs.erase q).stat p = .ok false) :
    fs.stat p = .ok false := by
  obtain ⟨x, k, hreal, hk, hne⟩ := stat_eq_false.mp h
  exact stat_eq_false.mpr
    ⟨x, k, resolve_of_subset (fun _ _ => kind_of_kind_erase) hreal, kind_of_kind_erase hk, hne⟩

/-- `e` can be removed by itself. -/
def Leaf (fs : FileTree Name Content) (e : Path Name) : Prop :=
  e ≠ [] ∧ ∀ q, q ≠ [] → fs.kind (e ++ q) = none

theorem leaf_of_not_directory {e : Path Name} (h : fs.kind e ≠ some .directory) : fs.Leaf e := by
  refine ⟨fun he => h (by rw [he, kind_root]), fun q hq => ?_⟩
  by_contra hne
  exact h (kind_above hq hne)

theorem leaf_of_names {e : Path Name} (he : e ≠ []) (h : fs.names e = []) : fs.Leaf e := by
  refine ⟨he, fun q hq => ?_⟩
  obtain ⟨n, q, rfl⟩ := List.exists_cons_of_ne_nil hq
  have hnone : fs.kind (e ++ [n]) = none := by
    by_contra hne
    simpa [h] using mem_names.mpr hne
  by_contra hne
  by_cases hq' : q = []
  · exact hne (by rw [hq', hnone])
  · rw [List.append_cons] at hne
    simp [kind_above hq' hne] at hnone

theorem removeDirectory_eq_ok {p : Path Name} {fs' : FileTree Name Content} :
    fs.removeDirectory p = .ok fs' ↔
      ∃ e, fs.locate p = .ok e ∧ fs.kind e = some .directory ∧ e ≠ [] ∧ fs.names e = [] ∧
        fs' = fs.erase e := by
  simp only [removeDirectory]
  cases hlocate : fs.locate p with
  | error err => simp
  | ok e =>
    cases hk : fs.kind e with
    | none => simp [hk]
    | some k =>
      cases k with
      | file content => simp [hk]
      | link target => simp [hk]
      | directory =>
        simp only [Except.ok.injEq, exists_eq_left', hk, true_and]
        split
        · next h => simp [h, eq_comm]
        · next h => simpa using fun hne hnames => absurd ⟨hne, hnames⟩ h

theorem remove_eq_ok {p : Path Name} {fs' : FileTree Name Content} (h : fs.remove p = .ok fs') :
    ∃ e, fs.locate p = .ok e ∧ fs.Leaf e ∧ fs' = fs.erase e := by
  simp only [remove] at h
  cases hlocate : fs.locate p with
  | error err => simp [hlocate] at h
  | ok e =>
    simp only [hlocate] at h
    cases hk : fs.kind e with
    | none => simp [hk] at h
    | some k =>
      cases k with
      | file content =>
        simp only [hk, Except.ok.injEq] at h
        exact ⟨e, rfl, leaf_of_not_directory (by simp [hk]), h.symm⟩
      | link target =>
        simp only [hk, Except.ok.injEq] at h
        exact ⟨e, rfl, leaf_of_not_directory (by simp [hk]), h.symm⟩
      | directory =>
        simp only [hk] at h
        obtain ⟨e', he', -, hne, hnames, rfl⟩ := removeDirectory_eq_ok.mp h
        rw [hlocate] at he'
        obtain rfl := Except.ok.inj he'
        exact ⟨e, rfl, leaf_of_names hne hnames, rfl⟩

theorem remove_of_located {p e : Path Name} {k : Kind Name Content} (h : fs.locate p = .ok e)
    (hk : fs.kind e = some k) (hne : k ≠ .directory) : fs.remove p = .ok (fs.erase e) := by
  cases k with
  | file content => simp [remove, h, hk]
  | link target => simp [remove, h, hk]
  | directory => exact absurd rfl hne

end Dolgate.FileTree
