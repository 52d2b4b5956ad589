import Mathlib.Data.List.Induction
import Mathlib.Data.List.Nodup

set_option autoImplicit false

/-! A file system as a finite map from physical paths to files, directories and symbolic links. -/

namespace Dolgate

variable {Name Content : Type}

namespace FileTree

/-- A part of the text of a link: a name or `..`. -/
inductive Component (Name : Type) where
  | up
  | name (n : Name)
deriving DecidableEq, Repr

/-- What a symbolic link says. A relative one starts at the directory that holds the link. -/
structure Target (Name : Type) where
  absolute : Bool
  components : List (Component Name)
deriving DecidableEq, Repr

def Target.base (t : Target Name) (directory : List Name) : List Name :=
  if t.absolute then [] else directory

inductive Kind (Name Content : Type) where
  | file (content : Content)
  | directory
  | link (target : Target Name)
deriving DecidableEq, Repr

inductive PathError where
  | notExist
  | notDirectory
  | isDirectory
  | notEmpty
  | loop
deriving DecidableEq, Repr

end FileTree

open FileTree

/-- The root `[]` is a directory and no entry. What holds an entry is a directory. -/
@[ext] structure FileTree (Name Content : Type) where
  entries : List (List Name × Kind Name Content)
  distinct : (entries.map Prod.fst).Nodup
  closed : ∀ e ∈ entries,
    e.1 ≠ [] ∧ (e.1.dropLast = [] ∨ (e.1.dropLast, Kind.directory) ∈ entries)

namespace FileTree

variable [DecidableEq Name]

def kind (fs : FileTree Name Content) (p : List Name) : Option (Kind Name Content) :=
  if p = [] then some .directory else (fs.entries.find? fun e => e.1 = p).map Prod.snd

@[simp] theorem kind_root (fs : FileTree Name Content) : fs.kind [] = some .directory := by
  simp [kind]

theorem kind_eq_some {fs : FileTree Name Content} {p : List Name} {k : Kind Name Content}
    (hp : p ≠ []) : fs.kind p = some k ↔ (p, k) ∈ fs.entries := by
  simp only [kind, if_neg hp, Option.map_eq_some_iff]
  constructor
  · rintro ⟨e, hfind, rfl⟩
    have he : e.1 = p := by simpa using List.find?_some hfind
    exact he ▸ List.mem_of_find?_eq_some hfind
  · intro hmem
    cases hfind : fs.entries.find? fun e => decide (e.1 = p) with
    | none =>
      have := List.find?_eq_none.mp hfind _ hmem
      simp at this
    | some e =>
      have he : e.1 = p := by simpa using List.find?_some hfind
      have : e = (p, k) :=
        List.inj_on_of_nodup_map fs.distinct (List.mem_of_find?_eq_some hfind) hmem he
      exact ⟨e, rfl, by rw [this]⟩

theorem kind_eq_none {fs : FileTree Name Content} {p : List Name} (hp : p ≠ []) :
    fs.kind p = none ↔ ∀ k, (p, k) ∉ fs.entries := by
  rw [Option.eq_none_iff_forall_ne_some]
  exact forall_congr' fun k => not_congr (kind_eq_some hp)

theorem kind_parent {fs : FileTree Name Content} {p : List Name} {n : Name}
    (h : fs.kind (p ++ [n]) ≠ none) : fs.kind p = some .directory := by
  obtain ⟨k, hk⟩ := Option.ne_none_iff_exists'.mp h
  have hclosed := (fs.closed _ ((kind_eq_some (by simp)).mp hk)).2
  simp only [List.dropLast_concat] at hclosed
  rcases hclosed with rfl | hdir
  · exact fs.kind_root
  · exact (kind_eq_some (fs.closed _ hdir).1).mpr hdir

theorem kind_above {fs : FileTree Name Content} {p q : List Name} (hq : q ≠ [])
    (h : fs.kind (p ++ q) ≠ none) : fs.kind p = some .directory := by
  induction q using List.reverseRecOn with
  | nil => exact absurd rfl hq
  | append_singleton q n ih =>
    rw [← List.append_assoc] at h
    have hdir := kind_parent h
    by_cases hnil : q = []
    · simpa [hnil] using hdir
    · exact ih hnil (by rw [hdir]; simp)

/-- The name of an entry of the directory `p`. -/
def childName (p q : List Name) : Option Name :=
  if q.dropLast = p then q.getLast? else none

theorem childName_eq_some {p q : List Name} {n : Name} :
    childName p q = some n ↔ q = p ++ [n] := by
  constructor
  · intro h
    simp only [childName, Option.ite_none_right_eq_some] at h
    obtain ⟨hdrop, hlast⟩ := h
    rw [← hdrop]
    exact (List.dropLast_append_getLast? _ hlast).symm
  · rintro rfl
    simp [childName]

def names (fs : FileTree Name Content) (p : List Name) : List Name :=
  (fs.entries.map Prod.fst).filterMap (childName p)

theorem mem_names {fs : FileTree Name Content} {p : List Name} {n : Name} :
    n ∈ fs.names p ↔ fs.kind (p ++ [n]) ≠ none := by
  have hne : p ++ [n] ≠ [] := by simp
  simp only [names, List.mem_filterMap, childName_eq_some, Ne, kind_eq_none hne, List.mem_map]
  constructor
  · rintro ⟨q, ⟨e, he, rfl⟩, hq⟩ hnone
    exact hnone e.2 (hq ▸ he)
  · intro h
    obtain ⟨k, hk⟩ := not_forall.mp h
    exact ⟨_, ⟨_, not_not.mp hk, rfl⟩, rfl⟩

theorem names_nodup (fs : FileTree Name Content) (p : List Name) : (fs.names p).Nodup := by
  refine fs.distinct.filterMap fun q q' n hq hq' => ?_
  rw [childName_eq_some.mp hq, childName_eq_some.mp hq']

/-- The file system without `p` and what lies below it. -/
def erase (fs : FileTree Name Content) (p : List Name) : FileTree Name Content where
  entries := fs.entries.filter fun e => ¬ p <+: e.1
  distinct := fs.distinct.sublist ((List.filter_sublist).map _)
  closed e h := by
    simp only [List.mem_filter, decide_not, Bool.not_eq_true', decide_eq_false_iff_not] at h ⊢
    obtain ⟨hne, hdir⟩ := fs.closed e h.1
    refine ⟨hne, hdir.imp_right fun hmem => ⟨hmem, fun hpe => h.2 ?_⟩⟩
    exact hpe.trans (List.dropLast_prefix e.1)

theorem kind_erase (fs : FileTree Name Content) (p : List Name) {q : List Name} (hq : q ≠ []) :
    (fs.erase p).kind q = if p <+: q then none else fs.kind q := by
  split
  · next hpq =>
    rw [kind_eq_none hq]
    simp [erase, hpq]
  · next hpq =>
    ext k
    rw [kind_eq_some hq, kind_eq_some hq]
    simp [erase, hpq]

theorem kind_erase_of_not_below (fs : FileTree Name Content) {p q : List Name} (h : ¬ p <+: q) :
    (fs.erase p).kind q = fs.kind q := by
  by_cases hq : q = []
  · rw [hq, kind_root, kind_root]
  · rw [kind_erase fs p hq, if_neg h]

theorem kind_erase_below (fs : FileTree Name Content) {p q : List Name} (hp : p ≠ [])
    (h : p <+: q) : (fs.erase p).kind q = none := by
  rw [kind_erase fs p, if_pos h]
  rintro rfl
  exact hp (List.prefix_nil.mp h)

theorem kind_of_kind_erase {fs : FileTree Name Content} {p q : List Name} {k : Kind Name Content}
    (h : (fs.erase p).kind q = some k) : fs.kind q = some k := by
  by_cases hq : q = []
  · rw [hq, kind_root] at h ⊢
    exact h
  · rw [kind_erase fs p hq] at h
    exact (Option.ite_none_left_eq_some.mp h).2

theorem erase_erase {fs : FileTree Name Content} {p q : List Name} (h : p <+: q) :
    (fs.erase q).erase p = fs.erase p := by
  ext1
  simp only [erase, List.filter_filter]
  refine List.filter_congr fun e _ => ?_
  by_cases hpe : p <+: e.1
  · simp [hpe]
  · have : ¬ q <+: e.1 := fun hqe => hpe (h.trans hqe)
    simp [hpe, this]

end FileTree
end Dolgate
