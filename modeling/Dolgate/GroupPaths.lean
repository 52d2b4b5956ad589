import Dolgate.Segments

set_option autoImplicit false

/-! Group paths. A text is the list of its UTF-16 code units. -/

namespace Dolgate.GroupPaths

open Segments

abbrev Text := List UInt16

instance : LawfulBEq Text := inferInstance

def slash : UInt16 := 47

def isSpace (c : UInt16) : Bool :=
  [9, 10, 11, 12, 13, 32, 0xa0, 0x1680, 0x2028, 0x2029, 0x202f, 0x205f, 0x3000, 0xfeff].contains c ||
    (0x2000 ≤ c && c ≤ 0x200a)

def trim (s : Text) : Text := (s.dropWhile isSpace).rdropWhile isSpace

def normalizeGroupPath (groupPath : Option Text) : Option Text :=
  let normalized := join slash
    ((((groupPath.getD []).splitOn slash).map trim).filter fun segment => segment ≠ [])
  if 0 < normalized.length then some normalized else none

def getParentGroupPath (groupPath : Option Text) : Option Text := do
  let normalized ← normalizeGroupPath groupPath
  if slash ∈ normalized then some (normalized.take (lastIndexOf slash normalized)) else none

def getGroupLabel (groupPath : Text) : Text := ((groupPath.splitOn slash).getLast?).getD []

def isGroupWithinPath (groupPath currentGroupPath : Option Text) : Bool :=
  match currentGroupPath, groupPath with
  | none, _ => true
  | some [], _ => true
  | _, none => false
  | _, some [] => false
  | some current, some path => path == current || (current ++ [slash]).isPrefixOf path

/-- `parent` with a segment under it, before it is normalised. -/
def under (parent : Option Text) (suffix : Text) : Text :=
  match parent with
  | none => suffix
  | some parent => parent ++ slash :: suffix

def stripRemovedGroupSegment (groupPath : Option Text) (removedGroupPath : Text) : Option Text :=
  match normalizeGroupPath groupPath, normalizeGroupPath (some removedGroupPath) with
  | some path, some removed =>
      if isGroupWithinPath (some path) (some removed) then
        let parentPath := getParentGroupPath (some removed)
        if path = removed then parentPath
        else normalizeGroupPath (some (under parentPath (path.drop (removed.length + 1))))
      else some path
  | path, _ => path

def rebaseGroupPath (sourcePath : Option Text) (fromPath : Text) (toPath : Option Text) :
    Option Text :=
  match normalizeGroupPath sourcePath, normalizeGroupPath (some fromPath) with
  | some source, some src =>
      if isGroupWithinPath (some source) (some src) then
        let target := normalizeGroupPath toPath
        if source = src then target
        else normalizeGroupPath (some (under target (source.drop (src.length + 1))))
      else some source
  | source, _ => source

structure Segment (s : Text) : Prop where
  ne_nil : s ≠ []
  slash_not_mem : slash ∉ s
  trimmed : trim s = s

def Normalised (path : Text) : Prop := normalizeGroupPath (some path) = some path

variable {p q : Text} {segs : List Text} {l : Text} {x : Option Text}

theorem mem_of_mem_trim {c : UInt16} {s : Text} (h : c ∈ trim s) : c ∈ s :=
  (List.dropWhile_sublist _).subset ((List.rdropWhile_prefix _ _).subset h)

theorem trim_trim (s : Text) : trim (trim s) = trim s :=
  dropWhile_rdropWhile_idempotent isSpace s

theorem join_ne_nil (hs : ∀ s ∈ segs, Segment s) (hne : segs ≠ []) : join slash segs ≠ [] := by
  cases segs with
  | nil => exact absurd rfl hne
  | cons s rest =>
      have hfirst : s ≠ [] := (hs s List.mem_cons_self).ne_nil
      cases rest with
      | nil => simpa [join_singleton] using hfirst
      | cons s' rest => simp [join_cons]

theorem segments_of_normalize (h : normalizeGroupPath x = some p) :
    ∃ segs, segs ≠ [] ∧ (∀ s ∈ segs, Segment s) ∧ p = join slash segs := by
  unfold normalizeGroupPath at h
  simp only at h
  split at h
  · next hlength =>
    cases h
    refine ⟨_, ?_, ?_, rfl⟩
    · intro hnil
      rw [hnil, join, List.intercalate_nil] at hlength
      cases hlength
    · intro s hs
      obtain ⟨hs, hne⟩ := List.mem_filter.mp hs
      obtain ⟨t, ht, rfl⟩ := List.mem_map.mp hs
      exact ⟨by simpa using hne,
        fun hmem => sep_not_mem_of_mem_splitOn ht (mem_of_mem_trim hmem), trim_trim t⟩
  · cases h

theorem normalised_join (hs : ∀ s ∈ segs, Segment s) (hne : segs ≠ []) :
    Normalised (join slash segs) := by
  have hsplit : (join slash segs).splitOn slash = segs :=
    splitOn_join (fun s h => (hs s h).slash_not_mem) hne
  have htrim : segs.map trim = segs :=
    (List.map_congr_left fun s h => (hs s h).trimmed).trans (List.map_id _)
  have hfilter : segs.filter (fun segment => segment ≠ []) = segs := by
    rw [List.filter_eq_self]
    intro s h
    simpa using (hs s h).ne_nil
  unfold Normalised normalizeGroupPath
  simp only [Option.getD_some, hsplit, htrim, hfilter]
  rw [if_pos (List.length_pos_iff.mpr (join_ne_nil hs hne))]

theorem normalised_of_normalize (h : normalizeGroupPath x = some p) : Normalised p := by
  obtain ⟨segs, hne, hs, rfl⟩ := segments_of_normalize h
  exact normalised_join hs hne

theorem Normalised.segments (h : Normalised p) :
    ∃ segs l, (∀ s ∈ segs, Segment s) ∧ Segment l ∧ p = join slash (segs ++ [l]) := by
  obtain ⟨all, hne, hs, rfl⟩ := segments_of_normalize h
  obtain ⟨segs, l, rfl⟩ := List.eq_nil_or_concat' all |>.resolve_left hne
  exact ⟨segs, l, fun s h => hs s (List.mem_append_left _ h), hs l (by simp), rfl⟩

theorem splitOn_path (hs : ∀ s ∈ segs, Segment s) (hl : Segment l) :
    (join slash (segs ++ [l])).splitOn slash = segs ++ [l] := by
  apply splitOn_join
  · intro s h
    obtain h | h := List.mem_append.mp h
    · exact (hs s h).slash_not_mem
    · obtain rfl := List.mem_singleton.mp h
      exact hl.slash_not_mem
  · simp

theorem normalised_path (hs : ∀ s ∈ segs, Segment s) (hl : Segment l) :
    Normalised (join slash (segs ++ [l])) := by
  apply normalised_join
  · intro s h
    obtain h | h := List.mem_append.mp h
    · exact hs s h
    · obtain rfl := List.mem_singleton.mp h
      exact hl
  · simp

theorem getGroupLabel_path (hs : ∀ s ∈ segs, Segment s) (hl : Segment l) :
    getGroupLabel (join slash (segs ++ [l])) = l := by
  rw [getGroupLabel, splitOn_path hs hl]
  simp

theorem getParentGroupPath_path (hs : ∀ s ∈ segs, Segment s) (hl : Segment l) :
    getParentGroupPath (some (join slash (segs ++ [l]))) =
      if segs = [] then none else some (join slash segs) := by
  unfold getParentGroupPath
  rw [normalised_path hs hl]
  by_cases hnil : segs = []
  · subst hnil
    simp [join_singleton, hl.slash_not_mem]
  · rw [if_neg hnil, join_append hnil (by simp), join_singleton]
    simp [take_lastIndexOf hl.slash_not_mem]

end Dolgate.GroupPaths
