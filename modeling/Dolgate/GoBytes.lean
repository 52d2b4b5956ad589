import Mathlib.Data.List.Infix
import Mathlib.Data.List.TakeDrop
import Mathlib.Tactic.SplitIfs
import Mathlib.Order.Basic

set_option autoImplicit false

/-! Byte strings as Go's packages `bytes` and `strings` treat them. -/

namespace Dolgate.GoBytes

def ascii (text : String) : List UInt8 := text.toList.map fun c => UInt8.ofNat c.toNat

def hasPrefix (s start : List UInt8) : Bool := start.isPrefixOf s

def trimSuffix (s last : List UInt8) : List UInt8 :=
  if last.isSuffixOf s then s.take (s.length - last.length) else s

def indexByte (s : List UInt8) (b : UInt8) : Option Nat := s.findIdx? fun c => c == b

/-- Where `sub` first begins in `s`. -/
def index (s sub : List UInt8) : Option Nat :=
  if hasPrefix s sub then some 0
  else
    match s with
    | [] => none
    | _ :: rest => (index rest sub).map fun i => i + 1

/-- The UTF-8 encodings of the characters that `unicode.IsSpace` accepts. None begins inside the
encoding of another character, so that they can be looked for at every byte. -/
def whiteSpace : List (List UInt8) :=
  [[9], [10], [11], [12], [13], [32], [0xC2, 0x85], [0xC2, 0xA0], [0xE1, 0x9A, 0x80]] ++
    (List.range 11).map (fun i => [0xE2, 0x80, UInt8.ofNat (0x80 + i)]) ++
    [[0xE2, 0x80, 0xA8], [0xE2, 0x80, 0xA9], [0xE2, 0x80, 0xAF], [0xE2, 0x81, 0x9F],
      [0xE3, 0x80, 0x80]]

/-- The length of the white space character that `s` begins with. -/
def leadingSpace (s : List UInt8) : Nat :=
  ((whiteSpace.find? fun space => space.isPrefixOf s).map List.length).getD 0

def trailingSpace (s : List UInt8) : Nat :=
  ((whiteSpace.find? fun space => space.isSuffixOf s).map List.length).getD 0

def trimLeft (s : List UInt8) : List UInt8 :=
  if s = [] ∨ leadingSpace s = 0 then s else trimLeft (s.drop (leadingSpace s))
termination_by s.length
decreasing_by
  rename_i h
  have := List.length_pos_iff.mpr (not_or.mp h).1
  simp only [List.length_drop]
  omega

def trimRight (s : List UInt8) : List UInt8 :=
  if s = [] ∨ trailingSpace s = 0 then s else trimRight (s.take (s.length - trailingSpace s))
termination_by s.length
decreasing_by
  rename_i h
  have := List.length_pos_iff.mpr (not_or.mp h).1
  simp only [List.length_take]
  omega

def trimSpace (s : List UInt8) : List UInt8 := trimRight (trimLeft s)

/-- The rest of the fields, the first of which has begun with `field`. -/
def fieldsFrom (field s : List UInt8) : List (List UInt8) :=
  match s with
  | [] => if field = [] then [] else [field]
  | b :: rest =>
      if leadingSpace (b :: rest) = 0 then fieldsFrom (field ++ [b]) rest
      else if field = [] then fieldsFrom [] ((b :: rest).drop (leadingSpace (b :: rest)))
      else field :: fieldsFrom [] ((b :: rest).drop (leadingSpace (b :: rest)))
termination_by s.length
decreasing_by
  all_goals simp only [List.length_drop, List.length_cons]
  all_goals omega

def fields (s : List UInt8) : List (List UInt8) := fieldsFrom [] s

theorem hasPrefix_append {s start : List UInt8} (h : hasPrefix s start) (rest : List UInt8) :
    hasPrefix (s ++ rest) start := by
  simp only [hasPrefix, List.isPrefixOf_iff_prefix] at h ⊢
  exact h.trans ( List.prefix_append s rest)

theorem mem_ascii_repr {n : Nat} {b : UInt8} (h : b ∈ ascii n.repr) : 48 ≤ b ∧ b ≤ 57 := by
  simp only [ascii, Nat.toList_repr, List.mem_map] at h
  obtain ⟨c, hc, rfl⟩ := h
  have hdigit := Nat.isDigit_of_mem_toDigits (by decide) (by decide) hc
  simp only [Char.isDigit, Bool.and_eq_true, decide_eq_true_eq] at hdigit
  have hlow : 48 ≤ c.toNat := hdigit.1
  have hhigh : c.toNat ≤ 57 := hdigit.2
  simp only [UInt8.le_iff_toNat_le, UInt8.toNat_ofNat']
  constructor
  · show 48 ≤ c.toNat % 256
    omega
  · show c.toNat % 256 ≤ 57
    omega

theorem indexByte_none {s : List UInt8} {b : UInt8} : indexByte s b = none ↔ b ∉ s := by
  simp only [indexByte, List.findIdx?_eq_none_iff, beq_eq_false_iff_ne, ne_eq]
  exact ⟨fun h hb => h b hb rfl, fun h c hc hcb => h (hcb ▸ hc)⟩

theorem indexByte_append {s rest : List UInt8} {b : UInt8} (h : b ∉ s) :
    indexByte (s ++ b :: rest) b = some s.length := by
  have hs : indexByte s b = none := indexByte_none.mpr h
  unfold indexByte at hs ⊢
  rw [List.findIdx?_append, hs, List.findIdx?_cons, if_pos (by simp)]
  simp

theorem indexByte_lt {s : List UInt8} {b : UInt8} {i : Nat} (h : indexByte s b = some i) :
    i < s.length := by
  obtain ⟨hi, -⟩ := List.findIdx?_eq_some_iff_getElem.mp h
  exact hi

theorem index_append {s rest : List UInt8} {b : UInt8} (sub : List UInt8) (h : b ∉ s) :
    index (s ++ (b :: sub ++ rest)) (b :: sub) = some s.length := by
  induction s with
  | nil =>
      unfold index
      simp [hasPrefix]
  | cons c s ih =>
      have hcb : b ≠ c := fun hcb => h (by simp [hcb])
      have hrest := ih fun hb => h (List.mem_cons_of_mem c hb)
      unfold index
      rw [List.cons_append, if_neg (by simp [hasPrefix, hcb])]
      simp only [hrest, Option.map_some, List.length_cons]

theorem index_length {s sub : List UInt8} {i : Nat} (h : index s sub = some i) :
    i + sub.length ≤ s.length := by
  induction s generalizing i with
  | nil =>
      unfold index at h
      split at h
      · rename_i hsub
        cases h
        simpa [hasPrefix] using hsub
      · cases h
  | cons b s ih =>
      unfold index at h
      split at h
      · rename_i hsub
        cases h
        simp only [hasPrefix, List.isPrefixOf_iff_prefix] at hsub
        simpa using hsub.length_le
      · obtain ⟨j, hj, rfl⟩ := Option.map_eq_some_iff.mp h
        have := ih hj
        simp only [List.length_cons]
        omega

theorem index_append_right {s sub : List UInt8} {i : Nat} (h : index s sub = some i)
    (rest : List UInt8) : index (s ++ rest) sub = some i := by
  induction s generalizing i with
  | nil =>
      unfold index at h
      split at h
      · rename_i hsub
        cases h
        unfold index
        rw [if_pos (hasPrefix_append hsub rest)]
      · cases h
  | cons b s ih =>
      unfold index at h
      split at h
      · rename_i hsub
        cases h
        unfold index
        rw [if_pos (hasPrefix_append hsub rest)]
      · rename_i hsub
        obtain ⟨j, hj, rfl⟩ := Option.map_eq_some_iff.mp h
        have hlen := index_length hj
        have hno : ¬ hasPrefix (b :: s ++ rest) sub = true := fun hp => by
          simp only [hasPrefix, List.isPrefixOf_iff_prefix] at hp hsub
          exact hsub ( List.prefix_of_prefix_length_le hp ( List.prefix_append (b :: s) rest)
            (by simp only [List.length_cons]; omega))
        unfold index
        rw [if_neg hno]
        simp only [List.cons_append, ih hj, Option.map_some]

theorem trimSuffix_append {s last : List UInt8} : trimSuffix (s ++ last) last = s := by
  rw [trimSuffix, if_pos (by simp)]
  simp

theorem trimSuffix_of_not_mem {s : List UInt8} {b : UInt8} (h : b ∉ s) : trimSuffix s [b] = s := by
  rw [trimSuffix, if_neg]
  intro hs
  rw [List.isSuffixOf_iff_suffix] at hs
  exact h (hs.mem (by simp))

theorem leadingSpace_eq_zero_iff {s : List UInt8} :
    leadingSpace s = 0 ↔ ∀ space ∈ whiteSpace, ¬ space <+: s := by
  have hpos : ∀ space ∈ whiteSpace, space.length ≠ 0 := by decide
  cases hfind : whiteSpace.find? fun space => space.isPrefixOf s with
  | none =>
      rw [List.find?_eq_none] at hfind
      rw [leadingSpace, List.find?_eq_none.mpr hfind]
      simpa using hfind
  | some space =>
      have hmem := List.mem_of_find?_eq_some hfind
      have hlead := List.find?_some hfind
      rw [leadingSpace, hfind, Option.map_some, Option.getD_some]
      exact ⟨fun hzero => absurd hzero (hpos space hmem), fun hnone =>
        absurd (List.isPrefixOf_iff_prefix.mp hlead) (hnone space hmem)⟩

theorem trimLeft_length_le (s : List UInt8) : (trimLeft s).length ≤ s.length := by
  fun_induction trimLeft s with
  | case1 s h => exact le_rfl
  | case2 s h ih =>
      rw [List.length_drop] at ih
      omega

theorem trimRight_length_le (s : List UInt8) : (trimRight s).length ≤ s.length := by
  fun_induction trimRight s with
  | case1 s h => exact le_rfl
  | case2 s h ih =>
      rw [List.length_take] at ih
      omega

theorem trimLeft_of_leadingSpace {s : List UInt8} (h : leadingSpace s = 0) : trimLeft s = s := by
  rw [trimLeft, if_pos (.inr h)]

theorem leadingSpace_of_trimSpace {s : List UInt8} (h : trimSpace s = s) (hne : s ≠ []) :
    leadingSpace s = 0 := by
  by_contra hspace
  have hpos := List.length_pos_iff.mpr hne
  have hright := trimRight_length_le (trimLeft s)
  have hleft := trimLeft_length_le (s.drop (leadingSpace s))
  rw [← trimSpace, h, trimLeft, if_neg (not_or.mpr ⟨hne, hspace⟩)] at hright
  rw [List.length_drop] at hleft
  omega

theorem trailingSpace_eq_zero_iff {s : List UInt8} :
    trailingSpace s = 0 ↔ ∀ space ∈ whiteSpace, ¬ space <:+ s := by
  have hpos : ∀ space ∈ whiteSpace, space.length ≠ 0 := by decide
  cases hfind : whiteSpace.find? fun space => space.isSuffixOf s with
  | none =>
      rw [List.find?_eq_none] at hfind
      rw [trailingSpace, List.find?_eq_none.mpr hfind]
      simpa using hfind
  | some space =>
      have hmem := List.mem_of_find?_eq_some hfind
      have hlast := List.find?_some hfind
      rw [trailingSpace, hfind, Option.map_some, Option.getD_some]
      exact ⟨fun hzero => absurd hzero (hpos space hmem), fun hnone =>
        absurd (List.isSuffixOf_iff_suffix.mp hlast) (hnone space hmem)⟩

theorem trailingSpace_append_single {b : UInt8} (hspace : [b] ∈ whiteSpace)
    (honly : ∀ space ∈ whiteSpace, space.getLast? = some b → space = [b]) (s : List UInt8) :
    trailingSpace (s ++ [b]) = 1 := by
  have hends : ∀ space ∈ whiteSpace, space ≠ [] := by decide
  have hsingle : whiteSpace.find? (fun space => space.isSuffixOf (s ++ [b])) = some [b] := by
    cases hfind : whiteSpace.find? fun space => space.isSuffixOf (s ++ [b]) with
    | none =>
        rw [List.find?_eq_none] at hfind
        exact absurd (List.isSuffixOf_iff_suffix.mpr (List.suffix_append s [b]))
          (hfind [b] hspace)
    | some space =>
        have hmem := List.mem_of_find?_eq_some hfind
        have hsuffix : space.isSuffixOf (s ++ [b]) = true := by
          simpa only using List.find?_some hfind
        obtain ⟨start, hstart⟩ := List.isSuffixOf_iff_suffix.mp hsuffix
        have hlast : space.getLast? = some b := by
          have happend := congrArg List.getLast? hstart
          rwa [List.getLast?_append_of_ne_nil _ (hends space hmem), List.getLast?_concat]
            at happend
        rw [honly space hmem hlast]
  rw [trailingSpace, hsingle]
  rfl

theorem trailingSpace_append_blank (s : List UInt8) : trailingSpace (s ++ [32]) = 1 :=
  trailingSpace_append_single (by decide) (by decide) s

theorem trailingSpace_append_newline (s : List UInt8) : trailingSpace (s ++ [10]) = 1 :=
  trailingSpace_append_single (by decide) (by decide) s

theorem trimRight_append_blanks (s : List UInt8) (n : Nat) :
    trimRight (s ++ List.replicate n 32) = trimRight s := by
  induction n with
  | zero => rw [List.replicate_zero, List.append_nil]
  | succ n ih =>
      have hne : ¬ (s ++ List.replicate n 32 ++ [32] = [] ∨
          trailingSpace (s ++ List.replicate n 32 ++ [32]) = 0) := by
        rw [trailingSpace_append_blank]
        simp
      rw [List.replicate_succ', ← List.append_assoc, trimRight, if_neg hne,
        trailingSpace_append_blank, List.length_append, List.length_singleton,
        Nat.add_sub_cancel, List.take_left, ih]

theorem trimSpace_append_blanks {s : List UInt8} (h : trimSpace s = s) (hlen : 3 ≤ s.length)
    (n : Nat) : trimSpace (s ++ List.replicate n 32) = s := by
  have hshort : ∀ space ∈ whiteSpace, space.length ≤ 3 := by decide
  have hne : s ≠ [] := List.ne_nil_of_length_pos (by omega)
  have hleft := leadingSpace_of_trimSpace h hne
  have hpadded : leadingSpace (s ++ List.replicate n 32) = 0 := by
    rw [leadingSpace_eq_zero_iff] at hleft ⊢
    intro space hmem hlead
    exact hleft space hmem (List.prefix_of_prefix_length_le hlead (List.prefix_append s _)
      ((hshort space hmem).trans hlen))
  rw [trimSpace, trimLeft_of_leadingSpace hleft] at h
  rw [trimSpace, trimLeft_of_leadingSpace hpadded, trimRight_append_blanks, h]

end Dolgate.GoBytes
