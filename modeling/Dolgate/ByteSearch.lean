import Mathlib
import Dolgate.GoBytes

set_option autoImplicit false

/-! Searching for a marker in a stream of bytes, and the numbers that Go's `strconv` reads. -/

namespace Dolgate.GoBytes

variable {s r w sub : List UInt8} {b : UInt8} {i : Nat}

/-! ### The first occurrence -/

theorem index_eq_none_iff : index s sub = none ↔ ¬ sub <:+: s := by
  induction s with
  | nil =>
      unfold index
      cases sub <;> simp [hasPrefix]
  | cons c s ih =>
      unfold index
      rw [List.infix_cons_iff, ← List.isPrefixOf_iff_prefix]
      by_cases hstart : hasPrefix (c :: s) sub = true
      · rw [if_pos hstart]
        simp only [hasPrefix] at hstart
        simp [hstart]
      · rw [if_neg hstart]
        simp only [hasPrefix] at hstart
        simp [hstart, ih]

theorem prefix_of_index (h : index s sub = some i) : sub <+: s.drop i := by
  induction s generalizing i with
  | nil =>
      unfold index at h
      split at h
      · rename_i hsub
        cases h
        exact List.isPrefixOf_iff_prefix.mp hsub
      · cases h
  | cons c s ih =>
      unfold index at h
      split at h
      · rename_i hsub
        cases h
        exact List.isPrefixOf_iff_prefix.mp hsub
      · obtain ⟨j, hj, rfl⟩ := Option.map_eq_some_iff.mp h
        exact ih hj

/-- The first occurrence in what follows text that holds no occurrence, not even a part of one. -/
theorem index_append_left (h : index (s ++ r) sub = some i) (hle : s.length ≤ i) :
    index r sub = some (i - s.length) := by
  induction s generalizing i with
  | nil => simpa using h
  | cons c s ih =>
      rw [List.cons_append] at h
      unfold index at h
      split at h
      · cases h
        simp at hle
      · obtain ⟨j, hj, rfl⟩ := Option.map_eq_some_iff.mp h
        simp only [List.length_cons, Nat.add_le_add_iff_right] at hle ⊢
        rw [ih hj hle, Nat.add_sub_add_right]

/-- An occurrence that is not in the text read so far begins in the bytes kept of it. -/
theorem length_le_of_index {kept : List UInt8} (h : index (s ++ kept ++ r) sub = some i)
    (hnone : index (s ++ kept) sub = none) (hkept : s = [] ∨ sub.length ≤ kept.length + 1) :
    s.length ≤ i := by
  rcases hkept with rfl | hkept
  · exact Nat.zero_le i
  · by_contra hlt
    have hprefix := prefix_of_index h
    rw [List.drop_append_of_le_length (by simp; omega)] at hprefix
    have hinside : sub <+: (s ++ kept).drop i :=
      List.prefix_of_prefix_length_le hprefix (List.prefix_append _ r) (by simp; omega)
    exact index_eq_none_iff.mp hnone (hinside.isInfix.trans (List.drop_suffix i _).isInfix)

/-- A byte that the marker does not hold parts the text in which it can be found. -/
theorem index_append_cons (hb : b ∉ sub) (hs : ¬ sub <:+: s) :
    index (s ++ b :: r) sub = (index r sub).map fun i => i + (s.length + 1) := by
  induction s with
  | nil =>
      rw [List.nil_append, index, if_neg]
      · rfl
      · intro hstart
        rw [hasPrefix, List.isPrefixOf_iff_prefix] at hstart
        cases sub with
        | nil => exact hs (List.nil_infix)
        | cons c sub =>
            rw [List.cons_prefix_cons] at hstart
            exact hb (by simp [hstart.1])
  | cons c s ih =>
      have hrest : ¬ sub <:+: s := fun h => hs (h.trans (List.suffix_cons c s).isInfix)
      rw [List.cons_append, index, if_neg]
      · simp only [ih hrest, Option.map_map, List.length_cons]
        rfl
      · intro hstart
        rw [hasPrefix, List.isPrefixOf_iff_prefix] at hstart
        by_cases hlength : sub.length ≤ (c :: s).length
        · have hinside : sub <+: c :: s :=
            List.prefix_of_prefix_length_le hstart (List.prefix_append (c :: s) (b :: r)) hlength
          exact hs hinside.isInfix
        · have hlonger : (c :: s) ++ [b] <+: sub := by
            apply List.prefix_of_prefix_length_le _ hstart
            · simp at hlength ⊢
              omega
            · exact ⟨r, by simp⟩
          exact hb (hlonger.subset (by simp))

theorem infix_append_cons_iff (hb : b ∉ sub) (hs : ¬ sub <:+: s) :
    sub <:+: s ++ b :: r ↔ sub <:+: r := by
  rw [← not_iff_not, ← index_eq_none_iff, ← index_eq_none_iff, index_append_cons hb hs,
    Option.map_eq_none_iff]

/-- An occurrence that reaches beyond `w` ends in what follows it. -/
theorem not_infix_append {u : List UInt8} (hlength : w.length ≤ u.length) (hb : b ∉ r) :
    ¬ u ++ [b] <:+: w ++ r := by
  rintro ⟨x, y, h⟩
  have hat : (x ++ (u ++ [b]) ++ y)[x.length + u.length]? = some b := by
    simp
  rw [h, List.getElem?_append_right (by omega)] at hat
  exact hb (List.mem_of_getElem? hat)

/-! ### The last occurrence -/

/-- Where `sub` last begins in `s`. -/
def lastIndex (s sub : List UInt8) : Option Nat :=
  match s with
  | [] => if sub = [] then some 0 else none
  | b :: rest =>
      match lastIndex rest sub with
      | some i => some (i + 1)
      | none => if hasPrefix (b :: rest) sub then some 0 else none

theorem lastIndex_eq_none_iff : lastIndex s sub = none ↔ ¬ sub <:+: s := by
  induction s with
  | nil => simp [lastIndex]
  | cons c s ih =>
      rw [List.infix_cons_iff, ← List.isPrefixOf_iff_prefix]
      cases hrest : lastIndex s sub with
      | none => simp [lastIndex, hrest, hasPrefix, ih.mp hrest]
      | some i =>
          have hinside : sub <:+: s := by
            by_contra hno
            rw [ih.mpr hno] at hrest
            cases hrest
          simp [lastIndex, hrest, hinside]

theorem lastIndex_append (h : lastIndex r sub = some i) :
    lastIndex (s ++ r) sub = some (s.length + i) := by
  induction s with
  | nil => simpa using h
  | cons c s ih =>
      simp only [List.cons_append, lastIndex, ih, List.length_cons]
      congr 1
      omega

theorem lastIndex_append_self {u : List UInt8} (hb : b ∉ r) :
    lastIndex (u ++ [b] ++ r) (u ++ [b]) = some 0 := by
  cases hcons : u ++ [b] ++ r with
  | nil => simp at hcons
  | cons c rest =>
      have hlater : ¬ u ++ [b] <:+: rest := by
        cases u with
        | nil =>
            obtain ⟨rfl, rfl⟩ : b = c ∧ r = rest := by simpa using hcons
            exact fun h => hb (h.subset (by simp))
        | cons d u =>
            obtain ⟨rfl, rfl⟩ : d = c ∧ u ++ [b] ++ r = rest := by simpa using hcons
            have hlength : (u ++ [b]).length ≤ (d :: u).length := by simp
            exact not_infix_append hlength hb
      have hstart : hasPrefix (c :: rest) (u ++ [b]) = true := by
        rw [hasPrefix, List.isPrefixOf_iff_prefix, ← hcons]
        exact List.prefix_append _ r
      rw [lastIndex, lastIndex_eq_none_iff.mpr hlater]
      simp [hstart]

/-! ### Numbers -/

def isDigit (b : UInt8) : Bool := 48 ≤ b && b ≤ 57

def decimalValue (digits : List UInt8) : Nat :=
  digits.foldl (fun value b => 10 * value + (b.toNat - 48)) 0

def parseDigits (digits : List UInt8) : Option Nat :=
  if digits ≠ [] ∧ digits.all isDigit = true then some (decimalValue digits) else none

def int64 (value : Int) : Option Int :=
  if -2 ^ 63 ≤ value ∧ value < 2 ^ 63 then some value else none

def atoi (s : List UInt8) : Option Int :=
  match s with
  | 43 :: digits => (parseDigits digits).bind fun value => int64 value
  | 45 :: digits => (parseDigits digits).bind fun value => int64 (-value)
  | digits => (parseDigits digits).bind fun value => int64 value

theorem ascii_repr_ne_nil (n : Nat) : ascii n.repr ≠ [] := by
  intro h
  have hlength := congrArg List.length h
  simp only [ascii, Nat.toList_repr, List.length_map, List.length_nil] at hlength
  exact absurd hlength (by simp [Nat.toDigits_ne_nil])

theorem decimalValue_ascii_repr (n : Nat) : decimalValue (ascii n.repr) = n := by
  have hfold : ∀ (digits : List Char) (value : Nat), (∀ c ∈ digits, c.isDigit = true) →
      (digits.map fun c => UInt8.ofNat c.toNat).foldl
        (fun value b => 10 * value + (b.toNat - 48)) value =
      Nat.ofDigitChars 10 digits value := by
    intro digits
    induction digits with
    | nil => intro value _; rfl
    | cons c digits ih =>
        intro value h
        have hdigit := h c List.mem_cons_self
        simp only [Char.isDigit, Bool.and_eq_true, decide_eq_true_eq] at hdigit
        have hhigh : c.toNat ≤ 57 := hdigit.2
        have hbyte : (UInt8.ofNat c.toNat).toNat = c.toNat := by
          simp only [UInt8.toNat_ofNat']
          omega
        rw [List.map_cons, List.foldl_cons, hbyte, ih _ fun d hd => h d (List.mem_cons_of_mem c hd),
          Nat.ofDigitChars_cons]
        rfl
  rw [decimalValue, ascii, Nat.toList_repr, hfold _ _ fun c hc =>
    Nat.isDigit_of_mem_toDigits (by decide) (by decide) hc, Nat.ofDigitChars_ten_toDigits]

theorem atoi_of_digits {digits : List UInt8} (h : digits.all isDigit = true) :
    atoi digits = (parseDigits digits).bind fun value => int64 value := by
  rw [atoi]
  · rintro rest rfl
    simp [isDigit] at h
  · rintro rest rfl
    simp [isDigit] at h

theorem all_isDigit_ascii_repr (n : Nat) : (ascii n.repr).all isDigit = true := by
  rw [List.all_eq_true]
  intro b hb
  have hdigit := mem_ascii_repr hb
  simp [isDigit, hdigit]

theorem atoi_ascii_repr {n : Nat} (h : n < 2 ^ 63) : atoi (ascii n.repr) = some (n : Int) := by
  have hrange : -2 ^ 63 ≤ (n : Int) ∧ (n : Int) < 2 ^ 63 := by omega
  rw [atoi_of_digits (all_isDigit_ascii_repr n), parseDigits,
    if_pos ⟨ascii_repr_ne_nil n, all_isDigit_ascii_repr n⟩, Option.bind_some,
    decimalValue_ascii_repr, int64, if_pos hrange]

/-- A line break after digits is white space, and the digits hold none. -/
theorem trimSpace_digits_newline {digits : List UInt8} (hne : digits ≠ [])
    (h : digits.all isDigit = true) : trimSpace (digits ++ [10]) = digits := by
  have hfirst : ∀ space ∈ whiteSpace, space.head?.any isDigit = false ∧ space ≠ [] := by decide
  have hlast : ∀ space ∈ whiteSpace, space.getLast?.any isDigit = false ∧ space ≠ [] := by decide
  have hdigits : ∀ b ∈ digits, isDigit b = true := by simpa using h
  have hleft : leadingSpace (digits ++ [10]) = 0 := by
    rw [leadingSpace_eq_zero_iff]
    rintro space hmem ⟨rest, hrest⟩
    obtain ⟨hdigit, hspace⟩ := hfirst space hmem
    obtain ⟨b, tail, rfl⟩ := List.exists_cons_of_ne_nil hspace
    obtain ⟨c, others, rfl⟩ := List.exists_cons_of_ne_nil hne
    obtain rfl : b = c := (List.cons.inj hrest).1
    simp [hdigits b List.mem_cons_self] at hdigit
  have hright : trailingSpace digits = 0 := by
    rw [trailingSpace_eq_zero_iff]
    rintro space hmem ⟨rest, rfl⟩
    obtain ⟨hdigit, hspace⟩ := hlast space hmem
    rw [List.getLast?_eq_some_getLast hspace, Option.any_some,
      hdigits _ (List.mem_append_right rest (List.getLast_mem hspace))] at hdigit
    cases hdigit
  have hnewline : ¬ (digits ++ [10] = [] ∨ trailingSpace (digits ++ [10]) = 0) := by
    rw [trailingSpace_append_newline]
    simp
  rw [trimSpace, trimLeft_of_leadingSpace hleft, trimRight, if_neg hnewline,
    trailingSpace_append_newline, List.length_append, List.length_singleton, Nat.add_sub_cancel,
    List.take_left, trimRight, if_pos (.inr hright)]

end Dolgate.GoBytes
