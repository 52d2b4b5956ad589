import Mathlib
import Dolgate.GoBytes

set_option autoImplicit false

namespace Dolgate.HostsFile
open GoBytes

def startMarker : List UInt8 := ascii "# >>> dolssh managed dns overrides >>>"

def endMarker : List UInt8 := ascii "# <<< dolssh managed dns overrides <<<"

abbrev Line := List UInt8

structure Entry where
  address : List UInt8
  hostname : List UInt8
deriving DecidableEq, Repr

def Entry.line (e : Entry) : Line := e.address ++ [32] ++ e.hostname

/-- What entries are ordered by: the hostname, then the address, both byte by byte. -/
def Entry.rank (e : Entry) : List Nat ×ₗ List Nat :=
  toLex (e.hostname.map UInt8.toNat, e.address.map UInt8.toNat)

def Entry.key (e : Entry) : List UInt8 := e.address ++ [0] ++ e.hostname

def crlf : List UInt8 := [13, 10]

def contains (s sub : List UInt8) : Bool := (index s sub).isSome

def detectLineEnding (content : List UInt8) : List UInt8 :=
  if contains content crlf then crlf else [10]

/-- `strings.ReplaceAll(content, "\r\n", "\n")`. -/
def replaceCrlf : List UInt8 → List UInt8
  | [] => []
  | 13 :: 10 :: rest => 10 :: replaceCrlf rest
  | b :: rest => b :: replaceCrlf rest

def splitContent (content : List UInt8) : List Line × Bool :=
  if content = [] then ([], false)
  else
    let normalized := replaceCrlf content
    let hadTrailingNewline := [10].isSuffixOf normalized
    let normalized := trimSuffix normalized [10]
    if normalized = [] then ([], hadTrailingNewline)
    else (normalized.splitOn 10, hadTrailingNewline)

/-- The loop of `stripManagedBlockLines`, inside a managed block or not. -/
def stripFrom : Bool → List Line → List Line
  | _, [] => []
  | insideManagedBlock, line :: rest =>
      let trimmed := trimSpace line
      if trimmed = startMarker then stripFrom true rest
      else if trimmed = endMarker then stripFrom false rest
      else if insideManagedBlock then stripFrom insideManagedBlock rest
      else line :: stripFrom insideManagedBlock rest

def stripManagedBlockLines (lines : List Line) : List Line := stripFrom false lines

/-- The loop of `normalizeEntries`, with the keys seen. -/
def cleanEntries (toLower : List UInt8 → List UInt8) (seen : List (List UInt8)) :
    List Entry → List Entry
  | [] => []
  | entry :: rest =>
      let clean : Entry := ⟨trimSpace entry.address, toLower (trimSpace entry.hostname)⟩
      if clean.address = [] ∨ clean.hostname = [] then cleanEntries toLower seen rest
      else if clean.key ∈ seen then cleanEntries toLower seen rest
      else clean :: cleanEntries toLower (clean.key :: seen) rest

def normalizeEntries (toLower : List UInt8 → List UInt8) (entries : List Entry) : List Entry :=
  (cleanEntries toLower [] entries).insertionSort fun left right => left.rank ≤ right.rank

def blockLines (entries : List Entry) : List Line :=
  if entries = [] then [] else [startMarker] ++ entries.map Entry.line ++ [endMarker]

/-- The new content, and whether it differs. `toLower` is `strings.ToLower`. -/
def rewriteManagedBlock (toLower : List UInt8 → List UInt8) (content : List UInt8)
    (entries : List Entry) : List UInt8 × Bool :=
  let lineEnding := detectLineEnding content
  let (trimmedContent, hadTrailingNewline) := splitContent content
  let normalizedEntries := normalizeEntries toLower entries
  let nextLines := stripManagedBlockLines trimmedContent ++ blockLines normalizedEntries
  let next :=
    if nextLines = [] then []
    else lineEnding.intercalate nextLines ++
      if hadTrailingNewline ∨ normalizedEntries ≠ [] then lineEnding else []
  (next, next ≠ content)

def clearManagedBlock (toLower : List UInt8 → List UInt8) (content : List UInt8) :
    List UInt8 × Bool :=
  rewriteManagedBlock toLower content []

def linesFrom (line : Line) : List UInt8 → List Line
  | [] => if line = [] then [] else [line]
  | 13 :: 10 :: rest => line :: linesFrom [] rest
  | 10 :: rest => line :: linesFrom [] rest
  | b :: rest => linesFrom (line ++ [b]) rest

def lines (content : List UInt8) : List Line := linesFrom [] content

def terminated (lineEnding : List UInt8) (ls : List Line) : List UInt8 :=
  ls.flatMap fun line => line ++ lineEnding

theorem contains_cons (b : UInt8) (s : List UInt8) :
    contains (b :: s) crlf = true ↔ crlf <+: b :: s ∨ contains s crlf = true := by
  rw [contains, index]
  split
  · rename_i h
    rw [hasPrefix, List.isPrefixOf_iff_prefix] at h
    simp [h]
  · rename_i h
    rw [hasPrefix, List.isPrefixOf_iff_prefix] at h
    simp [h, contains]

theorem trimSuffix_concat (s : List UInt8) (b : UInt8) :
    trimSuffix (s ++ [b]) [10] = if b = 10 then s else s ++ [b] := by
  split
  · rename_i h
    subst h
    exact trimSuffix_append
  · rename_i h
    rw [trimSuffix, if_neg]
    rw [List.isSuffixOf_iff_suffix]
    rintro ⟨init, hinit⟩
    exact h (by simpa using (List.append_inj' hinit rfl).2.symm)

theorem trimSuffix_newline (line rest : List UInt8) :
    trimSuffix (line ++ 10 :: rest) [10] =
      if rest = [] then line else line ++ 10 :: trimSuffix rest [10] := by
  induction rest using List.reverseRecOn with
  | nil => exact trimSuffix_append
  | append_singleton init b _ =>
      have hsplit : line ++ 10 :: (init ++ [b]) = (line ++ 10 :: init) ++ [b] := by simp
      rw [hsplit, trimSuffix_concat, trimSuffix_concat, if_neg (c := init ++ [b] = []) (by simp)]
      by_cases hb : b = 10 <;> simp [hb]

theorem linesFrom_eq {line content : List UInt8} (hline : 10 ∉ line) :
    linesFrom line content =
      if line ++ replaceCrlf content = [] then []
      else (trimSuffix (line ++ replaceCrlf content) [10]).splitOn 10 := by
  have hend : ∀ (line rest : List UInt8), 10 ∉ line →
      (trimSuffix (line ++ 10 :: rest) [10]).splitOn 10 =
        line :: if rest = [] then [] else (trimSuffix rest [10]).splitOn 10 := by
    intro line rest hline
    rw [trimSuffix_newline]
    split
    · exact List.splitOn_eq_singleton hline
    · exact List.splitOn_append_cons_self_of_not_mem hline _
  fun_induction linesFrom line content with
  | case1 => rfl
  | case2 line h =>
      rw [replaceCrlf, List.append_nil, if_neg h, trimSuffix_of_not_mem hline,
        List.splitOn_eq_singleton hline]
  | case3 line rest ih =>
      rw [replaceCrlf, if_neg (by simp), hend _ _ hline, ih (by simp), List.nil_append]
  | case4 line rest ih =>
      rw [replaceCrlf, if_neg (by simp), hend _ _ hline, ih (by simp), List.nil_append]
      simp
  | case5 line b rest hpair hlf ih =>
      rw [ih (by simpa [hline, eq_comm] using hlf), List.append_assoc, List.singleton_append,
        replaceCrlf]
      simpa using hpair

theorem replaceCrlf_eq_nil {content : List UInt8} : replaceCrlf content = [] ↔ content = [] := by
  fun_cases replaceCrlf content <;> simp

theorem replaceCrlf_getLast? (content : List UInt8) :
    (replaceCrlf content).getLast? = content.getLast? := by
  fun_induction replaceCrlf content with
  | case1 => rfl
  | case2 rest ih => simp [List.getLast?_cons, ih]
  | case3 b rest _ ih => simp [List.getLast?_cons, ih]

def LoneBreak (content : List UInt8) : Prop := content = [10] ∨ content = crlf

instance (content : List UInt8) : Decidable (LoneBreak content) :=
  inferInstanceAs (Decidable (_ ∨ _))

theorem replaceCrlf_eq_newline (content : List UInt8) :
    replaceCrlf content = [10] ↔ LoneBreak content := by
  fun_cases replaceCrlf content with
  | case1 => simp [LoneBreak, crlf]
  | case2 rest => simp [LoneBreak, crlf, replaceCrlf_eq_nil]
  | case3 b rest hpair =>
      rw [LoneBreak, crlf, List.cons.injEq, replaceCrlf_eq_nil, List.cons.injEq, List.cons.injEq]
      exact ⟨.inl, fun h => h.resolve_right fun h' => hpair [] h'.1 h'.2⟩

theorem isSuffixOf_newline (s : List UInt8) :
    [10].isSuffixOf s = true ↔ s.getLast? = some 10 := by
  rw [List.isSuffixOf_iff_suffix, List.getLast?_eq_some_iff]
  exact exists_congr fun init => eq_comm

theorem splitContent_eq (content : List UInt8) :
    splitContent content =
      (if LoneBreak content then [] else lines content, decide (content.getLast? = some 10)) := by
  have hends : [10].isSuffixOf (replaceCrlf content) = decide (content.getLast? = some 10) := by
    rw [Bool.eq_iff_iff, isSuffixOf_newline, replaceCrlf_getLast?, decide_eq_true_iff]
  rw [splitContent]
  by_cases hnil : content = []
  · subst hnil
    decide
  · have hne : replaceCrlf content ≠ [] := mt replaceCrlf_eq_nil.mp hnil
    have htrim : trimSuffix (replaceCrlf content) [10] = [] ↔ LoneBreak content := by
      rw [← replaceCrlf_eq_newline]
      rcases List.eq_nil_or_concat' (replaceCrlf content) with h | ⟨init, b, hinit⟩
      · exact absurd h hne
      · rw [hinit, trimSuffix_concat]
        cases init <;> by_cases hb : b = 10 <;> simp [hb]
    rw [lines, linesFrom_eq (by simp), List.nil_append, if_neg hnil, if_neg hne]
    simp only [htrim, hends]
    split <;> rfl

theorem contains_iff_occurs (s : List UInt8) : contains s crlf = true ↔ crlf <:+: s := by
  induction s with
  | nil => decide
  | cons b s ih => rw [contains_cons, ih, List.infix_cons_iff]

def Closes (lineEnding : List UInt8) (line : Line) : Prop :=
  10 ∉ line ∧ (lineEnding = crlf ∨ lineEnding = [10] ∧ line.getLast? ≠ some 13)

theorem linesFrom_line {lineEnding : List UInt8} {line : Line} (h : Closes lineEnding line)
    (start : Line) (rest : List UInt8) :
    linesFrom start (line ++ (lineEnding ++ rest)) = (start ++ line) :: linesFrom [] rest := by
  induction line generalizing start with
  | nil => rcases h.2 with rfl | ⟨rfl, -⟩ <;> simp [crlf, linesFrom]
  | cons b line ih =>
      have hb : b ≠ 10 := fun hb => h.1 (hb ▸ List.mem_cons_self)
      have hline : Closes lineEnding line := by
        refine ⟨fun hmem => h.1 (List.mem_cons_of_mem b hmem), h.2.imp id fun hlast => ?_⟩
        refine ⟨hlast.1, ?_⟩
        intro hcr
        exact hlast.2 (by rw [List.getLast?_cons, hcr]; rfl)
      have hpair : ∀ more, b = 13 → line ++ (lineEnding ++ rest) = 10 :: more → False := by
        rintro more rfl heq
        cases line with
        | nil =>
            rcases h.2 with rfl | ⟨-, hlast⟩
            · simp [crlf] at heq
            · exact hlast rfl
        | cons c line =>
            rw [List.cons_append, List.cons.injEq] at heq
            exact h.1 (by simp [heq.1])
      rw [List.cons_append, linesFrom, ih hline, List.append_assoc, List.singleton_append]
      · exact hpair
      · exact hb

theorem lines_terminated {lineEnding : List UInt8} {ls : List Line}
    (h : ∀ line ∈ ls, Closes lineEnding line) (rest : List UInt8) :
    lines (terminated lineEnding ls ++ rest) = ls ++ lines rest := by
  induction ls with
  | nil => rfl
  | cons line ls ih =>
      have hrest := ih fun l hl => h l (List.mem_cons_of_mem line hl)
      rw [terminated, List.flatMap_cons, List.append_assoc, List.append_assoc, lines,
        linesFrom_line (h line List.mem_cons_self), List.nil_append, List.cons_append]
      exact congrArg _ hrest

theorem linesFrom_open {line : Line} (h : 10 ∉ line) (start : Line) :
    linesFrom start line = if start ++ line = [] then [] else [start ++ line] := by
  induction line generalizing start with
  | nil => rw [linesFrom, List.append_nil]
  | cons b line ih =>
      have hline : 10 ∉ line := fun hmem => h (List.mem_cons_of_mem b hmem)
      rw [linesFrom, ih hline, List.append_assoc, List.singleton_append]
      · rintro more rfl rfl
        exact hline List.mem_cons_self
      · rintro rfl
        exact h List.mem_cons_self

theorem lines_open {line : Line} (h : 10 ∉ line) :
    lines line = if line = [] then [] else [line] := by
  rw [lines, linesFrom_open h, List.nil_append]

theorem linesFrom_no_newline {line content : List UInt8} (hline : 10 ∉ line) :
    ∀ l ∈ linesFrom line content, 10 ∉ l := by
  fun_induction linesFrom line content with
  | case1 => simp
  | case2 line h => simpa using hline
  | case3 line rest ih =>
      intro l hl
      rcases List.mem_cons.mp hl with rfl | hl
      · exact hline
      · exact ih (by simp) l hl
  | case4 line rest ih =>
      intro l hl
      rcases List.mem_cons.mp hl with rfl | hl
      · exact hline
      · exact ih (by simp) l hl
  | case5 line b rest _ hb ih => exact ih (by simpa [hline, eq_comm] using hb)

theorem linesFrom_no_cr {line content : List UInt8} (h : ¬ crlf <:+: line ++ content) :
    (∀ l ∈ (linesFrom line content).dropLast, l.getLast? ≠ some 13) ∧
      (content.getLast? = some 10 → ∀ l ∈ linesFrom line content, l.getLast? ≠ some 13) := by
  fun_induction linesFrom line content with
  | case1 => simp
  | case2 line hne => simp
  | case3 line rest ih => exact absurd ⟨line, rest, by simp [crlf]⟩ h
  | case4 line rest ih =>
      have hline : line.getLast? ≠ some 13 := by
        intro hcr
        obtain ⟨init, rfl⟩ := List.getLast?_eq_some_iff.mp hcr
        exact h ⟨init, rest, by simp [crlf]⟩
      obtain ⟨hbut, hall⟩ := ih fun hoccurs => h (hoccurs.trans ⟨line ++ [10], [], by simp⟩)
      constructor
      · intro l hl
        cases hrest : linesFrom [] rest with
        | nil => simp [hrest] at hl
        | cons first more =>
            rw [hrest, List.dropLast_cons_cons] at hl
            rcases List.mem_cons.mp hl with rfl | hl
            · exact hline
            · exact hbut l (hrest ▸ hl)
      · intro hend l hl
        rcases List.mem_cons.mp hl with rfl | hl
        · exact hline
        · cases rest with
          | nil => simp [linesFrom] at hl
          | cons c rest => exact hall (by simpa [List.getLast?_cons] using hend) l hl
  | case5 line b rest _ hb ih =>
      obtain ⟨hbut, hall⟩ := ih (by simpa using h)
      refine ⟨hbut, fun hend => hall ?_⟩
      cases rest with
      | nil => exact absurd (by simpa using hend) hb
      | cons c rest => simpa [List.getLast?_cons] using hend

theorem sublist_dropLast {α : Type} {init ls : List α} {last : α}
    (h : (init ++ [last]).Sublist ls) : init.Sublist ls.dropLast := by
  obtain ⟨before, after, rfl, hinit, hlast⟩ := List.append_sublist_iff.mp h
  have hne : after ≠ [] := by
    rintro rfl
    simp at hlast
  rw [List.dropLast_append_of_ne_nil hne]
  exact hinit.trans (List.sublist_append_left _ _)

/-- Lines of the content can be closed again by the ending found in it; the last one may not, where
the content ends without one. -/
theorem lines_close (content : List UInt8) :
    (∀ line ∈ (lines content).dropLast, Closes (detectLineEnding content) line) ∧
      (contains content crlf = true ∨ content.getLast? = some 10 →
        ∀ line ∈ lines content, Closes (detectLineEnding content) line) := by
  have hnewline : ∀ line ∈ lines content, 10 ∉ line := linesFrom_no_newline (by simp)
  rw [detectLineEnding]
  cases hcrlf : contains content crlf with
  | true =>
      exact ⟨fun line hline => ⟨hnewline line (List.mem_of_mem_dropLast hline), .inl rfl⟩,
        fun _ line hline => ⟨hnewline line hline, .inl rfl⟩⟩
  | false =>
      have hno : ¬ crlf <:+: [] ++ content := by
        rw [List.nil_append, ← contains_iff_occurs, hcrlf]
        simp
      obtain ⟨hbut, hall⟩ := linesFrom_no_cr hno
      refine ⟨fun line hline => ?_, fun hend line hline => ?_⟩
      · exact ⟨hnewline line (List.mem_of_mem_dropLast hline), .inr ⟨rfl, hbut line hline⟩⟩
      · have hend := hend.resolve_left (by simp)
        exact ⟨hnewline line hline, .inr ⟨rfl, hall hend line hline⟩⟩

theorem sublist_close {content : List UInt8} {ls : List Line} (hls : ls.Sublist (lines content))
    (hlast : contains content crlf = false → content.getLast? ≠ some 10 →
      ∀ line, ls.getLast? = some line → line.getLast? ≠ some 13) :
    ∀ line ∈ ls, Closes (detectLineEnding content) line := by
  intro line hline
  obtain ⟨hbut, hall⟩ := lines_close content
  by_cases hclosed : contains content crlf = true ∨ content.getLast? = some 10
  · exact hall hclosed line (hls.subset hline)
  · rw [not_or, Bool.not_eq_true] at hclosed
    rcases List.eq_nil_or_concat' ls with rfl | ⟨init, last, rfl⟩
    · simp at hline
    · rcases List.mem_append.mp hline with hline | hline
      · exact hbut line ((sublist_dropLast hls).subset hline)
      · cases List.mem_singleton.mp hline
        have hcr := hlast hclosed.1 hclosed.2 line (by simp)
        refine ⟨linesFrom_no_newline (by simp) line (hls.subset (by simp)), .inr ⟨?_, hcr⟩⟩
        rw [detectLineEnding, hclosed.1]
        rfl

theorem intercalate_eq (lineEnding : List UInt8) (ls : List Line) (line : Line) :
    lineEnding.intercalate (ls ++ [line]) = terminated lineEnding ls ++ line := by
  induction ls with
  | nil => simp [terminated]
  | cons first ls ih =>
      cases ls <;> simp_all [terminated, List.intercalate_cons_cons]

theorem intercalate_terminated {lineEnding : List UInt8} {ls : List Line} (h : ls ≠ []) :
    lineEnding.intercalate ls ++ lineEnding = terminated lineEnding ls := by
  rcases List.eq_nil_or_concat' ls with rfl | ⟨init, line, rfl⟩
  · exact absurd rfl h
  · rw [intercalate_eq]
    simp [terminated]

end Dolgate.HostsFile
