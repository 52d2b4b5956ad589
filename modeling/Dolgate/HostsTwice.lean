import Dolgate.HostsRewrite

set_option autoImplicit false

namespace Dolgate.HostsFile
open GoBytes

/-- A file to clear has more left than empty lines that are taken for none the next time. -/
def ClearsTwice (content : List UInt8) : Prop :=
  LoneBreak content ∨
    ¬ (content.getLast? = some 10 ∧ userLines (lines content) = [[]]) ∧
      ¬ (content.getLast? ≠ some 10 ∧ userLines (lines content) = [[], []])

/-- All lines of the new block belong to managed blocks when they are read again, and no line that
gets LF for its end makes it a CRLF. -/
def BlocksTwice (content : List UInt8) (listed : List Entry) : Prop :=
  userLines (lines (terminated (detectLineEnding content) (blockLines listed))) = [] ∧
    (contains content crlf = true ∨
      (∀ line, (userLines (lines content)).getLast? = some line → line.getLast? ≠ some 13) ∧
        ∀ e ∈ listed, contains (e.line ++ [10]) crlf = false)

theorem contains_newline (line rest : List UInt8) :
    contains (line ++ 10 :: rest) crlf = (contains (line ++ [10]) crlf || contains rest crlf) := by
  induction line with
  | nil =>
      rw [Bool.eq_iff_iff, List.nil_append, List.nil_append, contains_cons, Bool.or_eq_true]
      simp [crlf, contains, index, hasPrefix]
  | cons b line ih =>
      have hfirst : crlf <+: b :: (line ++ 10 :: rest) ↔ crlf <+: b :: (line ++ [10]) := by
        cases line <;> simp [crlf]
      rw [Bool.eq_iff_iff] at ih ⊢
      rw [List.cons_append, List.cons_append, contains_cons, ih, hfirst, Bool.or_eq_true,
        Bool.or_eq_true, contains_cons, or_assoc]

theorem contains_terminated (ls : List Line) (rest : List UInt8) :
    contains (terminated [10] ls ++ rest) crlf =
      (ls.any (fun line => contains (line ++ [10]) crlf) || contains rest crlf) := by
  induction ls with
  | nil => rfl
  | cons line ls ih =>
      rw [terminated] at ih
      rw [terminated, List.flatMap_cons, List.append_assoc, List.append_assoc,
        List.singleton_append, contains_newline, ih, List.any_cons, Bool.or_assoc]

theorem contains_open {line : Line} (h : 10 ∉ line) : contains line crlf = false := by
  rw [← Bool.not_eq_true, contains_iff_occurs]
  exact fun hoccurs => h (hoccurs.subset (by decide))

theorem contains_closed {line : Line} (h : 10 ∉ line) :
    contains (line ++ [10]) crlf = true ↔ line.getLast? = some 13 := by
  induction line with
  | nil => decide
  | cons b line ih =>
      have hrest : 10 ∉ line := fun hmem => h (List.mem_cons_of_mem b hmem)
      rw [List.cons_append, contains_cons, ih hrest]
      cases line with
      | nil => simp [crlf, eq_comm]
      | cons c line =>
          have hc : c ≠ 10 := fun hc => hrest (hc ▸ List.mem_cons_self)
          simp [crlf, List.getLast?_cons, hc.symm]

theorem contains_crlf {ls : List Line} (hne : ls ≠ []) (rest : List UInt8) :
    contains (terminated crlf ls ++ rest) crlf = true := by
  obtain ⟨line, ls, rfl⟩ := List.exists_cons_of_ne_nil hne
  rw [contains_iff_occurs]
  exact ⟨line, terminated crlf ls ++ rest, by simp [terminated]⟩

theorem detectLineEnding_terminated {lineEnding : List UInt8} {ls : List Line} (hne : ls ≠ [])
    (h : ∀ line ∈ ls, Closes lineEnding line) {last : Line} (hlast : 10 ∉ last) :
    detectLineEnding (terminated lineEnding ls ++ last) = lineEnding := by
  obtain ⟨line, hline⟩ := List.exists_mem_of_ne_nil ls hne
  rcases (h line hline).2 with rfl | ⟨rfl, -⟩
  · rw [detectLineEnding, if_pos (contains_crlf hne last)]
  · have hany : ls.any (fun line => contains (line ++ [10]) crlf) = false := by
      rw [List.any_eq_false]
      intro line hline hcr
      exact ((h line hline).2.resolve_left (by decide)).2
        ((contains_closed (h line hline).1).mp hcr)
    rw [detectLineEnding, contains_terminated, hany, contains_open hlast]
    rfl

theorem splitContent_lines {content : List UInt8} (h : ¬ LoneBreak content) :
    (splitContent content).1 = lines content := by
  rw [splitContent_eq, if_neg h]

theorem rewrite_nil {toLower : List UInt8 → List UInt8} {entries : List Entry}
    (hnone : normalizeEntries toLower entries = []) :
    (rewriteManagedBlock toLower [] entries).1 = [] :=
  (rewrite_next toLower [] entries).2.2.1 hnone rfl

theorem rewrite_ended {toLower : List UInt8 → List UInt8} {entries : List Entry}
    (hnone : normalizeEntries toLower entries = []) {lineEnding : List UInt8}
    (hending : lineEnding = crlf ∨ lineEnding = [10]) {ls : List Line}
    (hclose : ∀ line ∈ ls, Closes lineEnding line) (huser : Unmarked ls) :
    (rewriteManagedBlock toLower (terminated lineEnding ls) entries).1 = terminated lineEnding ls ↔
      ls ≠ [[]] := by
  have hlines : lines (terminated lineEnding ls) = ls := by
    have hnil : lines [] = [] := rfl
    have hread := lines_terminated hclose []
    rwa [hnil, List.append_nil, List.append_nil] at hread
  by_cases hnil : ls = []
  · subst hnil
    exact iff_of_true (rewrite_nil hnone) (by simp)
  · have hlast := terminated_getLast? hending hnil
    obtain ⟨-, hended, -, -⟩ := rewrite_next toLower (terminated lineEnding ls) entries
    rw [hended hnone hlast]
    by_cases hlone : LoneBreak (terminated lineEnding ls)
    · have hsplit : (splitContent (terminated lineEnding ls)).1 = [] := by
        rw [splitContent_eq, if_pos hlone]
      rw [hsplit]
      refine iff_of_false (fun hempty => ?_) fun hne => hne (hlines ▸ lines_of_loneBreak hlone)
      rw [← hempty] at hlast
      cases hlast
    · have hdetect : detectLineEnding (terminated lineEnding ls ++ []) = lineEnding :=
        detectLineEnding_terminated hnil hclose (by simp)
      rw [List.append_nil] at hdetect
      rw [splitContent_lines hlone, hlines, hdetect, stripManagedBlockLines,
        (huser.strip false).1]
      refine iff_of_true rfl ?_
      rintro rfl
      rcases hending with rfl | rfl
      · exact hlone (.inr rfl)
      · exact hlone (.inl rfl)

theorem userLines_unmarked (ls : List Line) : Unmarked (userLines ls) := by
  rw [← strip_eq_userLines]
  exact stripFrom_unmarked false ls

theorem userLines_sublist (ls : List Line) : (userLines ls).Sublist ls := by
  rw [← strip_eq_userLines]
  exact stripFrom_sublist false ls

theorem Unmarked.left {a b : List Line} (h : Unmarked (a ++ b)) : Unmarked a :=
  fun line hline => h line (List.mem_append_left b hline)

theorem rewrite_open {toLower : List UInt8 → List UInt8} {entries : List Entry}
    (hnone : normalizeEntries toLower entries = []) {lineEnding : List UInt8} {ls : List Line}
    {last : Line} (hclose : ∀ line ∈ ls, Closes lineEnding line) (huser : Unmarked (ls ++ [last]))
    (hnewline : 10 ∉ last) (hne : last ≠ []) :
    (rewriteManagedBlock toLower (terminated lineEnding ls ++ last) entries).1 =
      terminated lineEnding ls ++ last := by
  have hend : (terminated lineEnding ls ++ last).getLast? ≠ some 10 := by
    rw [List.getLast?_append_of_ne_nil _ hne]
    exact fun hlast => hnewline (List.mem_of_getLast? hlast)
  have hlone : ¬ LoneBreak (terminated lineEnding ls ++ last) := by
    rintro (h | h) <;> exact hend (by rw [h]; rfl)
  have hremaining : stripManagedBlockLines (splitContent (terminated lineEnding ls ++ last)).1 =
      ls ++ [last] := by
    rw [splitContent_lines hlone, lines_terminated hclose, lines_open hnewline, if_neg hne]
    exact (huser.strip false).1
  rw [(rewrite_next toLower _ entries).2.2.2 ls last hnone hend hremaining]
  by_cases hnil : ls = []
  · rw [hnil]
    rfl
  · rw [detectLineEnding_terminated hnil hclose hnewline]

theorem clears_twice {toLower : List UInt8 → List UInt8} {content : List UInt8}
    {entries : List Entry} (hnone : normalizeEntries toLower entries = []) :
    let next := (rewriteManagedBlock toLower content entries).1
    (rewriteManagedBlock toLower next entries).1 = next ↔ ClearsTwice content := by
  obtain ⟨-, hended, hempty, hopen⟩ := rewrite_next toLower content entries
  have hending := detectLineEnding_cases content
  by_cases hlone : LoneBreak content
  · have hremaining : stripManagedBlockLines (splitContent content).1 = [] := by
      rw [splitContent_eq, if_pos hlone]
      rfl
    simp only [hempty hnone hremaining]
    exact iff_of_true (rewrite_nil hnone) (.inl hlone)
  · rw [splitContent_lines hlone, strip_eq_userLines] at hended hempty hopen
    have hsub := userLines_sublist (lines content)
    have huser := userLines_unmarked (lines content)
    simp only [ClearsTwice, hlone, false_or]
    by_cases hend : content.getLast? = some 10
    · have hclose := sublist_close hsub fun _ hopen => absurd hend hopen
      rw [hended hnone hend, rewrite_ended hnone hending hclose huser]
      simp [hend]
    · simp only [hend, false_and, not_false_eq_true, true_and, ne_eq]
      rcases List.eq_nil_or_concat' (userLines (lines content)) with hu | ⟨init, last, hu⟩
      · rw [hempty hnone hu, hu]
        exact iff_of_true (rewrite_nil hnone) (by simp)
      · rw [hu] at hsub huser
        have hnewline : 10 ∉ last :=
          linesFrom_no_newline (by simp) last (hsub.subset (by simp))
        have hclose : ∀ line ∈ init, Closes (detectLineEnding content) line := fun line hline =>
          (lines_close content).1 line ((sublist_dropLast hsub).subset hline)
        rw [hopen init last hnone hend hu, hu]
        by_cases hblank : last = []
        · subst hblank
          rw [List.append_nil, rewrite_ended hnone hending hclose huser.left]
          cases init <;> simp
        · rw [rewrite_open hnone hclose huser hnewline hblank]
          refine iff_of_true rfl fun h => hblank ?_
          have hlast := congrArg List.getLast? h
          simpa using hlast

theorem terminated_append (lineEnding : List UInt8) (a b : List Line) :
    terminated lineEnding (a ++ b) = terminated lineEnding a ++ terminated lineEnding b :=
  List.flatMap_append

theorem terminated_eq_nil {lineEnding : List UInt8} (h : lineEnding ≠ []) (ls : List Line) :
    terminated lineEnding ls = [] ↔ ls = [] := by
  cases ls <;> simp [terminated, h]

theorem rewrite_blocks {toLower : List UInt8 → List UInt8} {entries : List Entry}
    (hlisted : normalizeEntries toLower entries ≠ []) {lineEnding : List UInt8}
    (hending : lineEnding = crlf ∨ lineEnding = [10]) {ls : List Line}
    (hclose : ∀ line ∈ ls, Closes lineEnding line) (huser : Unmarked ls)
    (hdetect : detectLineEnding
      (terminated lineEnding (ls ++ blockLines (normalizeEntries toLower entries))) = lineEnding) :
    (rewriteManagedBlock toLower
        (terminated lineEnding (ls ++ blockLines (normalizeEntries toLower entries))) entries).1 =
        terminated lineEnding (ls ++ blockLines (normalizeEntries toLower entries)) ↔
      userLines (lines (terminated lineEnding
        (blockLines (normalizeEntries toLower entries)))) = [] := by
  let block := blockLines (normalizeEntries toLower entries)
  change (rewriteManagedBlock toLower (terminated lineEnding (ls ++ block)) entries).1 =
      terminated lineEnding (ls ++ block) ↔ userLines (lines (terminated lineEnding block)) = []
  have hread : lines (terminated lineEnding (ls ++ block)) =
      ls ++ lines (terminated lineEnding block) := by
    rw [terminated_append, lines_terminated hclose]
  have hstart : ∃ more, lines (terminated lineEnding block) = startMarker :: more := by
    have hmarker : ∀ line ∈ [startMarker], Closes lineEnding line := by
      rcases hending with rfl | rfl <;> simp [Closes] <;> decide
    have hblock : block = [startMarker] ++
        ((normalizeEntries toLower entries).map Entry.line ++ [endMarker]) := if_neg hlisted
    exact ⟨_, by rw [hblock, terminated_append, lines_terminated hmarker]; rfl⟩
  have hlone : ¬ LoneBreak (terminated lineEnding (ls ++ block)) := by
    intro hlone
    obtain ⟨more, hmore⟩ := hstart
    rw [lines_of_loneBreak hlone, hmore] at hread
    cases ls with
    | nil => exact absurd (List.cons.inj hread).1 (by decide)
    | cons line ls => simpa using congrArg List.length hread
  have hne : lineEnding ≠ [] := by rcases hending with rfl | rfl <;> decide
  rw [(rewrite_next toLower _ entries).1 hlisted, hdetect, splitContent_lines hlone, hread,
    stripManagedBlockLines, stripFrom_append, (huser.strip false).1, (huser.strip false).2,
    ← stripManagedBlockLines, strip_eq_userLines]
  simp only [Bool.false_eq_true, if_false, terminated_append, List.append_assoc,
    List.append_cancel_left_eq]
  rw [← terminated_eq_nil hne]
  exact List.append_left_eq_self

theorem endMarker_not_cr (before after : List UInt8) :
    before ++ endMarker ++ [10] ≠ after ++ endMarker ++ crlf := by
  intro h
  have hsplit : after ++ endMarker ++ crlf = (after ++ endMarker ++ [13]) ++ [10] := by simp [crlf]
  rw [hsplit] at h
  have hlast := congrArg List.getLast? (List.append_inj' h rfl).1
  rw [List.getLast?_append_of_ne_nil _ (by decide), List.getLast?_concat] at hlast
  revert hlast
  decide

theorem blockLines_split {listed : List Entry} (h : listed ≠ []) :
    blockLines listed = ([startMarker] ++ listed.map Entry.line) ++ [endMarker] := if_neg h

theorem terminated_block {listed : List Entry} (h : listed ≠ []) (lineEnding : List UInt8)
    (ls : List Line) :
    ∃ before,
      terminated lineEnding (ls ++ blockLines listed) = before ++ endMarker ++ lineEnding := by
  have hlast : terminated lineEnding [endMarker] = endMarker ++ lineEnding := by
    rw [terminated, List.flatMap_singleton]
  refine ⟨terminated lineEnding (ls ++ ([startMarker] ++ listed.map Entry.line)), ?_⟩
  rw [blockLines_split h, ← List.append_assoc, terminated_append, hlast, List.append_assoc]

theorem contains_written {listed : List Entry} (hlisted : listed ≠ []) {ls : List Line}
    (hnewline : ∀ line ∈ ls, 10 ∉ line)
    (hcr : ∀ line ∈ ls.dropLast, line.getLast? ≠ some 13) :
    contains (terminated [10] (ls ++ blockLines listed)) crlf = false ↔
      (∀ line, ls.getLast? = some line → line.getLast? ≠ some 13) ∧
        ∀ e ∈ listed, contains (e.line ++ [10]) crlf = false := by
  have hwritten := contains_terminated (ls ++ blockLines listed) []
  have hnone : contains [] crlf = false := by decide
  rw [List.append_nil, hnone, Bool.or_false] at hwritten
  have hmarkers : contains (startMarker ++ [10]) crlf = false ∧
      contains (endMarker ++ [10]) crlf = false := by
    rw [← Bool.not_eq_true, ← Bool.not_eq_true, contains_closed (by decide),
      contains_closed (by decide)]
    decide
  rw [hwritten, blockLines_split hlisted, List.any_append, Bool.or_eq_false_iff]
  refine and_congr ?_ (by simp [hmarkers])
  rcases List.eq_nil_or_concat' ls with rfl | ⟨init, last, rfl⟩
  · simp
  · have hkept : init.any (fun line => contains (line ++ [10]) crlf) = false := by
      rw [List.any_eq_false]
      intro line hline hcontains
      have hmem : line ∈ (init ++ [last]).dropLast := by simpa using hline
      exact hcr line hmem
        ((contains_closed (hnewline line (List.mem_of_mem_dropLast hmem))).mp hcontains)
    rw [List.any_append, hkept, Bool.false_or, List.any_cons, List.any_nil, Bool.or_false,
      ← Bool.not_eq_true, contains_closed (hnewline last (by simp))]
    simp

theorem blocks_twice {toLower : List UInt8 → List UInt8} {content : List UInt8}
    {entries : List Entry} (hlisted : normalizeEntries toLower entries ≠ []) :
    let next := (rewriteManagedBlock toLower content entries).1
    (rewriteManagedBlock toLower next entries).1 = next ↔
      BlocksTwice content (normalizeEntries toLower entries) := by
  simp only [(rewrite_next toLower content entries).1 hlisted]
  have hsub : (stripManagedBlockLines (splitContent content).1).Sublist (lines content) := by
    rw [splitContent_eq]
    split
    · exact List.nil_sublist _
    · exact stripFrom_sublist false _
  have huser : Unmarked (stripManagedBlockLines (splitContent content).1) :=
    stripFrom_unmarked false _
  have hlast : (∀ line, (stripManagedBlockLines (splitContent content).1).getLast? = some line →
      line.getLast? ≠ some 13) ↔
      ∀ line, (userLines (lines content)).getLast? = some line → line.getLast? ≠ some 13 := by
    by_cases hlone : LoneBreak content
    · have huserLines : userLines [[]] = [[]] := by decide +kernel
      rw [splitContent_eq, if_pos hlone, lines_of_loneBreak hlone, huserLines]
      simp [stripManagedBlockLines, stripFrom]
    · rw [splitContent_lines hlone, strip_eq_userLines]
  generalize stripManagedBlockLines (splitContent content).1 = ls at hsub huser hlast
  rw [BlocksTwice, ← hlast]
  cases hcrlf : contains content crlf with
  | true =>
      have hending : detectLineEnding content = crlf := if_pos hcrlf
      have hclose := sublist_close hsub fun hno => by simp [hcrlf] at hno
      rw [hending] at hclose ⊢
      have hdetect : detectLineEnding
          (terminated crlf (ls ++ blockLines (normalizeEntries toLower entries))) = crlf := by
        have hne : ls ++ blockLines (normalizeEntries toLower entries) ≠ [] := by
          simp [blockLines, hlisted]
        have hfound := contains_crlf hne []
        rw [List.append_nil] at hfound
        exact if_pos hfound
      rw [rewrite_blocks hlisted (.inl rfl) hclose huser hdetect]
      simp
  | false =>
      have hending : detectLineEnding content = [10] := by
        rw [detectLineEnding, hcrlf]
        rfl
      have hnewline : ∀ line ∈ ls, 10 ∉ line := fun line hline =>
        linesFrom_no_newline (by simp) line (hsub.subset hline)
      have hcr : ∀ line ∈ ls.dropLast, line.getLast? ≠ some 13 := by
        intro line hline
        rcases List.eq_nil_or_concat' ls with rfl | ⟨init, last, rfl⟩
        · simp at hline
        · rw [List.dropLast_concat] at hline
          have hclosed := (lines_close content).1 line ((sublist_dropLast hsub).subset hline)
          rw [hending] at hclosed
          exact (hclosed.2.resolve_left (by decide)).2
      have hwritten := contains_written hlisted hnewline hcr
      rw [hending, ← hwritten]
      simp only [Bool.false_eq_true, false_or]
      by_cases hfound : contains
          (terminated [10] (ls ++ blockLines (normalizeEntries toLower entries))) crlf = true
      · rw [(rewrite_next toLower _ entries).1 hlisted, detectLineEnding, if_pos hfound, hfound]
        refine iff_of_false (fun heq => ?_) (by simp)
        obtain ⟨before, hbefore⟩ := terminated_block hlisted [10] ls
        obtain ⟨after, hafter⟩ := terminated_block hlisted crlf (stripManagedBlockLines
          (splitContent (terminated [10] (ls ++ blockLines (normalizeEntries toLower entries)))).1)
        rw [hafter, hbefore] at heq
        exact endMarker_not_cr before after heq.symm
      · rw [Bool.not_eq_true] at hfound
        have hdetect : detectLineEnding
            (terminated [10] (ls ++ blockLines (normalizeEntries toLower entries))) = [10] := by
          rw [detectLineEnding, hfound]
          rfl
        have hclose : ∀ line ∈ ls, Closes [10] line := by
          have hclose := sublist_close hsub fun _ _ => (hwritten.mp hfound).1
          rwa [hending] at hclose
        rw [rewrite_blocks hlisted (.inr rfl) hclose huser hdetect, hfound]
        simp

/-- A rewrite of what a rewrite has written changes nothing, exactly if lines and entries are read
again as what they were. -/
theorem rewrite_twice_iff (toLower : List UInt8 → List UInt8) (content : List UInt8)
    (entries : List Entry) :
    let next := (rewriteManagedBlock toLower content entries).1
    rewriteManagedBlock toLower next entries = (next, false) ↔
      (normalizeEntries toLower entries = [] → ClearsTwice content) ∧
        (normalizeEntries toLower entries ≠ [] →
          BlocksTwice content (normalizeEntries toLower entries)) := by
  intro next
  have hpair : rewriteManagedBlock toLower next entries = (next, false) ↔
      (rewriteManagedBlock toLower next entries).1 = next := by
    refine ⟨congrArg Prod.fst, fun hsame => Prod.ext hsame ?_⟩
    exact decide_eq_false (not_not.mpr hsame)
  rw [hpair]
  by_cases hlisted : normalizeEntries toLower entries = []
  · have hagain : (rewriteManagedBlock toLower next entries).1 = next ↔ ClearsTwice content :=
      clears_twice hlisted
    rw [hagain]
    simp [hlisted]
  · have hagain : (rewriteManagedBlock toLower next entries).1 = next ↔
        BlocksTwice content (normalizeEntries toLower entries) := blocks_twice hlisted
    rw [hagain]
    simp [hlisted]

/-- An empty line in front of the block is gone only when the file is cleared a second time, and
the CR of a last line makes a CRLF. -/
theorem rewrite_changes_twice :
    let blankFirst := terminated [10] [[], startMarker, endMarker]
    let cleared := (rewriteManagedBlock id blankFirst []).1
    let blocked := (rewriteManagedBlock id [97, 13] sampleEntries).1
    (rewriteManagedBlock id cleared []).2 = true ∧
      (rewriteManagedBlock id blocked sampleEntries).2 = true := by
  decide +kernel

end Dolgate.HostsFile
