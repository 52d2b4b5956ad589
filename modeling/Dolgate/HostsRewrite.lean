import Dolgate.HostsFile

set_option autoImplicit false

namespace Dolgate.HostsFile
open GoBytes

def isStart (line : Line) : Bool := trimSpace line = startMarker

def isEnd (line : Line) : Bool := trimSpace line = endMarker

/-- Before line `i` there is a start marker that no end marker has closed. -/
def Open (ls : List Line) (i : Nat) : Prop :=
  ∃ j < i, ls[j]?.any isStart = true ∧ ∀ k < i, j < k → ls[k]?.any isEnd = false

instance (ls : List Line) (i : Nat) : Decidable (Open ls i) :=
  inferInstanceAs (Decidable (∃ j < i, _))

def Managed (ls : List Line) (i : Nat) : Prop :=
  (ls[i]?.any fun line => isStart line || isEnd line) = true ∨ Open ls i

instance (ls : List Line) (i : Nat) : Decidable (Managed ls i) :=
  inferInstanceAs (Decidable (_ ∨ _))

def userLines (ls : List Line) : List Line :=
  (ls.zipIdx.filter fun line => ¬ Managed ls line.2).map Prod.fst

def Unmarked (ls : List Line) : Prop := ∀ line ∈ ls, isStart line = false ∧ isEnd line = false

def leavesOpen (insideManagedBlock : Bool) (ls : List Line) : Bool :=
  ls.foldl (fun inside line =>
    if isStart line then true else if isEnd line then false else inside) insideManagedBlock

theorem stripFrom_append (inside : Bool) (a b : List Line) :
    stripFrom inside (a ++ b) = stripFrom inside a ++ stripFrom (leavesOpen inside a) b := by
  induction a generalizing inside with
  | nil => rfl
  | cons line a ih =>
      simp only [List.cons_append, stripFrom, leavesOpen, List.foldl_cons, isStart, isEnd,
        decide_eq_true_eq]
      split_ifs <;> simp [ih, leavesOpen, isStart, isEnd]

theorem stripFrom_sublist (inside : Bool) (ls : List Line) : (stripFrom inside ls).Sublist ls := by
  induction ls generalizing inside with
  | nil => exact List.Sublist.refl _
  | cons line ls ih =>
      simp only [stripFrom]
      split_ifs
      · exact (ih _).cons _
      · exact (ih _).cons _
      · exact (ih _).cons _
      · exact (ih _).cons_cons _

theorem stripFrom_unmarked (inside : Bool) (ls : List Line) : Unmarked (stripFrom inside ls) := by
  induction ls generalizing inside with
  | nil => simp [stripFrom, Unmarked]
  | cons line ls ih =>
      simp only [stripFrom]
      split_ifs with hstart hend
      · exact ih _
      · exact ih _
      · exact ih _
      · intro l hl
        rcases List.mem_cons.mp hl with rfl | hl
        · exact ⟨decide_eq_false hstart, decide_eq_false hend⟩
        · exact ih _ l hl

theorem Unmarked.strip {ls : List Line} (h : Unmarked ls) (inside : Bool) :
    stripFrom inside ls = (if inside then [] else ls) ∧ leavesOpen inside ls = inside := by
  induction ls with
  | nil => cases inside <;> exact ⟨rfl, rfl⟩
  | cons line ls ih =>
      obtain ⟨hstrip, hopen⟩ := ih fun l hl => h l (List.mem_cons_of_mem line hl)
      obtain ⟨hstart, hend⟩ := h line List.mem_cons_self
      have hs : ¬ trimSpace line = startMarker := of_decide_eq_false hstart
      have he : ¬ trimSpace line = endMarker := of_decide_eq_false hend
      rw [stripFrom, leavesOpen, List.foldl_cons, hstart, hend]
      refine ⟨?_, hopen⟩
      simp only [hs, he, if_false, hstrip]
      cases inside <;> rfl

theorem open_succ (ls : List Line) (i : Nat) :
    Open ls (i + 1) ↔ ls[i]?.any isStart = true ∨ ls[i]?.any isEnd = false ∧ Open ls i := by
  constructor
  · rintro ⟨j, hj, hstart, hend⟩
    rcases Nat.lt_succ_iff_lt_or_eq.mp hj with hlt | rfl
    · exact .inr ⟨hend i (Nat.lt_succ_self i) hlt,
        j, hlt, hstart, fun k hk => hend k (Nat.lt_succ_of_lt hk)⟩
    · exact .inl hstart
  · rintro (hstart | ⟨hend, j, hj, hstart, hclosed⟩)
    · exact ⟨i, Nat.lt_succ_self i, hstart, fun k hk hik => by omega⟩
    · refine ⟨j, Nat.lt_succ_of_lt hj, hstart, fun k hk hjk => ?_⟩
      rcases Nat.lt_succ_iff_lt_or_eq.mp hk with hlt | rfl
      · exact hclosed k hlt hjk
      · exact hend

theorem open_append (ls more : List Line) {i : Nat} (hi : i ≤ ls.length) :
    Open (ls ++ more) i ↔ Open ls i := by
  induction i with
  | zero => simp [Open]
  | succ i ih => rw [open_succ, open_succ, List.getElem?_append_left hi, ih (Nat.le_of_succ_le hi)]

theorem leavesOpen_iff (ls : List Line) : leavesOpen false ls = true ↔ Open ls ls.length := by
  induction ls using List.reverseRecOn with
  | nil => simp [leavesOpen, Open]
  | append_singleton ls line ih =>
      rw [List.length_append, List.length_singleton, open_succ, List.getElem?_concat_length,
        open_append ls [line] le_rfl, ← ih, leavesOpen, List.foldl_append]
      simp only [List.foldl_cons, List.foldl_nil, Option.any_some, leavesOpen]
      cases isStart line <;> cases isEnd line <;> simp

theorem strip_eq_userLines (ls : List Line) : stripManagedBlockLines ls = userLines ls := by
  induction ls using List.reverseRecOn with
  | nil => rfl
  | append_singleton ls line ih =>
      have hbefore : (ls.zipIdx.filter fun line' => ¬ Managed (ls ++ [line]) line'.2) =
          ls.zipIdx.filter fun line' => ¬ Managed ls line'.2 := by
        refine List.filter_congr fun found hfound => ?_
        have hlt : found.2 < ls.length := by
          have := List.snd_lt_of_mem_zipIdx hfound
          omega
        refine decide_eq_decide.mpr (not_congr ?_)
        simp only [Managed, List.getElem?_append_left hlt, open_append ls [line] hlt.le]
      have hlast : Managed (ls ++ [line]) ls.length ↔
          (isStart line || isEnd line) = true ∨ leavesOpen false ls = true := by
        rw [Managed, List.getElem?_concat_length, open_append ls [line] le_rfl, leavesOpen_iff,
          Option.any_some]
      rw [stripManagedBlockLines] at ih ⊢
      rw [stripFrom_append, ih, userLines, userLines, List.zipIdx_append, List.filter_append,
        hbefore, List.map_append]
      congr 1
      have hone : (List.zipIdx [line] (0 + ls.length)) = [(line, ls.length)] := by simp
      rw [hone, List.filter_cons, stripFrom, stripFrom]
      simp only [hlast]
      by_cases hstart : trimSpace line = startMarker <;>
        by_cases hend : trimSpace line = endMarker <;>
          cases leavesOpen false ls <;> simp [isStart, isEnd, stripFrom, hstart, hend]

theorem trimSpace_self {s : List UInt8} (hleft : leadingSpace s = 0)
    (hright : trailingSpace s = 0) :
    trimSpace s = s := by
  have hl : trimLeft s = s := by
    rw [trimLeft]
    simp [hleft]
  rw [trimSpace, hl, trimRight]
  simp [hright]

theorem isStart_startMarker : isStart startMarker = true := by
  rw [isStart, trimSpace_self (by decide) (by decide)]
  exact decide_eq_true rfl

theorem isEnd_endMarker : isEnd endMarker = true ∧ isStart endMarker = false := by
  rw [isStart, isEnd, trimSpace_self (by decide) (by decide)]
  decide

theorem strip_startMarker (inside : Bool) :
    stripFrom inside [startMarker] = [] ∧ leavesOpen inside [startMarker] = true := by
  have hs : trimSpace startMarker = startMarker := of_decide_eq_true isStart_startMarker
  constructor
  · rw [stripFrom, if_pos hs, stripFrom]
  · simp [leavesOpen, isStart_startMarker]

theorem strip_endMarker (inside : Bool) :
    stripFrom inside [endMarker] = [] ∧ leavesOpen inside [endMarker] = false := by
  have he : trimSpace endMarker = endMarker := of_decide_eq_true isEnd_endMarker.1
  constructor
  · rw [stripFrom, if_neg (of_decide_eq_false isEnd_endMarker.2), if_pos he, stripFrom]
  · simp [leavesOpen, isEnd_endMarker]

theorem strip_block {entries : List Entry} (h : Unmarked (entries.map Entry.line)) :
    stripFrom false (blockLines entries) = [] := by
  rw [blockLines]
  split
  · rfl
  · obtain ⟨hstrip, hopen⟩ := h.strip true
    rw [stripFrom_append, stripFrom_append, (strip_startMarker false).1,
      (strip_startMarker false).2, hstrip, (strip_endMarker _).1]
    rfl

theorem rewrite_next (toLower : List UInt8 → List UInt8) (content : List UInt8)
    (entries : List Entry) :
    let remaining := stripManagedBlockLines (splitContent content).1
    let normalized := normalizeEntries toLower entries
    (normalized ≠ [] → (rewriteManagedBlock toLower content entries).1 =
      terminated (detectLineEnding content) (remaining ++ blockLines normalized)) ∧
    (normalized = [] → content.getLast? = some 10 →
      (rewriteManagedBlock toLower content entries).1 =
        terminated (detectLineEnding content) remaining) ∧
    (normalized = [] → remaining = [] → (rewriteManagedBlock toLower content entries).1 = []) ∧
    ∀ init line, normalized = [] → content.getLast? ≠ some 10 → remaining = init ++ [line] →
      (rewriteManagedBlock toLower content entries).1 =
        terminated (detectLineEnding content) init ++ line := by
  have hends : (splitContent content).2 = decide (content.getLast? = some 10) := by
    rw [splitContent_eq]
  simp only [rewriteManagedBlock, hends, decide_eq_true_eq]
  refine ⟨fun hn => ?_, fun hn hend => ?_, fun hn hnil => ?_, fun init line hn hend hr => ?_⟩
  · have hne : stripManagedBlockLines (splitContent content).1 ++
        blockLines (normalizeEntries toLower entries) ≠ [] := by
      simp [blockLines, hn]
    rw [if_neg hne, if_pos (.inr hn), intercalate_terminated hne]
  · by_cases hnil : stripManagedBlockLines (splitContent content).1 = []
    · simp [hn, hnil, blockLines, terminated]
    · have hblock : blockLines (normalizeEntries toLower entries) = [] := if_pos hn
      rw [hblock, List.append_nil, if_neg hnil, if_pos (.inl hend), intercalate_terminated hnil]
  · have hblock : blockLines (normalizeEntries toLower entries) = [] := if_pos hn
    rw [hblock, hnil]
    rfl
  · have hblock : blockLines (normalizeEntries toLower entries) = [] := if_pos hn
    rw [hblock, List.append_nil, hr, if_neg (by simp), if_neg (by simp [hend, hn]),
      List.append_nil, intercalate_eq]

def cleanEntry (toLower : List UInt8 → List UInt8) (entry : Entry) : Entry :=
  ⟨trimSpace entry.address, toLower (trimSpace entry.hostname)⟩

def Entry.Blank (e : Entry) : Prop := e.address = [] ∨ e.hostname = []

instance (e : Entry) : Decidable e.Blank := inferInstanceAs (Decidable (_ ∨ _))

structure ListsOnce (toLower : List UInt8 → List UInt8) (entries listed : List Entry) : Prop where
  source : ∀ e ∈ listed, ∃ entry ∈ entries, e = cleanEntry toLower entry ∧ ¬ e.Blank
  all : ∀ entry ∈ entries, ¬ (cleanEntry toLower entry).Blank →
    ∃ e ∈ listed, e.key = (cleanEntry toLower entry).key
  once : (listed.map Entry.key).Nodup
  ordered : listed.Pairwise fun left right => left.rank ≤ right.rank

theorem cleanEntries_cons (toLower : List UInt8 → List UInt8) (seen : List (List UInt8))
    (entry : Entry) (rest : List Entry) :
    cleanEntries toLower seen (entry :: rest) =
      if (cleanEntry toLower entry).Blank ∨ (cleanEntry toLower entry).key ∈ seen then
        cleanEntries toLower seen rest
      else
        cleanEntry toLower entry ::
          cleanEntries toLower ((cleanEntry toLower entry).key :: seen) rest := by
  by_cases hblank : (cleanEntry toLower entry).Blank
  · rw [if_pos (c := _ ∨ _) (.inl hblank)]
    exact if_pos hblank
  · have hrest : cleanEntries toLower seen (entry :: rest) =
        if (cleanEntry toLower entry).key ∈ seen then cleanEntries toLower seen rest
        else cleanEntry toLower entry ::
          cleanEntries toLower ((cleanEntry toLower entry).key :: seen) rest := if_neg hblank
    rw [hrest]
    simp only [hblank, false_or]

theorem cleanEntries_source (toLower : List UInt8 → List UInt8) (seen : List (List UInt8))
    (entries : List Entry) :
    ∀ e ∈ cleanEntries toLower seen entries,
      (∃ entry ∈ entries, e = cleanEntry toLower entry ∧ ¬ e.Blank) ∧ e.key ∉ seen := by
  induction entries generalizing seen with
  | nil => simp [cleanEntries]
  | cons entry rest ih =>
      intro e he
      rw [cleanEntries_cons] at he
      split at he
      · obtain ⟨⟨raw, hraw, hclean⟩, hseen⟩ := ih seen e he
        exact ⟨⟨raw, List.mem_cons_of_mem entry hraw, hclean⟩, hseen⟩
      · rename_i hskip
        rw [not_or] at hskip
        rcases List.mem_cons.mp he with rfl | he
        · exact ⟨⟨entry, List.mem_cons_self, rfl, hskip.1⟩, hskip.2⟩
        · obtain ⟨⟨raw, hraw, hclean⟩, hseen⟩ := ih _ e he
          exact ⟨⟨raw, List.mem_cons_of_mem entry hraw, hclean⟩,
            fun hmem => hseen (List.mem_cons_of_mem _ hmem)⟩

theorem cleanEntries_all (toLower : List UInt8 → List UInt8) (seen : List (List UInt8))
    (entries : List Entry) :
    ∀ entry ∈ entries, ¬ (cleanEntry toLower entry).Blank →
      (cleanEntry toLower entry).key ∈ seen ∨
        ∃ e ∈ cleanEntries toLower seen entries, e.key = (cleanEntry toLower entry).key := by
  induction entries generalizing seen with
  | nil => simp
  | cons entry rest ih =>
      intro raw hraw hblank
      rw [cleanEntries_cons]
      rcases List.mem_cons.mp hraw with rfl | hraw
      · split
        · rename_i hskip
          exact .inl (hskip.resolve_left hblank)
        · exact .inr ⟨_, List.mem_cons_self, rfl⟩
      · split
        · exact ih seen raw hraw hblank
        · rcases ih _ raw hraw hblank with hseen | ⟨e, he, hkey⟩
          · rcases List.mem_cons.mp hseen with hkey | hseen
            · exact .inr ⟨_, List.mem_cons_self, hkey.symm⟩
            · exact .inl hseen
          · exact .inr ⟨e, List.mem_cons_of_mem _ he, hkey⟩

theorem cleanEntries_once (toLower : List UInt8 → List UInt8) (seen : List (List UInt8))
    (entries : List Entry) : ((cleanEntries toLower seen entries).map Entry.key).Nodup := by
  induction entries generalizing seen with
  | nil => exact List.nodup_nil
  | cons entry rest ih =>
      rw [cleanEntries_cons]
      split
      · exact ih seen
      · refine List.nodup_cons.mpr ⟨fun hmem => ?_, ih _⟩
        obtain ⟨e, he, hkey⟩ := List.mem_map.mp hmem
        exact (cleanEntries_source toLower _ rest e he).2 (hkey ▸ List.mem_cons_self)

theorem normalizeEntries_listsOnce (toLower : List UInt8 → List UInt8) (entries : List Entry) :
    ListsOnce toLower entries (normalizeEntries toLower entries) := by
  have hperm : (normalizeEntries toLower entries).Perm (cleanEntries toLower [] entries) :=
    List.perm_insertionSort _ _
  refine ⟨fun e he => ?_, fun entry hentry hblank => ?_, ?_, ?_⟩
  · exact (cleanEntries_source toLower [] entries e (hperm.mem_iff.mp he)).1
  · rcases cleanEntries_all toLower [] entries entry hentry hblank with hnil | ⟨e, he, hkey⟩
    · simp at hnil
    · exact ⟨e, hperm.mem_iff.mpr he, hkey⟩
  · exact (hperm.map Entry.key).nodup_iff.mpr (cleanEntries_once toLower [] entries)
  · let _ : IsTrans Entry fun left right => left.rank ≤ right.rank := ⟨fun _ _ _ => le_trans⟩
    let _ : Std.Total fun left right : Entry => left.rank ≤ right.rank :=
      ⟨fun left right => le_total left.rank right.rank⟩
    exact List.pairwise_insertionSort _ _

theorem block_close {lineEnding : List UInt8} (hending : lineEnding = crlf ∨ lineEnding = [10])
    {entries : List Entry} (h : ∀ e ∈ entries, 10 ∉ e.line ∧ e.line.getLast? ≠ some 13) :
    ∀ line ∈ blockLines entries, Closes lineEnding line := by
  have hclose : ∀ line : Line, 10 ∉ line → line.getLast? ≠ some 13 → Closes lineEnding line :=
    fun line hnewline hcr => ⟨hnewline, hending.imp id fun hlf => ⟨hlf, hcr⟩⟩
  rw [blockLines]
  split
  · simp
  · intro line hline
    rcases List.mem_append.mp hline with hline | hline
    · rcases List.mem_append.mp hline with hline | hline
      · cases List.mem_singleton.mp hline
        exact hclose _ (by decide) (by decide)
      · obtain ⟨e, he, rfl⟩ := List.mem_map.mp hline
        exact hclose _ (h e he).1 (h e he).2
    · cases List.mem_singleton.mp hline
      exact hclose _ (by decide) (by decide)

theorem detectLineEnding_cases (content : List UInt8) :
    detectLineEnding content = crlf ∨ detectLineEnding content = [10] := by
  rw [detectLineEnding]
  split
  · exact .inl rfl
  · exact .inr rfl

structure Settled (content : List UInt8) (listed : List Entry) : Prop where
  notLone : ¬ LoneBreak content
  blank : listed = [] → content.getLast? ≠ some 10 →
    (userLines (lines content)).getLast? ≠ some []
  cr : listed ≠ [] → contains content crlf = false → content.getLast? ≠ some 10 →
    ∀ line, (userLines (lines content)).getLast? = some line → line.getLast? ≠ some 13

theorem rewrite_lines (toLower : List UInt8 → List UInt8) {content : List UInt8}
    {entries : List Entry} (hfile : Settled content (normalizeEntries toLower entries))
    (hentries : ∀ e ∈ normalizeEntries toLower entries,
      10 ∉ e.line ∧ e.line.getLast? ≠ some 13) :
    lines (rewriteManagedBlock toLower content entries).1 =
      userLines (lines content) ++ blockLines (normalizeEntries toLower entries) := by
  have hsplit : (splitContent content).1 = lines content := by
    rw [splitContent_eq, if_neg hfile.notLone]
  obtain ⟨hblock, hended, hempty, hopen⟩ := rewrite_next toLower content entries
  rw [hsplit, strip_eq_userLines] at hblock hended hempty hopen
  have hsub : (userLines (lines content)).Sublist (lines content) := by
    rw [← strip_eq_userLines]
    exact stripFrom_sublist false _
  have hnil : lines [] = [] := rfl
  by_cases hlisted : normalizeEntries toLower entries = []
  · have hnone : blockLines (normalizeEntries toLower entries) = [] := if_pos hlisted
    rw [hnone, List.append_nil]
    by_cases hend : content.getLast? = some 10
    · have hclose := sublist_close hsub fun _ hopen => absurd hend hopen
      have hlines := lines_terminated hclose []
      rwa [hnil, List.append_nil, List.append_nil, ← hended hlisted hend] at hlines
    · rcases List.eq_nil_or_concat' (userLines (lines content)) with hu | ⟨init, line, hu⟩
      · rw [hempty hlisted hu, hu, hnil]
      · rw [hu] at hsub
        have hline : 10 ∉ line :=
          linesFrom_no_newline (by simp) line (hsub.subset (by simp))
        have hne : line ≠ [] := by
          have hlast := hfile.blank hlisted hend
          rw [hu, List.getLast?_concat] at hlast
          simpa using hlast
        have hclose : ∀ l ∈ init, Closes (detectLineEnding content) l := fun l hl =>
          (lines_close content).1 l ((sublist_dropLast hsub).subset hl)
        rw [hopen init line hlisted hend hu, lines_terminated hclose, lines_open hline, if_neg hne,
          hu]
  · have hclose := sublist_close hsub (hfile.cr hlisted)
    have hall : ∀ line ∈ userLines (lines content) ++
        blockLines (normalizeEntries toLower entries), Closes (detectLineEnding content) line :=
      fun line hline => (List.mem_append.mp hline).elim (hclose line)
        (block_close (detectLineEnding_cases content) hentries line)
    have hlines := lines_terminated hall []
    rwa [hnil, List.append_nil, List.append_nil, ← hblock hlisted] at hlines

theorem trimRight_trailing (s : List UInt8) :
    trimRight s = [] ∨ trailingSpace (trimRight s) = 0 := by
  fun_induction trimRight s with
  | case1 s h => exact h
  | case2 s _ ih => exact ih

theorem trimSpace_getLast? (s : List UInt8) : (trimSpace s).getLast? ≠ some 13 := by
  rw [trimSpace]
  intro hcr
  rcases trimRight_trailing (trimLeft s) with h | h
  · rw [h] at hcr
    cases hcr
  · have hsuffix : ([13] : List UInt8).isSuffixOf (trimRight (trimLeft s)) = true := by
      obtain ⟨init, hinit⟩ := List.getLast?_eq_some_iff.mp hcr
      rw [hinit, List.isSuffixOf_iff_suffix]
      exact List.suffix_append _ _
    cases hfind : whiteSpace.find? fun space => space.isSuffixOf (trimRight (trimLeft s)) with
    | none => exact List.find?_eq_none.mp hfind [13] (by decide) hsuffix
    | some space =>
        have hne : ∀ space ∈ whiteSpace, space ≠ [] := by decide
        rw [trailingSpace, hfind, Option.map_some, Option.getD_some] at h
        exact hne space (List.mem_of_find?_eq_some hfind) (List.eq_nil_of_length_eq_zero h)

theorem entry_getLast? {toLower : List UInt8 → List UInt8}
    (hlower : ∀ s, (toLower s).getLast? = some 13 → s.getLast? = some 13) {entries : List Entry} :
    ∀ e ∈ normalizeEntries toLower entries, e.line.getLast? ≠ some 13 := by
  intro e he hcr
  obtain ⟨entry, -, rfl, hblank⟩ := (normalizeEntries_listsOnce toLower entries).source e he
  rw [Entry.Blank, not_or] at hblank
  rw [Entry.line, List.getLast?_append_of_ne_nil _ hblank.2] at hcr
  exact trimSpace_getLast? _ (hlower _ hcr)

theorem terminated_getLast? {lineEnding : List UInt8}
    (hending : lineEnding = crlf ∨ lineEnding = [10]) {ls : List Line} (h : ls ≠ []) :
    (terminated lineEnding ls).getLast? = some 10 := by
  rcases List.eq_nil_or_concat' ls with rfl | ⟨init, line, rfl⟩
  · exact absurd rfl h
  · rcases hending with rfl | rfl <;> simp [terminated, crlf]

theorem lines_of_loneBreak {content : List UInt8} (h : LoneBreak content) :
    lines content = [[]] := by
  rcases h with rfl | rfl <;> rfl

theorem userLines_written {ls : List Line} {listed : List Entry}
    (h : Unmarked (listed.map Entry.line)) :
    userLines (userLines ls ++ blockLines listed) = userLines ls := by
  rw [← strip_eq_userLines ls, ← strip_eq_userLines, stripManagedBlockLines, stripManagedBlockLines,
    stripFrom_append, ((stripFrom_unmarked false ls).strip false).1,
    ((stripFrom_unmarked false ls).strip false).2, strip_block h, List.append_nil]
  rfl

theorem settled_written {toLower : List UInt8 → List UInt8} {content : List UInt8}
    {entries : List Entry} (hfile : Settled content (normalizeEntries toLower entries))
    (hsole : normalizeEntries toLower entries = [] → userLines (lines content) ≠ [[]])
    (hwritten : lines (rewriteManagedBlock toLower content entries).1 =
      userLines (lines content) ++ blockLines (normalizeEntries toLower entries))
    (huser : userLines (lines (rewriteManagedBlock toLower content entries).1) =
      userLines (lines content)) :
    Settled (rewriteManagedBlock toLower content entries).1 [] := by
  obtain ⟨hblock, hended, -, -⟩ := rewrite_next toLower content entries
  have hsplit : (splitContent content).1 = lines content := by
    rw [splitContent_eq, if_neg hfile.notLone]
  rw [hsplit, strip_eq_userLines] at hblock hended
  refine ⟨fun hlone => ?_, fun _ hopen => ?_, fun hne => absurd rfl hne⟩
  · rw [lines_of_loneBreak hlone] at hwritten
    by_cases hlisted : normalizeEntries toLower entries = []
    · rw [blockLines, if_pos hlisted, List.append_nil] at hwritten
      exact hsole hlisted hwritten.symm
    · have hlen := congrArg List.length hwritten
      rw [blockLines, if_neg hlisted] at hlen
      simp only [List.length_append, List.length_singleton] at hlen
      omega
  · rw [huser]
    by_cases hlisted : normalizeEntries toLower entries = []
    · by_cases hend : content.getLast? = some 10
      · by_cases hnil : userLines (lines content) = []
        · simp [hnil]
        · rw [hended hlisted hend] at hopen
          exact absurd (terminated_getLast? (detectLineEnding_cases content) hnil) hopen
      · exact hfile.blank hlisted hend
    · have hne : userLines (lines content) ++
          blockLines (normalizeEntries toLower entries) ≠ [] := by
        simp [blockLines, hlisted]
      rw [hblock hlisted] at hopen
      exact absurd (terminated_getLast? (detectLineEnding_cases content) hne) hopen

/-- A file with CRLF, two blocks, the second of them open, and one entry given twice. -/
def crashedFile : List UInt8 :=
  terminated crlf [ascii "127.0.0.1 localhost", startMarker, ascii "127.0.0.2 old", endMarker, [],
    ascii "# extra", startMarker, ascii "127.0.0.3 old"]

def sampleEntries : List Entry :=
  [⟨ascii " 127.0.0.4", ascii "new"⟩, ⟨ascii "127.0.0.4 ", ascii "new"⟩]

end Dolgate.HostsFile
