import Dolgate.CommandLine

set_option autoImplicit false

/-! What a line has to be for its last words to be read as they are meant. -/

namespace Dolgate.CommandLine

variable {g : Grammar}

theorem step_read {s s' : State} {b : UInt8} (h : g.step s b = some s') :
    ∃ more, s'.read = s.read ++ more := by
  rcases step_cases h with ⟨hread, -⟩ | ⟨hread, -⟩ | ⟨-, -, rfl | rfl⟩
  · exact ⟨[], by simp [hread]⟩
  · exact ⟨[], by simp [hread]⟩
  · exact ⟨_, rfl⟩
  · exact ⟨_, List.append_assoc _ _ _⟩

theorem run_read {s s' : State} {line : List UInt8} (h : g.run s line = some s') :
    ∃ more, s'.read = s.read ++ more := by
  induction line generalizing s with
  | nil =>
      cases h
      exact ⟨[], by simp⟩
  | cons b line ih =>
      rw [run_cons, Option.bind_eq_some_iff] at h
      obtain ⟨mid, hstep, hrest⟩ := h
      obtain ⟨first, hfirst⟩ := step_read hstep
      obtain ⟨more, hmore⟩ := ih hrest
      exact ⟨first ++ more, by rw [hmore, hfirst, List.append_assoc]⟩

theorem close_run {s s' : State} {line : List UInt8} (h : g.run s line = some s') {text : Word}
    (hword : s.word = some text) :
    ∃ rest more, (g.close s').read = s.read ++ g.endWord (text ++ rest) ++ more := by
  induction line generalizing s text with
  | nil =>
      cases h
      exact ⟨[], [], by simp [Grammar.close, hword]⟩
  | cons b line ih =>
      rw [run_cons, Option.bind_eq_some_iff] at h
      obtain ⟨mid, hstep, hrest⟩ := h
      rcases step_cases hstep with ⟨hread, hput, -⟩ | ⟨hread, -, -, hkept⟩ | ⟨-, -, hclose⟩
      · rw [hword] at hput
        obtain ⟨rest, more, hmore⟩ := ih hrest hput
        exact ⟨b :: rest, more, by rw [hmore, hread]; simp⟩
      · obtain ⟨rest, more, hmore⟩ := ih hrest (hkept text hword)
        exact ⟨rest, more, by rw [hmore, hread]⟩
      · have hended : ∃ first, mid.read = s.read ++ g.endWord text ++ first := by
          rcases hclose with rfl | rfl
          · exact ⟨[], by simp [Grammar.close, hword]⟩
          · exact ⟨[.separator], by simp [Grammar.close, hword]⟩
        obtain ⟨first, hfirst⟩ := hended
        obtain ⟨more, hmore⟩ := run_read hrest
        refine ⟨[], first ++ more ++ (s'.word.map g.endWord).getD [], ?_⟩
        rw [Grammar.close, hmore, hfirst]
        simp

theorem run_no_nul {s s' : State} {line : List UInt8} (h : g.run s line = some s') :
    0 ∉ line := by
  induction line generalizing s with
  | nil => simp
  | cons b line ih =>
      rw [run_cons, Option.bind_eq_some_iff] at h
      obtain ⟨mid, hstep, hrest⟩ := h
      have hb : 0 ≠ b := by
        rintro rfl
        simp [Grammar.step] at hstep
      exact fun hmem => (List.mem_cons.mp hmem).elim hb (ih hrest)

theorem words_map (ws : List Word) : words (ws.map .word) = ws := by
  induction ws with
  | nil => rfl
  | cons text ws ih => exact congrArg (text :: ·) ih

def Grammar.rest (g : Grammar) (ws : List Word) (line : List UInt8) : Option (List (List Word)) :=
  (g.run (.after (ws.map .word)) line).bind g.finish

theorem rest_eq_some {ws : List Word} {line : List UInt8} {command : List Word}
    (h : g.rest ws line = some [command]) :
    ∃ s, g.run (.after (ws.map .word)) line = some s ∧ s.Outside ∧
      words (g.close s).read = command := by
  rw [Grammar.rest, Option.bind_eq_some_iff] at h
  obtain ⟨s, hrun, hfinish⟩ := h
  rw [Grammar.finish] at hfinish
  split at hfinish
  · rename_i hout
    exact ⟨s, hrun, hout, commandsFrom_single (Option.some.inj hfinish)⟩
  · cases hfinish

theorem rest_puts {ws : List Word} {line : List UInt8} {text : Word}
    (hrun : g.run (.after (ws.map .word)) line = some ((State.after (ws.map .word)).puts text))
    (hlast : g.escapes = false → text.getLast? ≠ some 59) :
    g.rest ws line = some [ws ++ [text]] := by
  have hfinish : g.finish ((State.after (ws.map .word)).puts text) =
      some (commandsFrom [] (g.close ((State.after (ws.map .word)).puts text)).read) :=
    if_pos ⟨rfl, rfl⟩
  have hread : (g.close ((State.after (ws.map .word)).puts text)).read =
      (ws ++ [text]).map .word := by
    rw [close_puts, endWord_bare hlast, List.map_append]
    rfl
  rw [Grammar.rest, hrun, Option.bind_some, hfinish, hread, commandsFrom_words _ _ (by simp)]
  rfl

theorem endWord_same {text : Word} (h : words (g.endWord text) = [text]) :
    g.escapes = false → text.getLast? ≠ some 59 := by
  rcases endWord_cases g text with ⟨-, hlast⟩ | ⟨init, rfl, heq⟩ | ⟨rfl, heq⟩ | ⟨init, -, rfl, heq⟩
  · exact hlast
  · simp [heq, words, Token.text] at h
  · simp [heq, words, Token.text] at h
  · simp [heq, words, Token.text] at h

theorem text_after (ws : List Word) : (State.after (ws.map .word)).text = ws.flatten := by
  simp [State.text, State.after, words_map]

theorem rest_bare_iff {ws : List Word} {text : Word} (hne : text ≠ []) :
    g.rest ws text = some [ws ++ [text]] ↔ g.Bare text := by
  constructor
  · intro h
    obtain ⟨s, hrun, -, hwords⟩ := rest_eq_some h
    have hlength : (g.close s).text.length = ws.flatten.length + text.length := by
      simp [State.text, Grammar.close] at hwords ⊢
      simp [hwords]
    have hall := (close_weight g s).1
    rw [hlength] at hall
    have hbare : g.areBare true text = true :=
      run_all hrun ⟨rfl, rfl⟩ (by rw [text_after]; exact hall)
    refine ⟨hbare, endWord_same ?_⟩
    rw [run_bare ⟨rfl, rfl⟩ hbare hne] at hrun
    obtain rfl := Option.some.inj hrun
    rw [close_puts] at hwords
    simpa [State.after, words_append, words_map] using hwords
  · exact fun h => rest_puts (run_bare ⟨rfl, rfl⟩ h.1 hne) h.2

theorem endWord_getElem {text w : Word} (h : w ∈ words (g.endWord text)) (i : Nat) :
    w[i]? = text[i]? ∨ w[i]? = none ∨ w[i]? = some 59 := by
  rcases endWord_cases g text with ⟨heq, -⟩ | ⟨init, rfl, heq⟩ | ⟨rfl, heq⟩ | ⟨init, -, rfl, heq⟩
  · simp only [heq, words, Token.text, List.flatMap_singleton, List.mem_singleton] at h
    exact .inl (h ▸ rfl)
  · simp only [heq, words, Token.text, List.flatMap_singleton, List.mem_singleton] at h
    subst h
    by_cases hi : i < init.length
    · exact .inl (by simp [List.getElem?_append_left hi])
    · rw [List.getElem?_append_right (by omega)]
      cases i - init.length <;> simp
  · simp [heq, words, Token.text] at h
  · simp only [heq, words, Token.text, List.flatMap_cons, List.flatMap_nil, List.append_nil,
      List.mem_singleton] at h
    subst h
    by_cases hi : i < w.length
    · exact .inl (by rw [List.getElem?_append_left hi])
    · exact .inr (.inl (List.getElem?_eq_none (by omega)))

theorem endWord_ne_nil {text : Word} (h : text ≠ [59]) : words (g.endWord text) ≠ [] := by
  rcases endWord_cases g text with ⟨heq, -⟩ | ⟨init, -, heq⟩ | ⟨heq, -⟩ | ⟨init, -, -, heq⟩
  · simp [heq, words, Token.text]
  · simp [heq, words, Token.text]
  · exact absurd heq h
  · simp [heq, words, Token.text]

theorem flatMap_of_not_mem (mid : List UInt8) {text : Word} (h : 39 ∉ text) :
    (text.flatMap fun b => if b = 39 then 39 :: (mid ++ [39]) else [b]) = text := by
  induction text with
  | nil => rfl
  | cons b text ih =>
      rw [List.mem_cons, not_or] at h
      rw [List.flatMap_cons, if_neg (Ne.symm h.1), ih h.2, List.singleton_append]

theorem endWord_length (g : Grammar) (text : Word) : (words (g.endWord text)).length ≤ 1 := by
  rcases endWord_cases g text with ⟨heq, -⟩ | ⟨init, -, heq⟩ | ⟨-, heq⟩ | ⟨init, -, -, heq⟩
  all_goals simp [heq, words, Token.text]

theorem commandsFrom_endWord {ws : List Word} (hne : ws ≠ []) (text : Word) :
    commandsFrom [] (ws.map .word ++ g.endWord text) = [ws ++ words (g.endWord text)] := by
  have hends : ∀ tail, commandsFrom [] (ws.map .word ++ tail) = commandsFrom ws tail := by
    intro tail
    have hgrow : ∀ command, commandsFrom command (ws.map .word ++ tail) =
        commandsFrom (command ++ ws) tail := by
      induction ws with
      | nil => simp
      | cons w ws ih =>
          intro command
          cases ws with
          | nil => rfl
          | cons v ws =>
              rw [List.map_cons, List.cons_append, commandsFrom, ih (by simp)]
              simp
    exact hgrow []
  rw [hends]
  rcases endWord_cases g text with ⟨heq, -⟩ | ⟨init, -, heq⟩ | ⟨-, heq⟩ | ⟨init, -, -, heq⟩
  all_goals simp [heq, commandsFrom, words, Token.text, hne]

theorem endWord_flatten_iff (text : Word) :
    (words (g.endWord text)).flatten = text ↔ (g.escapes = false → text.getLast? ≠ some 59) := by
  constructor
  · intro h
    rcases endWord_cases g text with
      ⟨-, hlast⟩ | ⟨init, rfl, heq⟩ | ⟨rfl, heq⟩ | ⟨init, -, rfl, heq⟩
    · exact hlast
    all_goals simp [heq, words, Token.text] at h
  · intro h
    simp [endWord_bare h, words, Token.text]

theorem quoteWith_of_not_mem (mid : List UInt8) {text : Word} (h : 39 ∉ text) :
    quoteWith mid text = 39 :: text ++ [39] := by
  rw [quoteWith, flatMap_of_not_mem mid h]

def Grammar.Quotable (g : Grammar) (text : Word) : Prop :=
  0 ∉ text ∧ (g.escapes = false → 39 ∉ text ∧ text.getLast? ≠ some 59)

instance (g : Grammar) (text : Word) : Decidable (g.Quotable text) :=
  inferInstanceAs (Decidable (_ ∧ _))

theorem rest_backslash {ws : List Word} {init rest : Word} (hescapes : g.escapes = false)
    (hinit : 39 ∉ init) :
    g.rest ws (quoteWith [92, 39] (init ++ 39 :: rest)) ≠
      some [ws ++ [init ++ 39 :: rest]] := by
  intro h
  obtain ⟨s, hrun, -, hwords⟩ := rest_eq_some h
  have hnul : 0 ∉ init := by
    have hall := run_no_nul hrun
    rw [quoteWith, List.flatMap_append] at hall
    intro hmem
    refine hall (List.mem_append_left _ (List.mem_cons_of_mem _ (List.mem_append_left _ ?_)))
    exact List.mem_flatMap.mpr ⟨0, hmem, by simp⟩
  have hsplit : ∃ more, quoteWith [92, 39] (init ++ 39 :: rest) =
      quoteWith [34, 39, 34] init ++ 92 :: more := by
    refine ⟨39 :: 39 ::
      ((rest.flatMap fun b => if b = 39 then 39 :: ([92, 39] ++ [39]) else [b]) ++ [39]), ?_⟩
    rw [quoteWith_of_not_mem _ hinit, quoteWith, List.flatMap_append, flatMap_of_not_mem _ hinit]
    simp
  obtain ⟨more, hmore⟩ := hsplit
  rw [hmore, run_append, run_quoteWith (quotes_double g) hnul, Option.bind_some, run_cons,
    Option.bind_eq_some_iff] at hrun
  obtain ⟨mid, hstep, hlater⟩ := hrun
  have hbare : g.isBare false 92 = true := by
    simp [Grammar.isBare, hescapes, g.plain false 92 (by decide)]
  have hput : g.step ((State.after (ws.map .word)).puts init) 92 =
      some (((State.after (ws.map .word)).puts init).put 92) := step_bare ⟨rfl, rfl⟩ hbare
  rw [hput, Option.some.injEq] at hstep
  subst hstep
  obtain ⟨y, tokens, hread⟩ := close_run hlater rfl
  rw [hread, words_append, words_append] at hwords
  simp only [State.put, State.puts, State.after, words_map, Option.getD_some, Option.getD_none,
    List.nil_append, List.append_assoc, List.append_cancel_left_eq] at hwords
  have hne : init ++ ([92] ++ y) ≠ [59] := by
    intro h59
    have hmem : (92 : UInt8) ∈ ([59] : List UInt8) := by
      rw [← h59]
      simp
    revert hmem
    decide
  obtain ⟨w, others, hw⟩ := List.exists_cons_of_ne_nil (endWord_ne_nil (g := g) hne)
  rw [hw, List.cons_append, List.cons.injEq] at hwords
  have hmem : w ∈ words (g.endWord (init ++ ([92] ++ y))) := hw ▸ List.mem_cons_self
  have hget := endWord_getElem hmem init.length
  rw [hwords.1] at hget
  simp at hget

theorem rest_quoted_iff {ws : List Word} {text : Word} :
    g.rest ws (quoteWith [92, 39] text) = some [ws ++ [text]] ↔ g.Quotable text := by
  cases hescapes : g.escapes with
  | true =>
      constructor
      · intro h
        obtain ⟨s, hrun, -⟩ := rest_eq_some h
        refine ⟨fun hmem => run_no_nul hrun ?_, by simp [hescapes]⟩
        rw [quoteWith]
        refine List.mem_append_left _ (List.mem_cons_of_mem _ ?_)
        exact List.mem_flatMap.mpr ⟨0, hmem, by simp⟩
      · exact fun h => rest_puts (run_quoteWith (quotes_escape hescapes) h.1 _) (by simp [hescapes])
  | false =>
      by_cases hquote : 39 ∈ text
      · obtain ⟨init, rest, rfl, hinit⟩ := List.eq_append_cons_of_mem hquote
        refine iff_of_false (rest_backslash hescapes hinit) fun h => ?_
        exact (h.2 hescapes).1 hquote
      · rw [quoteWith_of_not_mem _ hquote, ← quoteWith_of_not_mem [34, 39, 34] hquote]
        constructor
        · intro h
          obtain ⟨s, hrun, -, hwords⟩ := rest_eq_some h
          have hnul : 0 ∉ text := by
            intro hmem
            refine run_no_nul hrun ?_
            rw [quoteWith_of_not_mem _ hquote]
            simp [hmem]
          rw [run_quoteWith (quotes_double g) hnul, Option.some.injEq] at hrun
          subst hrun
          rw [close_puts] at hwords
          refine ⟨hnul, fun hoff => ⟨hquote, endWord_same ?_ hoff⟩⟩
          simpa [State.after, words_append, words_map] using hwords
        · intro h
          exact rest_puts (run_quoteWith (quotes_double g) h.1 _) fun hoff => (h.2 hoff).2

theorem rest_word {ws : List Word} {text : Word} (hne : text ≠ []) (h : g.Bare text)
    (line : List UInt8) : g.rest ws (text ++ 32 :: line) = g.rest (ws ++ [text]) line := by
  have hmap : (ws ++ [text]).map Token.word = ws.map .word ++ [.word text] := List.map_append
  rw [Grammar.rest, Grammar.rest, ← List.singleton_append, ← List.append_assoc, run_append,
    run_word hne h, Option.bind_some, hmap]

theorem quoteWith_stops (text : Word) :
    (quoteWith [92, 39] text).countP isStop = text.countP isStop := by
  have hquote : isStop 39 = false ∧ isStop 92 = false := by decide
  have hsame : (text.flatMap fun b =>
      if b = 39 then 39 :: ([92, 39] ++ [39]) else [b]).countP isStop = text.countP isStop := by
    induction text with
    | nil => rfl
    | cons b text ih =>
        rw [List.flatMap_cons, List.countP_append, ih, List.countP_cons]
        by_cases hb : b = 39
        · simp [hb, hquote]
        · rw [if_neg hb, List.countP_singleton, Nat.add_comm]
  rw [quoteWith, List.cons_append, List.countP_cons, List.countP_append, hsame]
  simp [hquote]

theorem weight_after (ws : List Word) :
    (State.after (ws.map .word)).weight = ws.flatten.countP isStop + ws.length := by
  rw [State.weight, text_after]
  simp [State.after, words_map]

theorem bare_of_length {ws : List Word} {first : Word} (hne : first ≠ []) {s : State}
    (hrun : g.run (.after (ws.map .word)) first = some s)
    (hall : ws.flatten.length + first.length ≤ s.text.length) :
    g.areBare true first = true ∧ s = (State.after (ws.map .word)).puts first := by
  have hbare : g.areBare true first = true :=
    run_all hrun ⟨rfl, rfl⟩ (by rw [text_after]; exact hall)
  rw [run_bare ⟨rfl, rfl⟩ hbare hne, Option.some.injEq] at hrun
  exact ⟨hbare, hrun.symm⟩

theorem endWord_stops {start rest w : Word} (h : w ∈ words (g.endWord (start ++ 32 :: rest))) :
    start.countP isStop + 1 ≤ w.countP isStop := by
  have hstop : isStop 59 = true ∧ isStop 92 = false ∧ isStop 32 = true := by decide
  have hcount : (start ++ 32 :: rest).countP isStop =
      start.countP isStop + (rest.countP isStop + 1) := by
    rw [List.countP_append, List.countP_cons]
    simp [hstop]
  rcases endWord_cases g (start ++ 32 :: rest) with
    ⟨heq, -⟩ | ⟨init, hinit, heq⟩ | ⟨hinit, heq⟩ | ⟨init, -, hinit, heq⟩
  · simp only [heq, words, Token.text, List.flatMap_singleton, List.mem_singleton] at h
    rw [h, hcount]
    omega
  · simp only [heq, words, Token.text, List.flatMap_singleton, List.mem_singleton] at h
    rw [hinit] at hcount
    rw [h]
    simp [hstop] at hcount ⊢
    omega
  · simp [heq, words, Token.text] at h
  · simp only [heq, words, Token.text, List.flatMap_cons, List.flatMap_nil, List.append_nil,
      List.mem_singleton] at h
    have hrest : 0 < rest.countP isStop := by
      rcases List.eq_nil_or_concat' rest with rfl | ⟨front, b, rfl⟩
      · simpa using (List.append_inj' hinit rfl).2
      · have hb : b = 59 := by
          rw [← List.cons_append, ← List.append_assoc] at hinit
          simpa using (List.append_inj' hinit rfl).2
        simp [hb, hstop]
    rw [hinit, List.countP_append] at hcount
    simp [hstop] at hcount
    rw [h]
    omega

/-- In front of a quoted word, a word without quotes. If it were not read as it is, one of its
blanks or the blank behind it would have to count twice. -/
theorem first_bare {ws : List Word} {first text : Word} (hne : first ≠ [])
    (h : g.rest ws (first ++ 32 :: quoteWith [92, 39] text) = some [ws ++ [first, text]]) :
    g.Bare first := by
  obtain ⟨s₃, hrun, -, hwords⟩ := rest_eq_some h
  rw [run_append, Option.bind_eq_some_iff] at hrun
  obtain ⟨s₁, hfirst, hrun⟩ := hrun
  rw [run_cons, Option.bind_eq_some_iff] at hrun
  obtain ⟨s₂, hblank, hquoted⟩ := hrun
  have hw₁ := (run_weight hfirst).2
  have hw₂ := (step_weight hblank).2
  have hw₃ := (run_weight hquoted).2
  have hclose := (close_weight g s₃).2
  rw [weight_after] at hw₁
  rw [quoteWith_stops] at hw₃
  have hone : [(32 : UInt8)].countP isStop = 1 := by decide
  have hlast : (g.close s₃).weight = ws.flatten.countP isStop + first.countP isStop +
      text.countP isStop + ws.length + 2 := by
    rw [State.weight, State.text, hwords]
    simp [Grammar.close]
    omega
  obtain ⟨more, hmore⟩ := run_read hfirst
  have hread : words s₁.read = ws ++ words more := by
    rw [hmore, words_append]
    simp [State.after, words_map]
  -- No word is complete within `first`: it would have to be `first` already.
  have hnext : ∀ w others tail, words (g.close s₃).read = words s₁.read ++ (w :: others) ++ tail →
      words more = [] ∧ w = first := by
    intro w others tail hall
    rw [hwords, hread, List.append_assoc, List.append_assoc, List.append_cancel_left_eq] at hall
    cases hmoreWords : words more with
    | nil =>
        rw [hmoreWords] at hall
        exact ⟨rfl, (List.cons.inj hall).1.symm⟩
    | cons u us =>
        rw [hmoreWords] at hall
        have hputs := (bare_of_length hne hfirst (by
          simp [State.text, hread, hmoreWords, ← (List.cons.inj hall).1])).2
        have hsame : words s₁.read = ws := by
          rw [hputs]
          exact words_map ws
        rw [hsame] at hread
        exact absurd (List.append_right_eq_self.mp hread.symm) (by simp [hmoreWords])
  rcases step_cases hblank with ⟨hread₂, hword₂, hbare⟩ | ⟨-, -, hstop, -⟩ | ⟨-, -, hclosed⟩
  · obtain ⟨rest, tokens, htokens⟩ := close_run hquoted hword₂
    have hassoc : s₁.word.getD [] ++ [32] ++ rest = s₁.word.getD [] ++ 32 :: rest := by simp
    rw [hassoc] at htokens
    have hcut : s₁.word.getD [] ++ 32 :: rest ≠ [59] := by
      intro h59
      have hmem : (32 : UInt8) ∈ ([59] : List UInt8) := by
        rw [← h59]
        simp
      revert hmem
      decide
    obtain ⟨w, others, hw⟩ := List.exists_cons_of_ne_nil (endWord_ne_nil (g := g) hcut)
    obtain ⟨hnil, rfl⟩ := hnext w others (words tokens) (by
      rw [htokens, hread₂, words_append, words_append, hw])
    have hmem : w ∈ words (g.endWord (s₁.word.getD [] ++ 32 :: rest)) := hw ▸ List.mem_cons_self
    have hstops := endWord_stops hmem
    have hweight : s₁.weight = ws.flatten.countP isStop + (s₁.word.getD []).countP isStop +
        ws.length := by
      rw [State.weight, State.text, hread, hnil]
      simp
    omega
  · exact absurd hstop (by decide)
  · have hsame : words s₂.read = words (g.close s₁).read ∧ s₂.weight = (g.close s₁).weight := by
      rcases hclosed with rfl | rfl
      · exact ⟨rfl, rfl⟩
      · simp [State.weight, State.text, words, Token.text]
    cases hword : s₁.word with
    | none =>
        have hkept : (g.close s₁).weight = s₁.weight := by
          simp [Grammar.close, State.weight, State.text, hword]
        omega
    | some text₁ =>
        have hclose₁ : words (g.close s₁).read = words s₁.read ++ words (g.endWord text₁) := by
          simp [Grammar.close, hword, words_append]
        cases hw : words (g.endWord text₁) with
        | nil =>
            have hkept : (g.close s₁).weight ≤ s₁.weight := by
              rw [State.weight, State.text, hclose₁, hw, State.weight, State.text, hword]
              simp [Grammar.close]
            omega
        | cons w others =>
            obtain ⟨later, hlater⟩ := run_read hquoted
            have htail : (g.close s₃).read = s₃.read ++ (s₃.word.map g.endWord).getD [] := rfl
            obtain ⟨hnil, rfl⟩ := hnext w others
              (words (later ++ (s₃.word.map g.endWord).getD [])) (by
                rw [htail, hlater, List.append_assoc, words_append, hsame.1, hclose₁, hw])
            have hlength := (endWord_weight g text₁).1
            rw [hw, List.flatten_cons, List.length_append] at hlength
            obtain ⟨hareBare, hputs⟩ := bare_of_length hne hfirst (by
              simp only [State.text, hread, hnil, hword, List.append_nil, List.length_append,
                Option.getD_some]
              omega)
            have htext : text₁ = w := by
              rw [hputs] at hword
              simpa [State.puts, State.after] using hword.symm
            refine ⟨hareBare, endWord_same ?_⟩
            have hothers : others = [] := by
              have hsingle := endWord_length g text₁
              rw [hw, List.length_cons] at hsingle
              exact List.eq_nil_of_length_eq_zero (by omega)
            rw [← htext, hw, hothers, htext]

theorem rest_both_iff {ws : List Word} {first text : Word} (hne : first ≠ []) :
    g.rest ws (first ++ 32 :: quoteWith [92, 39] text) = some [ws ++ [first, text]] ↔
      g.Bare first ∧ g.Quotable text := by
  have hsplit : ws ++ [first, text] = (ws ++ [first]) ++ [text] := by simp
  constructor
  · intro h
    have hbare := first_bare hne h
    rw [rest_word hne hbare, hsplit] at h
    exact ⟨hbare, rest_quoted_iff.mp h⟩
  · intro h
    rw [rest_word hne h.1, hsplit]
    exact rest_quoted_iff.mpr h.2

theorem commands_words {ws : List Word}
    (h : ∀ text ∈ ws, text ≠ [] ∧ ∀ b ∈ text, isPlain b = true ∧ b ≠ 92) (line : List UInt8) :
    g.commands ((ws.flatMap fun text => text ++ [32]) ++ line) = g.rest ws line := by
  have hrun := run_words (g := g) h []
  rw [Grammar.commands, run_append]
  rw [State.start, ← State.after, hrun]
  rfl

theorem intercalate_blank (init : List Word) (last : Word) :
    [32].intercalate (init ++ [last]) = (init.flatMap fun text => text ++ [32]) ++ last := by
  induction init with
  | nil => simp
  | cons text init ih =>
      cases init <;> simp_all [List.intercalate_cons_cons]

theorem commands_plain {ws : List Word} (hne : ws ≠ [])
    (h : ∀ text ∈ ws, text ≠ [] ∧ ∀ b ∈ text, isPlain b = true ∧ b ≠ 92) :
    g.commands ([32].intercalate ws) = some [ws] := by
  rcases List.eq_nil_or_concat' ws with rfl | ⟨init, last, rfl⟩
  · exact absurd rfl hne
  · obtain ⟨hlast, hplain⟩ := h last (by simp)
    rw [intercalate_blank, commands_words fun text htext => h text (List.mem_append_left _ htext)]
    exact (rest_bare_iff hlast).mpr
      (bare_plain fun b hb => ⟨(hplain b hb).1, fun _ => (hplain b hb).2⟩)

theorem rest_quotes {mid : List UInt8} (hmid : g.Quotes mid) {text : Word} (hnul : 0 ∉ text)
    (ws : List Word) :
    g.rest ws (quoteWith mid text) =
      some (commandsFrom [] (ws.map .word ++ g.endWord text)) := by
  have hfinish : g.finish ((State.after (ws.map .word)).puts text) =
      some (commandsFrom [] (g.close ((State.after (ws.map .word)).puts text)).read) :=
    if_pos ⟨rfl, rfl⟩
  rw [Grammar.rest, run_quoteWith hmid hnul, Option.bind_some, hfinish, close_puts, State.after]

end Dolgate.CommandLine
