import Mathlib

set_option autoImplicit false

/-! Command lines of words and quotes, as bytes. -/

namespace Dolgate.CommandLine

abbrev Word := List UInt8

def isPlain (b : UInt8) : Bool :=
  (48 ≤ b && b ≤ 57) || (65 ≤ b && b ≤ 90) || (97 ≤ b && b ≤ 122) ||
    b ∈ ([37, 45, 64, 92, 93, 94, 95] : List UInt8)

structure Grammar where
  /-- A backslash and a `;` count outside quotes. Otherwise a backslash there stands for itself, and
  a `;` counts at the end of a word, quoted or not. -/
  escapes : Bool
  /-- Bytes that do not stand for themselves outside quotes, as the first of a word or behind it. -/
  special : Bool → UInt8 → Bool
  plain : ∀ first b, isPlain b = true → special first b = false

inductive Token where
  | word (text : Word)
  | separator
  deriving DecidableEq, Repr

inductive Mode where
  | bare | single | double
  deriving DecidableEq, Repr

structure State where
  mode : Mode
  escaped : Bool
  word : Option Word
  read : List Token
  deriving DecidableEq, Repr

def State.start : State := ⟨.bare, false, none, []⟩

def State.put (s : State) (b : UInt8) : State :=
  { s with word := some (s.word.getD [] ++ [b]) }

def State.puts (s : State) (text : Word) : State :=
  { s with word := some (s.word.getD [] ++ text) }

def State.enter (s : State) (mode : Mode) : State :=
  { s with mode, word := some (s.word.getD []) }

def Grammar.endWord (g : Grammar) (text : Word) : List Token :=
  if g.escapes = false ∧ text.getLast? = some 59 then
    if text.dropLast.getLast? = some 92 then [.word (text.dropLast.dropLast ++ [59])]
    else if text.dropLast = [] then [.separator]
    else [.word text.dropLast, .separator]
  else [.word text]

def Grammar.close (g : Grammar) (s : State) : State :=
  { s with word := none, read := s.read ++ (s.word.map g.endWord).getD [] }

/-- Letters and digits behind a backslash stand for other characters, which are not modelled. -/
def isCode (b : UInt8) : Bool :=
  (48 ≤ b && b ≤ 57) || (65 ≤ b && b ≤ 90) || (97 ≤ b && b ≤ 122)

def State.inSingle (s : State) (b : UInt8) : State :=
  if b = 39 then { s with mode := .bare } else s.put b

def State.inDouble (s : State) (b : UInt8) : Option State :=
  if b = 34 then some { s with mode := .bare }
  else if b = 92 then some { s with escaped := true }
  else if b = 36 then none
  else some (s.put b)

def Grammar.inBare (g : Grammar) (s : State) (b : UInt8) : Option State :=
  if b = 39 then some (s.enter .single)
  else if b = 34 then some (s.enter .double)
  else if b = 32 ∨ b = 9 then some (g.close s)
  else if b = 59 ∧ g.escapes = true then
    some { g.close s with read := (g.close s).read ++ [.separator] }
  else if b = 92 ∧ g.escapes = true then some { s.enter .bare with escaped := true }
  else if g.special s.word.isNone b then none
  else some (s.put b)

def Grammar.step (g : Grammar) (s : State) (b : UInt8) : Option State :=
  if b = 0 then none
  else if s.escaped then
    if isCode b then none else some { s.put b with escaped := false }
  else
    match s.mode with
    | .single => some (s.inSingle b)
    | .double => s.inDouble b
    | .bare => g.inBare s b

def Grammar.run (g : Grammar) (s : State) (line : List UInt8) : Option State :=
  line.foldlM g.step s

def commandsFrom (command : List Word) : List Token → List (List Word)
  | [] => if command = [] then [] else [command]
  | .word text :: rest => commandsFrom (command ++ [text]) rest
  | .separator :: rest => (if command = [] then [] else [command]) ++ commandsFrom [] rest

def Grammar.finish (g : Grammar) (s : State) : Option (List (List Word)) :=
  if s.mode = .bare ∧ s.escaped = false then some (commandsFrom [] (g.close s).read) else none

def Grammar.commands (g : Grammar) (line : List UInt8) : Option (List (List Word)) :=
  (g.run .start line).bind g.finish

def Token.text : Token → List Word
  | .word text => [text]
  | .separator => []

def words (read : List Token) : List Word := read.flatMap Token.text

theorem commandsFrom_words (command : List Word) (ws : List Word) (h : command ++ ws ≠ []) :
    commandsFrom command (ws.map .word) = [command ++ ws] := by
  induction ws generalizing command with
  | nil => simpa [commandsFrom] using h
  | cons w ws ih =>
      rw [List.map_cons, commandsFrom, ih _ (by simp), List.append_assoc, List.singleton_append]

theorem commandsFrom_nil {command : List Word} {read : List Token}
    (h : commandsFrom command read = []) : command = [] ∧ words read = [] := by
  induction read generalizing command with
  | nil =>
      rw [commandsFrom] at h
      split at h
      · exact ⟨by assumption, rfl⟩
      · simp at h
  | cons token read ih =>
      cases token with
      | word text => simpa using (ih h).1
      | separator =>
          rw [commandsFrom, List.append_eq_nil_iff] at h
          refine ⟨?_, (ih h.2).2⟩
          by_contra hne
          simp [hne] at h

theorem commandsFrom_single {command : List Word} {read : List Token} {ws : List Word}
    (h : commandsFrom command read = [ws]) : command ++ words read = ws := by
  induction read generalizing command with
  | nil =>
      rw [commandsFrom] at h
      split at h
      · simp at h
      · simpa [words] using h
  | cons token read ih =>
      cases token with
      | word text => simpa [words, Token.text] using ih h
      | separator =>
          rw [commandsFrom] at h
          split at h
          · rename_i hnil
            simpa [words, Token.text, hnil] using ih h
          · obtain ⟨rfl, hrest⟩ := List.cons.inj h
            simpa [words, Token.text] using (commandsFrom_nil hrest).2

variable {g : Grammar}

theorem run_append (s : State) (a b : List UInt8) :
    g.run s (a ++ b) = (g.run s a).bind fun s => g.run s b :=
  List.foldlM_append

theorem run_cons (s : State) (b : UInt8) (line : List UInt8) :
    g.run s (b :: line) = (g.step s b).bind fun s => g.run s line :=
  List.foldlM_cons

theorem run_nil (s : State) : g.run s [] = some s := rfl

theorem put_eq (s : State) (b : UInt8) : s.put b = s.puts [b] := rfl

theorem puts_puts (s : State) (a b : Word) : (s.puts a).puts b = s.puts (a ++ b) := by
  simp [State.puts]

def Grammar.isBare (g : Grammar) (first : Bool) (b : UInt8) : Bool :=
  b ∉ ([0, 39, 34, 32, 9] : List UInt8) && !(g.escapes && b ∈ ([59, 92] : List UInt8)) &&
    !g.special first b

def Grammar.areBare (g : Grammar) (first : Bool) : Word → Bool
  | [] => true
  | b :: rest => g.isBare first b && g.areBare false rest

def Grammar.Bare (g : Grammar) (text : Word) : Prop :=
  g.areBare true text = true ∧ (g.escapes = false → text.getLast? ≠ some 59)

instance (g : Grammar) (text : Word) : Decidable (g.Bare text) :=
  inferInstanceAs (Decidable (_ ∧ _))

def State.Outside (s : State) : Prop := s.mode = .bare ∧ s.escaped = false

theorem step_bare {s : State} (hs : s.Outside) {b : UInt8} (hb : g.isBare s.word.isNone b = true) :
    g.step s b = some (s.put b) := by
  simp only [Grammar.isBare, List.mem_cons, List.not_mem_nil, or_false, Bool.and_eq_true,
    decide_eq_true_eq, not_or, Bool.not_eq_true', Bool.and_eq_false_iff, decide_eq_false_iff_not]
    at hb
  obtain ⟨⟨⟨h0, h39, h34, h32, h9⟩, hesc⟩, hspecial⟩ := hb
  have h59 : ¬ (b = 59 ∧ g.escapes = true) := by
    rintro ⟨rfl, hon⟩
    simp [hon] at hesc
  have h92 : ¬ (b = 92 ∧ g.escapes = true) := by
    rintro ⟨rfl, hon⟩
    simp [hon] at hesc
  simp [Grammar.step, Grammar.inBare, hs.1, hs.2, h0, h39, h34, h32, h9, h59, h92, hspecial]

theorem run_bare {s : State} (hs : s.Outside) {text : Word}
    (h : g.areBare s.word.isNone text = true) (hne : text ≠ []) :
    g.run s text = some (s.puts text) := by
  induction text generalizing s with
  | nil => exact absurd rfl hne
  | cons b text ih =>
      rw [Grammar.areBare, Bool.and_eq_true] at h
      rw [run_cons, step_bare hs h.1, Option.bind_some]
      cases text with
      | nil => rfl
      | cons c text =>
          have hrest : g.run (s.put b) (c :: text) = some ((s.put b).puts (c :: text)) :=
            ih hs h.2 (by simp)
          rw [hrest, put_eq, puts_puts, List.singleton_append]

theorem areBare_plain {text : Word}
    (h : ∀ b ∈ text, isPlain b = true ∧ (g.escapes = true → b ≠ 92)) (first : Bool) :
    g.areBare first text = true := by
  induction text generalizing first with
  | nil => rfl
  | cons b text ih =>
      obtain ⟨hplain, hescape⟩ := h b List.mem_cons_self
      have hother : b ∉ ([0, 39, 34, 32, 9, 59] : List UInt8) := by
        intro hb
        simp only [List.mem_cons, List.not_mem_nil, or_false] at hb
        rcases hb with rfl | rfl | rfl | rfl | rfl | rfl <;> revert hplain <;> decide
      simp only [List.mem_cons, List.not_mem_nil, or_false, not_or] at hother
      rw [Grammar.areBare, ih fun c hc => h c (List.mem_cons_of_mem b hc)]
      cases hescapes : g.escapes with
      | false => simp [Grammar.isBare, hother, hescapes, g.plain first b hplain]
      | true => simp [Grammar.isBare, hother, hescape hescapes, hescapes, g.plain first b hplain]

def State.after (read : List Token) : State := ⟨.bare, false, none, read⟩

theorem endWord_bare {text : Word} (h : g.escapes = false → text.getLast? ≠ some 59) :
    g.endWord text = [.word text] := by
  rw [Grammar.endWord, if_neg]
  exact fun hlast => h hlast.1 hlast.2

theorem close_puts {read : List Token} {text : Word} :
    g.close ((State.after read).puts text) = .after (read ++ g.endWord text) := rfl

theorem run_word {text : Word} (hne : text ≠ []) (h : g.Bare text) (read : List Token) :
    g.run (.after read) (text ++ [32]) = some (.after (read ++ [.word text])) := by
  have hclose : g.step ((State.after read).puts text) 32 =
      some (g.close ((State.after read).puts text)) := by
    simp [Grammar.step, Grammar.inBare, State.puts, State.after]
  rw [run_append, run_bare ⟨rfl, rfl⟩ h.1 hne, Option.bind_some, run_cons, hclose, Option.bind_some,
    close_puts, endWord_bare h.2, run_nil]

theorem bare_plain {text : Word}
    (h : ∀ b ∈ text, isPlain b = true ∧ (g.escapes = true → b ≠ 92)) : g.Bare text := by
  refine ⟨areBare_plain h true, fun _ hlast => ?_⟩
  have hplain := (h 59 (List.mem_of_getLast? hlast)).1
  revert hplain
  decide

theorem run_words {ws : List Word}
    (h : ∀ text ∈ ws, text ≠ [] ∧ ∀ b ∈ text, isPlain b = true ∧ b ≠ 92) (read : List Token) :
    g.run (.after read) (ws.flatMap fun text => text ++ [32]) =
      some (.after (read ++ ws.map .word)) := by
  induction ws generalizing read with
  | nil => simp [run_nil]
  | cons text ws ih =>
      obtain ⟨hne, hplain⟩ := h text List.mem_cons_self
      have hbare : g.Bare text := bare_plain fun b hb => ⟨(hplain b hb).1, fun _ => (hplain b hb).2⟩
      rw [List.flatMap_cons, run_append, run_word hne hbare, Option.bind_some,
        ih fun w hw => h w (List.mem_cons_of_mem text hw)]
      simp

/-- `text` in single quotes, with `mid` between the two quotes that each quote becomes. -/
def quoteWith (mid text : List UInt8) : List UInt8 :=
  39 :: (text.flatMap fun b => if b = 39 then 39 :: (mid ++ [39]) else [b]) ++ [39]

/-- Outside quotes, `mid` is read as a quote. -/
def Grammar.Quotes (g : Grammar) (mid : List UInt8) : Prop :=
  ∀ s : State, s.Outside → g.run s mid = some (s.puts [39])

theorem quotes_double (g : Grammar) : g.Quotes [34, 39, 34] := by
  rintro ⟨mode, escaped, word, read⟩ ⟨rfl, rfl⟩
  simp [run_cons, run_nil, Grammar.step, Grammar.inBare, State.inDouble, State.enter, State.put,
    State.puts]

theorem quotes_escape (h : g.escapes = true) : g.Quotes [92, 39] := by
  rintro ⟨mode, escaped, word, read⟩ ⟨rfl, rfl⟩
  have hcode : isCode 39 = false := by decide
  simp [run_cons, run_nil, Grammar.step, Grammar.inBare, State.enter, State.put, State.puts, h,
    hcode]

theorem run_replaced {mid : List UInt8} (hmid : g.Quotes mid) {text : Word} (hnul : 0 ∉ text)
    (word : Word) (read : List Token) :
    g.run ⟨.single, false, some word, read⟩
        (text.flatMap fun b => if b = 39 then 39 :: (mid ++ [39]) else [b]) =
      some ⟨.single, false, some (word ++ text), read⟩ := by
  induction text generalizing word with
  | nil => simp [run_nil]
  | cons b text ih =>
      have hb : b ≠ 0 := fun hb => hnul (hb ▸ List.mem_cons_self)
      have hrest := ih fun hmem => hnul (List.mem_cons_of_mem b hmem)
      rw [List.flatMap_cons, run_append]
      by_cases hquote : b = 39
      · have hleave : g.step ⟨.single, false, some word, read⟩ 39 =
            some ⟨.bare, false, some word, read⟩ := by
          simp [Grammar.step, State.inSingle]
        have henter : g.step ((⟨.bare, false, some word, read⟩ : State).puts [39]) 39 =
            some ⟨.single, false, some (word ++ [39]), read⟩ := by
          simp [Grammar.step, Grammar.inBare, State.puts, State.enter]
        rw [if_pos hquote, run_cons, hleave, Option.bind_some, run_append, hmid _ ⟨rfl, rfl⟩,
          Option.bind_some, run_cons, henter, Option.bind_some, run_nil, Option.bind_some, hrest,
          hquote]
        simp
      · have hput : g.step ⟨.single, false, some word, read⟩ b =
            some ⟨.single, false, some (word ++ [b]), read⟩ := by
          simp [Grammar.step, State.inSingle, hb, hquote, State.put]
        rw [if_neg hquote, run_cons, hput, Option.bind_some, run_nil, Option.bind_some, hrest]
        simp

theorem run_quoteWith {mid : List UInt8} (hmid : g.Quotes mid) {text : Word} (hnul : 0 ∉ text)
    (read : List Token) :
    g.run (.after read) (quoteWith mid text) = some ((State.after read).puts text) := by
  have henter : g.step (.after read) 39 = some ⟨.single, false, some [], read⟩ := by
    simp [Grammar.step, Grammar.inBare, State.after, State.enter]
  have hleave : g.step ⟨.single, false, some text, read⟩ 39 =
      some ((State.after read).puts text) := by
    simp [Grammar.step, State.inSingle, State.after, State.puts]
  rw [quoteWith, List.cons_append, run_cons, henter, Option.bind_some, run_append,
    run_replaced hmid hnul, Option.bind_some, List.nil_append, run_cons, hleave]
  rfl

theorem endWord_cases (g : Grammar) (text : Word) :
    g.endWord text = [.word text] ∧ (g.escapes = false → text.getLast? ≠ some 59) ∨
      (∃ init, text = init ++ [92, 59] ∧ g.endWord text = [.word (init ++ [59])]) ∨
      text = [59] ∧ g.endWord text = [.separator] ∨
      ∃ init, init ≠ [] ∧ text = init ++ [59] ∧ g.endWord text = [.word init, .separator] := by
  by_cases hsplit : g.escapes = false ∧ text.getLast? = some 59
  · obtain ⟨init, rfl⟩ := List.getLast?_eq_some_iff.mp hsplit.2
    right
    rw [Grammar.endWord, if_pos hsplit, List.dropLast_concat]
    by_cases hescape : init.getLast? = some 92
    · obtain ⟨init, rfl⟩ := List.getLast?_eq_some_iff.mp hescape
      rw [if_pos hescape, List.dropLast_concat]
      exact .inl ⟨init, by simp, rfl⟩
    · rw [if_neg hescape]
      by_cases hnil : init = []
      · rw [if_pos hnil, hnil]
        exact .inr (.inl ⟨rfl, rfl⟩)
      · rw [if_neg hnil]
        exact .inr (.inr ⟨init, hnil, rfl, rfl⟩)
  · left
    rw [Grammar.endWord, if_neg hsplit]
    exact ⟨rfl, fun hescapes hlast => hsplit ⟨hescapes, hlast⟩⟩

def State.text (s : State) : List UInt8 := (words s.read).flatten ++ s.word.getD []

def isStop (b : UInt8) : Bool := b ∈ ([32, 9, 59] : List UInt8)

/-- The blanks and separators that have become text, and the words that are complete. -/
def State.weight (s : State) : Nat := s.text.countP isStop + (words s.read).length

theorem words_append (a b : List Token) : words (a ++ b) = words a ++ words b :=
  List.flatMap_append

theorem endWord_weight (g : Grammar) (text : Word) :
    (words (g.endWord text)).flatten.length ≤ text.length ∧
      (words (g.endWord text)).flatten.countP isStop + (words (g.endWord text)).length ≤
        text.countP isStop + 1 := by
  have hstop : isStop 59 = true ∧ isStop 92 = false := by decide
  rcases endWord_cases g text with ⟨heq, -⟩ | ⟨init, rfl, heq⟩ | ⟨rfl, heq⟩ | ⟨init, -, rfl, heq⟩
  · simp [heq, words, Token.text]
  · simp [heq, words, Token.text, hstop]
  · simp [heq, words, Token.text]
  · simp [heq, words, Token.text, hstop]

theorem close_weight (g : Grammar) (s : State) :
    (g.close s).text.length ≤ s.text.length ∧ (g.close s).weight ≤ s.weight + 1 := by
  obtain ⟨mode, escaped, word, read⟩ := s
  cases word with
  | none => simp [Grammar.close, State.text, State.weight]
  | some text =>
      obtain ⟨hlength, hweight⟩ := endWord_weight g text
      simp only [Grammar.close, State.text, State.weight, Option.map_some, Option.getD_some,
        Option.getD_none, words_append, List.flatten_append, List.append_nil, List.length_append,
        List.countP_append]
      omega

theorem step_cases {s s' : State} {b : UInt8} (h : g.step s b = some s') :
    (s'.read = s.read ∧ s'.word = some (s.word.getD [] ++ [b]) ∧
        (s.Outside → g.isBare s.word.isNone b = true ∧ s' = s.put b)) ∨
      (s'.read = s.read ∧ s'.word.getD [] = s.word.getD [] ∧ isStop b = false ∧
        ∀ text, s.word = some text → s'.word = some text) ∨
      s.Outside ∧ isStop b = true ∧
        (s' = g.close s ∨ s' = { g.close s with read := (g.close s).read ++ [.separator] }) := by
  obtain ⟨mode, escaped, word, read⟩ := s
  rw [Grammar.step] at h
  split at h
  · cases h
  · rename_i h0
    cases escaped with
    | true =>
        left
        rw [if_pos rfl] at h
        split at h
        · cases h
        · cases h
          exact ⟨rfl, rfl, fun hout => absurd hout.2 (by simp)⟩
    | false =>
        simp only [Bool.false_eq_true, if_false] at h
        cases mode with
        | single =>
            have hout : ¬ (⟨.single, false, word, read⟩ : State).Outside := fun hout => by
              cases hout.1
            change some (State.inSingle _ b) = some s' at h
            rw [State.inSingle] at h
            split at h
            · rename_i hquote
              cases h
              exact .inr (.inl ⟨rfl, rfl, hquote ▸ rfl, fun _ h => h⟩)
            · cases h
              exact .inl ⟨rfl, rfl, fun h => absurd h hout⟩
        | double =>
            have hout : ¬ (⟨.double, false, word, read⟩ : State).Outside := fun hout => by
              cases hout.1
            change State.inDouble _ b = some s' at h
            rw [State.inDouble] at h
            split at h
            · rename_i hquote
              cases h
              exact .inr (.inl ⟨rfl, rfl, hquote ▸ rfl, fun _ h => h⟩)
            split at h
            · rename_i hescape
              cases h
              exact .inr (.inl ⟨rfl, rfl, hescape ▸ rfl, fun _ h => h⟩)
            split at h
            · cases h
            · cases h
              exact .inl ⟨rfl, rfl, fun h => absurd h hout⟩
        | bare =>
            change g.inBare _ b = some s' at h
            rw [Grammar.inBare] at h
            split at h
            · rename_i hquote
              cases h
              exact .inr (.inl ⟨rfl, rfl, hquote ▸ rfl, fun text (hword : word = some text) => by
                rw [hword]; rfl⟩)
            split at h
            · rename_i hquote
              cases h
              exact .inr (.inl ⟨rfl, rfl, hquote ▸ rfl, fun text (hword : word = some text) => by
                rw [hword]; rfl⟩)
            split at h
            · rename_i hblank
              cases h
              exact .inr (.inr ⟨⟨rfl, rfl⟩, by rcases hblank with rfl | rfl <;> rfl, .inl rfl⟩)
            split at h
            · rename_i hseparator
              cases h
              exact .inr (.inr ⟨⟨rfl, rfl⟩, hseparator.1 ▸ rfl, .inr rfl⟩)
            split at h
            · rename_i hescape
              cases h
              exact .inr (.inl ⟨rfl, rfl, hescape.1 ▸ rfl, fun text (hword : word = some text) => by
                rw [hword]; rfl⟩)
            split at h
            · cases h
            · rename_i h39 h34 hblank hseparator hescape hspecial
              cases h
              refine .inl ⟨rfl, rfl, fun _ => ⟨?_, rfl⟩⟩
              rw [not_or] at hblank
              have hmarks : ¬ (g.escapes = true ∧ (b = 59 ∨ b = 92)) := by
                rintro ⟨hon, hb | hb⟩
                · exact hseparator ⟨hb, hon⟩
                · exact hescape ⟨hb, hon⟩
              simp only [Bool.not_eq_true] at hspecial
              simp [Grammar.isBare, h0, h39, h34, hblank, hspecial]
              cases hon : g.escapes with
              | false => exact .inl rfl
              | true => exact .inr (by simpa [hon] using hmarks)

theorem step_weight {s s' : State} {b : UInt8} (h : g.step s b = some s') :
    s'.text.length ≤ s.text.length + 1 ∧ s'.weight ≤ s.weight + [b].countP isStop := by
  rcases step_cases h with ⟨hread, hword, -⟩ | ⟨hread, hword, -⟩ | ⟨-, hstop, hclose⟩
  · simp only [State.text, State.weight, hread, hword, Option.getD_some, List.length_append,
      List.countP_append, List.length_singleton]
    omega
  · simp only [State.text, State.weight, hread, hword]
    omega
  · obtain ⟨hlength, hweight⟩ := close_weight g s
    have hone : [b].countP isStop = 1 := by simp [hstop]
    rcases hclose with rfl | rfl
    · omega
    · have hsame : words ((g.close s).read ++ [.separator]) = words (g.close s).read := by
        simp [words, Token.text]
      simp only [State.text, State.weight, hsame] at hlength hweight ⊢
      omega

theorem run_weight {s s' : State} {line : List UInt8} (h : g.run s line = some s') :
    s'.text.length ≤ s.text.length + line.length ∧ s'.weight ≤ s.weight + line.countP isStop := by
  induction line generalizing s with
  | nil =>
      cases h
      simp
  | cons b line ih =>
      rw [run_cons, Option.bind_eq_some_iff] at h
      obtain ⟨mid, hstep, hrest⟩ := h
      obtain ⟨hlength, hweight⟩ := step_weight hstep
      obtain ⟨hlengths, hweights⟩ := ih hrest
      rw [← List.singleton_append, List.countP_append, List.length_append, List.length_singleton]
      omega

theorem run_all {s s' : State} {line : List UInt8} (h : g.run s line = some s') (hs : s.Outside)
    (hall : s.text.length + line.length ≤ s'.text.length) :
    g.areBare s.word.isNone line = true := by
  induction line generalizing s with
  | nil => rfl
  | cons b line ih =>
      rw [run_cons, Option.bind_eq_some_iff] at h
      obtain ⟨mid, hstep, hrest⟩ := h
      have hlater := (run_weight hrest).1
      rw [List.length_cons] at hall
      rcases step_cases hstep with ⟨-, -, hbare⟩ | ⟨hread, hword, -⟩ | ⟨-, -, hclose⟩
      · obtain ⟨hb, rfl⟩ := hbare hs
        have htext : (s.put b).text.length = s.text.length + 1 := by
          simp [State.put, State.text, Nat.add_assoc]
        have hrestBare : g.areBare (s.put b).word.isNone line = true := ih hrest hs (by omega)
        rw [Grammar.areBare, hb]
        exact hrestBare
      · simp only [State.text, hread, hword] at hall hlater
        omega
      · have hlength := (close_weight g s).1
        rcases hclose with rfl | rfl
        · omega
        · have hsame : words ((g.close s).read ++ [.separator]) = words (g.close s).read := by
            simp [words, Token.text]
          simp only [State.text, hsame] at hall hlater hlength
          omega

end Dolgate.CommandLine
