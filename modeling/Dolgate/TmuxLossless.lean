import Dolgate.TmuxInput

set_option autoImplicit false

namespace Dolgate.TmuxInput
open GoBytes CommandLine

def isLiteral (b : UInt8) : Bool := (controlKeyName b).isNone

theorem forall_byte {P : UInt8 → Prop} [DecidablePred P]
    (h : ∀ i < 256, P (UInt8.ofNat i)) (b : UInt8) : P b := by
  have hb := h b.toNat (UInt8.toNat_lt b)
  rwa [UInt8.ofNat_toNat] at hb

theorem keyName_read (b : UInt8) :
    (controlKeyName b).all (fun name => keyByte name = some b && !isFlag name && name ≠ [] &&
      name.all fun c => isPlain c && (c ≠ 92 || b = 28)) = true := by
  revert b
  exact forall_byte (by decide +kernel)

theorem keyName_literal (b : UInt8) : isLiteral b = true → b ≠ 0 ∧ b ≠ 10 := by
  revert b
  exact forall_byte (by decide +kernel)

theorem hexDigit_read {i : Nat} (h : i < 16) :
    hexValue (hexDigit (UInt8.ofNat i)) = some (UInt8.ofNat i) ∧
      isPlain (hexDigit (UInt8.ofNat i)) = true ∧ hexDigit (UInt8.ofNat i) ≠ 92 := by
  revert i
  decide

theorem pairByte_hexByte (b : UInt8) :
    pairByte (hexByte b) = some b ∧ hexByte b ≠ [] ∧
      ∀ c ∈ hexByte b, isPlain c = true ∧ c ≠ 92 := by
  have hb := UInt8.toNat_lt b
  have h16 : (16 : UInt8).toNat = 16 := rfl
  have hhigh : b / 16 = UInt8.ofNat (b.toNat / 16) := by
    rw [← UInt8.toNat_inj, UInt8.toNat_div, UInt8.toNat_ofNat', h16]
    omega
  have hlow : b % 16 = UInt8.ofNat (b.toNat % 16) := by
    rw [← UInt8.toNat_inj, UInt8.toNat_mod, UInt8.toNat_ofNat', h16]
    omega
  have hsum : 16 * UInt8.ofNat (b.toNat / 16) + UInt8.ofNat (b.toNat % 16) = b := by
    rw [← UInt8.toNat_inj, UInt8.toNat_add, UInt8.toNat_mul, UInt8.toNat_ofNat',
      UInt8.toNat_ofNat', h16]
    omega
  obtain ⟨hreadHigh, hplainHigh⟩ := hexDigit_read (show b.toNat / 16 < 16 by omega)
  obtain ⟨hreadLow, hplainLow⟩ := hexDigit_read (show b.toNat % 16 < 16 by omega)
  rw [hexByte, hhigh, hlow, pairByte, hreadHigh, hreadLow]
  simp [hsum, hplainHigh, hplainLow]

def sendWords (n : Nat) : List Word := [ascii "send-keys", ascii "-t", paneID n]

def Plain (ws : List Word) : Prop :=
  ∀ text ∈ ws, text ≠ [] ∧ ∀ b ∈ text, isPlain b = true ∧ b ≠ 92

instance (ws : List Word) : Decidable (Plain ws) :=
  inferInstanceAs (Decidable (∀ text ∈ ws, _))

theorem Plain.append {a b : List Word} (ha : Plain a) (hb : Plain b) : Plain (a ++ b) :=
  fun text htext => (List.mem_append.mp htext).elim (ha text) (hb text)

theorem sendWords_plain (n : Nat) : Plain (sendWords n) := by
  have hfixed : Plain [ascii "send-keys", ascii "-t"] := by decide +kernel
  have hpane : Plain [paneID n] := by
    intro text htext
    cases List.mem_singleton.mp htext
    have hmark : isPlain 37 = true ∧ (37 : UInt8) ≠ 92 := by decide
    have hpercent : ascii "%" = [37] := by decide
    refine ⟨by simp [paneID, hpercent], fun b hb => ?_⟩
    rw [paneID, hpercent, List.singleton_append] at hb
    rcases List.mem_cons.mp hb with rfl | hb
    · exact hmark
    · obtain ⟨hlow, hhigh⟩ := mem_ascii_repr hb
      refine ⟨by simp [isPlain, hlow, hhigh], ?_⟩
      rintro rfl
      revert hhigh
      decide
  exact hfixed.append hpane

theorem plain_no_newline {text : Word} (h : ∀ b ∈ text, isPlain b = true) : 10 ∉ text := by
  intro hmem
  have hplain := h 10 hmem
  revert hplain
  decide

theorem Plain.no_newline {ws : List Word} (h : Plain ws) :
    10 ∉ ws.flatMap fun text => text ++ [32] := by
  intro hmem
  obtain ⟨text, htext, hmem⟩ := List.mem_flatMap.mp hmem
  rcases List.mem_append.mp hmem with hmem | hmem
  · exact plain_no_newline (fun b hb => ((h text htext).2 b hb).1) hmem
  · exact absurd (List.mem_singleton.mp hmem) (by decide)

variable (g : Grammar) (n : Nat)

theorem lineBytes_line {line : List UInt8} (h : 10 ∉ line) (paneID : List UInt8) :
    lineBytes g paneID (line ++ [10]) =
      (g.commands line).bind fun cmds => (cmds.mapM (commandBytes paneID)).map List.flatten := by
  rw [lineBytes, List.getLast?_concat, List.dropLast_concat, if_neg (by simp [h])]
  cases g.commands line with
  | none => rfl
  | some cmds => cases hcmds : cmds.mapM (commandBytes paneID) <;> simp [hcmds]

theorem commandBytes_sendWords (args : List Word) :
    commandBytes (paneID n) (sendWords n ++ args) = argumentBytes args := by
  simp [sendWords, commandBytes]

theorem sendWords_blanks :
    ascii "send-keys -t " ++ paneID n ++ ascii " " =
      (sendWords n).flatMap fun text => text ++ [32] := by
  have hfixed : ascii "send-keys -t " = ascii "send-keys" ++ [32] ++ (ascii "-t" ++ [32]) := by
    decide
  have hblank : ascii " " = [32] := by decide
  simp [sendWords, hfixed, hblank]

theorem sendKey_eq (name : List UInt8) :
    sendKey (paneID n) name =
      (((sendWords n).flatMap fun text => text ++ [32]) ++ name) ++ [10] := by
  rw [sendKey, sendWords_blanks]
  rfl

theorem sendKey_line {name : Word} (h : 10 ∉ name) :
    ∃ line, sendKey (paneID n) name = line ++ [10] ∧ 10 ∉ line :=
  ⟨_, sendKey_eq n name, by simp [(sendWords_plain n).no_newline, h]⟩

theorem sendKey_commands (name : Word) :
    g.commands (sendKey (paneID n) name).dropLast = g.rest (sendWords n) name := by
  rw [sendKey_eq, List.dropLast_concat, commands_words (sendWords_plain n)]

theorem lineBytes_sendKey {name : Word} (h : 10 ∉ name) :
    lineBytes g (paneID n) (sendKey (paneID n) name) =
      (g.rest (sendWords n) name).bind fun cmds =>
        (cmds.mapM (commandBytes (paneID n))).map List.flatten := by
  have hline : 10 ∉ ((sendWords n).flatMap fun text => text ++ [32]) ++ name := by
    simp [(sendWords_plain n).no_newline, h]
  rw [sendKey_eq, lineBytes_line g hline, commands_words (sendWords_plain n)]

theorem argumentBytes_key {name : Word} {b : UInt8} (hkey : keyByte name = some b)
    (hflag : isFlag name = false) : argumentBytes [name] = some [b] := by
  have hflags : isFlag (ascii "-H") = true ∧ isFlag (ascii "-l") = true := by decide
  have hhex : name ≠ ascii "-H" := by
    rintro rfl
    simp [hflags] at hflag
  have hliteral : name ≠ ascii "-l" := by
    rintro rfl
    simp [hflags] at hflag
  simp [argumentBytes, hhex, hliteral, hflag, hkey]

theorem rest_keyBackslash (h : g.escapes = true) (ws : List Word) :
    g.rest ws (ascii "C-\\") = none := by
  have hname : ascii "C-\\" = [67, 45] ++ [92] := by decide
  have hplain : ∀ b ∈ ([67, 45] : List UInt8), isPlain b = true ∧ b ≠ 92 := by decide +kernel
  have hbare : g.areBare true [67, 45] = true :=
    areBare_plain (fun b hb => ⟨(hplain b hb).1, fun _ => (hplain b hb).2⟩) true
  rw [hname, Grammar.rest, run_append,
    run_bare ⟨rfl, rfl⟩ hbare (by simp), Option.bind_some, run_cons]
  simp [Grammar.step, Grammar.inBare, State.after, State.puts, State.enter, h, run_nil,
    Grammar.finish]

theorem singleQuote_eq (s : List UInt8) : singleQuote s = quoteWith [34, 39, 34] s := by
  have hmid : ascii "'\"'\"'" = 39 :: ([34, 39, 34] ++ [39]) := by decide
  have hquote : ascii "'" = [39] := by decide
  rw [singleQuote, replaceQuotes, hmid, hquote, quoteWith]
  simp

def sendLiteral (paneID text : List UInt8) : List UInt8 :=
  ascii "send-keys -t " ++ paneID ++ ascii " -l " ++ singleQuote text ++ ascii "\n"

theorem literalWords_plain : Plain (sendWords n ++ [ascii "-l"]) :=
  (sendWords_plain n).append (by decide +kernel)

theorem sendLiteral_eq (text : List UInt8) :
    sendLiteral (paneID n) text =
      (((sendWords n ++ [ascii "-l"]).flatMap fun word => word ++ [32]) ++
        quoteWith [34, 39, 34] text) ++ [10] := by
  have hflag : ascii " -l " = ascii " " ++ (ascii "-l" ++ [32]) := by decide
  have hnewline : ascii "\n" = [10] := by decide
  rw [sendLiteral, singleQuote_eq, hflag, ← List.append_assoc _ (ascii " "), sendWords_blanks,
    hnewline, List.flatMap_append]
  simp

theorem sendLiteral_no_newline {text : List UInt8} (h : 10 ∉ text) :
    10 ∉ ((sendWords n ++ [ascii "-l"]).flatMap fun word => word ++ [32]) ++
      quoteWith [34, 39, 34] text := by
  rw [List.mem_append, not_or]
  refine ⟨(literalWords_plain n).no_newline, fun hmem => ?_⟩
  rw [quoteWith, List.cons_append, List.mem_cons, List.mem_append, List.mem_flatMap] at hmem
  rcases hmem with hmem | ⟨b, hb, hmem⟩ | hmem
  · exact absurd hmem (by decide)
  · split at hmem
    · revert hmem
      decide
    · exact h (List.mem_singleton.mp hmem ▸ hb)
  · exact absurd hmem (by decide)

theorem sendLiteral_commands {text : List UInt8} (hnul : 0 ∉ text) :
    g.commands (sendLiteral (paneID n) text).dropLast =
      some (commandsFrom [] ((sendWords n ++ [ascii "-l"]).map .word ++ g.endWord text)) := by
  rw [sendLiteral_eq, List.dropLast_concat, commands_words (literalWords_plain n),
    rest_quotes (quotes_double g) hnul]

theorem argumentBytes_literal {args : List Word} (h : ∀ text ∈ args, text.head? ≠ some 45) :
    argumentBytes (ascii "-l" :: args) = some args.flatten := by
  have hhex : ascii "-l" ≠ ascii "-H" := by decide
  have hflag : args.head?.any isFlag = false := by
    cases args with
    | nil => rfl
    | cons text args => simp [isFlag, h text List.mem_cons_self]
  rw [argumentBytes, if_neg hhex, if_pos rfl, hflag]
  rfl

theorem endWord_head {text w : Word} (h : text.head? ≠ some 45)
    (hw : w ∈ words (g.endWord text)) : w.head? ≠ some 45 := by
  rw [List.head?_eq_getElem?] at h ⊢
  rcases endWord_getElem hw 0 with heq | heq | heq
  · rwa [heq]
  · simp [heq]
  · simp [heq]

theorem sendLiteral_bytes {text : List UInt8} (hnul : 0 ∉ text) (hnewline : 10 ∉ text)
    (hhead : text.head? ≠ some 45) :
    lineBytes g (paneID n) (sendLiteral (paneID n) text) =
      some (words (g.endWord text)).flatten := by
  have hargs : sendWords n ++ [ascii "-l"] ++ words (g.endWord text) =
      sendWords n ++ (ascii "-l" :: words (g.endWord text)) := by simp
  rw [sendLiteral_eq, lineBytes_line g (sendLiteral_no_newline n hnewline),
    commands_words (literalWords_plain n), rest_quotes (quotes_double g) hnul, Option.bind_some,
    commandsFrom_endWord (by simp), hargs]
  simp [commandBytes_sendWords,
    argumentBytes_literal fun w hw => endWord_head g hhead hw]

theorem sentBytes_cons (paneID cmd : List UInt8) (cmds : List (List UInt8)) :
    sentBytes g paneID (cmd :: cmds) =
      (lineBytes g paneID cmd).bind fun first =>
        (sentBytes g paneID cmds).map fun more => first ++ more := by
  rw [sentBytes, sentBytes, List.mapM_cons]
  cases lineBytes g paneID cmd with
  | none => rfl
  | some first => cases cmds.mapM (lineBytes g paneID) <;> simp

theorem sentBytes_append (paneID : List UInt8) (a b : List (List UInt8)) :
    sentBytes g paneID (a ++ b) =
      (sentBytes g paneID a).bind fun first =>
        (sentBytes g paneID b).map fun more => first ++ more := by
  induction a with
  | nil =>
      have hnil : sentBytes g paneID [] = some [] := rfl
      rw [List.nil_append, hnil, Option.bind_some]
      cases sentBytes g paneID b <;> simp
  | cons cmd a ih =>
      rw [List.cons_append, sentBytes_cons, sentBytes_cons, ih]
      cases lineBytes g paneID cmd with
      | none => rfl
      | some first =>
          cases sentBytes g paneID a with
          | none => rfl
          | some more => cases sentBytes g paneID b <;> simp

def Literal (run : List UInt8) : Prop := ∀ b ∈ run, isLiteral b = true

theorem Literal.no_control {run : List UInt8} (h : Literal run) : 0 ∉ run ∧ 10 ∉ run :=
  ⟨fun hmem => (keyName_literal 0 (h 0 hmem)).1 rfl,
    fun hmem => (keyName_literal 10 (h 10 hmem)).2 rfl⟩

theorem Literal.concat {run : List UInt8} (h : Literal run) {b : UInt8}
    (hb : controlKeyName b = none) : Literal (run ++ [b]) := by
  intro c hc
  rcases List.mem_append.mp hc with hc | hc
  · exact h c hc
  · rw [List.mem_singleton.mp hc, isLiteral, hb]
    rfl

theorem literalSendKeys_other (paneID : List UInt8) {run : List UInt8} (hne : run ≠ [])
    (h : run.head? ≠ some 45) : literalSendKeys paneID run = [sendLiteral paneID run] := by
  fun_cases literalSendKeys paneID run with
  | case1 => exact absurd rfl hne
  | case2 rest => simp at h
  | case3 => rfl

theorem dash_rest (ws : List Word) : g.rest ws (ascii "-") = some [ws ++ [ascii "-"]] := by
  have hdash : ascii "-" = [45] := by decide
  have hplain : ∀ b ∈ ([45] : List UInt8), isPlain b = true ∧ b ≠ 92 := by decide +kernel
  have hbare : g.Bare [45] :=
    bare_plain fun b hb => ⟨(hplain b hb).1, fun _ => (hplain b hb).2⟩
  rw [hdash]
  exact (rest_bare_iff (by simp)).mpr hbare

theorem dash_bytes : lineBytes g (paneID n) (sendKey (paneID n) (ascii "-")) = some [45] := by
  have hread : keyByte (ascii "-") = some 45 ∧ isFlag (ascii "-") = false := by decide
  rw [lineBytes_sendKey g n (by decide), dash_rest]
  simp [commandBytes_sendWords, argumentBytes_key hread.1 hread.2]

theorem literalSendKeys_sent {run : List UInt8} (h : Literal run) :
    ∃ sent, sentBytes g (paneID n) (literalSendKeys (paneID n) run) = some sent ∧
      sent.length ≤ run.length ∧
      (sent = run ↔ (g.escapes = false → run.getLast? ≠ some 59)) := by
  induction run with
  | nil => exact ⟨[], rfl, le_rfl, by simp⟩
  | cons b run ih =>
      have hrun : Literal run := fun c hc => h c (List.mem_cons_of_mem b hc)
      by_cases hdash : b = 45
      · subst hdash
        obtain ⟨sent, hsent, hlength, hall⟩ := ih hrun
        refine ⟨45 :: sent, ?_, by simpa using hlength, ?_⟩
        · rw [literalSendKeys, sentBytes_cons, dash_bytes, hsent]
          rfl
        · rw [List.cons.injEq, and_iff_right rfl, hall]
          cases run with
          | nil => simp
          | cons c run => rw [List.getLast?_cons_cons]
      · obtain ⟨hnul, hnewline⟩ := h.no_control
        have hhead : (b :: run).head? ≠ some 45 := by simpa using hdash
        refine ⟨(words (g.endWord (b :: run))).flatten, ?_, (endWord_weight g _).1,
          endWord_flatten_iff _⟩
        rw [literalSendKeys_other _ (by simp) hhead, sentBytes_cons,
          sendLiteral_bytes g n hnul hnewline hhead]
        simp [sentBytes]

/-- Each `;` has a byte of the same run behind it. -/
def Followed : List UInt8 → Prop
  | [] => True
  | b :: rest => (b = 59 → rest.head?.any isLiteral = true) ∧ Followed rest

instance : (data : List UInt8) → Decidable (Followed data)
  | [] => isTrue trivial
  | _ :: rest => @instDecidableAnd _ _ _ (instDecidableFollowed rest)

/-- What the legacy path can send: where quotes do not hold a `;`, a byte must follow each one, and
where a backslash escapes, `C-\\` cannot be named. -/
def Sendable (data : List UInt8) : Prop := if g.escapes then 28 ∉ data else Followed data

instance (data : List UInt8) : Decidable (Sendable g data) :=
  inferInstanceAs (Decidable (if g.escapes then 28 ∉ data else Followed data))

theorem followed_run {run : List UInt8} (h : Literal run) (rest : List UInt8) :
    Followed (run ++ rest) ↔
      (run.getLast? = some 59 → rest.head?.any isLiteral = true) ∧ Followed rest := by
  induction run with
  | nil => simp
  | cons b run ih =>
      rw [List.cons_append, Followed, ih fun c hc => h c (List.mem_cons_of_mem b hc)]
      cases run with
      | nil => simp
      | cons c run =>
          have hc : isLiteral c = true := h c (by simp)
          rw [List.getLast?_cons_cons]
          simp [hc]

theorem sendable_run {run : List UInt8} (h : Literal run) :
    Sendable g run ↔ (g.escapes = false → run.getLast? ≠ some 59) := by
  have h28 : 28 ∉ run := fun hmem => by
    have hlit := h 28 hmem
    revert hlit
    decide
  have hrun := followed_run h []
  rw [List.append_nil] at hrun
  cases hescapes : g.escapes with
  | true => simp [Sendable, hescapes, h28]
  | false => simp [Sendable, hescapes, hrun, Followed]

theorem sendable_control {run : List UInt8} (h : Literal run) {b : UInt8}
    (hb : isLiteral b = false) (rest : List UInt8) :
    Sendable g (run ++ b :: rest) ↔
      (g.escapes = false → run.getLast? ≠ some 59) ∧ (g.escapes = true → b ≠ 28) ∧
        Sendable g rest := by
  have h28 : 28 ∉ run := fun hmem => by
    have hlit := h 28 hmem
    revert hlit
    decide
  have h59 : b ≠ 59 := by
    rintro rfl
    revert hb
    decide
  cases hescapes : g.escapes with
  | true => simp [Sendable, hescapes, h28, eq_comm]
  | false => simp [Sendable, hescapes, followed_run h, Followed, hb, h59]

theorem controlKey_rest {b : UInt8} {name : List UInt8} (hname : controlKeyName b = some name)
    (ws : List Word) :
    (g.escapes = true → b ≠ 28) ∧ g.rest ws name = some [ws ++ [name]] ∨
      (g.escapes = true ∧ b = 28) ∧ g.rest ws name = none := by
  have hread := keyName_read b
  rw [hname, Option.all_some] at hread
  simp only [Bool.and_eq_true, decide_eq_true_eq, Bool.not_eq_true', List.all_eq_true,
    Bool.or_eq_true] at hread
  obtain ⟨⟨-, hne⟩, hplain⟩ := hread
  by_cases hlost : g.escapes = true ∧ b = 28
  · right
    have hbackslash : controlKeyName 28 = some (ascii "C-\\") := by decide
    rw [hlost.2, hbackslash, Option.some.injEq] at hname
    exact ⟨hlost, hname ▸ rest_keyBackslash g hlost.1 ws⟩
  · left
    refine ⟨fun hescapes hb => hlost ⟨hescapes, hb⟩, (rest_bare_iff hne).mpr ?_⟩
    refine bare_plain fun c hc => ⟨(hplain c hc).1, fun hescapes => ?_⟩
    exact (hplain c hc).2.resolve_right fun hb => hlost ⟨hescapes, hb⟩

theorem controlKey_no_newline {b : UInt8} {name : List UInt8}
    (hname : controlKeyName b = some name) : 10 ∉ name := by
  have hread := keyName_read b
  rw [hname, Option.all_some] at hread
  simp only [Bool.and_eq_true, List.all_eq_true] at hread
  exact plain_no_newline fun c hc => (hread.2 c hc).1

theorem controlKey_sent {b : UInt8} {name : List UInt8} (hname : controlKeyName b = some name) :
    (g.escapes = true → b ≠ 28) ∧ lineBytes g (paneID n) (sendKey (paneID n) name) = some [b] ∨
      (g.escapes = true ∧ b = 28) ∧ lineBytes g (paneID n) (sendKey (paneID n) name) = none := by
  have hread := keyName_read b
  rw [hname, Option.all_some] at hread
  simp only [Bool.and_eq_true, decide_eq_true_eq, Bool.not_eq_true'] at hread
  obtain ⟨⟨⟨hkey, hflag⟩, -⟩, -⟩ := hread
  rw [lineBytes_sendKey g n (controlKey_no_newline hname)]
  rcases controlKey_rest g hname (sendWords n) with ⟨hb, hrest⟩ | ⟨hb, hrest⟩
  · left
    rw [hrest]
    simpa [commandBytes_sendWords, argumentBytes_key hkey hflag] using hb
  · right
    rw [hrest]
    exact ⟨hb, rfl⟩

theorem encodeFrom_length {run data sent : List UInt8} (h : Literal run)
    (hsent : sentBytes g (paneID n) (encodeFrom (paneID n) run data) = some sent) :
    sent.length ≤ run.length + data.length := by
  induction data generalizing run sent with
  | nil =>
      obtain ⟨first, hfirst, hlength, -⟩ := literalSendKeys_sent g n h
      rw [encodeFrom, hfirst, Option.some.injEq] at hsent
      rw [← hsent]
      exact hlength
  | cons b rest ih =>
      rw [encodeFrom] at hsent
      cases hname : controlKeyName b with
      | none =>
          have hrun := h.concat hname
          rw [hname] at hsent
          have hlength := ih hrun hsent
          rw [List.length_append, List.length_singleton] at hlength
          rw [List.length_cons]
          omega
      | some name =>
          obtain ⟨first, hfirst, hlength, -⟩ := literalSendKeys_sent g n h
          rw [hname] at hsent
          simp only [sentBytes_append, hfirst, sentBytes_cons, Option.bind_some] at hsent
          rcases controlKey_sent g n hname with ⟨-, hkey⟩ | ⟨-, hkey⟩
          · rw [hkey, Option.bind_some, Option.map_map, Option.map_eq_some_iff] at hsent
            obtain ⟨more, hmore, rfl⟩ := hsent
            have hnil : Literal [] := by simp [Literal]
            have hrest := ih hnil hmore
            simp only [Function.comp_apply, List.length_append, List.length_cons,
              List.length_nil] at hrest ⊢
            omega
          · simp [hkey] at hsent

theorem encodeFrom_sent {run data : List UInt8} (h : Literal run) :
    sentBytes g (paneID n) (encodeFrom (paneID n) run data) = some (run ++ data) ↔
      Sendable g (run ++ data) := by
  induction data generalizing run with
  | nil =>
      obtain ⟨first, hfirst, -, hall⟩ := literalSendKeys_sent g n h
      rw [encodeFrom, hfirst, Option.some.injEq, List.append_nil, hall, sendable_run g h]
  | cons b rest ih =>
      rw [encodeFrom]
      cases hname : controlKeyName b with
      | none =>
          have hrun := h.concat hname
          have hrest := ih hrun
          rw [List.append_assoc, List.singleton_append] at hrest
          exact hrest
      | some name =>
          obtain ⟨first, hfirst, hlength, hall⟩ := literalSendKeys_sent g n h
          have hcontrol : isLiteral b = false := by
            rw [isLiteral, hname]
            rfl
          have hnil : Literal [] := by simp [Literal]
          rw [sendable_control g h hcontrol, ← hall]
          simp only [sentBytes_append, hfirst, sentBytes_cons, Option.bind_some]
          rcases controlKey_sent g n hname with ⟨hb, hkey⟩ | ⟨hb, hkey⟩
          · have hrest := ih hnil
            rw [List.nil_append] at hrest
            rw [hkey, Option.bind_some, Option.map_map, Option.map_eq_some_iff, ← hrest]
            constructor
            · rintro ⟨more, hmore, heq⟩
              have hmoreLength := encodeFrom_length g n hnil hmore
              have hlengths := congrArg List.length heq
              simp only [Function.comp_apply, List.length_append, List.length_cons,
                List.length_nil, Nat.zero_add] at hmoreLength hlengths
              obtain ⟨hfirstEq, hmoreEq⟩ := List.append_inj heq (by omega)
              exact ⟨hfirstEq, hb, by simpa [← List.cons.inj hmoreEq] using hmore⟩
            · rintro ⟨rfl, -, hmore⟩
              exact ⟨rest, hmore, rfl⟩
          · simp [hkey, hb]

def hexWords (data : List UInt8) : List Word := sendWords n ++ ascii "-H" :: data.map hexByte

theorem hexWords_plain (data : List UInt8) : Plain (hexWords n data) := by
  refine (sendWords_plain n).append fun text htext => ?_
  rcases List.mem_cons.mp htext with rfl | htext
  · decide +kernel
  · obtain ⟨b, -, rfl⟩ := List.mem_map.mp htext
    exact (pairByte_hexByte b).2

theorem hexWords_line {data : List UInt8} (hne : data ≠ []) :
    ascii "send-keys -t " ++ paneID n ++ ascii " -H " ++ hexBytes data =
      [32].intercalate (hexWords n data) := by
  have hflag : ascii " -H " = ascii " " ++ (ascii "-H" ++ [32]) := by decide
  have hblank : ascii " " = [32] := by decide
  rcases List.eq_nil_or_concat' (data.map hexByte) with hnil | ⟨init, last, hlast⟩
  · exact absurd (List.map_eq_nil_iff.mp hnil) hne
  · have hwords : hexWords n data = (sendWords n ++ ascii "-H" :: init) ++ [last] := by
      simp [hexWords, hlast]
    rw [hexBytes, hlast, hblank, intercalate_blank, hwords, intercalate_blank,
      List.flatMap_append, ← sendWords_blanks, hflag]
    simp [hblank]

theorem Plain.intercalate_no_newline {ws : List Word} (h : Plain ws) :
    10 ∉ [32].intercalate ws := by
  rcases List.eq_nil_or_concat' ws with rfl | ⟨init, last, rfl⟩
  · simp
  · rw [intercalate_blank, List.mem_append, not_or]
    have hlast := (h last (by simp)).2
    have hinit : Plain init := fun text htext => h text (List.mem_append_left _ htext)
    exact ⟨hinit.no_newline, plain_no_newline fun b hb => (hlast b hb).1⟩

theorem mapM_pairByte (data : List UInt8) : (data.map hexByte).mapM pairByte = some data := by
  induction data with
  | nil => rfl
  | cons b data ih => simp [(pairByte_hexByte b).1, ih]

/-- What the commands have to do: each is one line, no literal of theirs begins with a dash, and
together they send the data. -/
structure Lossless (data : List UInt8) (cmds : List (List UInt8)) : Prop where
  line : ∀ cmd ∈ cmds, ∃ line, cmd = line ++ [10] ∧ 10 ∉ line
  literal : ∀ cmd ∈ cmds, ∀ args,
    g.commands cmd.dropLast = some [sendWords n ++ ascii "-l" :: args] →
      ∀ text ∈ args, text.head? ≠ some 45
  bytes : sentBytes g (paneID n) cmds = some data

inductive Legacy : List UInt8 → Prop
  | key {b : UInt8} {name : List UInt8} (hname : controlKeyName b = some name) :
      Legacy (sendKey (paneID n) name)
  | dash : Legacy (sendKey (paneID n) (ascii "-"))
  | literal {text : List UInt8} (htext : Literal text) (hhead : text.head? ≠ some 45) :
      Legacy (sendLiteral (paneID n) text)

theorem literalSendKeys_legacy {run : List UInt8} (h : Literal run) :
    ∀ cmd ∈ literalSendKeys (paneID n) run, Legacy n cmd := by
  induction run with
  | nil => simp [literalSendKeys]
  | cons b run ih =>
      intro cmd hcmd
      by_cases hdash : b = 45
      · subst hdash
        rw [literalSendKeys, List.mem_cons] at hcmd
        rcases hcmd with rfl | hcmd
        · exact .dash
        · exact ih (fun c hc => h c (List.mem_cons_of_mem 45 hc)) cmd hcmd
      · have hhead : (b :: run).head? ≠ some 45 := by simpa using hdash
        rw [literalSendKeys_other _ (by simp) hhead, List.mem_singleton] at hcmd
        exact hcmd ▸ .literal h hhead

theorem encodeFrom_legacy {run data : List UInt8} (h : Literal run) :
    ∀ cmd ∈ encodeFrom (paneID n) run data, Legacy n cmd := by
  induction data generalizing run with
  | nil => exact literalSendKeys_legacy n h
  | cons b rest ih =>
      intro cmd hcmd
      rw [encodeFrom] at hcmd
      cases hname : controlKeyName b with
      | none =>
          rw [hname] at hcmd
          exact ih (h.concat hname) cmd hcmd
      | some name =>
          simp only [hname, List.mem_append, List.mem_cons] at hcmd
          rcases hcmd with hcmd | rfl | hcmd
          · exact literalSendKeys_legacy n h cmd hcmd
          · exact .key hname
          · exact ih (by simp [Literal]) cmd hcmd

theorem Legacy.line {cmd : List UInt8} (h : Legacy n cmd) :
    ∃ line, cmd = line ++ [10] ∧ 10 ∉ line := by
  cases h with
  | key hname => exact sendKey_line n (controlKey_no_newline hname)
  | dash => exact sendKey_line n (by decide)
  | literal htext hhead =>
      exact ⟨_, sendLiteral_eq n _, sendLiteral_no_newline n htext.no_control.2⟩

theorem Legacy.no_dash {cmd : List UInt8} (h : Legacy n cmd) {args : List Word}
    (hread : g.commands cmd.dropLast = some [sendWords n ++ ascii "-l" :: args]) :
    ∀ text ∈ args, text.head? ≠ some 45 := by
  -- A key leaves no arguments behind the first.
  have hkey : ∀ name, some [sendWords n ++ [name]] = some [sendWords n ++ ascii "-l" :: args] →
      args = [] := by
    intro name heq
    simp only [Option.some.injEq, List.cons.injEq, List.append_cancel_left_eq] at heq
    exact heq.1.2.symm
  cases h with
  | key hname =>
      rw [sendKey_commands] at hread
      rcases controlKey_rest g hname (sendWords n) with ⟨-, hrest⟩ | ⟨-, hrest⟩
      · rw [hkey _ (hrest.symm.trans hread)]
        simp
      · rw [hrest] at hread
        cases hread
  | dash =>
      rw [sendKey_commands] at hread
      rw [hkey _ ((dash_rest g _).symm.trans hread)]
      simp
  | literal htext hhead =>
      rw [sendLiteral_commands g n htext.no_control.1, commandsFrom_endWord (by simp),
        List.append_assoc, List.singleton_append] at hread
      simp only [Option.some.injEq, List.cons.injEq, List.append_cancel_left_eq, true_and,
        and_true] at hread
      exact fun text htext => endWord_head g hhead (hread ▸ htext)

/-- The input arrives as it is by pairs of hex digits; by literals and keys it does exactly if it
is sendable. -/
theorem encodeInput_lossless_iff (data : List UInt8) (ver : TmuxVersion) :
    Lossless g n data (encodeInput (paneID n) data ver) ↔
      ver.supportsSendKeysHex = true ∨ Sendable g data := by
  by_cases hne : data = []
  · subst hne
    have hsendable : Sendable g [] := by
      cases hescapes : g.escapes <;> simp [Sendable, hescapes, Followed]
    exact iff_of_true ⟨by simp [encodeInput], by simp [encodeInput], rfl⟩ (.inr hsendable)
  · cases hhex : ver.supportsSendKeysHex with
    | true =>
        have hwords := hexWords_plain n data
        have hcmd : encodeInput (paneID n) data ver =
            [[32].intercalate (hexWords n data) ++ [10]] := by
          have hnewline : ascii "\n" = [10] := by decide
          rw [encodeInput, if_neg hne, if_pos hhex, hexWords_line n hne, hnewline]
        have hcommands : g.commands ([32].intercalate (hexWords n data)) =
            some [hexWords n data] := commands_plain (by simp [hexWords]) hwords
        refine iff_of_true ⟨?_, ?_, ?_⟩ (.inl rfl)
        · simp [hcmd, hwords.intercalate_no_newline]
        · rw [hcmd]
          intro cmd hmem args hread
          have hflag : ascii "-H" ≠ ascii "-l" := by decide
          rw [List.mem_singleton.mp hmem, List.dropLast_concat, hcommands] at hread
          simp [hexWords, hflag] at hread
        · have hflag : argumentBytes (ascii "-H" :: data.map hexByte) = some data := by
            rw [argumentBytes, if_pos rfl, mapM_pairByte]
          rw [hcmd, sentBytes_cons, lineBytes_line g hwords.intercalate_no_newline, hcommands]
          simp [hexWords, commandBytes_sendWords, hflag, sentBytes]
    | false =>
        have hcmds : encodeInput (paneID n) data ver = encodeFrom (paneID n) [] data := by
          rw [encodeInput, if_neg hne, hhex]
          rfl
        have hnil : Literal [] := by simp [Literal]
        have hsent : sentBytes g (paneID n) (encodeFrom (paneID n) [] data) = some ([] ++ data) ↔
            Sendable g ([] ++ data) := encodeFrom_sent g n hnil
        rw [List.nil_append] at hsent
        rw [hcmds, ← hsent]
        simp only [Bool.false_eq_true, false_or]
        exact ⟨fun h => h.bytes, fun h =>
          ⟨fun cmd hcmd => (encodeFrom_legacy n hnil cmd hcmd).line,
            fun cmd hcmd _ hread => Legacy.no_dash g n (encodeFrom_legacy n hnil cmd hcmd) hread,
            h⟩⟩

/-- A semicolon alone does not reach a pane of 2.6, nor does Ctrl-\ one of 3.0. -/
theorem encodeInput_loses :
    sentBytes until29 (paneID 0) (encodeInput (paneID 0) [59] ⟨2, 6, 0, true⟩) = some [] ∧
      sentBytes since30 (paneID 0) (encodeInput (paneID 0) [28] ⟨3, 0, 0, true⟩) = none := by
  decide

end Dolgate.TmuxInput
