import Dolgate.TmuxLossless

set_option autoImplicit false

namespace Dolgate.TmuxNames
open GoBytes CommandLine TmuxInput

def quoted (name : List UInt8) : List UInt8 :=
  ascii "'" ++ replaceQuotes name (ascii "'\\''") ++ ascii "'"

def renameWindow (windowID name : List UInt8) : Option (List UInt8) :=
  if windowID = [] then none
  else some (ascii "rename-window -t " ++ windowID ++ ascii " " ++ quoted name ++ ascii "\n")

def killSession (sessionName : List UInt8) : Option (List UInt8) :=
  if sessionName = [] then none
  else some (ascii "kill-session -t " ++ quoted sessionName ++ ascii "\n")

def selectWindow (windowID : List UInt8) : Option (List UInt8) :=
  if windowID = [] then none
  else some (ascii "select-window -t " ++ windowID ++ ascii "\n")

def killWindow (windowID : List UInt8) : Option (List UInt8) :=
  if windowID = [] then none
  else some (ascii "kill-window -t " ++ windowID ++ ascii "\n")

inductive Request where
  | renameWindow (windowID name : List UInt8)
  | killSession (sessionName : List UInt8)
  | selectWindow (windowID : List UInt8)
  | killWindow (windowID : List UInt8)
  deriving DecidableEq, Repr

def Request.written : Request → Option (List UInt8)
  | .renameWindow windowID name => TmuxNames.renameWindow windowID name
  | .killSession sessionName => TmuxNames.killSession sessionName
  | .selectWindow windowID => TmuxNames.selectWindow windowID
  | .killWindow windowID => TmuxNames.killWindow windowID

def Request.command : Request → List Word
  | .renameWindow windowID name => [ascii "rename-window", ascii "-t", windowID, name]
  | .killSession sessionName => [ascii "kill-session", ascii "-t", sessionName]
  | .selectWindow windowID => [ascii "select-window", ascii "-t", windowID]
  | .killWindow windowID => [ascii "kill-window", ascii "-t", windowID]

variable (g : Grammar)

/-- The bytes are one line, which is read as the one command; behind the value of `-t` there are
arguments and no flags. -/
def ReadAs (bytes : List UInt8) (command : List Word) : Prop :=
  ∃ line, bytes = line ++ [10] ∧ 10 ∉ line ∧ g.commands line = some [command] ∧
    ∀ text ∈ command.drop 3, isFlag text = false

/-- No line break anywhere, nothing in an id that needs quotes, and a name that quotes can carry
and that is not taken for a flag. -/
def Request.Safe : Request → Prop
  | .renameWindow windowID name =>
      windowID = [] ∨
        (10 ∉ windowID ∧ g.Bare windowID) ∧ 10 ∉ name ∧ g.Quotable name ∧ isFlag name = false
  | .killSession sessionName => sessionName = [] ∨ 10 ∉ sessionName ∧ g.Quotable sessionName
  | .selectWindow windowID => windowID = [] ∨ 10 ∉ windowID ∧ g.Bare windowID
  | .killWindow windowID => windowID = [] ∨ 10 ∉ windowID ∧ g.Bare windowID

theorem quoted_eq (name : List UInt8) : quoted name = quoteWith [92, 39] name := by
  have hmid : ascii "'\\''" = 39 :: ([92, 39] ++ [39]) := by decide
  have hquote : ascii "'" = [39] := by decide
  rw [quoted, replaceQuotes, hmid, hquote, quoteWith]
  simp

theorem quoteWith_newline (name : List UInt8) : 10 ∈ quoteWith [92, 39] name ↔ 10 ∈ name := by
  rw [quoteWith, List.cons_append, List.mem_cons, List.mem_append, List.mem_flatMap]
  constructor
  · rintro (h | ⟨b, hb, hmem⟩ | h)
    · exact absurd h (by decide)
    · split at hmem
      · exact absurd hmem (by decide)
      · exact List.mem_singleton.mp hmem ▸ hb
    · exact absurd h (by decide)
  · exact fun h => .inr (.inl ⟨10, h, by decide⟩)

theorem readAs_iff {ws : List Word} (h : Plain ws) (rest : List UInt8) (command : List Word) :
    ReadAs g (((ws.flatMap fun text => text ++ [32]) ++ rest) ++ [10]) command ↔
      10 ∉ rest ∧ g.rest ws rest = some [command] ∧
        ∀ text ∈ command.drop 3, isFlag text = false := by
  rw [← commands_words h]
  constructor
  · rintro ⟨line, hline, hnewline, hcommands, hflags⟩
    obtain rfl := List.append_cancel_right hline
    exact ⟨fun hmem => hnewline (List.mem_append_right _ hmem), hcommands, hflags⟩
  · rintro ⟨hnewline, hcommands, hflags⟩
    exact ⟨_, rfl, by simp [h.no_newline, hnewline], hcommands, hflags⟩

theorem readAs_window {name : Word} (h : Plain [name, ascii "-t"]) {windowID : List UInt8}
    (hne : windowID ≠ []) :
    ReadAs g (name ++ [32] ++ (ascii "-t" ++ [32]) ++ windowID ++ [10])
        [name, ascii "-t", windowID] ↔
      10 ∉ windowID ∧ g.Bare windowID := by
  have hline : name ++ [32] ++ (ascii "-t" ++ [32]) ++ windowID =
      ([name, ascii "-t"].flatMap fun text => text ++ [32]) ++ windowID := by simp
  have hrest : g.rest [name, ascii "-t"] windowID = some [[name, ascii "-t"] ++ [windowID]] ↔
      g.Bare windowID := rest_bare_iff hne
  rw [hline, readAs_iff g h, ← hrest]
  simp

theorem readAs_rename {windowID name : List UInt8} (hne : windowID ≠ []) :
    ReadAs g (ascii "rename-window -t " ++ windowID ++ ascii " " ++ quoted name ++ ascii "\n")
        (Request.renameWindow windowID name).command ↔
      (10 ∉ windowID ∧ g.Bare windowID) ∧ 10 ∉ name ∧ g.Quotable name ∧ isFlag name = false := by
  have hplain : Plain [ascii "rename-window", ascii "-t"] := by decide +kernel
  have hfixed : ascii "rename-window -t " =
      [ascii "rename-window", ascii "-t"].flatMap fun text => text ++ [32] := by decide
  have hends : ascii " " = [32] ∧ ascii "\n" = [10] := by decide
  have hline : ascii "rename-window -t " ++ windowID ++ ascii " " ++ quoted name ++ ascii "\n" =
      (([ascii "rename-window", ascii "-t"].flatMap fun text => text ++ [32]) ++
        (windowID ++ 32 :: quoteWith [92, 39] name)) ++ [10] := by
    rw [hfixed, hends.1, hends.2, quoted_eq]
    simp
  have hrest : g.rest [ascii "rename-window", ascii "-t"]
        (windowID ++ 32 :: quoteWith [92, 39] name) =
      some [[ascii "rename-window", ascii "-t"] ++ [windowID, name]] ↔
        g.Bare windowID ∧ g.Quotable name := rest_both_iff hne
  have hnewline : 10 ∉ windowID ++ 32 :: quoteWith [92, 39] name ↔ 10 ∉ windowID ∧ 10 ∉ name := by
    simp [quoteWith_newline]
  have hcommand : (Request.renameWindow windowID name).command =
      [ascii "rename-window", ascii "-t"] ++ [windowID, name] := rfl
  have hdrop : ([ascii "rename-window", ascii "-t"] ++ [windowID, name]).drop 3 = [name] := rfl
  rw [hline, readAs_iff g hplain, hnewline, hcommand, hrest, hdrop, List.forall_mem_singleton]
  constructor
  · rintro ⟨⟨hid, hname⟩, ⟨hbare, hquotable⟩, hflag⟩
    exact ⟨⟨hid, hbare⟩, hname, hquotable, hflag⟩
  · rintro ⟨⟨hid, hbare⟩, hname, hquotable, hflag⟩
    exact ⟨⟨hid, hname⟩, ⟨hbare, hquotable⟩, hflag⟩

theorem readAs_session (sessionName : List UInt8) :
    ReadAs g (ascii "kill-session -t " ++ quoted sessionName ++ ascii "\n")
        (Request.killSession sessionName).command ↔
      10 ∉ sessionName ∧ g.Quotable sessionName := by
  have hplain : Plain [ascii "kill-session", ascii "-t"] := by decide +kernel
  have hfixed : ascii "kill-session -t " =
      [ascii "kill-session", ascii "-t"].flatMap fun text => text ++ [32] := by decide
  have hend : ascii "\n" = [10] := by decide
  have hcommand : (Request.killSession sessionName).command =
      [ascii "kill-session", ascii "-t"] ++ [sessionName] := rfl
  have hdrop : ([ascii "kill-session", ascii "-t"] ++ [sessionName]).drop 3 = [] := rfl
  rw [hfixed, hend, quoted_eq, readAs_iff g hplain, quoteWith_newline, hcommand, rest_quoted_iff,
    hdrop]
  simp

theorem read_written {id bytes : List UInt8} {command : List Word} {safe : Prop}
    (h : id ≠ [] → (ReadAs g bytes command ↔ safe)) :
    (∀ written ∈ (if id = [] then none else some bytes), ReadAs g written command) ↔
      id = [] ∨ safe := by
  by_cases hne : id = []
  · simp [hne]
  · rw [if_neg hne, or_iff_right hne, ← h hne]
    exact ⟨fun hread => hread bytes rfl, fun hread written hwritten =>
      Option.some.inj hwritten ▸ hread⟩

/-- A request is read as the command that is meant exactly if what the caller gave is safe. -/
theorem request_read_iff (request : Request) :
    (∀ bytes ∈ request.written, ReadAs g bytes request.command) ↔ request.Safe g := by
  have hend : ascii "\n" = [10] := by decide
  cases request with
  | renameWindow windowID name => exact read_written g fun hne => readAs_rename g hne
  | killSession sessionName => exact read_written g fun _ => readAs_session g sessionName
  | selectWindow windowID =>
      refine read_written g fun hne => ?_
      have hplain : Plain [ascii "select-window", ascii "-t"] := by decide +kernel
      have hfixed : ascii "select-window -t " =
          ascii "select-window" ++ [32] ++ (ascii "-t" ++ [32]) := by decide
      rw [hfixed, hend]
      exact readAs_window g hplain hne
  | killWindow windowID =>
      refine read_written g fun hne => ?_
      have hplain : Plain [ascii "kill-window", ascii "-t"] := by decide +kernel
      have hfixed : ascii "kill-window -t " =
          ascii "kill-window" ++ [32] ++ (ascii "-t" ++ [32]) := by decide
      rw [hfixed, hend]
      exact readAs_window g hplain hne

/-- A line break in a name ends the line and begins another command, and so does a separator in an
id. -/
theorem request_injects :
    (∀ g ∈ [until29, since30],
      g.commands (ascii "rename-window -t @1 '") = none ∧
        g.commands (ascii "kill-server") = some [[ascii "kill-server"]]) ∧
      (Request.renameWindow (ascii "@1") (ascii "\nkill-server\n")).written =
        some (ascii "rename-window -t @1 '\nkill-server\n'\n") ∧
      ∀ g ∈ [until29, since30],
        g.commands (ascii "kill-window -t @1 ; kill-server") =
          some [[ascii "kill-window", ascii "-t", ascii "@1"], [ascii "kill-server"]] := by
  refine ⟨?_, by decide, ?_⟩
  · intro g hg
    simp only [List.mem_cons, List.not_mem_nil, or_false] at hg
    rcases hg with rfl | rfl <;> decide
  · intro g hg
    simp only [List.mem_cons, List.not_mem_nil, or_false] at hg
    rcases hg with rfl | rfl <;> decide

end Dolgate.TmuxNames
