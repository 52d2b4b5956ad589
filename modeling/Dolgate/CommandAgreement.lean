import Dolgate.ReplayCommands

set_option autoImplicit false

/-! When the scan of a recording lists what the live tracker listed. -/

namespace Dolgate.ReplayCommands

open CommandBlocks (BlockState maxBlocksPerSession)
open FirstMatch
open GroupPaths (Text)
open ScreenText

variable {number : Text → Option Rat} {screen : Screen} {events : List Event} {e : Event}
  {l : Session} {s : Scan}

/-! ### The markers -/

/-- What the payload of a `D` says. -/
def exitCodeOf (number : Text → Option Rat) : Option Text → Option Rat
  | none => some 0
  | some code => number ((code.splitOn semicolon).headD [])

def Session.mark (number : Text → Option Rat) (screen : Screen) (s : Session) : Marker → Session
  | .promptStart => s
  | .promptEnd => notePromptCommandStart screen s
  | .continuation => noteContinuationPrompt screen s
  | .reported escaped => noteReportedCommand escaped s
  | .start => beginCommandBlock screen s
  | .finish code => finishCommandBlock (exitCodeOf number code) s

theorem onShellIntegration_data (m : Marker) :
    onShellIntegration number m.data screen l = l.mark number screen m := by
  cases m with
  | promptStart => rfl
  | promptEnd => rfl
  | continuation => rfl
  | reported escaped => rfl
  | start => rfl
  | finish code =>
    cases code with
    | none => rfl
    | some code => rfl

def Scan.mark (number : Text → Option Rat) (screen : Screen) (s : Scan) : Marker → Scan
  | .promptStart => s
  | .promptEnd => { s with reportedCommand := none, pendingPrompt := some ⟨screen.cursorX, []⟩ }
  | .continuation =>
    { s with pendingPrompt := s.pendingPrompt.map (PendingPrompt.continued screen) }
  | .reported escaped => { s with reportedCommand := some (unescapeReportedCommand escaped) }
  | .start =>
    { sequence := s.sequence + 1
      blocks := { id := s.sequence + 1, command := scannedCommand screen s } :: s.blocks }
  | .finish code =>
    { s with
      blocks := modifyFirst Command.isRunning (Command.close (exitCodeOf number code)) s.blocks }

theorem parseExitCode_data (code : Option Text) :
    parseExitCode number (Marker.finish code).data = exitCodeOf number code := by
  cases code with
  | none => rfl
  | some code =>
    have hsplit : (Marker.finish (some code)).data.splitOn semicolon =
        [68] :: code.splitOn semicolon :=
      List.splitOn_append_cons_self [68] code
    rw [parseExitCode, hsplit, if_neg]
    · cases hcode : code.splitOn semicolon with
      | nil => exact absurd hcode (List.splitOn_ne_nil _ _)
      | cons first rest => simp [exitCodeOf, hcode]
    · have := List.length_pos_iff.mpr (List.splitOn_ne_nil semicolon code)
      rw [List.length_cons]
      omega

theorem onMarker_data (m : Marker) : onMarker number m.data screen s = s.mark number screen m := by
  cases m with
  | promptStart => rfl
  | promptEnd => rfl
  | continuation => rfl
  | reported escaped => rfl
  | start => rfl
  | finish code =>
    rw [Scan.mark, ← parseExitCode_data]
    cases code with
    | none => rfl
    | some code => rfl

/-! ### Without the limit -/

def Session.advance (number : Text → Option Rat) (s : Session) : Event → Session
  | .marker .start screen => openCommandBlock screen s
  | e => s.step number e

def trackAll (number : Text → Option Rat) (s : Session) (events : List Event) : Session :=
  events.foldl (Session.advance number) s

theorem closeRunningBlock_take (exitCode : Option Rat) (blocks : List Block) (n : Nat) :
    closeRunningBlock exitCode (blocks.take n) = (closeRunningBlock exitCode blocks).take n :=
  modifyFirst_take n

theorem openCommandBlock_capped :
    (openCommandBlock screen l.capped).capped = (openCommandBlock screen l).capped := by
  have htake : ∀ (block : Block) (blocks : List Block),
      (block :: blocks.take maxBlocksPerSession).take maxBlocksPerSession =
        (block :: blocks).take maxBlocksPerSession := by
    intro block blocks
    rw [maxBlocksPerSession, List.take_succ_cons, List.take_succ_cons, List.take_take]
    rfl
  simp only [Session.capped, openCommandBlock, commandText, closeRunningBlock_take, htake]
  rfl

theorem advance_mark {m : Marker} (h : m ≠ .start) :
    l.advance number (.marker m screen) = l.mark number screen m := by
  rw [Session.advance, Session.step, onShellIntegration_data]
  exact fun screen' heq => h (by cases heq; rfl)

theorem capped_step (e : Event) : l.capped.step number e = (l.advance number e).capped := by
  cases e with
  | inserted command => rfl
  | marker m screen =>
    rw [Session.step, onShellIntegration_data]
    by_cases hstart : m = .start
    · rw [hstart]
      exact openCommandBlock_capped
    · rw [advance_mark hstart]
      cases m with
      | promptStart => rfl
      | promptEnd => rfl
      | continuation => rfl
      | reported escaped => rfl
      | start => exact absurd rfl hstart
      | finish code =>
        simp only [Session.mark, finishCommandBlock, Session.capped, closeRunningBlock_take]

theorem trackCommands_eq : trackCommands number events = (trackAll number {} events).capped := by
  have hrun : ∀ l : Session, events.foldl (Session.step number) l.capped =
      (trackAll number l events).capped := by
    induction events with
    | nil => exact fun _ => rfl
    | cons e events ih =>
      intro l
      rw [List.foldl_cons, capped_step, ih]
      rfl
  exact hrun {}

/-! ### Numbers and texts -/

def Event.isStart : Event → Bool
  | .marker .start _ => true
  | _ => false

def starts (events : List Event) : Nat := events.countP Event.isStart

def emptyReport (waiting : Bool) : Event → Bool
  | .marker .promptEnd _ => false
  | .marker .start _ => false
  | .marker (.reported escaped) _ => escaped = []
  | _ => waiting

def ReportsTexts : Bool → List Event → Prop
  | _, [] => True
  | waiting, e :: events =>
    (e.isStart = true → waiting = false) ∧ ReportsTexts (emptyReport waiting e) events

def Command.label (c : Command) : Nat × Option Text := (c.id, c.command)

def Session.labels (s : Session) : List (Nat × Option Text) :=
  s.blocks.map fun block => block.toCommand.label

def Scan.labels (s : Scan) : List (Nat × Option Text) := s.blocks.map Command.label

structure Twin (l : Session) (s : Scan) : Prop where
  seq : l.seq = s.sequence
  pendingPrompt : l.pendingPrompt = s.pendingPrompt
  reportedCommand : l.reportedCommand = s.reportedCommand

def Scan.waiting (s : Scan) : Bool := s.reportedCommand = some []

theorem trusted_text (inserted : Option Text) (read : CommandText) :
    (trusted inserted read).text = read.text := by
  rw [trusted]
  split <;> rfl

theorem command_eq_iff (h : Twin l s) :
    ((commandText screen l).map (trusted l.insertedCommand)).map CommandText.text =
      scannedCommand screen s ↔ s.waiting = false := by
  have htrusted : CommandText.text ∘ trusted l.insertedCommand = CommandText.text :=
    funext fun read => trusted_text _ read
  rw [Option.map_map, htrusted, commandText, scannedCommand, h.reportedCommand, h.pendingPrompt,
    Scan.waiting]
  have hread : ∀ pending : PendingPrompt, (if 0 ≤ screen.promptLine then
      readCommandTextFromBuffer screen screen.promptLine pending.promptEndX screen.cursorLine
        pending.continuationEndX else none) =
      readCommandTextFromBuffer screen screen.promptLine pending.promptEndX screen.cursorLine
        pending.continuationEndX := by
    intro pending
    split
    · rfl
    · next hlost => rw [read_of_lost (by omega)]
  simp only [hread]
  cases hreported : s.reportedCommand with
  | none => simp
  | some text =>
    cases text with
    | nil =>
      simp only [Option.any_some, ne_eq, not_true_eq_false, decide_false, Bool.false_eq_true,
        if_false, decide_true, Bool.true_eq_false, iff_false]
      intro heq
      obtain ⟨read, hbind, htext⟩ := Option.map_eq_some_iff.mp heq
      obtain ⟨pending, -, hread⟩ := Option.bind_eq_some_iff.mp hbind
      exact read_text_ne_nil hread htext
    | cons c text => simp

theorem closeRunningBlock_labels (exitCode : Option Rat) (blocks : List Block) :
    (closeRunningBlock exitCode blocks).map (fun block => block.toCommand.label) =
      blocks.map fun block => block.toCommand.label :=
  map_modifyFirst_of_eq fun _ => rfl

theorem close_labels (exitCode : Option Rat) (blocks : List Command) :
    (modifyFirst Command.isRunning (Command.close exitCode) blocks).map Command.label =
      blocks.map Command.label :=
  map_modifyFirst_of_eq fun _ => rfl

variable (number) in
theorem twin_step (h : Twin l s) (e : Event) : Twin (l.advance number e) (s.step number e) := by
  obtain ⟨hseq, hprompt, hreported⟩ := h
  cases e with
  | inserted command => exact ⟨hseq, hprompt, hreported⟩
  | marker m screen =>
    rw [Scan.step, onMarker_data]
    cases m with
    | start => exact ⟨congrArg (· + 1) hseq, rfl, rfl⟩
    | promptStart => exact ⟨hseq, hprompt, hreported⟩
    | promptEnd => exact ⟨hseq, rfl, rfl⟩
    | continuation =>
      exact ⟨hseq, congrArg (Option.map (PendingPrompt.continued screen)) hprompt, hreported⟩
    | reported escaped => exact ⟨hseq, hprompt, rfl⟩
    | finish code =>
      rw [advance_mark (by simp)]
      exact ⟨hseq, hprompt, hreported⟩

variable (number) in
theorem labels_step (h : Twin l s) (e : Event) :
    ((l.advance number e).labels = (s.step number e).labels ↔
        l.labels = s.labels ∧ (e.isStart = true → s.waiting = false)) ∧
      (s.step number e).waiting = emptyReport s.waiting e := by
  have hkeeps : ∀ e : Event, e.isStart = false → (l.advance number e).labels = l.labels →
      (s.step number e).labels = s.labels →
      ((l.advance number e).labels = (s.step number e).labels ↔
        l.labels = s.labels ∧ (e.isStart = true → s.waiting = false)) := by
    intro e hstart hl hs
    simp [hl, hs, hstart]
  cases e with
  | inserted command => exact ⟨hkeeps _ rfl rfl rfl, rfl⟩
  | marker m screen =>
    have hscan : s.step number (.marker m screen) = s.mark number screen m := onMarker_data m
    cases m with
    | start =>
      rw [hscan]
      refine ⟨?_, rfl⟩
      have hlive : (openCommandBlock screen l).labels = (l.seq + 1,
          ((commandText screen l).map (trusted l.insertedCommand)).map CommandText.text) ::
            l.labels := congrArg (List.cons _) (closeRunningBlock_labels none l.blocks)
      have hscanned : (s.mark number screen .start).labels =
          (s.sequence + 1, scannedCommand screen s) :: s.labels := rfl
      rw [Session.advance, hlive, hscanned, List.cons.injEq, Prod.mk.injEq, command_eq_iff h, h.seq]
      simp [Event.isStart, and_comm]
    | promptStart => exact ⟨hkeeps _ rfl rfl (by rw [hscan]; rfl), by rw [hscan]; rfl⟩
    | promptEnd => exact ⟨hkeeps _ rfl rfl (by rw [hscan]; rfl), by rw [hscan]; rfl⟩
    | continuation => exact ⟨hkeeps _ rfl rfl (by rw [hscan]; rfl), by rw [hscan]; rfl⟩
    | reported escaped =>
      refine ⟨hkeeps _ rfl rfl (by rw [hscan]; rfl), ?_⟩
      rw [hscan]
      simp [Scan.mark, Scan.waiting, emptyReport, unescapeReportedCommand_eq_nil]
    | finish code =>
      refine ⟨hkeeps _ rfl ?_ ?_, by rw [hscan]; rfl⟩
      · rw [advance_mark (by simp)]
        exact closeRunningBlock_labels _ _
      · rw [hscan]
        exact close_labels _ _

variable (number events) in
theorem labels_eq_iff (h : Twin l s) :
    (trackAll number l events).labels = (events.foldl (Scan.step number) s).labels ↔
      l.labels = s.labels ∧ ReportsTexts s.waiting events := by
  induction events generalizing l s with
  | nil => simp [trackAll, ReportsTexts]
  | cons e events ih =>
    obtain ⟨hlabels, hwaiting⟩ := labels_step number h e
    have hrest := ih (twin_step number h e)
    rw [hlabels, hwaiting, and_assoc] at hrest
    exact hrest

/-! ### Ends -/

structure Outcome where
  exitCode : Option Rat
  state : BlockState
deriving DecidableEq

def Outcome.isRunning (o : Outcome) : Bool := o.state = .running

def ended (exitCode : Option Rat) : Outcome := ⟨exitCode, classifyCommandExit exitCode⟩

def unfinished : Outcome := ⟨none, .running⟩

def closeNewest (exitCode : Option Rat) (outcomes : List Outcome) : List Outcome :=
  modifyFirst Outcome.isRunning (fun _ => ended exitCode) outcomes

theorem isRunning_ended (exitCode : Option Rat) : (ended exitCode).isRunning = false := by
  have hne : classifyCommandExit exitCode ≠ .running := by
    cases exitCode with
    | none => simp [classifyCommandExit]
    | some code =>
      rw [classifyCommandExit]
      split_ifs <;> simp
  exact decide_eq_false hne

/-- The commands of the scan beside those of the live tracker. One that runs in the scan has been
overtaken by a later one, and then it has ended without a code in the live tracker, or it runs there,
too. -/
inductive Tracked : List Bool → List Outcome → List Outcome → Prop where
  | nil : Tracked [] [] []
  | finished {overtaken : List Bool} {scan live : List Outcome} {o o' : Outcome}
      (ho : o.isRunning = false) (ho' : o'.isRunning = false)
      (h : Tracked overtaken scan live) : Tracked overtaken (o :: scan) (o' :: live)
  | running {overtaken : List Bool} {scan live : List Outcome}
      (hall : ∀ o ∈ overtaken, o = true) (h : Tracked overtaken scan live) :
      Tracked (false :: overtaken) (unfinished :: scan) (unfinished :: live)
  | overtaken {overtaken : List Bool} {scan live : List Outcome}
      (hall : ∀ o ∈ overtaken, o = true) (h : Tracked overtaken scan live) :
      Tracked (true :: overtaken) (unfinished :: scan) (ended none :: live)

def SameEnds : List Outcome → List Outcome → Prop
  | o :: scan, o' :: live => (o.isRunning = false → o = o') ∧ SameEnds scan live
  | _, _ => True

section Tracked

variable {overtaken : List Bool} {scan live : List Outcome}

theorem Tracked.eq_iff (h : Tracked overtaken scan live) :
    live = scan ↔ SameEnds scan live ∧ true ∉ overtaken := by
  induction h with
  | nil => simp [SameEnds]
  | finished ho ho' h ih =>
    rw [List.cons.injEq, ih, SameEnds]
    simp only [ho, forall_const, and_assoc]
    rw [eq_comm]
  | running hall h ih =>
    rw [List.cons.injEq, ih, SameEnds]
    simp [unfinished, Outcome.isRunning]
  | overtaken hall h ih =>
    rw [List.cons.injEq]
    have hne : ended none ≠ unfinished := by decide
    simp [hne]

theorem Tracked.length_eq (h : Tracked overtaken scan live) : live.length = scan.length := by
  induction h with
  | nil => rfl
  | finished ho ho' h ih => rw [List.length_cons, List.length_cons, ih]
  | running hall h ih => rw [List.length_cons, List.length_cons, ih]
  | overtaken hall h ih => rw [List.length_cons, List.length_cons, ih]

theorem closeNewest_of_finished {exitCode : Option Rat} {o : Outcome} (h : o.isRunning = false) :
    closeNewest exitCode (o :: live) = o :: closeNewest exitCode live :=
  modifyFirst_cons_of_neg h

theorem closeNewest_unfinished (exitCode : Option Rat) :
    closeNewest exitCode (unfinished :: live) = ended exitCode :: live :=
  modifyFirst_cons_of_pos rfl

theorem Tracked.closeNewest_live (h : Tracked overtaken scan live)
    (hall : ∀ o ∈ overtaken, o = true) (exitCode : Option Rat) :
    closeNewest exitCode live = live := by
  induction h with
  | nil => rfl
  | finished ho ho' h ih => rw [closeNewest_of_finished ho', ih hall]
  | running => exact absurd (hall false List.mem_cons_self) (by simp)
  | overtaken hall' h ih =>
    rw [closeNewest_of_finished (isRunning_ended none), ih hall']

theorem Tracked.overtake (h : Tracked overtaken scan live) :
    Tracked (overtaken.map fun _ => true) scan (closeNewest none live) ∧
      (SameEnds scan (closeNewest none live) ↔ SameEnds scan live) := by
  induction h with
  | nil => exact ⟨.nil, Iff.rfl⟩
  | finished ho ho' h ih =>
    rw [closeNewest_of_finished ho']
    exact ⟨.finished ho ho' ih.1, and_congr_right' ih.2⟩
  | running hall h ih =>
    have hmap : ∀ overtaken : List Bool, ∀ o ∈ overtaken.map fun _ => true, o = true := by simp
    have hsame := h.closeNewest_live hall none
    rw [hsame] at ih
    rw [closeNewest_unfinished]
    exact ⟨.overtaken (hmap _) ih.1, by simp [SameEnds, unfinished, Outcome.isRunning]⟩
  | overtaken hall h ih =>
    have hmap : ∀ overtaken : List Bool, ∀ o ∈ overtaken.map fun _ => true, o = true := by simp
    rw [closeNewest_of_finished (isRunning_ended none)]
    exact ⟨.overtaken (hmap _) ih.1, and_congr_right' ih.2⟩

theorem Tracked.finish (h : Tracked overtaken scan live) (exitCode : Option Rat) :
    Tracked overtaken.tail (closeNewest exitCode scan) (closeNewest exitCode live) ∧
      (SameEnds (closeNewest exitCode scan) (closeNewest exitCode live) ↔
        SameEnds scan live ∧ (overtaken.head? = some true → exitCode = none)) := by
  induction h with
  | nil => exact ⟨.nil, by simp [closeNewest, modifyFirst, SameEnds]⟩
  | finished ho ho' h ih =>
    rw [closeNewest_of_finished ho, closeNewest_of_finished ho']
    refine ⟨.finished ho ho' ih.1, ?_⟩
    rw [SameEnds, SameEnds, ih.2, and_assoc]
  | running hall h ih =>
    rw [closeNewest_unfinished, closeNewest_unfinished]
    refine ⟨.finished (isRunning_ended _) (isRunning_ended _) h, ?_⟩
    simp [SameEnds, unfinished, Outcome.isRunning]
  | overtaken hall h ih =>
    have hended : exitCode = none ↔ ended exitCode = ended none := by
      constructor
      · rintro rfl
        rfl
      · exact fun heq => congrArg Outcome.exitCode heq
    rw [closeNewest_unfinished, closeNewest_of_finished (isRunning_ended none),
      h.closeNewest_live hall]
    refine ⟨.finished (isRunning_ended _) (isRunning_ended _) h, ?_⟩
    have hrunning : unfinished.isRunning = true := rfl
    simp [SameEnds, hrunning, isRunning_ended, hended, and_comm]

end Tracked

/-- For each command without its `D`, newest first, whether another one has started since. -/
def overtake (overtaken : List Bool) : Event → List Bool
  | .marker .start _ => false :: overtaken.map fun _ => true
  | .marker (.finish _) _ => overtaken.tail
  | _ => overtaken

/-- A `D` that ends a command in which another one has started has no code that is a number. -/
def EndsWithoutCode (number : Text → Option Rat) (overtaken : List Bool) : Event → Prop
  | .marker (.finish code) _ => overtaken.head? = some true → exitCodeOf number code = none
  | _ => True

/-- Each command in which another one starts is ended, and by a `D` without a code. -/
def EndsOvertaken (number : Text → Option Rat) : List Bool → List Event → Prop
  | overtaken, [] => true ∉ overtaken
  | overtaken, e :: events =>
    EndsWithoutCode number overtaken e ∧ EndsOvertaken number (overtake overtaken e) events

def Command.outcome (c : Command) : Outcome := ⟨c.exitCode, c.state⟩

def Session.outcomes (s : Session) : List Outcome :=
  s.blocks.map fun block => block.toCommand.outcome

def Scan.outcomes (s : Scan) : List Outcome := s.blocks.map Command.outcome

theorem closeRunningBlock_outcomes (exitCode : Option Rat) (blocks : List Block) :
    (closeRunningBlock exitCode blocks).map (fun block => block.toCommand.outcome) =
      closeNewest exitCode (blocks.map fun block => block.toCommand.outcome) :=
  map_modifyFirst (fun _ => rfl) fun _ => rfl

theorem close_outcomes (exitCode : Option Rat) (blocks : List Command) :
    (modifyFirst Command.isRunning (Command.close exitCode) blocks).map Command.outcome =
      closeNewest exitCode (blocks.map Command.outcome) :=
  map_modifyFirst (fun _ => rfl) fun _ => rfl

variable (number) in
theorem outcomes_step {overtaken : List Bool} (h : Tracked overtaken s.outcomes l.outcomes)
    (e : Event) :
    Tracked (overtake overtaken e) (s.step number e).outcomes (l.advance number e).outcomes ∧
      (SameEnds (s.step number e).outcomes (l.advance number e).outcomes ↔
        SameEnds s.outcomes l.outcomes ∧ EndsWithoutCode number overtaken e) := by
  cases e with
  | inserted command => exact ⟨h, by simp [EndsWithoutCode]; rfl⟩
  | marker m screen =>
    rw [Scan.step, onMarker_data]
    cases m with
    | start =>
      have hlive : (openCommandBlock screen l).outcomes =
          unfinished :: closeNewest none l.outcomes :=
        congrArg (List.cons _) (closeRunningBlock_outcomes none l.blocks)
      have hscan : (s.mark number screen .start).outcomes = unfinished :: s.outcomes := rfl
      obtain ⟨htracked, hsame⟩ := h.overtake
      rw [Session.advance, hlive, hscan]
      refine ⟨.running (by simp) htracked, ?_⟩
      simp [SameEnds, hsame, EndsWithoutCode, unfinished, Outcome.isRunning]
    | promptStart => exact ⟨h, by simp [EndsWithoutCode]; rfl⟩
    | promptEnd => exact ⟨h, by simp [EndsWithoutCode]; rfl⟩
    | continuation => exact ⟨h, by simp [EndsWithoutCode]; rfl⟩
    | reported escaped => exact ⟨h, by simp [EndsWithoutCode]; rfl⟩
    | finish code =>
      have hlive : (l.mark number screen (.finish code)).outcomes =
          closeNewest (exitCodeOf number code) l.outcomes :=
        closeRunningBlock_outcomes _ l.blocks
      have hscan : (s.mark number screen (.finish code)).outcomes =
          closeNewest (exitCodeOf number code) s.outcomes :=
        close_outcomes _ s.blocks
      rw [advance_mark (by simp), hlive, hscan]
      exact h.finish _

variable (number events) in
theorem tracked_run {overtaken : List Bool} (h : Tracked overtaken s.outcomes l.outcomes) :
    ∃ overtaken', Tracked overtaken' (events.foldl (Scan.step number) s).outcomes
      (trackAll number l events).outcomes := by
  induction events generalizing l s overtaken with
  | nil => exact ⟨overtaken, h⟩
  | cons e events ih => exact ih (outcomes_step number h e).1

variable (number events) in
theorem outcomes_eq_iff {overtaken : List Bool} (h : Tracked overtaken s.outcomes l.outcomes) :
    (trackAll number l events).outcomes = (events.foldl (Scan.step number) s).outcomes ↔
      SameEnds s.outcomes l.outcomes ∧ EndsOvertaken number overtaken events := by
  induction events generalizing l s overtaken with
  | nil => exact h.eq_iff
  | cons e events ih =>
    obtain ⟨htracked, hsame⟩ := outcomes_step number h e
    have hrest := ih htracked
    rw [hsame, and_assoc] at hrest
    exact hrest

/-! ### The lists -/

theorem Command.eq_iff {c c' : Command} :
    c = c' ↔ c.label = c'.label ∧ c.outcome = c'.outcome := by
  cases c
  cases c'
  simp [Command.label, Command.outcome, and_assoc]

theorem commands_eq_iff {commands commands' : List Command} :
    commands = commands' ↔ commands.map Command.label = commands'.map Command.label ∧
      commands.map Command.outcome = commands'.map Command.outcome := by
  induction commands generalizing commands' with
  | nil => simp
  | cons c commands ih =>
    cases commands' with
    | nil => simp
    | cons c' commands' =>
      simp only [List.map_cons, List.cons.injEq, Command.eq_iff, ih]
      exact and_and_and_comm

theorem length_step (e : Event) :
    (s.step number e).blocks.length = s.blocks.length + if e.isStart then 1 else 0 := by
  cases e with
  | inserted command => rfl
  | marker m screen =>
    rw [Scan.step, onMarker_data]
    cases m with
    | start => rfl
    | promptStart => rfl
    | promptEnd => rfl
    | continuation => rfl
    | reported escaped => rfl
    | finish code =>
      have hlength := congrArg List.length
        (close_labels (exitCodeOf number code) s.blocks)
      rw [List.length_map, List.length_map] at hlength
      exact hlength

theorem length_scan : (events.foldl (Scan.step number) s).blocks.length =
    s.blocks.length + starts events := by
  induction events generalizing s with
  | nil => rfl
  | cons e events ih =>
    rw [List.foldl_cons, ih, length_step, starts, starts, List.countP_cons]
    omega

/-- The scan lists what the live tracker lists exactly where there are not too many commands, none
starts after an empty report, and each in which another one starts is ended without a code. -/
theorem scan_agrees_iff (number : Text → Option Rat) (events : List Event) :
    (trackCommands number events).blocks.map Block.toCommand =
        (scanReplayCommands number events).blocks ↔
      starts events ≤ maxBlocksPerSession ∧ ReportsTexts false events ∧
        EndsOvertaken number [] events := by
  have hlength : (scanReplayCommands number events).blocks.length = starts events := by
    rw [scanReplayCommands, length_scan, List.length_nil, Nat.zero_add]
  have hall : (trackAll number {} events).blocks.map Block.toCommand =
      (scanReplayCommands number events).blocks ↔
      ReportsTexts false events ∧ EndsOvertaken number [] events := by
    have hlabels := labels_eq_iff number events (l := {}) (s := {}) ⟨rfl, rfl, rfl⟩
    have houtcomes := outcomes_eq_iff number events (l := {}) (s := {}) .nil
    rw [commands_eq_iff, List.map_map, List.map_map]
    refine (and_congr hlabels houtcomes).trans ?_
    simp [Session.labels, Scan.labels, SameEnds, Scan.waiting, Session.outcomes, Scan.outcomes]
  rw [trackCommands_eq, Session.capped, List.map_take, ← hall]
  constructor
  · intro heq
    have hlive : ((trackAll number {} events).blocks.map Block.toCommand).length =
        starts events := by
      obtain ⟨overtaken, htracked⟩ :=
        tracked_run number events (l := {}) (s := {}) .nil
      have heq := htracked.length_eq
      rw [Session.outcomes, Scan.outcomes, List.length_map, List.length_map] at heq
      rw [List.length_map, heq]
      exact hlength
    have htaken := congrArg List.length heq
    rw [List.length_take, hlength, hlive] at htaken
    rw [List.take_of_length_le (by omega)] at heq
    exact ⟨by omega, heq⟩
  · rintro ⟨hfew, heq⟩
    rw [heq, List.take_of_length_le (by omega)]

def blank : Screen := ⟨fun _ => none, 0, 0, 0⟩

/-- A command that starts in another one, and an empty report. -/
theorem scan_differs :
    (trackCommands (fun _ => none) [.marker .start blank, .marker .start blank]).blocks.map
        Block.toCommand ≠
      (scanReplayCommands (fun _ => none) [.marker .start blank, .marker .start blank]).blocks ∧
    (trackCommands (fun _ => none) [.marker (.reported []) blank, .marker .start blank]).blocks.map
        Block.toCommand ≠
      (scanReplayCommands (fun _ => none)
        [.marker (.reported []) blank, .marker .start blank]).blocks := by
  decide

end Dolgate.ReplayCommands
