import Mathlib.Data.Int.Order.Basic
import Mathlib.Data.List.TakeDrop
import Dolgate.Scrollback
import Dolgate.Transition

set_option autoImplicit false

/-! The command blocks of one session, newest first. -/

namespace Dolgate.CommandBlocks

open GroupPaths (Text trim)
open Scrollback Transition

inductive BlockState where
  | running
  | ok
  | interrupted
  | failed
  deriving DecidableEq

def classifyCommandExit : Option Int → BlockState
  | none => .ok
  | some code =>
      if code = 0 then .ok
      else if code ∈ [130, 141, -1073741510] then .interrupted
      else .failed

structure Block where
  id : Nat
  state : BlockState := .running
  exitCode : Option Int := none
  marker : Marker
  endLine : Option Int := none
  deriving DecidableEq

abbrev Block.Finished (block : Block) : Prop := block.state ≠ .running

def getCommandBlockRange (block : Block) : Option (Nat × Option Int) :=
  block.marker.map fun start => (start, block.endLine)

def Block.hasLine (block : Block) (line : Nat) : Bool :=
  match block.marker with
  | none => false
  | some start => start ≤ line && block.endLine.all fun last => (line : Int) ≤ last

def getCommandBlockAtLine (blocks : List Block) (line : Nat) : Option Block :=
  blocks.find? fun block => block.hasLine line

def pushLine (texts : List Text) (line : Line) : List Text :=
  if line.isWrapped = true ∧ texts ≠ [] then
    texts.dropLast ++ [texts.getLast?.getD [] ++ line.text]
  else texts ++ [line.text]

def newline : UInt16 := 10

/-- The text below the command line up to the block's end, where the buffer has lines. -/
def readBlockOutput (terminal : Terminal) (block : Block) : Text :=
  match block.marker with
  | none => []
  | some start =>
      let last := block.endLine.getD terminal.cursorLine
      let lines := (terminal.lines.drop (start + 1)).take (last - start).toNat
      List.intercalate [newline]
        ((lines.foldl pushLine []).rdropWhile fun text => trim text = [])

def releaseErasedBlock (firstLine lastLine : Nat) (block : Block) : Block :=
  match block.marker with
  | none => block
  | some start =>
      if firstLine ≤ start then
        if start ≤ lastLine then { block with marker := none } else block
      else if block.endLine.any fun last => (firstLine : Int) ≤ last then
        { block with endLine := some (firstLine - 1) }
      else block

def releaseErasedLines (firstLine lastLine : Nat) (blocks : List Block) : List Block :=
  blocks.map (releaseErasedBlock firstLine lastLine)

def linesAreBlank (terminal : Terminal) (firstLine lastLine : Nat) : Bool :=
  ((terminal.lines.drop firstLine).take (lastLine + 1 - firstLine)).all fun line => line.text = []

/-- The last line of output: the cursor's, or the one above when the cursor is at its start. -/
def outputEnd (terminal : Terminal) : Int :=
  if terminal.cursorX = 0 then terminal.cursorLine - 1 else terminal.cursorLine

def closeBlock (terminal : Terminal) (exitCode : Option Int) (block : Block) : Block :=
  { block with
    state := classifyCommandExit exitCode
    exitCode := exitCode
    endLine := some (max (Marker.line block.marker) (outputEnd terminal)) }

/-- The cursor is above the block's own command line and nothing is written between. -/
def erasedAbove (terminal : Terminal) (block : Block) : Bool :=
  block.marker.any fun start =>
    terminal.cursorLine < start && linesAreBlank terminal terminal.cursorLine start

def releaseAfter (terminal : Terminal) (block : Block) (blocks : List Block) : List Block :=
  if erasedAbove terminal block then
    releaseErasedLines terminal.cursorLine (block.marker.getD 0) blocks
  else blocks

def closeRunningBlock (terminal : Terminal) (exitCode : Option Int) (blocks : List Block) :
    List Block :=
  match blocks.span fun block => block.state ≠ .running with
  | (_, []) => blocks
  | (newer, block :: older) =>
      releaseAfter terminal block (newer ++ closeBlock terminal exitCode block :: older)

structure Session where
  seq : Nat := 0
  pendingPrompt : Option Marker := none
  blocks : List Block := []
  deriving DecidableEq

def maxBlocksPerSession : Nat := 400

def notePromptCommandStart (terminal : Terminal) (session : Session) : Session :=
  { session with pendingPrompt := some (some terminal.cursorLine) }

/-- The line of the next command: the prompt's, or the cursor's when no prompt was reported. -/
def commandMarker (terminal : Terminal) (session : Session) : Marker :=
  session.pendingPrompt.getD (some terminal.cursorLine)

def beginCommandBlock (terminal : Terminal) (session : Session) : Session where
  seq := session.seq + 1
  pendingPrompt := none
  blocks := ({ id := session.seq + 1, marker := commandMarker terminal session } ::
    closeRunningBlock terminal none session.blocks).take maxBlocksPerSession

def finishCommandBlock (terminal : Terminal) (exitCode : Option Int) (session : Session) :
    Session :=
  { session with blocks := closeRunningBlock terminal exitCode session.blocks }

def Session.trimmed (session : Session) : Session :=
  { session with
    pendingPrompt := session.pendingPrompt.map Marker.trimmed
    blocks := session.blocks.map fun block => { block with marker := block.marker.trimmed } }

structure State where
  terminal : Terminal
  session : Session := {}

inductive Event where
  | print (c : UInt16)
  | wrap
  | lineFeed
  | carriageReturn
  | cursorTo (y x : Nat)
  | promptEnd
  | commandStart
  | commandEnd (exitCode : Option Int)
  deriving DecidableEq

def State.feed (s : State) (wrapped : Bool) : State where
  terminal := s.terminal.lineFeed wrapped
  session := if s.terminal.Trims then s.session.trimmed else s.session

/-- Characters go to the columns of the screen; one that finds none left wraps first. -/
def step (s : State) : Event → Option State
  | .print c =>
      if s.terminal.cursorX < s.terminal.cols then
        some { s with terminal := s.terminal.print c }
      else none
  | .wrap =>
      if s.terminal.cols ≤ s.terminal.cursorX then
        let fed := s.feed true
        some { fed with terminal := fed.terminal.carriageReturn }
      else none
  | .lineFeed => some (s.feed false)
  | .carriageReturn => some { s with terminal := s.terminal.carriageReturn }
  | .cursorTo y x =>
      if h : y < s.terminal.rows ∧ x < s.terminal.cols then
        some { s with terminal := s.terminal.cursorTo y x h.1 }
      else none
  | .promptEnd => some { s with session := notePromptCommandStart s.terminal s.session }
  | .commandStart => some { s with session := beginCommandBlock s.terminal s.session }
  | .commandEnd exitCode =>
      some { s with session := finishCommandBlock s.terminal exitCode s.session }

def Block.outputHas (block : Block) (line : Nat) : Bool :=
  block.state ≠ .running && block.marker.any fun start => block.endLine.any fun last =>
    start < line && (line : Int) ≤ last

def State.Untouched (s : State) (line : Nat) : Prop :=
  ∀ block ∈ s.session.blocks, block.outputHas line = false

/-- A line feed that drops the head takes the command line of the last finished block that had
one; any other leaves the wrap mark of a finished block's output as it is. -/
def State.Feeds (s : State) (wrapped : Bool) : Prop :=
  if s.terminal.Trims then
    ∀ block ∈ s.session.blocks, block.Finished → block.marker.all fun start => start = 0
  else
    s.terminal.lines[s.terminal.cursorLine + 1]?.map Line.isWrapped = some wrapped ∨
      s.Untouched (s.terminal.cursorLine + 1)

def State.StartsBelow (s : State) : Prop :=
  (commandMarker s.terminal s.session).all fun line =>
    s.session.blocks.all fun block => block.marker.all fun start =>
      if block.state = .running then
        start < line && decide (s.terminal.cursorLine < line ∨
          s.terminal.cursorX = 0 ∧ s.terminal.cursorLine = line)
      else block.endLine.all fun last => last < (line : Int)

def Tidy (s : State) : Event → Prop
  | .print _ => s.Untouched s.terminal.cursorLine
  | .wrap => s.Feeds true
  | .lineFeed => s.Feeds false
  | .commandStart => s.StartsBelow
  | _ => True

/-! ### Reading -/

theorem outputHas_eq_true {block : Block} {start line : Nat} {last : Int}
    (hfinished : block.Finished) (hmarker : block.marker = some start)
    (hend : block.endLine = some last) (hstart : start < line) (hlast : (line : Int) ≤ last) :
    block.outputHas line = true := by
  simp [Block.outputHas, hmarker, hend, hfinished, hstart, hlast]

theorem readBlockOutput_congr {t t' : Terminal} {block : Block} {start : Nat} {last : Int}
    (hmarker : block.marker = some start) (hend : block.endLine = some last)
    (hlines : ∀ line : Nat, start < line → (line : Int) ≤ last →
      t'.lines[line]? = t.lines[line]?) :
    readBlockOutput t' block = readBlockOutput t block := by
  have hsame : (t'.lines.drop (start + 1)).take (last - start).toNat =
      (t.lines.drop (start + 1)).take (last - start).toNat := by
    apply List.ext_getElem?
    intro i
    by_cases hi : i < (last - start).toNat
    · rw [List.getElem?_take_of_lt hi, List.getElem?_take_of_lt hi, List.getElem?_drop,
        List.getElem?_drop]
      exact hlines _ (by omega) (by omega)
    · rw [List.getElem?_eq_none (by simp; omega), List.getElem?_eq_none (by simp; omega)]
  simp only [readBlockOutput, hmarker, hend, Option.getD_some, hsame]

theorem rdropWhile_foldl_pushLine {lines : List Line} (h : ∀ line ∈ lines, line.text = [])
    (texts : List Text) :
    (lines.foldl pushLine texts).rdropWhile (fun text => trim text = []) =
      texts.rdropWhile fun text => trim text = [] := by
  induction lines generalizing texts with
  | nil => rfl
  | cons line lines ih =>
      have htext := h line List.mem_cons_self
      rw [List.foldl_cons, ih (fun other hother => h other (List.mem_cons_of_mem _ hother)),
        pushLine]
      split_ifs with hwrapped
      · rw [htext, List.append_nil, List.getLast?_eq_some_getLast hwrapped.2, Option.getD_some,
          List.dropLast_append_getLast]
      · rw [htext, List.rdropWhile_concat_pos]
        rfl

theorem text_eq_nil_of_linesAreBlank {t : Terminal} {firstLine lastLine i : Nat} {line : Line}
    (h : linesAreBlank t firstLine lastLine = true) (hfirst : firstLine ≤ i) (hlast : i ≤ lastLine)
    (hline : t.lines[i]? = some line) : line.text = [] := by
  simp only [linesAreBlank, List.all_eq_true, decide_eq_true_eq] at h
  apply h
  apply List.mem_of_getElem? (i := i - firstLine)
  rw [List.getElem?_take_of_lt (by omega), List.getElem?_drop, Nat.add_sub_cancel' hfirst, hline]

theorem readBlockOutput_of_blank {t : Terminal} {block : Block} {start firstLine lastLine : Nat}
    {last : Int} (hmarker : block.marker = some start) (hend : block.endLine = some last)
    (hstart : start < firstLine) (hfirst : (firstLine : Int) ≤ last) (hlast : last ≤ lastLine)
    (hblank : linesAreBlank t firstLine lastLine = true) :
    readBlockOutput t { block with endLine := some (firstLine - 1) } = readBlockOutput t block := by
  have hcount : (last - start).toNat = ((firstLine : Int) - 1 - start).toNat +
      (last - firstLine + 1).toNat := by omega
  have hblanks : ∀ line ∈ ((t.lines.drop (start + 1)).drop
      ((firstLine : Int) - 1 - start).toNat).take (last - firstLine + 1).toNat,
      line.text = [] := by
    intro line hline
    obtain ⟨i, hi⟩ := List.mem_iff_getElem?.mp hline
    by_cases hlt : i < (last - firstLine + 1).toNat
    · rw [List.getElem?_take_of_lt hlt, List.getElem?_drop, List.getElem?_drop] at hi
      exact text_eq_nil_of_linesAreBlank hblank (by omega) (by omega) hi
    · rw [List.getElem?_eq_none (by simp; omega)] at hi
      cases hi
  simp only [readBlockOutput, hmarker, hend, Option.getD_some, hcount]
  rw [List.take_add, List.foldl_append, rdropWhile_foldl_pushLine hblanks]

/-! ### The order of the blocks -/

structure Block.Placed (block : Block) (length : Nat) : Prop where
  marker_lt : ∀ start, block.marker = some start → start < length
  ended : block.Finished → ∀ start, block.marker = some start →
    ∃ last, block.endLine = some last ∧ (start : Int) ≤ last ∧ last < length

/-- Only the newest block can be running, and each starts below the end of those before it. -/
structure Block.After (newer older : Block) : Prop where
  id_lt : older.id < newer.id
  finished : older.Finished
  below : ∀ place start last, older.marker = some place → older.endLine = some last →
    newer.marker = some start → last < (start : Int)

structure Arranged (length : Nat) (blocks : List Block) : Prop where
  placed : ∀ block ∈ blocks, block.Placed length
  after : blocks.Pairwise Block.After

structure Held (t t' : Terminal) (block block' : Block) : Prop where
  id_eq : block'.id = block.id
  finished : block.Finished → block'.Finished
  output : block.Finished → block'.marker ≠ none →
    block.marker ≠ none ∧ readBlockOutput t' block' = readBlockOutput t block

theorem Held.refl (t : Terminal) (block : Block) : Held t t block block :=
  ⟨rfl, id, fun _ h => ⟨h, rfl⟩⟩

theorem Held.trans {t t' t'' : Terminal} {block block' block'' : Block}
    (h : Held t t' block block') (h' : Held t' t'' block' block'') : Held t t'' block block'' where
  id_eq := h'.id_eq.trans h.id_eq
  finished hfinished := h'.finished (h.finished hfinished)
  output hfinished hmarker := by
    obtain ⟨hmarker', hread'⟩ := h'.output (h.finished hfinished) hmarker
    obtain ⟨hmarker, hread⟩ := h.output hfinished hmarker'
    exact ⟨hmarker, hread'.trans hread⟩

variable {t : Terminal} {exitCode : Option Int} {blocks older : List Block} {block : Block}
  {length : Nat}

theorem Block.Placed.mono {length' : Nat} (h : block.Placed length) (hle : length ≤ length') :
    block.Placed length' where
  marker_lt start hstart := Nat.lt_of_lt_of_le (h.marker_lt start hstart) hle
  ended hfinished start hstart := by
    obtain ⟨last, hlast, hle', hlt⟩ := h.ended hfinished start hstart
    exact ⟨last, hlast, hle', by omega⟩

theorem Arranged.mono {length' : Nat} (h : Arranged length blocks) (hle : length ≤ length') :
    Arranged length' blocks :=
  ⟨fun block hblock => (h.placed block hblock).mono hle, h.after⟩

/-! ### Closing -/

theorem classifyCommandExit_ne_running (exitCode : Option Int) :
    classifyCommandExit exitCode ≠ .running := by
  cases exitCode with
  | none => simp [classifyCommandExit]
  | some code =>
      simp only [classifyCommandExit]
      split_ifs <;> simp

theorem outputEnd_lt (t : Terminal) : outputEnd t < t.lines.length := by
  have hcursor := t.cursorLine_lt
  rw [outputEnd]
  split_ifs <;> omega

theorem closeRunningBlock_of_finished (h : ∀ block ∈ blocks, block.Finished) :
    closeRunningBlock t exitCode blocks = blocks := by
  have hall : ∀ block ∈ blocks, decide (block.state ≠ .running) = true := by
    simpa using h
  rw [closeRunningBlock, List.span_eq_takeWhile_dropWhile, List.takeWhile_eq_self_iff.mpr hall,
    List.dropWhile_eq_nil_iff.mpr hall]

theorem closeRunningBlock_of_running (h : ¬ block.Finished) :
    closeRunningBlock t exitCode (block :: older) =
      releaseAfter t block (closeBlock t exitCode block :: older) := by
  have hrunning : ¬ decide (block.state ≠ .running) = true := by
    simpa using h
  rw [closeRunningBlock, List.span_eq_takeWhile_dropWhile,
    List.takeWhile_cons_of_neg (p := fun block : Block => decide (block.state ≠ .running)) hrunning,
    List.dropWhile_cons_of_neg (p := fun block : Block => decide (block.state ≠ .running)) hrunning]
  rfl

theorem Arranged.finished_of_mem_tail (h : Arranged length (block :: older)) :
    ∀ other ∈ older, other.Finished :=
  fun other hother => ((List.pairwise_cons.mp h.after).1 other hother).finished

/-- What closing can do to blocks in order: nothing, close the newest, or close it and release the
lines from the cursor to its command line. -/
theorem closeRunningBlock_cases {P : List Block → Prop} (h : Arranged length blocks)
    (hsame : (∀ block ∈ blocks, block.Finished) → P blocks)
    (hclose : ∀ block older, blocks = block :: older → ¬ block.Finished →
      P (closeBlock t exitCode block :: older))
    (herased : ∀ block older start, blocks = block :: older → ¬ block.Finished →
      block.marker = some start → t.cursorLine < start →
      linesAreBlank t t.cursorLine start = true →
      P (releaseErasedLines t.cursorLine start (closeBlock t exitCode block :: older))) :
    P (closeRunningBlock t exitCode blocks) := by
  cases blocks with
  | nil => exact hsame (by simp)
  | cons block older =>
      by_cases hfinished : block.Finished
      · have hall : ∀ other ∈ block :: older, other.Finished :=
          List.forall_mem_cons.mpr ⟨hfinished, h.finished_of_mem_tail⟩
        rw [closeRunningBlock_of_finished hall]
        exact hsame hall
      · rw [closeRunningBlock_of_running hfinished, releaseAfter]
        split_ifs with hrelease
        · cases hmarker : block.marker with
          | none => simp [erasedAbove, hmarker] at hrelease
          | some start =>
              simp only [erasedAbove, hmarker, Option.any_some, Bool.and_eq_true,
                decide_eq_true_eq] at hrelease
              exact herased block older start rfl hfinished hmarker hrelease.1 hrelease.2
        · exact hclose block older rfl hfinished

theorem Arranged.close (h : Arranged t.lines.length (block :: older)) :
    Arranged t.lines.length (closeBlock t exitCode block :: older) where
  placed := by
    have hblock := h.placed block List.mem_cons_self
    have hend := outputEnd_lt t
    refine List.forall_mem_cons.mpr ⟨⟨hblock.marker_lt, fun _ start hstart => ?_⟩,
      fun other hother => h.placed other (List.mem_cons_of_mem _ hother)⟩
    have hmarker : block.marker = some start := hstart
    have hlt := hblock.marker_lt start hmarker
    refine ⟨_, rfl, ?_⟩
    simp only [hmarker, Marker.line]
    omega
  after := by
    obtain ⟨hnewest, htail⟩ := List.pairwise_cons.mp h.after
    refine List.pairwise_cons.mpr ⟨fun other hother => ?_, htail⟩
    have hafter := hnewest other hother
    exact ⟨hafter.id_lt, hafter.finished, hafter.below⟩

/-! ### Releasing -/

theorem releaseErasedBlock_id (firstLine lastLine : Nat) (block : Block) :
    (releaseErasedBlock firstLine lastLine block).id = block.id := by
  rw [releaseErasedBlock]
  split
  · rfl
  · split_ifs <;> rfl

theorem releaseErasedBlock_state (firstLine lastLine : Nat) (block : Block) :
    (releaseErasedBlock firstLine lastLine block).state = block.state := by
  rw [releaseErasedBlock]
  split
  · rfl
  · split_ifs <;> rfl

/-- A block keeps its place only with its command line outside the released lines. It then ends
where it did, or right above the first of these, whichever is higher. -/
theorem releaseErasedBlock_eq {firstLine lastLine start : Nat}
    (h : (releaseErasedBlock firstLine lastLine block).marker = some start) :
    block.marker = some start ∧ (releaseErasedBlock firstLine lastLine block = block ∨
      start < firstLine ∧ ∃ last, block.endLine = some last ∧ (firstLine : Int) ≤ last ∧
        releaseErasedBlock firstLine lastLine block =
          { block with endLine := some ((firstLine : Int) - 1) }) := by
  cases hmarker : block.marker with
  | none => simp [releaseErasedBlock, hmarker] at h
  | some place =>
      simp only [releaseErasedBlock, hmarker] at h ⊢
      split_ifs at h ⊢ with hfirst hlast hend
      · exact ⟨hmarker.symm.trans h, Or.inl rfl⟩
      · obtain rfl : place = start := Option.some.inj h
        cases hlast : block.endLine with
        | none => simp [hlast] at hend
        | some last =>
            have hle : (firstLine : Int) ≤ last := by simpa [hlast] using hend
            exact ⟨rfl, Or.inr ⟨Nat.lt_of_not_le hfirst, last, rfl, hle, rfl⟩⟩
      · exact ⟨hmarker.symm.trans h, Or.inl rfl⟩

theorem Arranged.release (h : Arranged length blocks) (firstLine lastLine : Nat) :
    Arranged length (releaseErasedLines firstLine lastLine blocks) where
  placed := by
    intro released hreleased
    obtain ⟨block, hblock, rfl⟩ := List.mem_map.mp hreleased
    have hplaced := h.placed block hblock
    refine ⟨fun start hstart => hplaced.marker_lt start (releaseErasedBlock_eq hstart).1,
      fun hfinished start hstart => ?_⟩
    obtain ⟨hmarker, hsame | ⟨hlt, last, hlast, hle, hshort⟩⟩ := releaseErasedBlock_eq hstart
    · rw [hsame] at hfinished ⊢
      exact hplaced.ended hfinished start hmarker
    · rw [Block.Finished, releaseErasedBlock_state] at hfinished
      obtain ⟨last', hlast', _, hlength⟩ := hplaced.ended hfinished start hmarker
      obtain rfl : last = last' := Option.some.inj (hlast.symm.trans hlast')
      rw [hshort]
      exact ⟨_, rfl, by omega, by omega⟩
  after := by
    refine List.pairwise_map.mpr (h.after.imp fun {newer older} hafter => ?_)
    refine ⟨?_, ?_, fun place start last hplace hlast hstart => ?_⟩
    · rw [releaseErasedBlock_id, releaseErasedBlock_id]
      exact hafter.id_lt
    · rw [Block.Finished, releaseErasedBlock_state]
      exact hafter.finished
    · obtain ⟨hmarker, hsame | ⟨_, last', hlast', hle, hshort⟩⟩ := releaseErasedBlock_eq hplace
      · rw [hsame] at hlast
        exact hafter.below place start last hmarker hlast (releaseErasedBlock_eq hstart).1
      · rw [hshort] at hlast
        have hbelow := hafter.below place start last' hmarker hlast'
          (releaseErasedBlock_eq hstart).1
        have hend : (firstLine : Int) - 1 = last := Option.some.inj hlast
        omega

theorem Held.release {firstLine lastLine : Nat}
    (hblank : linesAreBlank t firstLine lastLine = true)
    (hlast : ∀ start last, block.marker = some start → block.endLine = some last →
      last ≤ lastLine) :
    Held t t block (releaseErasedBlock firstLine lastLine block) where
  id_eq := releaseErasedBlock_id firstLine lastLine block
  finished hfinished := by
    rw [Block.Finished, releaseErasedBlock_state]
    exact hfinished
  output hfinished hmarker := by
    obtain ⟨start, hstart⟩ := Option.ne_none_iff_exists'.mp hmarker
    obtain ⟨hplace, hsame | ⟨hlt, last, hend, hle, hshort⟩⟩ := releaseErasedBlock_eq hstart
    · rw [hsame]
      exact ⟨by simp [hplace], rfl⟩
    · rw [hshort]
      exact ⟨by simp [hplace],
        readBlockOutput_of_blank hplace hend hlt hle (hlast start last hplace hend) hblank⟩

/-! ### Closing keeps the order -/

theorem Arranged.closeRunningBlock (h : Arranged t.lines.length blocks) :
    Arranged t.lines.length (closeRunningBlock t exitCode blocks) := by
  refine closeRunningBlock_cases h (fun _ => h) ?_ ?_
  · rintro block older rfl _
    exact h.close
  · rintro block older start rfl _ _ _ _
    exact h.close.release _ _

theorem finished_of_mem_closeRunningBlock (h : Arranged t.lines.length blocks) :
    ∀ block ∈ closeRunningBlock t exitCode blocks, block.Finished := by
  have hclosed : ∀ block older, blocks = block :: older →
      ∀ other ∈ closeBlock t exitCode block :: older, other.Finished := by
    rintro block older rfl
    exact List.forall_mem_cons.mpr
      ⟨classifyCommandExit_ne_running exitCode, h.finished_of_mem_tail⟩
  refine closeRunningBlock_cases (P := fun blocks => ∀ block ∈ blocks, block.Finished) h id
    (fun block older heq _ => hclosed block older heq) ?_
  intro block older start heq _ _ _ _ released hreleased
  obtain ⟨other, hother, rfl⟩ := List.mem_map.mp hreleased
  rw [Block.Finished, releaseErasedBlock_state]
  exact hclosed block older heq other hother

theorem held_of_mem_closeRunningBlock (h : Arranged t.lines.length blocks) :
    ∀ closed ∈ closeRunningBlock t exitCode blocks, ∃ block ∈ blocks, Held t t block closed := by
  refine closeRunningBlock_cases
    (P := fun result => ∀ closed ∈ result, ∃ block ∈ blocks, Held t t block closed) h
    (fun _ block hblock => ⟨block, hblock, Held.refl t block⟩) ?_ ?_
  · rintro block older rfl hrunning closed hclosed
    rcases List.mem_cons.mp hclosed with rfl | hclosed
    · exact ⟨block, List.mem_cons_self, rfl, fun hf => absurd hf hrunning,
        fun hf => absurd hf hrunning⟩
    · exact ⟨closed, List.mem_cons_of_mem _ hclosed, Held.refl t closed⟩
  · rintro block older start rfl hrunning hmarker _ hblank released hreleased
    obtain ⟨closed, hclosed, rfl⟩ := List.mem_map.mp hreleased
    rcases List.mem_cons.mp hclosed with rfl | hclosed
    · exact ⟨block, List.mem_cons_self, releaseErasedBlock_id _ _ _,
        fun hf => absurd hf hrunning, fun hf => absurd hf hrunning⟩
    · have hafter := (List.pairwise_cons.mp h.after).1 closed hclosed
      refine ⟨closed, List.mem_cons_of_mem _ hclosed,
        Held.release hblank ?_⟩
      intro place last hplace hlast
      have hbelow := hafter.below place start last hplace hlast hmarker
      omega

def EndsAbove (line : Nat) (blocks : List Block) : Prop :=
  ∀ block ∈ blocks, ∀ start last, block.marker = some start → block.endLine = some last →
    last < (line : Int)

theorem EndsAbove.release {line : Nat} (h : EndsAbove line blocks) (firstLine lastLine : Nat) :
    EndsAbove line (releaseErasedLines firstLine lastLine blocks) := by
  intro released hreleased start last hstart hlast
  obtain ⟨block, hblock, rfl⟩ := List.mem_map.mp hreleased
  obtain ⟨hmarker, hsame | ⟨_, last', hlast', hle, hshort⟩⟩ := releaseErasedBlock_eq hstart
  · rw [hsame] at hlast
    exact h block hblock start last hmarker hlast
  · rw [hshort] at hlast
    have habove := h block hblock start last' hmarker hlast'
    have hend : (firstLine : Int) - 1 = last := Option.some.inj hlast
    omega

theorem State.StartsBelow.finished {s : State} {line start : Nat} {last : Int}
    (h : s.StartsBelow) (hline : commandMarker s.terminal s.session = some line)
    (hblock : block ∈ s.session.blocks) (hfinished : block.Finished)
    (hstart : block.marker = some start) (hlast : block.endLine = some last) :
    last < (line : Int) := by
  rw [State.StartsBelow, hline, Option.all_some, List.all_eq_true] at h
  simpa [hstart, hlast, show ¬ block.state = .running from hfinished] using h block hblock

theorem State.StartsBelow.running {s : State} {line start : Nat} (h : s.StartsBelow)
    (hline : commandMarker s.terminal s.session = some line) (hblock : block ∈ s.session.blocks)
    (hrunning : ¬ block.Finished) (hstart : block.marker = some start) :
    max (start : Int) (outputEnd s.terminal) < line := by
  rw [State.StartsBelow, hline, Option.all_some, List.all_eq_true] at h
  have hstate : block.state = .running := not_not.mp hrunning
  have hbelow := h block hblock
  simp only [hstart, Option.all_some, hstate, if_true, Bool.and_eq_true, decide_eq_true_eq]
    at hbelow
  rw [outputEnd]
  split_ifs <;> omega

theorem endsAbove_closeRunningBlock {s : State} {line : Nat}
    (h : Arranged s.terminal.lines.length s.session.blocks) (hbelow : s.StartsBelow)
    (hline : commandMarker s.terminal s.session = some line) :
    EndsAbove line (closeRunningBlock s.terminal exitCode s.session.blocks) := by
  have hold : ∀ block ∈ s.session.blocks, block.Finished → ∀ start last,
      block.marker = some start → block.endLine = some last → last < (line : Int) :=
    fun block hblock hfinished _ _ => hbelow.finished hline hblock hfinished
  have hclosed : ∀ block older, s.session.blocks = block :: older → ¬ block.Finished →
      EndsAbove line (closeBlock s.terminal exitCode block :: older) := by
    intro block older heq hrunning other hother start last hstart hlast
    have hblock : block ∈ s.session.blocks := by
      simp [heq]
    rcases List.mem_cons.mp hother with rfl | hother
    · have hmarker : block.marker = some start := hstart
      have hend := hbelow.running hline hblock hrunning hmarker
      have hlast' : max (Marker.line block.marker) (outputEnd s.terminal) = last :=
        Option.some.inj hlast
      rw [hmarker] at hlast'
      exact hlast' ▸ hend
    · have hmem : other ∈ s.session.blocks := by
        simp [heq, hother]
      rw [heq] at h
      exact hold other hmem (h.finished_of_mem_tail other hother) start last hstart hlast
  refine closeRunningBlock_cases (P := EndsAbove line) h ?_ hclosed ?_
  · exact fun hfinished block hblock => hold block hblock (hfinished block hblock)
  · exact fun block older start heq hrunning _ _ _ => (hclosed block older heq hrunning).release _ _

end Dolgate.CommandBlocks
