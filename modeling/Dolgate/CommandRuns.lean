import Dolgate.CommandBlocks

set_option autoImplicit false

/-! What finished blocks hold in every run that is tidy. -/

namespace Dolgate.CommandBlocks

open GroupPaths (Text)
open Scrollback Transition

/-! ### Steps -/

structure State.Orderly (s : State) : Prop where
  arranged : Arranged s.terminal.lines.length s.session.blocks
  pending : ∀ line, s.session.pendingPrompt = some (some line) → line < s.terminal.lines.length
  numbered : ∀ block ∈ s.session.blocks, block.id ≤ s.session.seq

/-- From one state to another: the finished blocks that are still there read what they read. -/
structure State.Keeps (s s' : State) : Prop where
  seq_le : s.session.seq ≤ s'.session.seq
  held : ∀ block' ∈ s'.session.blocks, s.session.seq < block'.id ∨
    ∃ block ∈ s.session.blocks, Held s.terminal s'.terminal block block'

theorem State.Keeps.refl (s : State) : s.Keeps s :=
  ⟨Nat.le_refl _, fun block hblock => Or.inr ⟨block, hblock, Held.refl _ block⟩⟩

theorem State.Keeps.trans {s s' s'' : State} (h : s.Keeps s') (h' : s'.Keeps s'') :
    s.Keeps s'' where
  seq_le := Nat.le_trans h.seq_le h'.seq_le
  held block'' hblock'' := by
    rcases h'.held block'' hblock'' with hnew | ⟨block', hblock', hheld'⟩
    · exact Or.inl (Nat.lt_of_le_of_lt h.seq_le hnew)
    · rcases h.held block' hblock' with hnew | ⟨block, hblock, hheld⟩
      · exact Or.inl (hheld'.id_eq ▸ hnew)
      · exact Or.inr ⟨block, hblock, hheld.trans hheld'⟩

variable {s : State} {block : Block} {blocks : List Block} {length : Nat}

theorem State.Orderly.grow (h : s.Orderly) {terminal : Terminal}
    (hle : s.terminal.lines.length ≤ terminal.lines.length) :
    ({ s with terminal := terminal } : State).Orderly where
  arranged := h.arranged.mono hle
  pending line hline := Nat.lt_of_lt_of_le (h.pending line hline) hle
  numbered := h.numbered

theorem State.Orderly.keeps (h : s.Orderly) {terminal : Terminal}
    (hlines : ∀ block ∈ s.session.blocks, ∀ line < s.terminal.lines.length,
      block.outputHas line = true → terminal.lines[line]? = s.terminal.lines[line]?) :
    s.Keeps { s with terminal := terminal } where
  seq_le := Nat.le_refl _
  held block hblock := by
    refine Or.inr ⟨block, hblock, rfl, id, fun hfinished hmarker => ⟨hmarker, ?_⟩⟩
    obtain ⟨start, hstart⟩ := Option.ne_none_iff_exists'.mp hmarker
    obtain ⟨last, hend, hle, hlt⟩ := (h.arranged.placed block hblock).ended hfinished start hstart
    apply readBlockOutput_congr hstart hend
    intro line hline hlast
    exact hlines block hblock line (by omega)
      (outputHas_eq_true hfinished hstart hend hline hlast)

theorem State.Orderly.print (h : s.Orderly) (htidy : s.Untouched s.terminal.cursorLine)
    (c : UInt16) :
    ({ s with terminal := s.terminal.print c } : State).Orderly ∧
      s.Keeps { s with terminal := s.terminal.print c } := by
  refine ⟨h.grow (by simp), h.keeps fun block hblock line _ houtput => ?_⟩
  have hne : s.terminal.cursorLine ≠ line := by
    rintro rfl
    rw [htidy block hblock] at houtput
    cases houtput
  simp [hne]

theorem State.Orderly.feed_of_not_trims (h : s.Orderly) {wrapped : Bool}
    (htrims : ¬ s.terminal.Trims) (htidy : s.Feeds wrapped) :
    (s.feed wrapped).Orderly ∧ s.Keeps (s.feed wrapped) := by
  have hfeed : s.feed wrapped = { s with terminal := s.terminal.lineFeed wrapped } := by
    rw [State.feed, if_neg htrims]
  rw [State.Feeds, if_neg htrims] at htidy
  rw [hfeed]
  refine ⟨h.grow (Terminal.length_le_lineFeed _ _), h.keeps ?_⟩
  intro block hblock line hline houtput
  apply Terminal.getElem?_lineFeed htrims hline
  rintro rfl
  rcases htidy with hflag | huntouched
  · exact hflag
  · rw [huntouched block hblock] at houtput
    cases houtput

theorem State.Orderly.feed_of_trims (h : s.Orderly) {wrapped : Bool} (htrims : s.terminal.Trims)
    (htidy : s.Feeds wrapped) : (s.feed wrapped).Orderly ∧ s.Keeps (s.feed wrapped) := by
  rw [State.Feeds, if_pos htrims] at htidy
  have hlength := Terminal.length_lineFeed_of_trims htrims wrapped
  have hlost : ∀ block ∈ s.session.blocks, block.Finished → block.marker.trimmed = none := by
    intro block hblock hfinished
    have hzero := htidy block hblock hfinished
    cases hmarker : block.marker with
    | none => rfl
    | some start =>
        obtain rfl : start = 0 := by simpa [hmarker] using hzero
        rfl
  rw [State.feed, if_pos htrims]
  refine ⟨⟨⟨?_, ?_⟩, ?_, ?_⟩, ⟨Nat.le_refl _, ?_⟩⟩
  · intro trimmed htrimmed
    obtain ⟨block, hblock, rfl⟩ := List.mem_map.mp htrimmed
    refine ⟨fun start hstart => ?_, fun hfinished start hstart => ?_⟩
    · have hlt := (h.arranged.placed block hblock).marker_lt _ (Marker.trimmed_eq_some.mp hstart)
      exact hlength ▸ Nat.lt_of_succ_lt hlt
    · have hnone := hlost block hblock hfinished
      rw [hnone] at hstart
      cases hstart
  · refine List.pairwise_map.mpr (h.arranged.after.imp_of_mem ?_)
    intro newer older _ holder hafter
    refine ⟨hafter.id_lt, hafter.finished, fun place start last hplace _ _ => ?_⟩
    rw [hlost older holder hafter.finished] at hplace
    cases hplace
  · intro line hline
    obtain ⟨marker, hpending, hmarker⟩ := Option.map_eq_some_iff.mp hline
    have hlt := h.pending (line + 1) (by rw [hpending, Marker.trimmed_eq_some.mp hmarker])
    exact hlength ▸ Nat.lt_of_succ_lt hlt
  · intro trimmed htrimmed
    obtain ⟨block, hblock, rfl⟩ := List.mem_map.mp htrimmed
    exact h.numbered block hblock
  · intro trimmed htrimmed
    obtain ⟨block, hblock, rfl⟩ := List.mem_map.mp htrimmed
    exact Or.inr ⟨block, hblock, rfl, id,
      fun hfinished hmarker => absurd (hlost block hblock hfinished) hmarker⟩

theorem State.Orderly.feed (h : s.Orderly) {wrapped : Bool} (htidy : s.Feeds wrapped) :
    (s.feed wrapped).Orderly ∧ s.Keeps (s.feed wrapped) := by
  by_cases htrims : s.terminal.Trims
  · exact h.feed_of_trims htrims htidy
  · exact h.feed_of_not_trims htrims htidy

theorem State.Orderly.closed (h : s.Orderly) (exitCode : Option Int) :
    ∀ block ∈ closeRunningBlock s.terminal exitCode s.session.blocks,
      block.id ≤ s.session.seq := by
  intro closed hclosed
  obtain ⟨block, hblock, hheld⟩ := held_of_mem_closeRunningBlock h.arranged closed hclosed
  exact hheld.id_eq ▸ h.numbered block hblock

theorem State.Orderly.finish (h : s.Orderly) (exitCode : Option Int) :
    ({ s with session := finishCommandBlock s.terminal exitCode s.session } : State).Orderly ∧
      s.Keeps { s with session := finishCommandBlock s.terminal exitCode s.session } := by
  refine ⟨⟨h.arranged.closeRunningBlock, h.pending, h.closed exitCode⟩, Nat.le_refl _, ?_⟩
  exact fun closed hclosed => Or.inr (held_of_mem_closeRunningBlock h.arranged closed hclosed)

theorem State.Orderly.commandMarker_lt (h : s.Orderly) {line : Nat}
    (hline : commandMarker s.terminal s.session = some line) : line < s.terminal.lines.length := by
  rw [commandMarker] at hline
  cases hpending : s.session.pendingPrompt with
  | none =>
      rw [hpending] at hline
      obtain rfl : s.terminal.cursorLine = line := by simpa using hline
      exact s.terminal.cursorLine_lt
  | some marker =>
      rw [hpending, Option.getD_some] at hline
      exact h.pending line (by rw [hpending, hline])

theorem State.Orderly.begin (h : s.Orderly) (hbelow : s.StartsBelow) :
    ({ s with session := beginCommandBlock s.terminal s.session } : State).Orderly ∧
      s.Keeps { s with session := beginCommandBlock s.terminal s.session } := by
  have hclosed : Arranged s.terminal.lines.length
      (closeRunningBlock s.terminal none s.session.blocks) := h.arranged.closeRunningBlock
  have harranged : Arranged s.terminal.lines.length
      ({ id := s.session.seq + 1, marker := commandMarker s.terminal s.session } ::
        closeRunningBlock s.terminal none s.session.blocks) := by
    refine ⟨List.forall_mem_cons.mpr ⟨⟨fun start hstart => h.commandMarker_lt hstart,
      fun hfinished => absurd rfl hfinished⟩, hclosed.placed⟩,
      List.pairwise_cons.mpr ⟨fun older holder => ⟨?_, ?_, ?_⟩, hclosed.after⟩⟩
    · exact Nat.lt_succ_of_le (h.closed none older holder)
    · exact finished_of_mem_closeRunningBlock h.arranged older holder
    · intro place start last hplace hlast hstart
      exact endsAbove_closeRunningBlock h.arranged hbelow hstart older holder place last hplace
        hlast
  refine ⟨⟨⟨fun block hblock => harranged.placed block (List.mem_of_mem_take hblock),
    harranged.after.sublist (List.take_sublist _ _)⟩, ?_, ?_⟩, ?_, ?_⟩
  · intro line hline
    cases hline
  · intro block hblock
    rcases List.mem_cons.mp (List.mem_of_mem_take hblock) with rfl | hold
    · exact Nat.le_refl _
    · exact Nat.le_succ_of_le (h.closed none block hold)
  · exact Nat.le_succ _
  · intro block hblock
    rcases List.mem_cons.mp (List.mem_of_mem_take hblock) with rfl | hold
    · exact Or.inl (Nat.lt_succ_self _)
    · exact Or.inr (held_of_mem_closeRunningBlock h.arranged block hold)

theorem State.Orderly.promptEnd (h : s.Orderly) :
    ({ s with session := notePromptCommandStart s.terminal s.session } : State).Orderly := by
  refine ⟨h.arranged, fun line hline => ?_, h.numbered⟩
  obtain rfl : s.terminal.cursorLine = line := by
    simpa [notePromptCommandStart] using hline
  exact s.terminal.cursorLine_lt

theorem State.Orderly.afterStep {s' : State} {e : Event} (h : s.Orderly) (htidy : Tidy s e)
    (hstep : step s e = some s') : s'.Orderly ∧ s.Keeps s' := by
  cases e with
  | print c =>
      obtain ⟨_, hprinted⟩ := Option.ite_none_right_eq_some.mp hstep
      obtain rfl := Option.some.inj hprinted
      exact h.print htidy c
  | wrap =>
      obtain ⟨_, hfed⟩ := Option.ite_none_right_eq_some.mp hstep
      obtain rfl := Option.some.inj hfed
      obtain ⟨horderly, hkeeps⟩ := h.feed htidy
      exact ⟨horderly.grow (Nat.le_refl _), hkeeps.trans (horderly.keeps fun _ _ _ _ _ => rfl)⟩
  | lineFeed =>
      obtain rfl := Option.some.inj hstep
      exact h.feed htidy
  | carriageReturn =>
      obtain rfl := Option.some.inj hstep
      exact ⟨h.grow (Nat.le_refl _), h.keeps fun _ _ _ _ _ => rfl⟩
  | cursorTo y x =>
      obtain ⟨hinside, hmoved⟩ := Option.dite_none_right_eq_some.mp hstep
      obtain rfl := Option.some.inj hmoved
      exact ⟨h.grow (Nat.le_refl _), h.keeps fun _ _ _ _ _ => rfl⟩
  | promptEnd =>
      obtain rfl := Option.some.inj hstep
      exact ⟨h.promptEnd, Nat.le_refl _,
        fun block hblock => Or.inr ⟨block, hblock, Held.refl _ block⟩⟩
  | commandStart =>
      obtain rfl := Option.some.inj hstep
      exact h.begin htidy
  | commandEnd exitCode =>
      obtain rfl := Option.some.inj hstep
      exact h.finish exitCode

/-! ### Runs -/

theorem State.Orderly.afterRun {s' : State} {es : List Event} (h : s.Orderly)
    (htidy : Admissible Tidy step s es) (hrun : run step s es = some s') :
    s'.Orderly ∧ s.Keeps s' := by
  refine run_invariant_of_admissible (I := fun u => u.Orderly ∧ s.Keeps u) ?_
    ⟨h, State.Keeps.refl s⟩ htidy hrun
  rintro u e u' ⟨horderly, hkeeps⟩ htidy hstep
  obtain ⟨horderly', hkeeps'⟩ := horderly.afterStep htidy hstep
  exact ⟨horderly', hkeeps.trans hkeeps'⟩

theorem State.Orderly.opened (t : Terminal) : ({ terminal := t } : State).Orderly where
  arranged := ⟨by simp, List.Pairwise.nil⟩
  pending line hline := by cases hline
  numbered := by simp

/-- The blocks that were finished in the first state and have their first line in the second (and
so their last) read the same there. -/
def OutputsKept (s₁ s₂ : State) : Prop :=
  ∀ b₁ ∈ s₁.session.blocks, ∀ b₂ ∈ s₂.session.blocks, b₂.id = b₁.id → b₁.Finished →
    b₂.marker ≠ none → readBlockOutput s₂.terminal b₂ = readBlockOutput s₁.terminal b₁

def RangesApart (s : State) : Prop :=
  ∀ b ∈ s.session.blocks, ∀ b' ∈ s.session.blocks, b.id ≠ b'.id → b.Finished → b'.Finished →
    ∀ start start' last last', getCommandBlockRange b = some (start, some last) →
      getCommandBlockRange b' = some (start', some last') →
      last < (start' : Int) ∨ last' < (start : Int)

theorem getCommandBlockRange_eq_some {start : Nat} {last : Int}
    (h : getCommandBlockRange block = some (start, some last)) :
    block.marker = some start ∧ block.endLine = some last := by
  obtain ⟨place, hmarker, hpair⟩ := Option.map_eq_some_iff.mp h
  obtain ⟨rfl, hend⟩ := Prod.mk.inj hpair
  exact ⟨hmarker, hend⟩

theorem Arranged.related (h : Arranged length blocks) {b b' : Block} (hb : b ∈ blocks)
    (hb' : b' ∈ blocks) (hid : b.id ≠ b'.id) : b.After b' ∨ b'.After b := by
  have hrelated := List.Pairwise.forall_of_forall_of_flip
    (R := fun b b' : Block => b.id = b'.id ∨ b.After b' ∨ b'.After b) (fun _ _ => Or.inl rfl)
    (h.after.imp fun hafter => Or.inr (Or.inl hafter))
    (h.after.imp fun hafter => Or.inr (Or.inr hafter))
  exact (hrelated hb hb').resolve_left hid

theorem Arranged.unique (h : Arranged length blocks) {b b' : Block} (hb : b ∈ blocks)
    (hb' : b' ∈ blocks) (hid : b.id = b'.id) : b = b' := by
  have hrelated := List.Pairwise.forall_of_forall_of_flip
    (R := fun b b' : Block => b = b' ∨ b.id < b'.id ∨ b'.id < b.id) (fun _ _ => Or.inl rfl)
    (h.after.imp fun hafter => Or.inr (Or.inr hafter.id_lt))
    (h.after.imp fun hafter => Or.inr (Or.inl hafter.id_lt))
  rcases hrelated hb hb' with heq | hlt | hlt
  · exact heq
  · omega
  · omega

theorem State.Orderly.outputsKept {s' : State} (h : s.Orderly) (hkeeps : s.Keeps s') :
    OutputsKept s s' := by
  intro b₁ h₁ b₂ h₂ hid hfinished hmarker
  rcases hkeeps.held b₂ h₂ with hnew | ⟨b, hb, hheld⟩
  · have hold := h.numbered b₁ h₁
    omega
  · obtain rfl : b = b₁ := h.arranged.unique hb h₁ (hheld.id_eq.symm.trans hid)
    exact (hheld.output hfinished hmarker).2

theorem State.Orderly.rangesApart (h : s.Orderly) : RangesApart s := by
  intro b hb b' hb' hid _ _ start start' last last' hrange hrange'
  obtain ⟨hmarker, hend⟩ := getCommandBlockRange_eq_some hrange
  obtain ⟨hmarker', hend'⟩ := getCommandBlockRange_eq_some hrange'
  rcases h.arranged.related hb hb' hid with hafter | hafter
  · exact Or.inr (hafter.below start' start last' hmarker' hend' hmarker)
  · exact Or.inl (hafter.below start start' last hmarker hend hmarker')

theorem State.Orderly.getCommandBlockAtLine (h : s.Orderly) {line : Nat}
    (hblock : block ∈ s.session.blocks) (hfinished : block.Finished)
    (hline : block.hasLine line = true) :
    getCommandBlockAtLine s.session.blocks line = some block := by
  obtain ⟨newer, older, hblocks⟩ := List.append_of_mem hblock
  have hafter := h.arranged.after
  rw [hblocks] at hafter
  rw [CommandBlocks.getCommandBlockAtLine, List.find?_eq_some_iff_append]
  refine ⟨hline, newer, older, hblocks, fun other hother => ?_⟩
  have hother' : other.After block :=
    (List.pairwise_append.mp hafter).2.2 other hother block List.mem_cons_self
  obtain ⟨start, hmarker⟩ : ∃ start, block.marker = some start := by
    cases hmarker : block.marker with
    | none => simp [Block.hasLine, hmarker] at hline
    | some start => exact ⟨start, rfl⟩
  obtain ⟨last, hend, _⟩ := (h.arranged.placed block hblock).ended hfinished start hmarker
  have hle : (line : Int) ≤ last := by
    simp only [Block.hasLine, hmarker, hend, Option.all_some, Bool.and_eq_true,
      decide_eq_true_eq] at hline
    exact hline.2
  cases hplace : other.marker with
  | none => simp [Block.hasLine, hplace]
  | some place =>
      have hbelow := hother'.below start place last hmarker hend hplace
      have hnot : ¬ place ≤ line := by omega
      simp [Block.hasLine, hplace, hnot]

theorem finished_blocks_keep_their_lines {t : Terminal} {es fs : List Event} {s₁ s₂ : State}
    (htidy : Admissible Tidy step { terminal := t } (es ++ fs))
    (h₁ : run step { terminal := t } es = some s₁) (h₂ : run step s₁ fs = some s₂) :
    OutputsKept s₁ s₂ ∧ RangesApart s₂ := by
  obtain ⟨horderly₁, _⟩ := (State.Orderly.opened t).afterRun htidy.append_left h₁
  obtain ⟨horderly₂, hkeeps⟩ := horderly₁.afterRun (htidy.append_right h₁) h₂
  exact ⟨horderly₁.outputsKept hkeeps, horderly₂.rangesApart⟩

instance (s : State) (line : Nat) : Decidable (s.Untouched line) :=
  inferInstanceAs (Decidable (∀ block ∈ s.session.blocks, block.outputHas line = false))

instance (s : State) (wrapped : Bool) : Decidable (s.Feeds wrapped) :=
  inferInstanceAs (Decidable (if s.terminal.Trims then
    ∀ block ∈ s.session.blocks, block.Finished → block.marker.all fun start => start = 0
  else
    s.terminal.lines[s.terminal.cursorLine + 1]?.map Line.isWrapped = some wrapped ∨
      s.Untouched (s.terminal.cursorLine + 1)))

instance (s : State) : Decidable s.StartsBelow := inferInstanceAs (Decidable (_ = true))

instance (s : State) : DecidablePred (Tidy s)
  | .print _ => inferInstanceAs (Decidable (s.Untouched _))
  | .wrap => inferInstanceAs (Decidable (s.Feeds true))
  | .lineFeed => inferInstanceAs (Decidable (s.Feeds false))
  | .carriageReturn => isTrue trivial
  | .cursorTo _ _ => isTrue trivial
  | .promptEnd => isTrue trivial
  | .commandStart => inferInstanceAs (Decidable s.StartsBelow)
  | .commandEnd _ => isTrue trivial

def oneLine (text : Text) : List Event :=
  [.promptEnd, .print 36, .carriageReturn, .lineFeed, .commandStart] ++ text.map .print ++
    [.carriageReturn, .lineFeed, .commandEnd (some 0)]

def twoCommands : List Event := oneLine [97, 98] ++ oneLine [99]

theorem finished_blocks_keep_their_lines_two :
    ∃ s₁ s₂, run step { terminal := .fresh 6 8 4 (by decide) } (oneLine [97, 98]) = some s₁ ∧
      run step s₁ (oneLine [99]) = some s₂ ∧ OutputsKept s₁ s₂ ∧ RangesApart s₂ := by
  have hallowed : allows (fun s e => decide (Tidy s e)) step
      { terminal := .fresh 6 8 4 (by decide) } twoCommands = true := by
    decide
  exact ⟨_, _, rfl, rfl, finished_blocks_keep_their_lines
    (admissible_of_allows (fun _ _ => of_decide_eq_true) hallowed) rfl rfl⟩

def smallTerminal : Terminal := .fresh 3 8 2 (by decide)

def firstBlock (start : Nat) : Block :=
  { id := 1, state := .ok, exitCode := some 0, marker := some start, endLine := some 2 }

def secondBlock : Block :=
  { id := 2, state := .ok, exitCode := some 0, marker := some 2, endLine := some 3 }

theorem run_first_command :
    (run step { terminal := smallTerminal } (.lineFeed :: oneLine [97, 98])).map
      (fun s => (s.session.blocks, readBlockOutput s.terminal (firstBlock 1))) =
      some ([firstBlock 1], [97, 98]) := by
  decide

theorem run_second_command :
    (run step { terminal := smallTerminal } (.lineFeed :: oneLine [97, 98] ++ oneLine [99])).map
      (fun s => (s.session.blocks, readBlockOutput s.terminal (firstBlock 0))) =
      some ([secondBlock, firstBlock 0], [97, 98, 10, 36]) := by
  decide

/-- With three rows and two lines of scrollback the second command's output pushes out the head of
the buffer. The first block then reads the second one's command line too, and its range has it. -/
theorem trimmed_buffer_moves_output :
    ¬ (∀ (t : Terminal) (es fs : List Event) (s₁ s₂ : State),
      run step { terminal := t } es = some s₁ → run step s₁ fs = some s₂ → OutputsKept s₁ s₂) ∧
    ¬ (∀ (t : Terminal) (es : List Event) (s : State),
      run step { terminal := t } es = some s → RangesApart s) := by
  obtain ⟨s₂, hrun, hsecond⟩ := Option.map_eq_some_iff.mp run_second_command
  obtain ⟨hblocks₂, hread₂⟩ := Prod.mk.inj hsecond
  constructor
  · intro h
    obtain ⟨s₁, h₁, hfirst⟩ := Option.map_eq_some_iff.mp run_first_command
    obtain ⟨hblocks₁, hread₁⟩ := Prod.mk.inj hfirst
    obtain ⟨s, hs, h₂⟩ := run_append.mp hrun
    obtain rfl : s = s₁ := Option.some.inj (hs.symm.trans h₁)
    have hkept := h smallTerminal _ _ s s₂ h₁ h₂ (firstBlock 1) (by simp [hblocks₁])
      (firstBlock 0) (by simp [hblocks₂]) rfl (by decide) (by decide)
    rw [hread₁, hread₂] at hkept
    revert hkept
    decide
  · intro h
    have hapart := h smallTerminal _ s₂ hrun (firstBlock 0) (by simp [hblocks₂]) secondBlock
      (by simp [hblocks₂]) (by decide) (by decide) (by decide) 0 2 2 3 rfl rfl
    omega

end Dolgate.CommandBlocks
