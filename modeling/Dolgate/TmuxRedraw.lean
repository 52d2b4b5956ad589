import Dolgate.Transition

set_option autoImplicit false

namespace Dolgate.TmuxRedraw
open Transition

/-- Redrawing of one pane that flow control has paused. `timer` is set from when the timer is armed
to when its function takes the lock. -/
structure PaneRedraw where
  paused : Bool
  stale : Bool
  drawing : Bool
  dirty : Bool
  lastOutput : Option Int
  timer : Bool
deriving DecidableEq, Repr

def newPaneRedraw : PaneRedraw := ⟨false, false, false, false, none, false⟩

namespace PaneRedraw

def markFlowPaused (state : PaneRedraw) : PaneRedraw :=
  { state with paused := true, stale := true }

def takeFlowPaused (state : PaneRedraw) : PaneRedraw × Bool :=
  if state.paused then ({ state with paused := false }, true) else (state, false)

def notePaneOutput (state : PaneRedraw) (now : Int) : PaneRedraw :=
  { state with lastOutput := some now, dirty := state.dirty || state.drawing }

def scheduleQuietRedraw (state : PaneRedraw) : PaneRedraw := { state with timer := true }

def quietLeft (state : PaneRedraw) (quiet now : Int) : Int :=
  match state.lastOutput with
  | some last => quiet - (now - last)
  | none => 0

/-- The first lock section of the timer's function; `true` if it goes on to draw. -/
def quietRedrawDue (state : PaneRedraw) (quiet now : Int) : PaneRedraw × Bool :=
  let state := { state with timer := false }
  if state.paused || state.drawing || !state.stale then (state, false)
  else if 0 < state.quietLeft quiet now then ({ state with timer := true }, false)
  else ({ state with stale := false, drawing := true, dirty := false }, true)

/-- The lock section after drawing; `true` if the pane has to be drawn again. -/
def drawn (state : PaneRedraw) : PaneRedraw × Bool :=
  let state := { state with drawing := false }
  let state := if state.dirty then { state with stale := true, dirty := false } else state
  (state, state.stale && !state.paused)

end PaneRedraw

inductive Command where
  | pause
  | continue
deriving DecidableEq, Repr

inductive Notification where
  | output
  | continue
deriving DecidableEq, Repr

/-- A draw between its two lock sections: before and after it starts to capture the screen. -/
inductive Draw where
  | starting
  | capturing
deriving DecidableEq, Repr

/-- One pane, its control channel and tmux. `redraw` is missing until the pane is first paused.
`marked` pauses are noted and not yet written; `reader` and `again` are about to schedule a redraw.
`redrawn` tells that a capture has been started since tmux last let the pane go on. -/
structure System where
  quiet : Int
  redraw : Option PaneRedraw
  marked : Nat
  reader : Bool
  draws : List Draw
  again : Nat
  commands : List Command
  running : Bool
  notifications : List Notification
  redrawn : Bool
deriving DecidableEq, Repr

inductive Event where
  | pause
  | writePause
  | resume
  | process
  | output
  | receive (now : Int)
  | schedule
  | due (now : Int)
  | capture
  | finish
  | scheduleAgain
deriving DecidableEq, Repr

namespace System

def init (quiet : Int) : System := ⟨quiet, none, 0, false, [], 0, [], true, [], true⟩

def redrawLocked (s : System) : PaneRedraw := s.redraw.getD newPaneRedraw

def process (s : System) : Command → System
  | .pause => { s with running := false }
  | .continue =>
      if s.running then s
      else { s with running := true, notifications := s.notifications ++ [.continue],
                    redrawn := false }

def receive (s : System) (now : Int) : Notification → System
  | .output => { s with redraw := s.redraw.map fun state => state.notePaneOutput now }
  | .continue =>
      match s.redraw with
      | none => s
      | some state =>
          { s with redraw := some state.takeFlowPaused.1, reader := state.takeFlowPaused.2 }

def step (s : System) : Event → Option System
  | .pause => some { s with redraw := some s.redrawLocked.markFlowPaused, marked := s.marked + 1 }
  | .writePause =>
      if s.marked = 0 then none
      else some { s with marked := s.marked - 1, commands := s.commands ++ [.pause] }
  | .resume => some { s with commands := s.commands ++ [.continue] }
  | .process =>
      match s.commands with
      | [] => none
      | c :: commands => some (process { s with commands := commands } c)
  | .output =>
      if s.running then some { s with notifications := s.notifications ++ [.output] } else none
  | .receive now =>
      if s.reader then none
      else
        match s.notifications with
        | [] => none
        | n :: notifications => some (receive { s with notifications := notifications } now n)
  | .schedule =>
      if s.reader then
        some { s with redraw := some s.redrawLocked.scheduleQuietRedraw, reader := false }
      else none
  | .due now => do
      let state ← s.redraw
      if state.timer then
        let (state, draw) := state.quietRedrawDue s.quiet now
        some { s with redraw := some state,
                      draws := if draw then s.draws ++ [.starting] else s.draws }
      else none
  | .capture =>
      if .starting ∈ s.draws then
        some { s with draws := s.draws.erase .starting ++ [.capturing], redrawn := true }
      else none
  | .finish => do
      let state ← s.redraw
      if .capturing ∈ s.draws then
        let (state, again) := state.drawn
        some { s with redraw := some state, draws := s.draws.erase .capturing,
                      again := if again then s.again + 1 else s.again }
      else none
  | .scheduleAgain =>
      if s.again = 0 then none
      else some { s with redraw := some s.redrawLocked.scheduleQuietRedraw, again := s.again - 1 }

end System

def Quiescent (s : System) : Prop :=
  s.marked = 0 ∧ s.reader = false ∧ s.draws = [] ∧ s.again = 0 ∧ s.commands = [] ∧
    s.notifications = [] ∧ s.redrawLocked.timer = false

def Pausing (s : System) : Prop := 0 < s.marked ∨ .pause ∈ s.commands ∨ s.running = false

/-- A draw is started only while no pause of the pane is noted, queued or in force. -/
def DrawsUnpaused (s : System) : Event → Prop
  | .due now => ∀ state, s.redraw = some state →
      (state.quietRedrawDue s.quiet now).2 = true → ¬ Pausing s
  | _ => True

/-- The flag `drawing` guards the one draw. -/
def Single (s : System) : Prop :=
  (s.redrawLocked.drawing = false ∧ s.draws = []) ∨
    (s.redrawLocked.drawing = true ∧ ∃ d, s.draws = [d])

/-- A pane that was paused is marked stale until a draw of it starts, and as long as tmux still owes
or has just given its `%continue`, something is under way that leads to that draw. -/
structure Inv (s : System) : Prop where
  single : Single s
  paused : s.redrawLocked.paused = true → Pausing s ∨ .continue ∈ s.notifications
  stale : Pausing s → s.redrawLocked.stale = true
  owed : s.redrawn = false → s.redrawLocked.stale = true ∨ s.draws = [.starting]
  scheduled : s.redrawn = false ∨ Pausing s → s.redrawLocked.paused = false →
    s.redrawLocked.timer = true ∨ s.reader = true ∨ 0 < s.again ∨ s.draws ≠ []

variable {s t : System} {e : Event} {state : PaneRedraw}

theorem inv_init (quiet : Int) : Inv (.init quiet) := by
  constructor <;> simp [System.init, System.redrawLocked, newPaneRedraw, Single, Pausing]

theorem redrawLocked_of_some (h : s.redraw = some state) : s.redrawLocked = state := by
  simp [System.redrawLocked, h]

section quietRedrawDue
variable (state) (quiet now : Int)

theorem quietRedrawDue_cases :
    (state.quietRedrawDue quiet now = ({ state with timer := false }, false) ∧
        (state.paused = true ∨ state.drawing = true ∨ state.stale = false)) ∨
      state.quietRedrawDue quiet now = ({ state with timer := true }, false) ∨
      (state.quietRedrawDue quiet now =
          ({ state with timer := false, stale := false, drawing := true, dirty := false }, true) ∧
        state.paused = false ∧ state.drawing = false ∧ state.stale = true) := by
  unfold PaneRedraw.quietRedrawDue
  simp only
  split_ifs with h h'
  · left
    simpa [or_assoc] using h
  · exact .inr (.inl rfl)
  · right; right
    simpa [and_assoc] using h

end quietRedrawDue

theorem drawn_spec (state : PaneRedraw) :
    state.drawn.1.paused = state.paused ∧ state.drawn.1.timer = state.timer ∧
      state.drawn.1.drawing = false ∧ (state.stale = true → state.drawn.1.stale = true) ∧
      state.drawn.2 = (state.drawn.1.stale && !state.drawn.1.paused) := by
  unfold PaneRedraw.drawn
  simp only
  split_ifs <;> simp

theorem receive_redraw (s : System) (now : Int) (n : Notification) :
    (s.receive now n).redrawLocked.drawing = s.redrawLocked.drawing ∧
      (s.receive now n).draws = s.draws := by
  cases n with
  | output => cases h : s.redraw <;> simp [System.receive, System.redrawLocked, h,
      PaneRedraw.notePaneOutput]
  | «continue» =>
      cases h : s.redraw with
      | none => simp [System.receive, h]
      | some state =>
          simp only [System.receive, h, System.redrawLocked, PaneRedraw.takeFlowPaused]
          split_ifs <;> simp

theorem step_due {now : Int} (h : s.step (.due now) = some t) :
    ∃ state, s.redraw = some state ∧ state.timer = true ∧
      t = { s with redraw := some (state.quietRedrawDue s.quiet now).1,
                   draws := if (state.quietRedrawDue s.quiet now).2 then s.draws ++ [.starting]
                     else s.draws } := by
  simp only [System.step, Option.bind_eq_bind, Option.bind_eq_some_iff] at h
  obtain ⟨state, hs, h⟩ := h
  split at h
  · exact ⟨state, hs, ‹_›, (Option.some.inj h).symm⟩
  · cases h

theorem step_finish (h : s.step .finish = some t) :
    ∃ state, s.redraw = some state ∧ .capturing ∈ s.draws ∧
      t = { s with redraw := some state.drawn.1, draws := s.draws.erase .capturing,
                   again := if state.drawn.2 then s.again + 1 else s.again } := by
  simp only [System.step, Option.bind_eq_bind, Option.bind_eq_some_iff] at h
  obtain ⟨state, hs, h⟩ := h
  split at h
  · exact ⟨state, hs, ‹_›, (Option.some.inj h).symm⟩
  · cases h

theorem step_capture (h : s.step .capture = some t) :
    .starting ∈ s.draws ∧
      t = { s with draws := s.draws.erase .starting ++ [.capturing], redrawn := true } := by
  simp only [System.step] at h
  split at h
  · exact ⟨‹_›, (Option.some.inj h).symm⟩
  · cases h

theorem Single.step (hs : Single s) (h : s.step e = some t) : Single t := by
  cases e with
  | pause =>
      cases h
      exact hs
  | writePause =>
      simp only [System.step] at h
      split at h <;> cases h
      exact hs
  | resume =>
      cases h
      exact hs
  | process =>
      simp only [System.step] at h
      split at h
      · cases h
      · rename_i c commands _
        cases h
        cases c with
        | pause => exact hs
        | «continue» =>
            simp only [System.process]
            split_ifs <;> exact hs
  | output =>
      simp only [System.step] at h
      split at h <;> cases h
      exact hs
  | receive now =>
      simp only [System.step] at h
      split at h
      · cases h
      · split at h
        · cases h
        · rename_i n notifications _
          cases h
          obtain ⟨hd, hl⟩ := receive_redraw { s with notifications := notifications } now n
          rw [Single, hd, hl]
          exact hs
  | schedule =>
      simp only [System.step] at h
      split at h <;> cases h
      exact hs
  | due now =>
      obtain ⟨state, hsome, -, rfl⟩ := step_due h
      simp only [Single, redrawLocked_of_some hsome] at hs
      rcases quietRedrawDue_cases state s.quiet now with ⟨hq, -⟩ | hq | ⟨hq, -, hd, -⟩
      · simpa [Single, System.redrawLocked, hq] using hs
      · simpa [Single, System.redrawLocked, hq] using hs
      · have hnil : s.draws = [] := by simpa [hd] using hs
        simp [Single, System.redrawLocked, hq, hnil]
  | capture =>
      obtain ⟨hmem, rfl⟩ := step_capture h
      rcases hs with ⟨-, hl⟩ | ⟨hd, d, hl⟩
      · simp [hl] at hmem
      · refine .inr ⟨hd, .capturing, ?_⟩
        have : d = .starting := by simpa [hl, eq_comm] using hmem
        simp [hl, this]
  | finish =>
      obtain ⟨state, hsome, hmem, rfl⟩ := step_finish h
      rcases hs with ⟨-, hl⟩ | ⟨hd, d, hl⟩
      · simp [hl] at hmem
      · refine .inl ⟨(drawn_spec state).2.2.1, ?_⟩
        have : d = .capturing := by simpa [hl, eq_comm] using hmem
        simp [hl, this]
  | scheduleAgain =>
      simp only [System.step] at h
      split at h <;> cases h
      exact hs

theorem Inv.process {c : Command} {commands : List Command} (hi : Inv s)
    (hc : s.commands = c :: commands) : Inv (System.process { s with commands := commands } c) := by
  cases c with
  | pause =>
      have hp : Pausing s := .inr (.inl (by simp [hc]))
      have hst := hi.stale hp
      exact ⟨hi.single, fun _ => .inl (.inr (.inr rfl)), fun _ => hst, fun _ => .inl hst,
        fun _ => hi.scheduled (.inr hp)⟩
  | «continue» =>
      have hless : Pausing { s with commands := commands } → Pausing s := by
        rintro (h | h | h)
        · exact .inl h
        · exact .inr (.inl (by simpa [hc] using h))
        · exact .inr (.inr h)
      simp only [System.process]
      split_ifs with hr
      · refine ⟨hi.single, fun hp => ?_, fun h => hi.stale (hless h), hi.owed,
          fun h => hi.scheduled (h.imp_right hless)⟩
        refine (hi.paused hp).imp_left ?_
        rintro (h | h | h)
        · exact .inl h
        · exact .inr (.inl (by simpa [hc] using h))
        · simp [h] at hr
      · have hp : Pausing s := .inr (.inr (by simpa using hr))
        have hst := hi.stale hp
        exact ⟨hi.single, fun _ => .inr (by simp), fun _ => hst, fun _ => .inl hst,
          fun _ => hi.scheduled (.inr hp)⟩

theorem notePaneOutput_locked (s : System) (now : Int) :
    let t := s.receive now .output
    t.redrawLocked.paused = s.redrawLocked.paused ∧ t.redrawLocked.stale = s.redrawLocked.stale ∧
      t.redrawLocked.timer = s.redrawLocked.timer := by
  cases h : s.redraw <;>
    simp [System.receive, System.redrawLocked, h, PaneRedraw.notePaneOutput]

theorem receive_continue_none (hs : s.redraw = none) (notifications : List Notification)
    (now : Int) : System.receive { s with notifications := notifications } now .continue =
      { s with notifications := notifications } := by
  simp [System.receive, hs]

theorem Inv.receive_continue {notifications : List Notification} {state : PaneRedraw} (hi : Inv s)
    (hr : s.reader = false) (hs : s.redraw = some state) :
    Inv { s with notifications := notifications, redraw := some state.takeFlowPaused.1,
                 reader := state.takeFlowPaused.2 } := by
  obtain ⟨hsi, -, hst, how, hsc⟩ := hi
  simp only [redrawLocked_of_some hs, Single] at hsi hst how hsc
  unfold PaneRedraw.takeFlowPaused
  split_ifs with hp
  · exact ⟨hsi, nofun, hst, how, fun _ _ => .inr (.inl rfl)⟩
  · refine ⟨hsi, fun h => absurd h hp, hst, how, fun hdue hnp => ?_⟩
    have := hsc hdue hnp
    rw [hr] at this
    exact this

theorem Inv.receive {n : Notification} {notifications : List Notification} (hi : Inv s)
    (hr : s.reader = false) (hn : s.notifications = n :: notifications) (now : Int) :
    Inv (System.receive { s with notifications := notifications } now n) := by
  cases n with
  | output =>
      obtain ⟨hd, hl⟩ := receive_redraw { s with notifications := notifications } now .output
      obtain ⟨hp, hst, ht⟩ := notePaneOutput_locked { s with notifications := notifications } now
      refine ⟨?_, fun h => ?_, fun h => ?_, fun h => ?_, fun hdue h => ?_⟩
      · rw [Single, hd, hl]
        exact hi.single
      · rw [hp] at h
        refine (hi.paused h).imp_right fun h => ?_
        have : .continue ∈ notifications := by simpa [hn] using h
        exact this
      · rw [hst]
        exact hi.stale h
      · rw [hst]
        exact hi.owed h
      · rw [hp] at h
        rw [ht]
        exact hi.scheduled hdue h
  | «continue» =>
      rcases Option.eq_none_or_eq_some s.redraw with hs | ⟨state, hs⟩
      · rw [receive_continue_none hs]
        have hp : s.redrawLocked.paused ≠ true := by simp [System.redrawLocked, hs, newPaneRedraw]
        exact ⟨hi.single, fun h => absurd h hp, hi.stale, hi.owed, hi.scheduled⟩
      · simp only [System.receive, hs]
        exact hi.receive_continue hr hs

theorem Inv.due (hi : Inv s) {now : Int} (hok : DrawsUnpaused s (.due now))
    (h : s.step (.due now) = some t) : Inv t := by
  have hsingle := hi.single.step h
  obtain ⟨state, hsome, -, rfl⟩ := step_due h
  have hok := hok state hsome
  have hst := hi.stale
  have hpa := hi.paused
  have how := hi.owed
  have hsi := hi.single
  simp only [redrawLocked_of_some hsome, Single] at hst hpa how hsi
  rcases quietRedrawDue_cases state s.quiet now with ⟨hq, hgive⟩ | hq | ⟨hq, hp, hd, hs⟩
  · simp only [hq, Bool.false_eq_true, if_false] at hsingle ⊢
    refine ⟨hsingle, hpa, hst, how, fun hdue hnp => .inr (.inr (.inr ?_))⟩
    rcases hgive with hg | hg | hg
    · have hnp : state.paused = false := hnp
      simp [hnp] at hg
    · obtain ⟨d, hl⟩ : ∃ d, s.draws = [d] := by simpa [hg] using hsi
      simp [hl]
    · rcases hdue with hdue | hdue
      · have hl : s.draws = [.starting] := by simpa [hg] using how hdue
        simp [hl]
      · exact absurd (hst hdue) (by simp [hg])
  · simp only [hq, Bool.false_eq_true, if_false] at hsingle ⊢
    exact ⟨hsingle, hpa, hst, how, fun _ _ => .inl rfl⟩
  · have hok := hok (by rw [hq])
    have hnil : s.draws = [] := by simpa [hd] using hsi
    simp only [hq, if_true] at hsingle ⊢
    refine ⟨hsingle, ?_, fun h => absurd h hok, fun _ => .inr (by simp [hnil]), fun _ _ => ?_⟩
    · simp [System.redrawLocked, hp]
    · exact .inr (.inr (.inr (by simp)))

theorem Inv.finish (hi : Inv s) (h : s.step .finish = some t) : Inv t := by
  have hsingle := hi.single.step h
  obtain ⟨state, hsome, hmem, rfl⟩ := step_finish h
  obtain ⟨hpaused, -, -, hkeep, hagain⟩ := drawn_spec state
  obtain ⟨-, hpa, hst, how, -⟩ := hi
  simp only [redrawLocked_of_some hsome] at hpa hst how
  have howed : s.redrawn = false ∨ Pausing s → state.drawn.1.stale = true := by
    refine fun h => hkeep (h.elim (fun h => ?_) hst)
    refine (how h).resolve_right fun hl => ?_
    simp [hl] at hmem
  refine ⟨hsingle, fun h => hpa (hpaused ▸ h), fun h => howed (.inr h),
    fun h => .inl (howed (.inl h)), fun hdue hnp => .inr (.inr (.inl ?_))⟩
  have hnp : state.drawn.1.paused = false := hnp
  have hs : state.drawn.2 = true := by
    rw [hagain, hnp, howed hdue]
    rfl
  simp [hs]

theorem Inv.step (hi : Inv s) (hok : DrawsUnpaused s e) (h : s.step e = some t) : Inv t := by
  have hsingle := hi.single.step h
  cases e with
  | pause =>
      cases h
      exact ⟨hsingle, fun _ => .inl (.inl (Nat.succ_pos _)), fun _ => rfl, fun _ => .inl rfl,
        nofun⟩
  | writePause =>
      simp only [System.step] at h
      split at h
      · cases h
      · rename_i hm
        cases h
        have hp : Pausing s := .inl (Nat.pos_of_ne_zero hm)
        exact ⟨hsingle, fun _ => .inl (.inr (.inl (by simp))), fun _ => hi.stale hp, hi.owed,
          fun _ => hi.scheduled (.inr hp)⟩
  | resume =>
      cases h
      have hless : Pausing { s with commands := s.commands ++ [.continue] } ↔ Pausing s := by
        simp [Pausing]
      exact ⟨hsingle, fun hp => (hi.paused hp).imp_left hless.mpr, fun h => hi.stale (hless.mp h),
        hi.owed, fun h => hi.scheduled (h.imp_right hless.mp)⟩
  | process =>
      simp only [System.step] at h
      split at h
      · cases h
      · rename_i c commands hc
        cases h
        exact hi.process hc
  | output =>
      simp only [System.step] at h
      split at h
      · cases h
        exact ⟨hsingle, fun hp => (hi.paused hp).imp_right (List.mem_append_left _), hi.stale,
          hi.owed, hi.scheduled⟩
      · cases h
  | receive now =>
      simp only [System.step] at h
      split at h
      · cases h
      · rename_i hr
        split at h
        · cases h
        · rename_i n notifications hn
          cases h
          exact hi.receive (by simpa using hr) hn now
  | schedule =>
      simp only [System.step] at h
      split at h
      · cases h
        exact ⟨hsingle, hi.paused, hi.stale, hi.owed, fun _ _ => .inl rfl⟩
      · cases h
  | due now => exact hi.due hok h
  | capture =>
      obtain ⟨hmem, rfl⟩ := step_capture h
      exact ⟨hsingle, hi.paused, hi.stale, nofun, fun _ _ => .inr (.inr (.inr (by simp)))⟩
  | finish => exact hi.finish h
  | scheduleAgain =>
      simp only [System.step] at h
      split at h
      · cases h
      · cases h
        exact ⟨hsingle, hi.paused, hi.stale, hi.owed, fun _ _ => .inl rfl⟩

theorem Inv.redrawn (hi : Inv s) (hq : Quiescent s) (hr : s.running = true) :
    s.redrawn = true := by
  obtain ⟨hm, hreader, hdraws, hagain, hcommands, hnotes, htimer⟩ := hq
  have hno : ¬ Pausing s := by simp [Pausing, hm, hcommands, hr]
  have hp : s.redrawLocked.paused = false := by
    by_contra hp
    rcases hi.paused (by simpa using hp) with h | h
    · exact hno h
    · simp [hnotes] at h
  by_contra h
  have := hi.scheduled (.inl (by simpa using h)) hp
  simp [hreader, hdraws, hagain, htimer] at this

/-- At most one draw is in flight in every run. Where draws start only while no pause is under way,
a running pane at rest has been captured since tmux last let it go on. -/
theorem no_stale_pane (quiet : Int) (es : List Event)
    (hr : run System.step (.init quiet) es = some s) :
    s.draws.length ≤ 1 ∧
      (Admissible DrawsUnpaused System.step (.init quiet) es → Quiescent s → s.running = true →
        s.redrawn = true) := by
  constructor
  · have hs : Single s := run_invariant (fun _ _ _ hs h => hs.step h) (inv_init quiet).single hr
    rcases hs with ⟨-, hl⟩ | ⟨-, d, hl⟩ <;> simp [hl]
  · intro ha hq hrun
    have hi : Inv s := run_invariant_of_admissible (fun _ _ _ hi ho h => hi.step ho h)
      (inv_init quiet) ha hr
    exact hi.redrawn hq hrun

def pausedOnce : List Event :=
  [.pause, .writePause, .process, .resume, .process, .receive 5, .schedule, .due 10, .capture,
    .finish]

theorem no_stale_pane_pausedOnce :
    ∃ s, run System.step (.init 100) pausedOnce = some s ∧ Quiescent s ∧ s.redrawn = true := by
  refine ⟨_, rfl, ⟨rfl, rfl, rfl, rfl, rfl, rfl, rfl⟩, (no_stale_pane 100 pausedOnce rfl).2 ?_
    ⟨rfl, rfl, rfl, rfl, rfl, rfl, rfl⟩ rfl⟩
  iterate 7
    refine ⟨trivial, fun t ht => ?_⟩
    cases ht
  refine ⟨fun state hs _ => ?_, fun t ht => ⟨trivial, fun _ _ => ⟨trivial, fun _ _ => trivial⟩⟩⟩
  cases hs
  exact fun h => h.elim (fun h => nomatch h) fun h => h.elim (fun h => nomatch h) nofun

/-- The pane is paused again before the first `%continue` is read. That one clears the mark of the
second pause, the pane is drawn while tmux holds its output back, and the second `%continue` finds
no mark. -/
def pausedTwice : List Event :=
  [.pause, .writePause, .process, .resume, .process, .pause, .writePause, .process,
    .receive 5, .schedule, .due 10, .capture, .finish, .resume, .process, .receive 20]

theorem second_pause_leaves_stale :
    ∃ s, run System.step (.init 100) pausedTwice = some s ∧ Quiescent s ∧ s.running = true ∧
      s.redrawn = false := by
  exact ⟨_, rfl, ⟨rfl, rfl, rfl, rfl, rfl, rfl, rfl⟩, rfl, rfl⟩

end Dolgate.TmuxRedraw
