import Mathlib.Algebra.Order.Ring.Nat
import Mathlib.Order.WithBot
import Dolgate.Transition

set_option autoImplicit false

/-! The player of a session recording: it reads segments as they are needed and starts again from a
picture of the terminal where it has to go back, or far ahead. -/

namespace Dolgate.ReplayPlayer

def prefetchSegments : Nat := 3

def keepBehindSegments : Nat := 1

def snapshotSeekMinBytes : Nat := 4 * 1024 * 1024

def replayPendingLimitBytes : Nat := 1024 * 1024

def snapshotSpacingBytes : Nat := 8 * 1024 * 1024

def snapshotBudgetChars : Nat := 48 * 1024 * 1024

/-- Entry `i` is `atMs[i]`, `dataEnd[i]`, `cols[i]` and `rows[i]`; its output lies in `data` behind
that of the entry before. -/
structure Segment (τ : Type) where
  atMs : List τ
  dataEnd : List Nat
  cols : List Nat
  rows : List Nat
  data : List UInt8
  deriving DecidableEq, Repr

def emptySegment {τ : Type} : Segment τ := ⟨[], [], [], [], []⟩

structure SegmentInfo (τ : Type) where
  startAtMs : τ
  outputBytes : Nat
  deriving DecidableEq, Repr

structure Snapshot (τ : Type) where
  segment : Nat
  atMs : τ
  cols : Nat
  rows : Nat
  data : String
  deriving DecidableEq, Repr

structure SnapshotStore (τ : Type) where
  snapshots : List (Snapshot τ) := []
  totalChars : Nat := 0
  budgetChars : Nat := snapshotBudgetChars
  spacing : Nat := snapshotSpacingBytes

/-- `filter((_, index) => index % 2 === 1)`. -/
def everySecond {α : Type} : List α → List α
  | _ :: kept :: rest => kept :: everySecond rest
  | _ => []

/-- The bytes from `first` to before `last`. -/
def subarray (data : List UInt8) (first last : Nat) : List UInt8 := (data.take last).drop first

inductive Op where
  | write (data : List UInt8)
  | screen (data : String)
  | resize (cols rows : Nat)
  deriving DecidableEq, Repr

/-- The terminal by what it was given since its last reset. `queued` is what it has not drawn yet,
`resizedOver` what it had not drawn when it was resized. -/
structure Terminal where
  log : List Op := []
  queued : Nat := 0
  resizedOver : List Nat := []
  deriving DecidableEq, Repr

inductive RestartPoint (τ : Type) where
  | start
  | snapshot (snapshot : Snapshot τ)
  deriving DecidableEq, Repr

structure Source (τ : Type) where
  segments : List (SegmentInfo τ)
  recorded : List (Segment τ)

structure State (τ : Type) where
  cache : Nat → Option (Segment τ) := fun _ => none
  loading : List Nat := []
  segment : Nat := 0
  entry : Nat := 0
  drawnAtMs : WithBot τ := ⊥
  restartPoint : Option (RestartPoint τ) := some .start
  disposed : Bool := false
  snapshots : SnapshotStore τ := {}
  terminal : Terminal := {}
  viewports : List (Nat × Nat) := []
  /-- The target of the last `seek`. -/
  sought : WithBot τ := ⊥
  /-- The target of the last call. -/
  goal : WithBot τ := ⊥

inductive Event (τ : Type) where
  | seek (targetMs : τ)
  | advance (targetMs : τ)
  | whenReady
  | dispose
  | completes (segmentIndex : Nat)
  | fails (segmentIndex : Nat)
  | drains (size : Nat)
  | takes (snapshot : Snapshot τ)

/-! The snapshots. -/

section Snapshots

variable {τ : Type}

theorem length_everySecond {α : Type} (l : List α) : 2 * (everySecond l).length ≤ l.length := by
  fun_induction everySecond l with
  | case1 _ kept rest ih =>
      simp only [List.length_cons]
      omega
  | case2 l _ => simp

def SnapshotStore.thin (store : SnapshotStore τ) : SnapshotStore τ :=
  if _h : store.budgetChars < store.totalChars ∧ 0 < store.snapshots.length then
    let kept := if store.snapshots.length = 1 then [] else everySecond store.snapshots
    SnapshotStore.thin
      { store with
        snapshots := kept
        totalChars := (kept.map (·.data.length)).sum
        spacing := store.spacing * 2 }
  else store
termination_by store.snapshots.length
decreasing_by
  have := length_everySecond store.snapshots
  split
  · simp only [List.length_nil]
    omega
  · omega

def SnapshotStore.add (store : SnapshotStore τ) (snapshot : Snapshot τ) : SnapshotStore τ :=
  SnapshotStore.thin
    { store with
      snapshots := store.snapshots ++ [snapshot]
      totalChars := store.totalChars + snapshot.data.length }

def SnapshotStore.latest [LE τ] [DecidableLE τ] (store : SnapshotStore τ) (atMs : τ) :
    Option (Snapshot τ) :=
  store.snapshots.reverse.find? (·.atMs ≤ atMs)

end Snapshots

/-! The terminal. -/

namespace Terminal

def write (t : Terminal) (data : List UInt8) : Terminal :=
  { t with log := t.log ++ [.write data], queued := t.queued + data.length }

def drawScreen (t : Terminal) (data : String) : Terminal :=
  { t with log := t.log ++ [.screen data], queued := t.queued + data.length }

def resize (t : Terminal) (cols rows : Nat) : Terminal :=
  { t with log := t.log ++ [.resize cols rows], resizedOver := t.resizedOver ++ [t.queued] }

def reset (t : Terminal) : Terminal := { t with log := [] }

/-- The output from `runStart` on, if there is any. -/
def writeRun (t : Terminal) (data : List UInt8) (runStart runEnd : Nat) : Terminal :=
  if runStart < runEnd then t.write (subarray data runStart runEnd) else t

end Terminal

/-! The player. -/

section Player

variable {τ : Type} (source : Source τ)

def outputBytesBetween (fromSegment toSegment : Nat) : Nat :=
  (((source.segments.drop fromSegment).take (toSegment - fromSegment)).map (·.outputBytes)).sum

def State.isWanted (s : State τ) (segmentIndex : Nat) : Bool :=
  s.segment - keepBehindSegments ≤ segmentIndex && segmentIndex ≤ s.segment + prefetchSegments

def State.request (s : State τ) (segmentIndex : Nat) : State τ :=
  if s.disposed || source.segments.length ≤ segmentIndex || (s.cache segmentIndex).isSome ||
      s.loading.contains segmentIndex then s
  else { s with loading := s.loading ++ [segmentIndex] }

def State.loaded (s : State τ) (segmentIndex : Nat) (segment : Segment τ) : State τ :=
  { s with
    loading := s.loading.erase segmentIndex
    cache := fun i =>
      if !s.disposed && s.isWanted segmentIndex && i = segmentIndex then some segment
      else s.cache i }

def State.evict (s : State τ) : State τ :=
  { s with cache := fun i => if s.isWanted i then s.cache i else none }

def State.prefetch (s : State τ) : State τ :=
  (List.range (prefetchSegments + 1)).foldl (fun s' i => s'.request source (s.segment + i)) s

def State.whenReady (s : State τ) : State τ :=
  if source.segments.length ≤ s.segment || (s.cache s.segment).isSome then s
  else s.request source s.segment

def RestartPoint.segment : RestartPoint τ → Nat
  | .start => 0
  | .snapshot point => point.segment

def RestartPoint.atMs : RestartPoint τ → WithBot τ
  | .start => ⊥
  | .snapshot point => point.atMs

def State.scheduleRestart (s : State τ) (point : RestartPoint τ) : State τ :=
  State.prefetch source (State.evict
    { s with
      restartPoint := some point
      segment := point.segment
      entry := 0
      drawnAtMs := point.atMs })

def State.restart (s : State τ) : RestartPoint τ → State τ
  | .start => { s with terminal := s.terminal.reset }
  | .snapshot point =>
      { s with
        terminal := (s.terminal.reset.resize point.cols point.rows).drawScreen point.data
        viewports := s.viewports ++ [(point.cols, point.rows)] }

/-- Where the output of the entries before `index` ends. -/
def Segment.runEnd (segment : Segment τ) (index : Nat) : Nat :=
  if index = 0 then 0 else segment.dataEnd.getD (index - 1) 0

/-- What `advance` keeps while it goes over the entries of a segment. -/
structure Pass where
  terminal : Terminal
  index : Nat
  runStart : Nat
  viewport : Option (Nat × Nat)
  waitingForWrites : Bool := false

variable [LinearOrder τ]

def State.seek (s : State τ) (targetMs : τ) : State τ :=
  if s.disposed then s
  else
    let snapshot := s.snapshots.latest targetMs
    if (targetMs : WithBot τ) < s.drawnAtMs then
      s.scheduleRestart source ((snapshot.map .snapshot).getD .start)
    else
      match snapshot with
      | none => s
      | some snapshot =>
          if s.segment < snapshot.segment &&
              snapshotSeekMinBytes ≤ outputBytesBetween source s.segment snapshot.segment then
            s.scheduleRestart source (.snapshot snapshot)
          else s

/-- The entries from `index` on, up to a resize that has to wait or one later than the target. -/
def drawEntries (segment : Segment τ) (targetMs : τ) : Nat → Pass → Pass
  | 0, p => p
  | n + 1, p =>
      match segment.atMs[p.index]? with
      | none => p
      | some atMs =>
          if targetMs < atMs then p
          else if segment.cols.getD p.index 0 = 0 then
            drawEntries segment targetMs n { p with index := p.index + 1 }
          else
            let runEnd := segment.runEnd p.index
            let terminal := p.terminal.writeRun segment.data p.runStart runEnd
            let runStart := if p.runStart < runEnd then runEnd else p.runStart
            if 0 < terminal.queued then
              { p with terminal := terminal, runStart := runStart, waitingForWrites := true }
            else
              let cols := segment.cols.getD p.index 0
              let rows := segment.rows.getD p.index 0
              drawEntries segment targetMs n
                { terminal := terminal.resize cols rows
                  viewport := some (cols, rows)
                  runStart := segment.dataEnd.getD p.index 0
                  index := p.index + 1 }

def drawSegment (segment : Segment τ) (targetMs : τ) (s : State τ)
    (viewport : Option (Nat × Nat)) : Pass :=
  let p := drawEntries segment targetMs (segment.atMs.length - s.entry)
    { terminal := s.terminal
      index := s.entry
      runStart := segment.runEnd s.entry
      viewport := viewport }
  if p.waitingForWrites then p
  else { p with terminal := p.terminal.writeRun segment.data p.runStart (segment.runEnd p.index) }

def State.passed (s : State τ) (segment : Segment τ) (p : Pass) : State τ :=
  { s with
    terminal := p.terminal
    drawnAtMs :=
      if s.entry < p.index then
        match segment.atMs[p.index - 1]? with
        | some atMs => atMs
        | none => s.drawnAtMs
      else s.drawnAtMs
    entry := p.index }

/-- The segments left from the one to draw on. The result says whether all was handed over. -/
def drawSegments (targetMs : τ) :
    List (SegmentInfo τ) → State τ → Option (Nat × Nat) → State τ × Option (Nat × Nat) × Bool
  | [], s, viewport =>
      (s, viewport, if replayPendingLimitBytes < s.terminal.queued then false else true)
  | info :: rest, s, viewport =>
      if replayPendingLimitBytes < s.terminal.queued then (s, viewport, false)
      else if s.entry = 0 ∧ targetMs < info.startAtMs then (s, viewport, true)
      else
        match s.cache s.segment with
        | none => (s.request source s.segment, viewport, false)
        | some segment =>
            let p := drawSegment segment targetMs s viewport
            let s := s.passed segment p
            if p.waitingForWrites then (s, p.viewport, false)
            else if p.index < segment.atMs.length then (s, p.viewport, true)
            else
              drawSegments targetMs rest
                (State.evict { s with segment := s.segment + 1, entry := 0 }) p.viewport

/-- The player starts over where it has to. `none`: it cannot yet. -/
def State.restarted (s : State τ) (targetMs : τ) : Except (State τ) (State τ) :=
  match s.restartPoint with
  | none => .ok s
  | some point =>
      if 0 < s.terminal.queued then .error s
      else
        match source.segments[s.segment]? with
        | some first =>
            if first.startAtMs ≤ targetMs ∧ (s.cache s.segment).isNone = true then
              .error (s.request source s.segment)
            else .ok { s.restart point with restartPoint := none }
        | none => .ok { s.restart point with restartPoint := none }

def State.advance (s : State τ) (targetMs : τ) : State τ × Bool :=
  if s.disposed then (s, true)
  else
    match s.restarted source targetMs with
    | .error s => (s, false)
    | .ok s =>
        match drawSegments source targetMs (source.segments.drop s.segment) s none with
        | (s, viewport, caughtUp) =>
            (State.prefetch source { s with viewports := s.viewports ++ viewport.toList }, caughtUp)

def start (store : SnapshotStore τ) : State τ := State.prefetch source { snapshots := store }

def step (s : State τ) : Event τ → Option (State τ)
  | .seek targetMs =>
      some { s.seek source targetMs with sought := targetMs, goal := targetMs }
  | .advance targetMs => some { (s.advance source targetMs).1 with goal := targetMs }
  | .whenReady => some (s.whenReady source)
  | .dispose => some { s with disposed := true, cache := fun _ => none }
  | .completes segmentIndex =>
      if segmentIndex ∈ s.loading then
        (source.recorded[segmentIndex]?).map (s.loaded segmentIndex)
      else none
  | .fails segmentIndex =>
      if segmentIndex ∈ s.loading then some (s.loaded segmentIndex emptySegment) else none
  | .drains size =>
      some { s with terminal := { s.terminal with queued := s.terminal.queued - size } }
  | .takes snapshot => some { s with snapshots := s.snapshots.add snapshot }

end Player

end Dolgate.ReplayPlayer
