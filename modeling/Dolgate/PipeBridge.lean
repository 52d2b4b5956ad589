import Mathlib.Logic.Function.Basic
import Dolgate.Transition

set_option autoImplicit false

/-! The bridge of a forwarded connection: two copy loops between two connections, the first of which
to end closes both. -/

namespace Dolgate.PipeBridge
open Transition

inductive Side where
  | left
  | right
deriving DecidableEq, Repr

def Side.other : Side → Side
  | .left => .right
  | .right => .left

@[simp] theorem Side.other_other (side : Side) : side.other.other = side := by
  cases side <;> rfl

@[simp] theorem Side.other_ne (side : Side) : side.other ≠ side := by
  cases side <;> simp [Side.other]

@[simp] theorem Side.ne_other (side : Side) : side ≠ side.other := (other_ne side).symm

theorem Side.eq_or_eq_other (side side' : Side) : side' = side ∨ side' = side.other := by
  cases side <;> cases side' <;> simp [Side.other]

structure Connection where
  written : List UInt8 := []
  unread : List UInt8 := []
  ended : Bool := false
  delivered : List UInt8 := []
  closed : Bool := false
deriving DecidableEq, Repr

inductive Loop where
  | reading
  | holding (chunk : List UInt8)
  | finished
deriving DecidableEq, Repr

def Loop.held : Loop → List UInt8
  | .holding chunk => chunk
  | _ => []

/-- The loop of a side copies what comes from that side's peer to the other connection. -/
structure Bridge where
  connection : Side → Connection
  loop : Side → Loop

def Bridge.start : Bridge := ⟨fun _ => {}, fun _ => .reading⟩

inductive Event where
  | peerWrites (side : Side) (bytes : List UInt8)
  | peerEnds (side : Side)
  | read (side : Side) (n : Nat)
  | write (side : Side)
  | close (side : Side)
deriving DecidableEq, Repr

variable {b b' : Bridge} {side side' : Side}

def Bridge.withConnection (b : Bridge) (side : Side) (c : Connection) : Bridge :=
  { b with connection := Function.update b.connection side c }

def Bridge.withLoop (b : Bridge) (side : Side) (l : Loop) : Bridge :=
  { b with loop := Function.update b.loop side l }

/-- `Read`, which fails at a closed connection. At the end of the direction it reports that. -/
def Bridge.read (b : Bridge) (side : Side) (n : Nat) : Option Bridge :=
  let c := b.connection side
  if b.loop side ≠ .reading then none
  else if c.closed then some (b.withLoop side .finished)
  else if c.unread ≠ [] then
    if n = 0 then none
    else some ((b.withConnection side { c with unread := c.unread.drop n }).withLoop side
      (.holding (c.unread.take n)))
  else if c.ended then some (b.withLoop side .finished)
  else none

/-- `Write` of what was read. -/
def Bridge.write (b : Bridge) (side : Side) : Option Bridge :=
  match b.loop side with
  | .holding chunk =>
    let c := b.connection side.other
    if c.closed then some (b.withLoop side .finished)
    else some ((b.withConnection side.other { c with delivered := c.delivered ++ chunk }).withLoop
      side .reading)
  | _ => none

/-- `closeBoth`, once a loop is over: the left connection first. -/
def Bridge.close (b : Bridge) (side : Side) : Option Bridge :=
  if (b.loop .left = .finished ∨ b.loop .right = .finished) ∧ (b.connection side).closed = false ∧
      (side = .right → (b.connection .left).closed = true) then
    some (b.withConnection side { b.connection side with closed := true })
  else none

def step (b : Bridge) : Event → Option Bridge
  | .peerWrites side bytes =>
    let c := b.connection side
    if c.ended then none
    else some (b.withConnection side
      { c with written := c.written ++ bytes, unread := c.unread ++ bytes })
  | .peerEnds side =>
    let c := b.connection side
    if c.ended then none else some (b.withConnection side { c with ended := true })
  | .read side n => b.read side n
  | .write side => b.write side
  | .close side => b.close side

/-- Each peer gets what the other one has written, from its beginning on, and all of it before its
connection is closed. -/
structure Lossless (b : Bridge) : Prop where
  ordered : ∀ side, (b.connection side.other).delivered <+: (b.connection side).written
  complete : ∀ side, (b.connection side.other).closed = true →
    (b.connection side.other).delivered = (b.connection side).written

/-- The direction from a side is over: its end has been read, and all before it written on. -/
def Drained (b : Bridge) (side : Side) : Prop :=
  (b.connection side).ended = true ∧ (b.connection side).unread = [] ∧
    (b.loop side).held = []

instance (b : Bridge) (side : Side) : Decidable (Drained b side) :=
  inferInstanceAs (Decidable (_ ∧ _ ∧ _))

def ClosesDrained (b : Bridge) : Event → Prop
  | .close side => Drained b side.other
  | _ => True

instance (b : Bridge) : DecidablePred (ClosesDrained b)
  | .close side => inferInstanceAs (Decidable (Drained b side.other))
  | .peerWrites _ _ => isTrue trivial
  | .peerEnds _ => isTrue trivial
  | .read _ _ => isTrue trivial
  | .write _ => isTrue trivial

@[simp] theorem withConnection_connection (b : Bridge) (side side' : Side) (c : Connection) :
    (b.withConnection side c).connection side' = if side' = side then c else b.connection side' :=
  Function.update_apply ..

@[simp] theorem withConnection_loop (b : Bridge) (side side' : Side) (c : Connection) :
    (b.withConnection side c).loop side' = b.loop side' := rfl

@[simp] theorem withLoop_connection (b : Bridge) (side side' : Side) (l : Loop) :
    (b.withLoop side l).connection side' = b.connection side' := rfl

@[simp] theorem withLoop_loop (b : Bridge) (side side' : Side) (l : Loop) :
    (b.withLoop side l).loop side' = if side' = side then l else b.loop side' :=
  Function.update_apply ..

theorem step_cases {e : Event} (h : step b e = some b') :
    (∃ side bytes, e = .peerWrites side bytes ∧ (b.connection side).ended = false ∧
      b' = b.withConnection side { b.connection side with
        written := (b.connection side).written ++ bytes
        unread := (b.connection side).unread ++ bytes }) ∨
    (∃ side, e = .peerEnds side ∧
      b' = b.withConnection side { b.connection side with ended := true }) ∨
    (∃ side n, e = .read side n ∧ b.loop side = .reading ∧
      (b' = b.withLoop side .finished ∨
        b' = (b.withConnection side { b.connection side with
          unread := (b.connection side).unread.drop n }).withLoop side
            (.holding ((b.connection side).unread.take n)))) ∨
    (∃ side chunk, e = .write side ∧ b.loop side = .holding chunk ∧
      ((b.connection side.other).closed = true ∧ b' = b.withLoop side .finished ∨
        (b.connection side.other).closed = false ∧
          b' = (b.withConnection side.other { b.connection side.other with
            delivered := (b.connection side.other).delivered ++ chunk }).withLoop side .reading)) ∨
    ∃ side, e = .close side ∧
      b' = b.withConnection side { b.connection side with closed := true } := by
  cases e with
  | peerWrites side bytes =>
    simp only [step, Option.ite_none_left_eq_some, Option.some.injEq] at h
    exact .inl ⟨side, bytes, rfl, by simpa using h.1, h.2.symm⟩
  | peerEnds side =>
    simp only [step, Option.ite_none_left_eq_some, Option.some.injEq] at h
    exact .inr (.inl ⟨side, rfl, h.2.symm⟩)
  | read side n =>
    simp only [step, Bridge.read, Option.ite_none_left_eq_some, ne_eq, not_not] at h
    refine .inr (.inr (.inl ⟨side, n, rfl, h.1, ?_⟩))
    obtain ⟨-, h⟩ := h
    split at h
    · exact .inl (Option.some.inj h).symm
    · split at h
      · simp only [Option.ite_none_left_eq_some, Option.some.injEq] at h
        exact .inr h.2.symm
      · simp only [Option.ite_none_right_eq_some, Option.some.injEq] at h
        exact .inl h.2.symm
  | write side =>
    simp only [step, Bridge.write] at h
    cases hloop : b.loop side with
    | reading => simp [hloop] at h
    | finished => simp [hloop] at h
    | holding chunk =>
      simp only [hloop] at h
      refine .inr (.inr (.inr (.inl ⟨side, chunk, rfl, hloop, ?_⟩)))
      split at h
      · next hclosed => exact .inl ⟨hclosed, (Option.some.inj h).symm⟩
      · next hopen => exact .inr ⟨by simpa using hopen, (Option.some.inj h).symm⟩
  | close side =>
    simp only [step, Bridge.close, Option.ite_none_right_eq_some, Option.some.injEq] at h
    exact .inr (.inr (.inr (.inr ⟨side, rfl, h.2.symm⟩)))

/-- What one direction is made of: its source, its loop and the connection it leads to. -/
structure Flow where
  written : List UInt8
  unread : List UInt8
  ended : Bool
  held : List UInt8
  delivered : List UInt8
  closed : Bool

def Bridge.flow (b : Bridge) (side : Side) : Flow where
  written := (b.connection side).written
  unread := (b.connection side).unread
  ended := (b.connection side).ended
  held := (b.loop side).held
  delivered := (b.connection side.other).delivered
  closed := (b.connection side.other).closed

def Flow.Drained (f : Flow) : Prop := f.ended = true ∧ f.unread = [] ∧ f.held = []

inductive FlowStep (f : Flow) : Flow → Prop where
  | same : FlowStep f f
  | written (bytes : List UInt8) (hopen : f.ended = false) :
      FlowStep f { f with written := f.written ++ bytes, unread := f.unread ++ bytes }
  | ended : FlowStep f { f with ended := true }
  | taken (n : Nat) (hfree : f.held = []) :
      FlowStep f { f with held := f.unread.take n, unread := f.unread.drop n }
  | passed (hopen : f.closed = false) :
      FlowStep f { f with delivered := f.delivered ++ f.held, held := [] }
  | lost (hclosed : f.closed = true) : FlowStep f { f with held := [] }
  | closed : FlowStep f { f with closed := true }

@[simp] theorem flow_withConnection_self (b : Bridge) (side : Side) (c : Connection) :
    (b.withConnection side c).flow side =
      { b.flow side with written := c.written, unread := c.unread, ended := c.ended } := by
  simp [Bridge.flow]

@[simp] theorem flow_withConnection_other (b : Bridge) (side : Side) (c : Connection) :
    (b.withConnection side.other c).flow side =
      { b.flow side with delivered := c.delivered, closed := c.closed } := by
  simp [Bridge.flow]

@[simp] theorem flow_withLoop_self (b : Bridge) (side : Side) (l : Loop) :
    (b.withLoop side l).flow side = { b.flow side with held := l.held } := by
  simp [Bridge.flow]

@[simp] theorem flow_withLoop_other (b : Bridge) (side : Side) (l : Loop) :
    (b.withLoop side.other l).flow side = b.flow side := by
  simp [Bridge.flow]

@[simp] theorem flow_other_withConnection (b : Bridge) (side : Side) (c : Connection) :
    (b.withConnection side c).flow side.other =
      { b.flow side.other with delivered := c.delivered, closed := c.closed } := by
  have hother := flow_withConnection_other b side.other c
  rwa [Side.other_other] at hother

@[simp] theorem flow_other_withLoop (b : Bridge) (side : Side) (l : Loop) :
    (b.withLoop side l).flow side.other = b.flow side.other := by
  have hother := flow_withLoop_other b side.other l
  rwa [Side.other_other] at hother

theorem flow_step {e : Event} (h : step b e = some b') (side : Side) :
    FlowStep (b.flow side) (b'.flow side) ∧
      ((b'.flow side).closed = (b.flow side).closed ∨ e = .close side.other) := by
  rcases step_cases h with ⟨side', bytes, -, hopen, rfl⟩ | ⟨side', -, rfl⟩ |
    ⟨side', n, -, hloop, rfl | rfl⟩ | ⟨side', chunk, -, hloop, ⟨hclosed, rfl⟩ | ⟨hopen, rfl⟩⟩ |
    ⟨side', rfl, rfl⟩
  · rcases Side.eq_or_eq_other side side' with rfl | rfl
    · refine ⟨?_, .inl (by simp)⟩
      rw [flow_withConnection_self]
      exact .written bytes hopen
    · refine ⟨?_, .inl (by simp [Bridge.flow])⟩
      rw [flow_withConnection_other]
      exact .same
  · rcases Side.eq_or_eq_other side side' with rfl | rfl
    · refine ⟨?_, .inl (by simp)⟩
      rw [flow_withConnection_self]
      exact .ended
    · refine ⟨?_, .inl (by simp [Bridge.flow])⟩
      rw [flow_withConnection_other]
      exact .same
  · rcases Side.eq_or_eq_other side side' with rfl | rfl
    · refine ⟨?_, .inl (by simp)⟩
      have hheld : Loop.finished.held = (b.flow side').held := by
        simp [Bridge.flow, hloop, Loop.held]
      rw [flow_withLoop_self, hheld]
      exact .same
    · refine ⟨?_, .inl (by simp)⟩
      rw [flow_withLoop_other]
      exact .same
  · rcases Side.eq_or_eq_other side side' with rfl | rfl
    · refine ⟨?_, .inl (by simp)⟩
      have hheld : (b.flow side').held = [] := by simp [Bridge.flow, hloop, Loop.held]
      rw [flow_withLoop_self, flow_withConnection_self]
      exact .taken n hheld
    · refine ⟨?_, .inl (by simp [Bridge.flow])⟩
      rw [flow_withLoop_other, flow_withConnection_other]
      exact .same
  · rcases Side.eq_or_eq_other side side' with rfl | rfl
    · refine ⟨?_, .inl (by simp)⟩
      rw [flow_withLoop_self]
      exact .lost hclosed
    · refine ⟨?_, .inl (by simp)⟩
      rw [flow_withLoop_other]
      exact .same
  · rcases Side.eq_or_eq_other side side' with rfl | rfl
    · have hheld : (b.flow side').held = chunk := by simp [Bridge.flow, hloop, Loop.held]
      refine ⟨?_, .inl (by simp [Bridge.flow])⟩
      rw [flow_withLoop_self, flow_withConnection_other, ← hheld]
      exact .passed hopen
    · refine ⟨?_, .inl (by simp [Bridge.flow])⟩
      rw [flow_withLoop_other, Side.other_other, flow_withConnection_self]
      exact .same
  · rcases Side.eq_or_eq_other side side' with rfl | rfl
    · refine ⟨?_, .inl (by simp)⟩
      rw [flow_withConnection_self]
      exact .same
    · refine ⟨?_, .inr rfl⟩
      rw [flow_withConnection_other]
      exact .closed

/-- In every run: a direction is whole, or cut off by the close of the connection it leads to. -/
def Flow.Sound (f : Flow) : Prop :=
  f.written = f.delivered ++ f.held ++ f.unread ∨ (f.closed = true ∧ f.delivered <+: f.written)

theorem Flow.Sound.step {f f' : Flow} (h : f.Sound) (hstep : FlowStep f f') : f'.Sound := by
  cases hstep with
  | same => exact h
  | written bytes _ =>
    rcases h with hwhole | ⟨hclosed, hcut⟩
    · exact .inl (by simp [hwhole])
    · exact .inr ⟨hclosed, hcut.trans (List.prefix_append _ _)⟩
  | ended => exact h
  | taken n hfree =>
    rcases h with hwhole | hcut
    · exact .inl (by simp [hwhole, hfree])
    · exact .inr hcut
  | passed hopen =>
    rcases h with hwhole | ⟨hclosed, -⟩
    · exact .inl (by simp [hwhole])
    · simp [hopen] at hclosed
  | lost hclosed =>
    refine .inr ⟨hclosed, ?_⟩
    rcases h with hwhole | ⟨-, hcut⟩
    · rw [hwhole, List.append_assoc]
      exact List.prefix_append _ _
    · exact hcut
  | closed =>
    rcases h with hwhole | ⟨-, hcut⟩
    · exact .inl hwhole
    · exact .inr ⟨rfl, hcut⟩

theorem Flow.Sound.ordered {f : Flow} (h : f.Sound) : f.delivered <+: f.written := by
  rcases h with hwhole | ⟨-, hcut⟩
  · rw [hwhole, List.append_assoc]
    exact List.prefix_append _ _
  · exact hcut

/-- In a run that closes in time: nothing is lost, and a closed direction was over. -/
def Flow.Whole (f : Flow) : Prop :=
  f.written = f.delivered ++ f.held ++ f.unread ∧ (f.closed = true → f.Drained)

theorem Flow.Whole.step {f f' : Flow} (h : f.Whole) (hstep : FlowStep f f')
    (hclose : f'.closed = f.closed ∨ f.Drained) : f'.Whole := by
  obtain ⟨hwhole, hover⟩ := h
  cases hstep with
  | same => exact ⟨hwhole, hover⟩
  | written bytes hopen =>
    refine ⟨by simp [hwhole], fun hclosed => ?_⟩
    simp [(hover hclosed).1] at hopen
  | ended => exact ⟨hwhole, fun hclosed => ⟨rfl, (hover hclosed).2⟩⟩
  | taken n hfree =>
    refine ⟨by simp [hwhole, hfree], fun hclosed => ?_⟩
    obtain ⟨hended, hunread, -⟩ := hover hclosed
    exact ⟨hended, by simp [hunread], by simp [hunread]⟩
  | passed hopen => exact ⟨by simp [hwhole], fun hclosed => by simp [hopen] at hclosed⟩
  | lost hclosed =>
    obtain ⟨hended, hunread, hheld⟩ := hover hclosed
    exact ⟨by simp [hwhole, hheld], fun _ => ⟨hended, hunread, rfl⟩⟩
  | closed =>
    refine ⟨hwhole, fun _ => ?_⟩
    rcases hclose with hsame | hdrained
    · exact hover hsame.symm
    · exact hdrained

theorem Flow.Whole.complete {f : Flow} (h : f.Whole) (hclosed : f.closed = true) :
    f.delivered = f.written := by
  obtain ⟨hwhole, hover⟩ := h
  obtain ⟨-, hunread, hheld⟩ := hover hclosed
  rw [hwhole, hunread, hheld, List.append_nil, List.append_nil]

theorem run_ordered {es : List Event} (h : run step .start es = some b) (side : Side) :
    (b.flow side).Sound :=
  run_invariant (I := fun b => (b.flow side).Sound)
    (fun _ _ _ hsound hstep => hsound.step (flow_step hstep side).1) (.inl rfl) h

theorem run_whole {es : List Event} (hcloses : Admissible ClosesDrained step .start es)
    (h : run step .start es = some b) (side : Side) : (b.flow side).Whole := by
  refine run_invariant_of_admissible (I := fun b => (b.flow side).Whole) ?_ ⟨rfl, ?_⟩ hcloses h
  · intro b e b' hwhole hok hstep
    obtain ⟨hflow, hclosed⟩ := flow_step hstep side
    refine hwhole.step hflow (hclosed.imp_right ?_)
    rintro rfl
    have hdrained : Drained b side.other.other := hok
    rw [Side.other_other] at hdrained
    exact hdrained
  · intro hclosed
    cases hclosed

theorem not_lossless_after_write (side : Side) (byte : UInt8)
    (hclosed : (b.connection side.other).closed = true)
    (hsame : (b.connection side.other).delivered = (b.connection side).written)
    (hopen : (b.connection side).ended = false) :
    ∃ b', step b (.peerWrites side [byte]) = some b' ∧ ¬ Lossless b' := by
  have hstep : step b (.peerWrites side [byte]) = some (b.withConnection side
      { b.connection side with
        written := (b.connection side).written ++ [byte]
        unread := (b.connection side).unread ++ [byte] }) := by
    simp [step, hopen]
  refine ⟨_, hstep, fun hlossless => ?_⟩
  have hcomplete := hlossless.complete side (by simpa using hclosed)
  simp [hsame] at hcomplete

theorem early_close_loses {es : List Event} (h : run step .start es = some b)
    (hclose : step b (.close side) = some b') (hearly : ¬ Drained b side.other) :
    ¬ Lossless b' ∨ ∀ byte, ∃ b'', step b' (.peerWrites side.other [byte]) = some b'' ∧
      ¬ Lossless b'' := by
  by_cases hlossless : Lossless b'
  · right
    intro byte
    simp only [step, Bridge.close, Option.ite_none_right_eq_some, Option.some.injEq] at hclose
    obtain ⟨⟨-, hopen, -⟩, rfl⟩ := hclose
    have hcomplete := hlossless.complete side.other (by simp)
    simp only [Side.other_other, withConnection_connection, if_true, Side.other_ne, if_false]
      at hcomplete
    have hsound := run_ordered h side.other
    simp only [Flow.Sound, Bridge.flow, Side.other_other, hopen, Bool.false_eq_true, false_and,
      or_false] at hsound
    rw [hcomplete, List.append_assoc] at hsound
    obtain ⟨hheld, hunread⟩ := List.append_eq_nil_iff.mp (List.self_eq_append_right.mp hsound)
    have hnotEnded : (b.connection side.other).ended = false := by
      by_contra hended
      exact hearly ⟨by simpa using hended, hunread, hheld⟩
    exact not_lossless_after_write side.other byte (by simp) (by simpa using hcomplete)
      (by simpa using hnotEnded)
  · exact .inl hlossless

/-- In each run the bytes come in order, and in a run that closes each connection only when the
direction to it is over none is missing. A close before that loses bytes, or the other peer's
next one. -/
theorem bridge_loses_nothing {es : List Event} (h : run step .start es = some b) :
    (∀ side, (b.connection side.other).delivered <+: (b.connection side).written) ∧
      (Admissible ClosesDrained step .start es → Lossless b) ∧
      ∀ side b', step b (.close side) = some b' → ¬ Drained b side.other →
        ¬ Lossless b' ∨ ∀ byte, ∃ b'', step b' (.peerWrites side.other [byte]) = some b'' ∧
          ¬ Lossless b'' := by
  refine ⟨fun side => (run_ordered h side).ordered, fun hcloses => ?_,
    fun side b' hclose hearly => ?_⟩
  · exact ⟨fun side => (run_ordered h side).ordered,
      fun side hclosed => (run_whole hcloses h side).complete hclosed⟩
  · exact early_close_loses h hclose hearly

def halfClosed : List Event :=
  [.peerWrites .right [7], .peerEnds .left, .read .left 1, .close .left]

theorem half_close_loses_bytes :
    ¬ ∀ (es : List Event) (b : Bridge), run step .start es = some b → Lossless b := by
  intro h
  have hrun : (run step .start halfClosed).map (fun b =>
      ((b.connection .left).closed, (b.connection .left).delivered,
        (b.connection .right).written)) = some (true, [], [7]) := by
    decide
  obtain ⟨b, hb, hsame⟩ := Option.map_eq_some_iff.mp hrun
  simp only [Prod.mk.injEq] at hsame
  obtain ⟨hclosed, hdelivered, hwritten⟩ := hsame
  have hcomplete := (h halfClosed b hb).complete .right hclosed
  simp [Side.other, hdelivered, hwritten] at hcomplete

def bothEnded : List Event :=
  [.peerWrites .right [7], .peerWrites .left [8, 9], .peerEnds .left, .peerEnds .right,
    .read .right 4, .read .left 1, .write .right, .write .left, .read .left 1, .write .left,
    .read .right 4, .close .left, .close .right]

theorem bridge_loses_nothing_both :
    ∃ b, run step .start bothEnded = some b ∧ Lossless b := by
  have hallowed : allows (fun b e => decide (ClosesDrained b e)) step .start bothEnded = true := by
    decide
  have hcloses : Admissible ClosesDrained step .start bothEnded :=
    admissible_of_allows (fun _ _ => of_decide_eq_true) hallowed
  obtain ⟨b, hb⟩ := Option.isSome_iff_exists.mp
    (by decide : (run step .start bothEnded).isSome = true)
  exact ⟨b, hb, (bridge_loses_nothing hb).2.1 hcloses⟩

end Dolgate.PipeBridge
