import Mathlib.Tactic.Common
import Dolgate.Router

set_option autoImplicit false

/-! What the channels and the maps of the router say of the frames, and the order that follows. -/

namespace Dolgate.Router

open Transition

def Phase.inLine : Phase → Bool
  | .claimed => true
  | .waiting => true
  | .passed => true
  | .running => true
  | .finished => true
  | _ => false

def Phase.left : Phase → Bool
  | .unlisted => true
  | .closed => true
  | _ => false

def Phase.held : Phase → Bool
  | .answering => true
  | .cancelling => true
  | .routing => true
  | .claimed => true
  | _ => false

def Phase.started : Phase → Bool
  | .answering => true
  | .running => true
  | .answered => true
  | .finished => true
  | .unlisted => true
  | .closed => true
  | _ => false

def Phase.done : Phase → Bool
  | .answered => true
  | .finished => true
  | .unlisted => true
  | .closed => true
  | _ => false

def Phase.answers : Phase → Bool
  | .answering => true
  | .answered => true
  | _ => false

def Phase.through (phase : Phase) : Bool := phase == .passed || phase.started

def Phase.queued : Phase → Bool
  | .claimed => true
  | .waiting => true
  | .passed => true
  | _ => false

def State.places (s : State) (scope : String) : Nat :=
  s.routed.countP fun r => r.scope = scope ∧ r.phase.inLine

structure Lines (s : State) : Prop where
  kind : ∀ (i : Nat) (r : Routed), s.routed[i]? = some r →
    r.phase.answers = !r.queues
  held : ∀ (i : Nat) (r : Routed), s.routed[i]? = some r → r.phase.held = true →
    s.reading = some i ∧ i + 1 = s.routed.length
  tail : ∀ (scope : String) (i : Nat), s.tails scope = some i → ∃ r, s.routed[i]? = some r ∧
    r.scope = scope ∧ r.phase.inLine = true ∧
    ∀ (k : Nat) (q : Routed), i < k → s.routed[k]? = some q → q.phase.inLine = true →
      q.scope ≠ scope
  noTail : ∀ (scope : String), s.tails scope = none → ∀ (k : Nat) (q : Routed),
    s.routed[k]? = some q → q.scope = scope → q.phase.inLine = false
  depth : ∀ (scope : String),
    s.depth scope = if s.places scope = 0 then none else some (s.places scope : Int)
  after : ∀ (i : Nat) (r : Routed) (p : Nat), s.routed[i]? = some r → r.previous = some p → p < i ∧
    ∃ q, s.routed[p]? = some q ∧ q.queues = true ∧ q.scope = r.scope ∧
      ∀ (k : Nat) (m : Routed), p < k → k < i → s.routed[k]? = some m → m.queues = true →
        m.scope = r.scope → m.phase.left = true
  first : ∀ (i : Nat) (r : Routed), s.routed[i]? = some r →
    r.phase.inLine = true → r.previous = none →
    ∀ (k : Nat) (q : Routed), k < i → s.routed[k]? = some q → q.queues = true →
      q.scope = r.scope → q.phase.left = true
  inOrder : ∀ (i j : Nat) (r q : Routed), i < j → s.routed[i]? = some r → s.routed[j]? = some q →
    r.queues = true → q.queues = true → r.scope = q.scope → q.phase.started = true →
      r.phase.left = true

structure Barriers (s : State) : Prop where
  barrier : ∀ (b : Nat), s.barrier = some b → ∃ r, s.routed[b]? = some r ∧
    isBarrierCommand r.command = true ∧ r.phase.held = false
  lastBarrier : ∀ (k : Nat) (q : Routed), s.routed[k]? = some q →
    isBarrierCommand q.command = true → q.phase.held = false → ∃ b, s.barrier = some b ∧ k ≤ b
  behind : ∀ (i : Nat) (r : Routed) (b : Nat), s.routed[i]? = some r → r.barrier = some b → b < i ∧
    ∃ q, s.routed[b]? = some q ∧ isBarrierCommand q.command = true
  nearest : ∀ (i : Nat) (r : Routed), s.routed[i]? = some r → r.queues = true →
    r.phase.held = false → ∀ (k : Nat) (q : Routed), k < i → s.routed[k]? = some q →
      isBarrierCommand q.command = true → ∃ b, r.barrier = some b ∧ k ≤ b
  kept : ∀ (i j : Nat) (r q : Routed), i < j → s.routed[i]? = some r → s.routed[j]? = some q →
    isBarrierCommand r.command = true → q.queues = true →
    q.phase.through = true → r.phase.done = true

variable {s t : State} {i j k : Nat} {r r' q : Routed} {phase : Phase} {frame : Frame}

theorem routed_lt (h : s.routed[i]? = some r) : i < s.routed.length :=
  (List.getElem?_eq_some_iff.mp h).1

theorem put_some (h : s.routed[i]? = some r) :
    (s.put i r').routed[k]? = some q ↔ if k = i then q = r' else s.routed[k]? = some q := by
  have hi := routed_lt h
  by_cases hk : k = i
  · subst hk
    simp [State.put, hi, eq_comm]
  · simp [State.put, List.getElem?_set_ne (Ne.symm hk), hk]

theorem queues_of_barrier (h : isBarrierCommand r.command = true) : r.queues = true := by
  simp only [isBarrierCommand, beq_iff_eq] at h
  simp [Routed.queues, isAnswer, isFlowCommand, h]

theorem places_put (h : s.routed[i]? = some r) (r' : Routed) (scope : String) :
    (s.put i r').places scope + (if r.scope = scope ∧ r.phase.inLine = true then 1 else 0) =
      s.places scope + (if r'.scope = scope ∧ r'.phase.inLine = true then 1 else 0) := by
  obtain ⟨hi, hr⟩ := List.getElem?_eq_some_iff.mp h
  have hc : (decide (r.scope = scope ∧ r.phase.inLine = true)) = true → 0 < s.places scope := by
    intro hd
    exact List.countP_pos_iff.mpr ⟨r, hr ▸ List.getElem_mem hi, hd⟩
  simp only [State.places, State.put] at hc ⊢
  rw [List.countP_set hi, hr]
  grind

theorem places_join (h : s.routed[i]? = some r) (hr : r.phase.inLine = false) (r' : Routed)
    (hscope : r'.scope = r.scope) (hr' : r'.phase.inLine = true) (scope : String) :
    (s.put i r').places scope = s.places scope + if scope = r.scope then 1 else 0 := by
  have hp := places_put h r' scope
  simpa [hr, hr', hscope, eq_comm] using hp

theorem places_leave (h : s.routed[i]? = some r) (hr : r.phase.inLine = true) (r' : Routed)
    (hscope : r'.scope = r.scope) (hr' : r'.phase.inLine = false) (scope : String) :
    (s.put i r').places scope + (if scope = r.scope then 1 else 0) = s.places scope := by
  have hp := places_put h r' scope
  simpa [hr, hr', hscope, eq_comm] using hp

/-- What a step that keeps all places keeps of the frame `k`. -/
structure InLine (s : State) (k : Nat) (q q' : Routed) : Prop where
  frame : q'.frame = q.frame
  previous : q'.previous = q.previous
  inLine : q'.phase.inLine = q.phase.inLine
  left : q'.phase.left = q.phase.left
  held : q'.phase.held = true → q.phase.held = true
  kind : q'.phase.answers = q.phase.answers
  starts : q.queues = true → q'.phase.started = true → q.phase.started = true ∨
    ∀ (j : Nat) (m : Routed), j < k → s.routed[j]? = some m → m.queues = true →
      m.scope = q.scope → m.phase.left = true

/-- What a step that no barrier is set in keeps of the frame `k`. -/
structure Behind (s : State) (k : Nat) (q q' : Routed) : Prop where
  frame : q'.frame = q.frame
  barrier : q'.barrier = q.barrier
  held : q.queues = true → q'.phase.held = q.phase.held
  done : q.phase.done = true → q'.phase.done = true
  passes : q.queues = true → q'.phase.through = true → q.phase.through = true ∨
    ∀ (j : Nat) (m : Routed), j < k → s.routed[j]? = some m →
      isBarrierCommand m.command = true → m.phase.done = true

theorem InLine.refl : InLine s k q q where
  frame := rfl
  previous := rfl
  inLine := rfl
  left := rfl
  held := id
  kind := rfl
  starts _ := Or.inl

theorem Behind.refl : Behind s k q q where
  frame := rfl
  barrier := rfl
  held _ := rfl
  done := id
  passes _ := Or.inl

theorem command_congr (h : r'.frame = r.frame) : r'.command = r.command := congrArg frameCommand h

theorem scope_congr (h : r'.frame = r.frame) : r'.scope = r.scope := by
  simp only [Routed.scope, command_congr h, h]

theorem queues_congr (h : r'.frame = r.frame) : r'.queues = r.queues := by
  simp only [Routed.queues, command_congr h]

/-- The frames of two states have the same places, and the maps of the lines are the same. -/
structure LinesKept (s t : State) : Prop where
  length : t.routed.length = s.routed.length
  back : ∀ (k : Nat) (q' : Routed), t.routed[k]? = some q' →
    ∃ q, s.routed[k]? = some q ∧ InLine s k q q'
  forth : ∀ (k : Nat) (q : Routed), s.routed[k]? = some q →
    ∃ q', t.routed[k]? = some q' ∧ InLine s k q q'
  places : ∀ scope, t.places scope = s.places scope
  tails : t.tails = s.tails
  depth : t.depth = s.depth
  reading : t.reading = s.reading ∨
    ∀ (k : Nat) (q : Routed), t.routed[k]? = some q → q.phase.held = false

structure BarriersKept (s t : State) : Prop where
  back : ∀ (k : Nat) (q' : Routed), t.routed[k]? = some q' →
    ∃ q, s.routed[k]? = some q ∧ Behind s k q q'
  forth : ∀ (k : Nat) (q : Routed), s.routed[k]? = some q →
    ∃ q', t.routed[k]? = some q' ∧ Behind s k q q'
  barrier : t.barrier = s.barrier

theorem Lines.keep (h : Lines s) (hk : LinesKept s t) : Lines t where
  kind k q' hq' := by
    obtain ⟨q, hq, hf⟩ := hk.back k q' hq'
    rw [queues_congr hf.frame, hf.kind]
    exact h.kind k q hq
  held k q' hq' hheld := by
    obtain ⟨q, hq, hf⟩ := hk.back k q' hq'
    obtain hr | hr := hk.reading
    · rw [hr, hk.length]
      exact h.held k q hq (hf.held hheld)
    · simp [hr k q' hq'] at hheld
  tail scope i hi := by
    rw [hk.tails] at hi
    obtain ⟨r, hr, hscope, hline, hlast⟩ := h.tail scope i hi
    obtain ⟨r', hr', hf⟩ := hk.forth i r hr
    refine ⟨r', hr', (scope_congr hf.frame).trans hscope, hf.inLine.trans hline, ?_⟩
    intro k q' hlt hq' hq'line
    obtain ⟨q, hq, hfq⟩ := hk.back k q' hq'
    rw [scope_congr hfq.frame]
    exact hlast k q hlt hq (hfq.inLine ▸ hq'line)
  noTail scope hnone k q' hq' hscope := by
    rw [hk.tails] at hnone
    obtain ⟨q, hq, hf⟩ := hk.back k q' hq'
    rw [hf.inLine]
    exact h.noTail scope hnone k q hq ((scope_congr hf.frame) ▸ hscope)
  depth scope := by
    rw [hk.depth, hk.places]
    exact h.depth scope
  after i r' p hr' hp := by
    obtain ⟨r, hr, hf⟩ := hk.back i r' hr'
    obtain ⟨hlt, q, hq, hqueues, hscope, hbetween⟩ := h.after i r p hr (hf.previous ▸ hp)
    obtain ⟨q', hq', hfq⟩ := hk.forth p q hq
    refine ⟨hlt, q', hq', (queues_congr hfq.frame).trans hqueues, ?_, ?_⟩
    · rw [scope_congr hfq.frame, scope_congr hf.frame, hscope]
    · intro k m' hpk hki hm' hm'queues hm'scope
      obtain ⟨m, hm, hfm⟩ := hk.back k m' hm'
      rw [hfm.left]
      rw [scope_congr hfm.frame, scope_congr hf.frame] at hm'scope
      exact hbetween k m hpk hki hm ((queues_congr hfm.frame) ▸ hm'queues) hm'scope
  first i r' hr' hline hnone k q' hlt hq' hqueues hscope := by
    obtain ⟨r, hr, hf⟩ := hk.back i r' hr'
    obtain ⟨q, hq, hfq⟩ := hk.back k q' hq'
    rw [hfq.left]
    rw [scope_congr hfq.frame, scope_congr hf.frame] at hscope
    exact h.first i r hr (hf.inLine ▸ hline) (hf.previous ▸ hnone) k q hlt hq
      ((queues_congr hfq.frame) ▸ hqueues) hscope
  inOrder i j r' q' hlt hr' hq' hrq hqq hscope hstarted := by
    obtain ⟨r, hr, hf⟩ := hk.back i r' hr'
    obtain ⟨q, hq, hfq⟩ := hk.back j q' hq'
    rw [hf.left]
    rw [scope_congr hf.frame, scope_congr hfq.frame] at hscope
    rw [queues_congr hf.frame] at hrq
    rw [queues_congr hfq.frame] at hqq
    cases hfq.starts hqq hstarted with
    | inl hs => exact h.inOrder i j r q hlt hr hq hrq hqq hscope hs
    | inr hs => exact hs i r hlt hr hrq hscope

theorem Barriers.keep (h : Barriers s) (hk : BarriersKept s t) : Barriers t where
  barrier b hb := by
    rw [hk.barrier] at hb
    obtain ⟨r, hr, hcommand, hheld⟩ := h.barrier b hb
    obtain ⟨r', hr', hf⟩ := hk.forth b r hr
    refine ⟨r', hr', command_congr hf.frame ▸ hcommand, ?_⟩
    rw [hf.held (queues_of_barrier hcommand)]
    exact hheld
  lastBarrier k q' hq' hcommand hheld := by
    obtain ⟨q, hq, hf⟩ := hk.back k q' hq'
    rw [command_congr hf.frame] at hcommand
    rw [hf.held (queues_of_barrier hcommand)] at hheld
    rw [hk.barrier]
    exact h.lastBarrier k q hq hcommand hheld
  behind i r' b hr' hb := by
    obtain ⟨r, hr, hf⟩ := hk.back i r' hr'
    obtain ⟨hlt, q, hq, hcommand⟩ := h.behind i r b hr (hf.barrier ▸ hb)
    obtain ⟨q', hq', hfq⟩ := hk.forth b q hq
    exact ⟨hlt, q', hq', command_congr hfq.frame ▸ hcommand⟩
  nearest i r' hr' hqueues hheld k q' hlt hq' hcommand := by
    obtain ⟨r, hr, hf⟩ := hk.back i r' hr'
    obtain ⟨q, hq, hfq⟩ := hk.back k q' hq'
    rw [queues_congr hf.frame] at hqueues
    rw [hf.held hqueues] at hheld
    rw [hf.barrier]
    exact h.nearest i r hr hqueues hheld k q hlt hq ((command_congr hfq.frame) ▸ hcommand)
  kept i j r' q' hlt hr' hq' hcommand hqueues hpassed := by
    obtain ⟨r, hr, hf⟩ := hk.back i r' hr'
    obtain ⟨q, hq, hfq⟩ := hk.back j q' hq'
    rw [command_congr hf.frame] at hcommand
    rw [queues_congr hfq.frame] at hqueues
    apply hf.done
    cases hfq.passes hqueues hpassed with
    | inl hs => exact h.kept i j r q hlt hr hq hcommand hqueues hs
    | inr hs => exact hs i r hlt hr hcommand


theorem put_back (hr : s.routed[i]? = some r) (hk : (s.put i r').routed[k]? = some q) :
    (k = i ∧ q = r') ∨ (k ≠ i ∧ s.routed[k]? = some q) := by
  rw [put_some hr] at hk
  split at hk
  next h => exact Or.inl ⟨h, hk⟩
  next h => exact Or.inr ⟨h, hk⟩

theorem put_self (hr : s.routed[i]? = some r) : (s.put i r').routed[i]? = some r' := by
  simp [put_some hr]

theorem put_ne (hr : s.routed[i]? = some r) (hne : k ≠ i) (hk : s.routed[k]? = some q) :
    (s.put i r').routed[k]? = some q := by
  simp [put_some hr, hne, hk]

theorem linesKept_put (hr : s.routed[i]? = some r) (hf : InLine s i r r')
    (reading barrier : Option Nat)
    (hreading : reading = s.reading ∨
      r'.phase.held = false ∧ ∀ (k : Nat) (q : Routed), k ≠ i → s.routed[k]? = some q →
        q.phase.held = false) :
    LinesKept s { s.put i r' with reading, barrier } where
  length := by simp [State.put]
  back k q' hq' := by
    obtain ⟨rfl, rfl⟩ | ⟨-, hq'⟩ := put_back hr hq'
    · exact ⟨r, hr, hf⟩
    · exact ⟨q', hq', InLine.refl⟩
  forth k q hq := by
    by_cases hk : k = i
    · subst hk
      cases hr.symm.trans hq
      exact ⟨r', put_self hr, hf⟩
    · exact ⟨q, put_ne hr hk hq, InLine.refl⟩
  places scope := by
    have hp := places_put hr r' scope
    rw [scope_congr hf.frame, hf.inLine] at hp
    exact Nat.add_right_cancel hp
  tails := rfl
  depth := rfl
  reading := by
    obtain h | ⟨h, hother⟩ := hreading
    · exact Or.inl h
    · right
      intro k q hq
      obtain ⟨rfl, rfl⟩ | ⟨hk, hq⟩ := put_back hr hq
      · exact h
      · exact hother k q hk hq

theorem barriersKept_put (hr : s.routed[i]? = some r) (hf : Behind s i r r')
    {reading : Option Nat} {tails : String → Option Nat} {depth : String → Option Int} :
    BarriersKept s { s.put i r' with reading, tails, depth } where
  back k q' hq' := by
    obtain ⟨rfl, rfl⟩ | ⟨-, hq'⟩ := put_back hr hq'
    · exact ⟨r, hr, hf⟩
    · exact ⟨q', hq', Behind.refl⟩
  forth k q hq := by
    by_cases hk : k = i
    · subst hk
      cases hr.symm.trans hq
      exact ⟨r', put_self hr, hf⟩
    · exact ⟨q, put_ne hr hk hq, Behind.refl⟩
  barrier := rfl

structure Sound (s : State) : Prop where
  lines : Lines s
  barriers : Barriers s

theorem Lines.unheld (h : Lines s) (hi : s.reading = some i) (hk : s.routed[k]? = some q)
    (hne : k ≠ i) : q.phase.held = false := by
  by_contra hheld
  have hread := (h.held k q hk (by simpa using hheld)).1
  rw [hi] at hread
  exact hne (Option.some.inj hread).symm

theorem Lines.before (h : Lines s) (hr : s.routed[i]? = some r) (hheld : r.phase.held = true)
    (hk : s.routed[k]? = some q) (hne : k ≠ i) : k < i := by
  have hlength := (h.held i r hr hheld).2
  have hlt := routed_lt hk
  omega

theorem Phase.inLine_of_left (h : phase.left = true) : phase.inLine = false := by
  cases phase <;> simp_all [Phase.left, Phase.inLine]

theorem Lines.queues_of_inLine (h : Lines s) (hr : s.routed[i]? = some r)
    (hline : r.phase.inLine = true) : r.queues = true := by
  have hkind := h.kind i r hr
  cases hphase : r.phase <;> simp_all [Phase.inLine, Phase.answers]

theorem Lines.placed (h : Lines s) (hi : s.reading = some i) (hk : s.routed[k]? = some q)
    (hne : k ≠ i) (hqueues : q.queues = true) :
    q.phase.inLine = true ∨ q.phase.left = true := by
  have hkind := h.kind k q hk
  have hheld := h.unheld hi hk hne
  rw [hqueues] at hkind
  cases hphase : q.phase <;> simp_all [Phase.inLine, Phase.left, Phase.held, Phase.answers]

theorem Sound.answer (h : Sound s) (hi : s.reading = some i) (hr : s.routed[i]? = some r)
    (hphase : r.phase = .answering) :
    Sound { s.put i { r with phase := .answered } with reading := none } := by
  have hqueues : r.queues = false := by simpa [hphase, Phase.answers] using h.lines.kind i r hr
  have hline : InLine s i r { r with phase := .answered } := {
    frame := rfl
    previous := rfl
    inLine := hphase ▸ rfl
    left := hphase ▸ rfl
    held := nofun
    kind := hphase ▸ rfl
    starts := by simp [hqueues] }
  have hbehind : Behind s i r { r with phase := .answered } := {
    frame := rfl
    barrier := rfl
    held := by simp [hqueues]
    done := fun _ => rfl
    passes := by simp [hqueues] }
  refine ⟨h.lines.keep (linesKept_put hr hline none s.barrier (Or.inr ⟨rfl, ?_⟩)),
    h.barriers.keep (barriersKept_put hr hbehind)⟩
  exact fun k q hne hk => h.lines.unheld hi hk hne

def Phase.shifts (p q : Phase) : Bool :=
  q.inLine == p.inLine && q.left == p.left && q.held == p.held && q.answers == p.answers &&
    (!p.done || q.done)

theorem Sound.move (h : Sound s) (hr : s.routed[i]? = some r) (hs : r.phase.shifts phase = true)
    (hstarts : phase.started = true → r.phase.started = true ∨
      ∀ (j : Nat) (m : Routed), j < i → s.routed[j]? = some m → m.queues = true →
        m.scope = r.scope → m.phase.left = true)
    (hpasses : r.queues = true → phase.through = true → r.phase.through = true ∨
      ∀ (j : Nat) (m : Routed), j < i → s.routed[j]? = some m →
        isBarrierCommand m.command = true → m.phase.done = true) :
    Sound (s.put i { r with phase }) := by
  simp only [Phase.shifts, Bool.and_eq_true, beq_iff_eq, Bool.or_eq_true, Bool.not_eq_true'] at hs
  obtain ⟨⟨⟨⟨hline, hleft⟩, hheld⟩, hkind⟩, hdone⟩ := hs
  have hin : InLine s i r { r with phase } := {
    frame := rfl
    previous := rfl
    inLine := hline
    left := hleft
    held := fun h => hheld ▸ h
    kind := hkind
    starts := fun _ => hstarts }
  have hbehind : Behind s i r { r with phase } := {
    frame := rfl
    barrier := rfl
    held := fun _ => hheld
    done := fun h => hdone.resolve_left (by simp [h])
    passes := hpasses }
  exact ⟨h.lines.keep (linesKept_put hr hin s.reading s.barrier (Or.inl rfl)),
    h.barriers.keep (barriersKept_put hr hbehind)⟩

theorem Sound.cancelled (h : Sound s) (hr : s.routed[i]? = some r)
    (hphase : r.phase = .cancelling) : Sound (s.put i { r with phase := .routing }) :=
  h.move hr (hphase ▸ rfl) nofun nofun

theorem Sound.finish (h : Sound s) (hr : s.routed[i]? = some r)
    (hphase : r.phase = .running) : Sound (s.put i { r with phase := .finished }) :=
  h.move hr (hphase ▸ rfl) (fun _ => Or.inl (hphase ▸ rfl)) fun _ _ => Or.inl (hphase ▸ rfl)

theorem Sound.close (h : Sound s) (hr : s.routed[i]? = some r)
    (hphase : r.phase = .unlisted) : Sound (s.put i { r with phase := .closed }) :=
  h.move hr (hphase ▸ rfl) (fun _ => Or.inl (hphase ▸ rfl)) fun _ _ => Or.inl (hphase ▸ rfl)

theorem Sound.behind_open (h : Sound s) (hr : s.routed[i]? = some r) (hqueues : r.queues = true)
    (hheld : r.phase.held = false) (hopen : s.open r.barrier = true) (hk : k < i)
    (hq : s.routed[k]? = some q) (hcommand : isBarrierCommand q.command = true) :
    q.phase.done = true := by
  obtain ⟨b, hb, hkb⟩ := h.barriers.nearest i r hr hqueues hheld k q hk hq hcommand
  rw [hb, open_some] at hopen
  obtain ⟨m, hm, hclosed⟩ := hopen
  obtain ⟨hbi, m', hm', hmcommand⟩ := h.barriers.behind i r b hr hb
  cases hm.symm.trans hm'
  by_cases heq : k = b
  · subst heq
    cases hm.symm.trans hq
    simp [hclosed, Phase.done]
  · exact h.barriers.kept k b q m (Nat.lt_of_le_of_ne hkb heq) hq hm hcommand (queues_of_barrier hmcommand)
      (by simp [hclosed, Phase.through, Phase.started])

theorem Sound.after_open (h : Sound s) (hr : s.routed[i]? = some r)
    (hline : r.phase.inLine = true) (hopen : s.open r.previous = true) (hk : k < i)
    (hq : s.routed[k]? = some q) (hqueues : q.queues = true) (hscope : q.scope = r.scope) :
    q.phase.left = true := by
  cases hp : r.previous with
  | none => exact h.lines.first i r hr hline hp k q hk hq hqueues hscope
  | some p =>
      rw [hp, open_some] at hopen
      obtain ⟨m, hm, hclosed⟩ := hopen
      obtain ⟨hpi, m', hm', hmqueues, hmscope, hbetween⟩ := h.lines.after i r p hr hp
      cases hm.symm.trans hm'
      obtain hlt | heq | hlt := Nat.lt_trichotomy k p
      · exact h.lines.inOrder k p q m hlt hq hm hqueues hmqueues (hscope.trans hmscope.symm)
          (by simp [hclosed, Phase.started])
      · subst heq
        cases hm.symm.trans hq
        simp [hclosed, Phase.left]
      · exact hbetween k q hlt hk hq hqueues hscope

theorem Sound.passBarrier (h : Sound s) (hr : s.routed[i]? = some r)
    (hphase : r.phase = .waiting) (hopen : s.open r.barrier = true) :
    Sound (s.put i { r with phase := .passed }) := by
  refine h.move hr (hphase ▸ rfl) nofun fun hqueues _ => Or.inr fun k q hk hq hcommand => ?_
  exact h.behind_open hr hqueues (hphase ▸ rfl) hopen hk hq hcommand

theorem Sound.start (h : Sound s) (hr : s.routed[i]? = some r)
    (hphase : r.phase = .passed) (hopen : s.open r.previous = true) :
    Sound (s.put i { r with phase := .running }) := by
  refine h.move hr (hphase ▸ rfl) (fun _ => Or.inr fun k q hk hq hqueues hscope => ?_)
    fun _ _ => Or.inl (hphase ▸ rfl)
  exact h.after_open hr (hphase ▸ rfl) hopen hk hq hqueues hscope

theorem Lines.claim (h : Lines s) (hi : s.reading = some i) (hr : s.routed[i]? = some r)
    (hphase : r.phase = .routing) : Lines (s.claim i r) where
  kind k q hq := by
    obtain ⟨rfl, rfl⟩ | ⟨hne, hq⟩ := put_back hr hq
    · have hkind := h.kind k r hr
      rw [hphase] at hkind
      exact hkind
    · exact h.kind k q hq
  held k q hq hheld := by
    have hlast := h.held i r hr (hphase ▸ rfl)
    have hlength : (s.claim i r).routed.length = s.routed.length := by
      simp [State.claim, State.put]
    rw [hlength]
    obtain ⟨rfl, rfl⟩ | ⟨hne, hq⟩ := put_back hr hq
    · exact hlast
    · exact h.held k q hq hheld
  tail scope k hk := by
    simp only [State.claim, Function.update_apply] at hk
    split at hk
    next hscope =>
      cases hk
      refine ⟨_, put_self hr, hscope.symm, rfl, ?_⟩
      intro k q hlt hq
      obtain ⟨rfl, rfl⟩ | ⟨hne, hq⟩ := put_back hr hq
      · omega
      · have hki := h.before hr (hphase ▸ rfl) hq hne
        omega
    next hscope =>
      obtain ⟨m, hm, hmscope, hline, hlast⟩ := h.tail scope k hk
      have hne : k ≠ i := by
        rintro rfl
        cases hr.symm.trans hm
        simp [hphase, Phase.inLine] at hline
      refine ⟨m, put_ne hr hne hm, hmscope, hline, ?_⟩
      intro j q hlt hq hqline
      obtain ⟨rfl, rfl⟩ | ⟨hne, hq⟩ := put_back hr hq
      · exact fun heq => hscope heq.symm
      · exact hlast j q hlt hq hqline
  noTail scope hnone k q hq hscope := by
    simp only [State.claim, Function.update_apply] at hnone
    split at hnone
    next => cases hnone
    next hne =>
      obtain ⟨rfl, rfl⟩ | ⟨-, hq⟩ := put_back hr hq
      · exact absurd hscope.symm hne
      · exact h.noTail scope hnone k q hq hscope
  depth scope := by
    have hplaces : (s.claim i r).places scope =
        s.places scope + if scope = r.scope then 1 else 0 :=
      places_join hr (hphase ▸ rfl) { r with previous := s.tails r.scope, phase := .claimed } rfl rfl
        scope
    rw [hplaces]
    simp only [State.claim, Function.update_apply, h.depth]
    grind
  after k q p hq hp := by
    obtain ⟨rfl, rfl⟩ | ⟨hne, hq⟩ := put_back hr hq
    · obtain ⟨m, hm, hmscope, hline, hlast⟩ := h.tail r.scope p hp
      have hne : p ≠ k := by
        rintro rfl
        cases hr.symm.trans hm
        simp [hphase, Phase.inLine] at hline
      have hmqueues := h.queues_of_inLine hm hline
      refine ⟨h.before hr (hphase ▸ rfl) hm hne, m, put_ne hr hne hm, hmqueues, hmscope, ?_⟩
      intro j q hpj hjk hq hqueues hscope
      obtain ⟨rfl, rfl⟩ | ⟨hne, hq⟩ := put_back hr hq
      · omega
      · have hline := hlast j q hpj hq
        exact (h.placed hi hq hne hqueues).resolve_left fun hq' => hline hq' hscope
    · obtain ⟨hpk, m, hm, hmqueues, hmscope, hbetween⟩ := h.after k q p hq hp
      have hki := h.before hr (hphase ▸ rfl) hq hne
      refine ⟨hpk, m, put_ne hr (by omega) hm, hmqueues, hmscope, ?_⟩
      intro j x hpj hjk hx hxqueues hxscope
      obtain ⟨rfl, rfl⟩ | ⟨-, hx⟩ := put_back hr hx
      · omega
      · exact hbetween j x hpj hjk hx hxqueues hxscope
  first k q hq hline hnone j m hj hm hqueues hscope := by
    obtain ⟨rfl, rfl⟩ | ⟨hne, hq⟩ := put_back hr hq
    · obtain ⟨rfl, rfl⟩ | ⟨hne, hm⟩ := put_back hr hm
      · omega
      · have hline := h.noTail r.scope hnone j m hm hscope
        exact (h.placed hi hm hne hqueues).resolve_left (by simp [hline])
    · have hki := h.before hr (hphase ▸ rfl) hq hne
      obtain ⟨rfl, rfl⟩ | ⟨-, hm⟩ := put_back hr hm
      · omega
      · exact h.first k q hq hline hnone j m hj hm hqueues hscope
  inOrder k j q m hlt hq hm hqq hmq hscope hstarted := by
    obtain ⟨rfl, rfl⟩ | ⟨hne, hm⟩ := put_back hr hm
    · cases hstarted
    · have hji := h.before hr (hphase ▸ rfl) hm hne
      obtain ⟨rfl, rfl⟩ | ⟨-, hq⟩ := put_back hr hq
      · omega
      · exact h.inOrder k j q m hlt hq hm hqq hmq hscope hstarted

theorem Sound.claim (h : Sound s) (hi : s.reading = some i) (hr : s.routed[i]? = some r)
    (hphase : r.phase = .routing) : Sound (s.claim i r) := by
  have hbehind : Behind s i r { r with previous := s.tails r.scope, phase := .claimed } := {
    frame := rfl
    barrier := rfl
    held := fun _ => hphase ▸ rfl
    done := by simp [hphase, Phase.done]
    passes := nofun }
  exact ⟨h.lines.claim hi hr hphase, h.barriers.keep (barriersKept_put hr hbehind)⟩

theorem Lines.unlist (h : Lines s) (hr : s.routed[i]? = some r) (hphase : r.phase = .finished) :
    Lines (s.unlist i r) where
  kind k q hq := by
    obtain ⟨rfl, rfl⟩ | ⟨-, hq⟩ := put_back hr hq
    · have hkind := h.kind k r hr
      rw [hphase] at hkind
      exact hkind
    · exact h.kind k q hq
  held k q hq hheld := by
    have hlength : (s.unlist i r).routed.length = s.routed.length := by
      simp [State.unlist, State.put]
    rw [hlength]
    obtain ⟨rfl, rfl⟩ | ⟨-, hq⟩ := put_back hr hq
    · cases hheld
    · exact h.held k q hq hheld
  tail scope k hk := by
    have hold : s.tails scope = some k ∧ k ≠ i := by
      simp only [State.unlist] at hk
      split at hk
      next htail =>
        rw [Function.update_apply] at hk
        split at hk
        next => cases hk
        next hne =>
          refine ⟨hk, ?_⟩
          rintro rfl
          obtain ⟨m, hm, hscope, -⟩ := h.tail scope k hk
          cases hr.symm.trans hm
          exact hne hscope.symm
      next htail =>
        refine ⟨hk, ?_⟩
        rintro rfl
        obtain ⟨m, hm, hscope, -⟩ := h.tail scope k hk
        cases hr.symm.trans hm
        exact htail (hscope ▸ hk)
    obtain ⟨hk, hne⟩ := hold
    obtain ⟨m, hm, hscope, hline, hlast⟩ := h.tail scope k hk
    refine ⟨m, put_ne hr hne hm, hscope, hline, ?_⟩
    intro j q hlt hq hqline
    obtain ⟨rfl, rfl⟩ | ⟨-, hq⟩ := put_back hr hq
    · cases hqline
    · exact hlast j q hlt hq hqline
  noTail scope hnone k q hq hscope := by
    obtain ⟨rfl, rfl⟩ | ⟨hne, hq⟩ := put_back hr hq
    · rfl
    · simp only [State.unlist] at hnone
      split at hnone
      next htail =>
        rw [Function.update_apply] at hnone
        split at hnone
        next heq =>
          -- It was the last one of its line, and those before it have left.
          rw [← heq] at htail
          obtain ⟨m, hm, hmscope, hmline, hlast⟩ := h.tail scope i htail
          cases hr.symm.trans hm
          by_contra hline
          have hline : q.phase.inLine = true := by simpa using hline
          obtain hlt | hlt := Nat.lt_or_gt_of_ne hne
          · have hleft := h.inOrder k i q r hlt hq hr (h.queues_of_inLine hq hline)
              (h.queues_of_inLine hr hmline) (hscope.trans hmscope.symm) (hphase ▸ rfl)
            simp [Phase.inLine_of_left hleft] at hline
          · exact hlast k q hlt hq hline hscope
        next => exact h.noTail scope hnone k q hq hscope
      next => exact h.noTail scope hnone k q hq hscope
  depth scope := by
    have hplaces := places_leave hr (hphase ▸ rfl) { r with phase := .unlisted } rfl rfl scope
    change (s.unlist i r).places scope + _ = _ at hplaces
    simp only [State.unlist, Function.update_apply, h.depth] at hplaces ⊢
    grind
  after k q p hq hp := by
    have hold : ∃ q', s.routed[k]? = some q' ∧ q'.previous = some p ∧ q'.scope = q.scope := by
      obtain ⟨rfl, rfl⟩ | ⟨-, hq⟩ := put_back hr hq
      · exact ⟨r, hr, hp, rfl⟩
      · exact ⟨q, hq, hp, rfl⟩
    obtain ⟨q', hq', hp', hscope⟩ := hold
    obtain ⟨hlt, m, hm, hqueues, hmscope, hbetween⟩ := h.after k q' p hq' hp'
    rw [hscope] at hmscope
    have hget : ∃ m', (s.put i { r with phase := .unlisted }).routed[p]? = some m' ∧
        m'.queues = true ∧ m'.scope = q.scope := by
      by_cases hne : p = i
      · subst hne
        cases hr.symm.trans hm
        exact ⟨_, put_self hr, hqueues, hmscope⟩
      · exact ⟨m, put_ne hr hne hm, hqueues, hmscope⟩
    obtain ⟨m', hm', hmqueues, hmscope⟩ := hget
    refine ⟨hlt, m', hm', hmqueues, hmscope, ?_⟩
    intro j x hpj hjk hx hxqueues hxscope
    obtain ⟨rfl, rfl⟩ | ⟨-, hx⟩ := put_back hr hx
    · rfl
    · exact hbetween j x hpj hjk hx hxqueues (hxscope.trans hscope.symm)
  first k q hq hline hnone j m hj hm hqueues hscope := by
    obtain ⟨rfl, rfl⟩ | ⟨-, hq⟩ := put_back hr hq
    · cases hline
    · obtain ⟨rfl, rfl⟩ | ⟨-, hm⟩ := put_back hr hm
      · rfl
      · exact h.first k q hq hline hnone j m hj hm hqueues hscope
  inOrder k j q m hlt hq hm hqq hmq hscope hstarted := by
    obtain ⟨rfl, rfl⟩ | ⟨-, hold⟩ := put_back hr hq
    · rfl
    · obtain ⟨rfl, rfl⟩ | ⟨-, hm⟩ := put_back hr hm
      · exact h.inOrder k j q r hlt hold hr hqq hmq hscope (hphase ▸ rfl)
      · exact h.inOrder k j q m hlt hold hm hqq hmq hscope hstarted

theorem Sound.unlist (h : Sound s) (hr : s.routed[i]? = some r) (hphase : r.phase = .finished) :
    Sound (s.unlist i r) := by
  have hbehind : Behind s i r { r with phase := .unlisted } := {
    frame := rfl
    barrier := rfl
    held := fun _ => hphase ▸ rfl
    done := fun _ => rfl
    passes := fun _ _ => Or.inl (hphase ▸ rfl) }
  exact ⟨h.lines.unlist hr hphase, h.barriers.keep (barriersKept_put hr hbehind)⟩

theorem Barriers.spawn (h : Sound s) (hi : s.reading = some i) (hr : s.routed[i]? = some r)
    (hphase : r.phase = .claimed) : Barriers (s.spawn i r) where
  barrier b hb := by
    simp only [State.spawn] at hb
    split at hb
    next hcommand =>
      cases hb
      exact ⟨_, put_self hr, hcommand, rfl⟩
    next =>
      obtain ⟨q, hq, hcommand, hheld⟩ := h.barriers.barrier b hb
      have hne : b ≠ i := by
        rintro rfl
        cases hr.symm.trans hq
        simp [hphase, Phase.held] at hheld
      exact ⟨q, put_ne hr hne hq, hcommand, hheld⟩
  lastBarrier k q hq hcommand hheld := by
    simp only [State.spawn]
    obtain ⟨rfl, rfl⟩ | ⟨hne, hq⟩ := put_back hr hq
    · have hcommand : isBarrierCommand r.command = true := hcommand
      exact ⟨k, by simp [hcommand], Nat.le_refl k⟩
    · have hki := h.lines.before hr (hphase ▸ rfl) hq hne
      split
      next => exact ⟨i, rfl, Nat.le_of_lt hki⟩
      next => exact h.barriers.lastBarrier k q hq hcommand hheld
  behind k q b hq hb := by
    obtain ⟨rfl, rfl⟩ | ⟨hne, hq⟩ := put_back hr hq
    · obtain ⟨m, hm, hcommand, hheld⟩ := h.barriers.barrier b hb
      have hne : b ≠ k := by
        rintro rfl
        cases hr.symm.trans hm
        simp [hphase, Phase.held] at hheld
      exact ⟨h.lines.before hr (hphase ▸ rfl) hm hne, m, put_ne hr hne hm, hcommand⟩
    · have hki := h.lines.before hr (hphase ▸ rfl) hq hne
      obtain ⟨hlt, m, hm, hcommand⟩ := h.barriers.behind k q b hq hb
      exact ⟨hlt, m, put_ne hr (by omega) hm, hcommand⟩
  nearest k q hq hqueues hheld j m hj hm hcommand := by
    obtain ⟨rfl, rfl⟩ | ⟨hne, hq⟩ := put_back hr hq
    · obtain ⟨rfl, rfl⟩ | ⟨hne, hm⟩ := put_back hr hm
      · omega
      · exact h.barriers.lastBarrier j m hm hcommand (h.lines.unheld hi hm hne)
    · have hki := h.lines.before hr (hphase ▸ rfl) hq hne
      obtain ⟨rfl, rfl⟩ | ⟨-, hm⟩ := put_back hr hm
      · omega
      · exact h.barriers.nearest k q hq hqueues hheld j m hj hm hcommand
  kept k j q m hlt hq hm hcommand hqueues hthrough := by
    obtain ⟨rfl, rfl⟩ | ⟨hne, hm⟩ := put_back hr hm
    · cases hthrough
    · have hji := h.lines.before hr (hphase ▸ rfl) hm hne
      obtain ⟨rfl, rfl⟩ | ⟨-, hq⟩ := put_back hr hq
      · omega
      · exact h.barriers.kept k j q m hlt hq hm hcommand hqueues hthrough

theorem Sound.spawn (h : Sound s) (hi : s.reading = some i) (hr : s.routed[i]? = some r)
    (hphase : r.phase = .claimed) : Sound (s.spawn i r) := by
  have hin : InLine s i r { r with barrier := s.barrier, phase := .waiting } := {
    frame := rfl
    previous := rfl
    inLine := hphase ▸ rfl
    left := hphase ▸ rfl
    held := nofun
    kind := hphase ▸ rfl
    starts := nofun }
  refine ⟨h.lines.keep (linesKept_put hr hin none _ (Or.inr ⟨rfl, ?_⟩)),
    Barriers.spawn h hi hr hphase⟩
  exact fun k q hne hk => h.lines.unheld hi hk hne

/-- What `route` makes of a frame before it does anything else. -/
def arrival (frame : Frame) : Routed := { frame, phase := firstPhase (frameCommand frame) }

theorem arrival_phase (frame : Frame) :
    (arrival frame).phase.held = true ∧ (arrival frame).phase.inLine = false ∧
      (arrival frame).phase.answers = !(arrival frame).queues ∧
      ((arrival frame).queues = true → (arrival frame).phase.through = false) := by
  simp only [arrival, firstPhase, Routed.queues, Routed.command]
  split
  next h => simp [h, Phase.held, Phase.inLine, Phase.answers]
  next h =>
    split
    next h' => simp [h', Phase.held, Phase.inLine, Phase.answers]
    next h' =>
      split
      all_goals simp [h, h', Phase.held, Phase.inLine, Phase.answers, Phase.through, Phase.started]

theorem append_back {l : List Routed} (h : (l ++ [r])[k]? = some q) :
    l[k]? = some q ∨ k = l.length ∧ q = r := by
  rw [List.getElem?_append] at h
  split at h
  next => exact Or.inl h
  next hge =>
    obtain ⟨hlt, hget⟩ := List.getElem?_eq_some_iff.mp h
    have hk : k - l.length = 0 := by simpa using hlt
    have hkl : k = l.length := by omega
    right
    refine ⟨hkl, ?_⟩
    simpa [hk] using hget.symm

theorem append_forth {l : List Routed} (h : l[k]? = some q) : (l ++ [r])[k]? = some q := by
  have hlt := (List.getElem?_eq_some_iff.mp h).1
  rw [List.getElem?_append_left hlt]
  exact h

theorem Sound.route (h : Sound s) (hi : s.reading = none) (frame : Frame) :
    Sound { s with routed := s.routed ++ [arrival frame], reading := some s.routed.length } := by
  obtain ⟨hheld, hline, hkind, hthrough⟩ := arrival_phase frame
  have hunheld : ∀ (k : Nat) (q : Routed), s.routed[k]? = some q → q.phase.held = false := by
    intro k q hq
    by_contra hq'
    have hread := (h.lines.held k q hq (by simpa using hq')).1
    rw [hi] at hread
    cases hread
  refine ⟨⟨?kind, ?held, ?tail, ?noTail, ?depth, ?after, ?first, ?inOrder⟩,
    ⟨?barrier, ?lastBarrier, ?behind, ?nearest, ?kept⟩⟩
  case kind =>
    intro k q hq
    obtain hq | ⟨-, rfl⟩ := append_back hq
    · exact h.lines.kind k q hq
    · exact hkind
  case held =>
    intro k q hq hqheld
    obtain hq | ⟨rfl, rfl⟩ := append_back hq
    · simp [hunheld k q hq] at hqheld
    · simp
  case tail =>
    intro scope k hk
    obtain ⟨r, hr, hscope, hrline, hlast⟩ := h.lines.tail scope k hk
    refine ⟨r, append_forth hr, hscope, hrline, ?_⟩
    intro j q hlt hq hqline
    obtain hq | ⟨-, rfl⟩ := append_back hq
    · exact hlast j q hlt hq hqline
    · simp [hline] at hqline
  case noTail =>
    intro scope hnone k q hq hscope
    obtain hq | ⟨-, rfl⟩ := append_back hq
    · exact h.lines.noTail scope hnone k q hq hscope
    · exact hline
  case depth =>
    intro scope
    have hplaces : State.places { s with
        routed := s.routed ++ [arrival frame], reading := some s.routed.length } scope =
        s.places scope := by
      simp [State.places, List.countP_append, hline]
    rw [hplaces]
    exact h.lines.depth scope
  case after =>
    intro k q p hq hp
    obtain hq | ⟨-, rfl⟩ := append_back hq
    · obtain ⟨hlt, m, hm, hqueues, hscope, hbetween⟩ := h.lines.after k q p hq hp
      refine ⟨hlt, m, append_forth hm, hqueues, hscope, ?_⟩
      intro j x hpj hjk hx hxqueues hxscope
      have hk := routed_lt hq
      obtain hx | ⟨rfl, -⟩ := append_back hx
      · exact hbetween j x hpj hjk hx hxqueues hxscope
      · omega
    · cases hp
  case first =>
    intro k q hq hqline hnone j m hj hm hqueues hscope
    obtain hq | ⟨-, rfl⟩ := append_back hq
    · have hk := routed_lt hq
      obtain hm | ⟨rfl, -⟩ := append_back hm
      · exact h.lines.first k q hq hqline hnone j m hj hm hqueues hscope
      · omega
    · simp [hline] at hqline
  case inOrder =>
    intro k j q m hlt hq hm hqq hmq hscope hstarted
    obtain hm | ⟨-, rfl⟩ := append_back hm
    · have hj := routed_lt hm
      obtain hq | ⟨rfl, -⟩ := append_back hq
      · exact h.lines.inOrder k j q m hlt hq hm hqq hmq hscope hstarted
      · omega
    · have hnot := hthrough hmq
      simp [Phase.through, hstarted] at hnot
  case barrier =>
    intro b hb
    obtain ⟨r, hr, hcommand, hrheld⟩ := h.barriers.barrier b hb
    exact ⟨r, append_forth hr, hcommand, hrheld⟩
  case lastBarrier =>
    intro k q hq hcommand hqheld
    obtain hq | ⟨-, rfl⟩ := append_back hq
    · exact h.barriers.lastBarrier k q hq hcommand hqheld
    · simp [hheld] at hqheld
  case behind =>
    intro k q b hq hb
    obtain hq | ⟨-, rfl⟩ := append_back hq
    · obtain ⟨hlt, m, hm, hcommand⟩ := h.barriers.behind k q b hq hb
      exact ⟨hlt, m, append_forth hm, hcommand⟩
    · cases hb
  case nearest =>
    intro k q hq hqueues hqheld j m hj hm hcommand
    obtain hq | ⟨-, rfl⟩ := append_back hq
    · have hk := routed_lt hq
      obtain hm | ⟨rfl, -⟩ := append_back hm
      · exact h.barriers.nearest k q hq hqueues hqheld j m hj hm hcommand
      · omega
    · simp [hheld] at hqheld
  case kept =>
    intro k j q m hlt hq hm hcommand hqueues hmthrough
    obtain hm | ⟨-, rfl⟩ := append_back hm
    · have hj := routed_lt hm
      obtain hq | ⟨rfl, -⟩ := append_back hq
      · exact h.barriers.kept k j q m hlt hq hm hcommand hqueues hmthrough
      · omega
    · simp [hthrough hqueues] at hmthrough

theorem sound_nil : Sound {} where
  lines := by constructor <;> simp [State.places]
  barriers := by constructor <;> simp

theorem Sound.step {e : Event} (h : Sound s) (he : step s e = some t) : Sound t := by
  cases e with
  | route frame =>
      obtain ⟨hi, rfl⟩ := step_route.mp he
      exact h.route hi frame
  | answer =>
      obtain ⟨i, r, hi, hr, hphase, rfl⟩ := step_answer.mp he
      exact h.answer hi hr hphase
  | cancelled =>
      obtain ⟨i, r, -, hr, hphase, rfl⟩ := step_cancelled.mp he
      exact h.cancelled hr hphase
  | claim =>
      obtain ⟨i, r, hi, hr, hphase, rfl⟩ := step_claim.mp he
      exact h.claim hi hr hphase
  | spawn =>
      obtain ⟨i, r, hi, hr, hphase, rfl⟩ := step_spawn.mp he
      exact h.spawn hi hr hphase
  | passBarrier i =>
      obtain ⟨r, hr, hphase, hopen, rfl⟩ := step_passBarrier.mp he
      exact h.passBarrier hr hphase hopen
  | start i =>
      obtain ⟨r, hr, hphase, hopen, rfl⟩ := step_start.mp he
      exact h.start hr hphase hopen
  | finish i =>
      obtain ⟨r, hr, hphase, rfl⟩ := step_finish.mp he
      exact h.finish hr hphase
  | unlist i =>
      obtain ⟨r, hr, hphase, rfl⟩ := step_unlist.mp he
      exact h.unlist hr hphase
  | close i =>
      obtain ⟨r, hr, hphase, rfl⟩ := step_close.mp he
      exact h.close hr hphase

theorem sound_run {events : List Event} (hr : run step {} events = some s) : Sound s :=
  run_invariant (fun _ _ _ h he => h.step he) sound_nil hr

end Dolgate.Router
