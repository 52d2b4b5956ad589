import Dolgate.RouterOrder

set_option autoImplicit false

/-! What the order comes to, and that no frames wait for each other. -/

namespace Dolgate.Router

open Transition

def Event.own : Event → Bool
  | .route _ => false
  | .answer => false
  | .finish _ => false
  | _ => true

def Reaches (s t : State) : Prop :=
  ∃ events, (∀ e ∈ events, e.own = true) ∧ run step s events = some t

variable {s t u : State} {i j k p : Nat} {r q : Routed} {e : Event}

theorem Reaches.refl : Reaches s s := ⟨[], nofun, rfl⟩

theorem Reaches.head (he : step s e = some t) (ho : e.own = true) (h : Reaches t u) :
    Reaches s u := by
  obtain ⟨events, howns, hr⟩ := h
  exact ⟨e :: events, List.forall_mem_cons.mpr ⟨ho, howns⟩, run_cons.mpr ⟨t, he, hr⟩⟩

theorem Reaches.trans (h : Reaches s t) (h' : Reaches t u) : Reaches s u := by
  obtain ⟨events, howns, hr⟩ := h
  obtain ⟨events', howns', hr'⟩ := h'
  refine ⟨events ++ events', ?_, run_append.mpr ⟨t, hr, hr'⟩⟩
  intro e he
  cases List.mem_append.mp he with
  | inl he => exact howns e he
  | inr he => exact howns' e he

/-- All handlers of the frames before the frame `j` are over. -/
structure Ready (s : State) (j : Nat) : Prop where
  sound : Sound s
  before : ∀ (k : Nat) (q : Routed), k < j → s.routed[k]? = some q → q.phase.done = true

theorem Ready.closes (h : Ready s j) (hp : p < j) (hq : s.routed[p]? = some q)
    (hqueues : q.queues = true) (hj : s.routed[j]? = some r) :
    ∃ t, Reaches s t ∧ Ready t j ∧ t.open (some p) = true ∧ t.routed[j]? = some r := by
  have hend : ∀ {s' : State} {q' : Routed}, Ready s' j → s'.routed[p]? = some q' →
      q'.phase = .unlisted → s'.routed[j]? = some r →
      ∃ t, Reaches s' t ∧ Ready t j ∧ t.open (some p) = true ∧ t.routed[j]? = some r := by
    intro s' q' h' hq' hphase hj'
    refine ⟨s'.put p { q' with phase := .closed },
      Reaches.refl.head (step_close.mpr ⟨q', hq', hphase, rfl⟩) rfl, ⟨?_, ?_⟩, ?_, ?_⟩
    · exact h'.sound.close hq' hphase
    · intro k m hk hm
      obtain ⟨rfl, rfl⟩ | ⟨-, hm⟩ := put_back hq' hm
      · rfl
      · exact h'.before k m hk hm
    · exact open_some.mpr ⟨_, put_self hq', rfl⟩
    · exact put_ne hq' (by omega) hj'
  have hdone := h.before p q hp hq
  have hkind := h.sound.lines.kind p q hq
  rw [hqueues] at hkind
  cases hphase : q.phase with
  | closed => exact ⟨s, Reaches.refl, h, open_some.mpr ⟨q, hq, hphase⟩, hj⟩
  | unlisted => exact hend h hq hphase hj
  | finished =>
      have hs := step_unlist.mpr ⟨q, hq, hphase, rfl⟩
      have hready : Ready (s.unlist p q) j := by
        refine ⟨h.sound.unlist hq hphase, ?_⟩
        intro k m hk hm
        obtain ⟨rfl, rfl⟩ | ⟨-, hm⟩ := put_back hq hm
        · rfl
        · exact h.before k m hk hm
      obtain ⟨t, ht, hrest⟩ := hend hready (put_self hq) rfl (put_ne hq (by omega) hj)
      exact ⟨t, ht.head hs rfl, hrest⟩
  | _ => simp_all [Phase.done, Phase.answers]

theorem Ready.starts_passed (h : Ready s j) (hj : s.routed[j]? = some r)
    (hphase : r.phase = .passed) : ∃ t r', Reaches s t ∧ t.routed[j]? = some r' ∧
      r'.phase = .running := by
  have hlast : ∀ {s' : State}, s'.routed[j]? = some r → s'.open r.previous = true →
      ∃ t r', Reaches s' t ∧ t.routed[j]? = some r' ∧ r'.phase = .running := by
    intro s' hj' hopen
    exact ⟨_, _, Reaches.refl.head (step_start.mpr ⟨r, hj', hphase, hopen, rfl⟩) rfl,
      put_self hj', rfl⟩
  cases hp : r.previous with
  | none => exact hlast hj (hp ▸ rfl)
  | some p =>
      obtain ⟨hlt, q, hq, hqueues, -⟩ := h.sound.lines.after j r p hj hp
      obtain ⟨t, ht, -, hopen, hj'⟩ := h.closes hlt hq hqueues hj
      obtain ⟨u, r', hu, hr'⟩ := hlast hj' (hp ▸ hopen)
      exact ⟨u, r', ht.trans hu, hr'⟩

theorem Ready.starts_waiting (h : Ready s j) (hj : s.routed[j]? = some r)
    (hphase : r.phase = .waiting) : ∃ t r', Reaches s t ∧ t.routed[j]? = some r' ∧
      r'.phase = .running := by
  have hlast : ∀ {s' : State}, Ready s' j → s'.routed[j]? = some r → s'.open r.barrier = true →
      ∃ t r', Reaches s' t ∧ t.routed[j]? = some r' ∧ r'.phase = .running := by
    intro s' h' hj' hopen
    have hready : Ready (s'.put j { r with phase := .passed }) j := by
      refine ⟨h'.sound.passBarrier hj' hphase hopen, ?_⟩
      intro k m hk hm
      obtain ⟨rfl, rfl⟩ | ⟨-, hm⟩ := put_back hj' hm
      · omega
      · exact h'.before k m hk hm
    obtain ⟨t, r', ht, hr'⟩ := hready.starts_passed (put_self hj') rfl
    exact ⟨t, r', ht.head (step_passBarrier.mpr ⟨r, hj', hphase, hopen, rfl⟩) rfl, hr'⟩
  cases hb : r.barrier with
  | none => exact hlast h hj (hb ▸ rfl)
  | some b =>
      obtain ⟨hlt, q, hq, hcommand⟩ := h.sound.barriers.behind j r b hj hb
      obtain ⟨t, ht, hready, hopen, hj'⟩ := h.closes hlt hq (queues_of_barrier hcommand) hj
      obtain ⟨u, r', hu, hr'⟩ := hlast hready hj' (hb ▸ hopen)
      exact ⟨u, r', ht.trans hu, hr'⟩

theorem Ready.starts (h : Ready s j) (hj : s.routed[j]? = some r)
    (hqueued : r.phase.queued = true) : ∃ t r', Reaches s t ∧ t.routed[j]? = some r' ∧
      r'.phase = .running := by
  cases hphase : r.phase with
  | passed => exact h.starts_passed hj hphase
  | waiting => exact h.starts_waiting hj hphase
  | claimed =>
      have hread := (h.sound.lines.held j r hj (hphase ▸ rfl)).1
      have hready : Ready (s.spawn j r) j := by
        refine ⟨h.sound.spawn hread hj hphase, ?_⟩
        intro k m hk hm
        obtain ⟨rfl, rfl⟩ | ⟨-, hm⟩ := put_back hj hm
        · omega
        · exact h.before k m hk hm
      obtain ⟨t, r', ht, hr'⟩ := hready.starts_waiting (put_self hj) rfl
      exact ⟨t, r', ht.head (step_spawn.mpr ⟨j, r, hread, hj, hphase, rfl⟩) rfl, hr'⟩
  | _ => simp [hphase, Phase.queued] at hqueued

theorem Sound.progress (h : Sound s)
    (hover : ∀ (i : Nat) (r : Routed), s.routed[i]? = some r → r.phase.started = true →
      r.phase.done = true)
    (hi : s.routed[i]? = some r) (hqueued : r.phase.queued = true) :
    ∃ (j : Nat) (q : Routed) (t : State) (q' : Routed), s.routed[j]? = some q ∧
      q.phase.queued = true ∧ Reaches s t ∧ t.routed[j]? = some q' ∧ q'.phase = .running := by
  induction i using Nat.strongRecOn generalizing r with
  | ind i ih =>
      by_cases hfirst : ∃ (k : Nat) (q : Routed), k < i ∧ s.routed[k]? = some q ∧
          q.phase.queued = true
      · obtain ⟨k, q, hk, hq, hkqueued⟩ := hfirst
        exact ih k hk hq hkqueued
      · have hready : Ready s i := by
          refine ⟨h, ?_⟩
          intro k q hk hq
          have hnot : q.phase.held = false := by
            by_contra hheld
            have hlength := (h.lines.held k q hq (by simpa using hheld)).2
            have hlt := routed_lt hi
            omega
          have hkqueued : ¬ q.phase.queued = true := fun hc => hfirst ⟨k, q, hk, hq, hc⟩
          have hkover := hover k q hq
          cases hphase : q.phase <;>
            simp_all [Phase.held, Phase.queued, Phase.started, Phase.done]
        obtain ⟨t, r', ht, hr', hrunning⟩ := hready.starts hi hqueued
        exact ⟨i, r, t, r', hi, hqueued, ht, hr', hrunning⟩

theorem Sound.starts_in_order (h : Sound s) (hij : i < j) (hr : s.routed[i]? = some r)
    (hq : s.routed[j]? = some q) (hqueues : q.queues = true) (hscope : r.scope = q.scope)
    (hstarted : q.phase.started = true) : r.phase.done = true := by
  cases hrq : r.queues with
  | true =>
      have hleft := h.lines.inOrder i j r q hij hr hq hrq hqueues hscope hstarted
      cases hphase : r.phase <;> simp_all [Phase.left, Phase.done]
  | false =>
      have hkind := h.lines.kind i r hr
      have hnot : ¬ r.phase.held = true := by
        intro hheld
        have hlength := (h.lines.held i r hr hheld).2
        have hlt := routed_lt hq
        omega
      cases hphase : r.phase <;> simp_all [Phase.answers, Phase.held, Phase.done]

theorem Sound.waits_for_earlier (h : Sound s) (hr : s.routed[i]? = some r)
    (hw : r.previous = some p ∨ r.barrier = some p) : p < i := by
  cases hw with
  | inl hp => exact (h.lines.after i r p hr hp).1
  | inr hb => exact (h.barriers.behind i r p hr hb).1

theorem Sound.empty (h : Sound s)
    (hleft : ∀ (i : Nat) (r : Routed), s.routed[i]? = some r →
      r.phase = .answered ∨ r.phase.left = true) (scope : String) :
    s.tails scope = none ∧ s.depth scope = none := by
  have hline : ∀ (i : Nat) (r : Routed), s.routed[i]? = some r → r.phase.inLine = false := by
    intro i r hr
    cases hleft i r hr with
    | inl ha => simp [ha, Phase.inLine]
    | inr hl => exact Phase.inLine_of_left hl
  constructor
  · cases htail : s.tails scope with
    | none => rfl
    | some i =>
        obtain ⟨r, hr, -, hin, -⟩ := h.lines.tail scope i htail
        simp [hline i r hr] at hin
  · have hplaces : s.places scope = 0 := by
      rw [State.places, List.countP_eq_zero]
      intro r hr
      obtain ⟨i, hi, rfl⟩ := List.mem_iff_getElem.mp hr
      have hnot := hline i _ (List.getElem?_eq_getElem hi)
      simp [hnot]
    rw [h.lines.depth, hplaces]
    rfl

/-- Frames of one target are run one at a time in their order, and none before a configuration that
came earlier. -/
theorem queued_frames_keep_order {events : List Event} (hr : run step {} events = some s) :
    (∀ (i j : Nat) (r q : Routed), i < j → s.routed[i]? = some r → s.routed[j]? = some q →
      q.queues = true → r.scope = q.scope → q.phase.started = true → r.phase.done = true) ∧
    (∀ (i j : Nat) (r q : Routed), i < j → s.routed[i]? = some r → s.routed[j]? = some q →
      q.queues = true → isBarrierCommand r.command = true → q.phase.started = true →
        r.phase.done = true) ∧
    (∀ (i : Nat) (r : Routed) (p : Nat), s.routed[i]? = some r →
      r.previous = some p ∨ r.barrier = some p → p < i) ∧
    ((∀ (i : Nat) (r : Routed), s.routed[i]? = some r → r.phase.started = true →
        r.phase.done = true) →
      (∃ (i : Nat) (r : Routed), s.routed[i]? = some r ∧ r.phase.queued = true) →
      ∃ (j : Nat) (q : Routed) (t : State) (q' : Routed), s.routed[j]? = some q ∧
        q.phase.queued = true ∧ Reaches s t ∧ t.routed[j]? = some q' ∧ q'.phase = .running) ∧
    ((∀ (i : Nat) (r : Routed), s.routed[i]? = some r →
        r.phase = .answered ∨ r.phase.left = true) →
      ∀ scope, s.tails scope = none ∧ s.depth scope = none) := by
  have h := sound_run hr
  refine ⟨?_, ?_, ?_, ?_, h.empty⟩
  · intro i j r q hij hi hj hqueues hscope hstarted
    exact h.starts_in_order hij hi hj hqueues hscope hstarted
  · intro i j r q hij hi hj hqueues hcommand hstarted
    refine h.barriers.kept i j r q hij hi hj hcommand hqueues ?_
    simp [Phase.through, hstarted]
  · intro i r p hi hw
    exact h.waits_for_earlier hi hw
  · rintro hover ⟨i, r, hi, hqueued⟩
    exact h.progress hover hi hqueued

/-- A session that waits for the configuration of the tailnets, and an answer for it. -/
def answered : List Event :=
  [.route (.control (some { type := .tailnetConfigure })), .claim, .spawn,
   .route (.control (some { type := .connect, sessionID := "s" })), .claim, .spawn,
   .route (.control (some { type := .keyboardInteractiveRespond, sessionID := "s" }))]

theorem configuration_can_start : ∃ s, run step {} (answered.take 3) = some s ∧
    ∃ (j : Nat) (q : Routed) (t : State) (q' : Routed), s.routed[j]? = some q ∧
      q.phase.queued = true ∧ Reaches s t ∧ t.routed[j]? = some q' ∧ q'.phase = .running := by
  have hview : (run step {} (answered.take 3)).map (fun s => s.routed) =
      some [{ frame := .control (some { type := .tailnetConfigure }), phase := .waiting }] := by
    decide
  obtain ⟨s, hs, hrouted⟩ := Option.map_eq_some_iff.mp hview
  refine ⟨s, hs, (queued_frames_keep_order hs).2.2.2.1 ?_ ⟨0, _, by rw [hrouted]; rfl, rfl⟩⟩
  intro i r hi hstarted
  rw [hrouted] at hi
  cases i with
  | zero =>
      cases hi
      cases hstarted
  | succ i => cases hi

theorem answer_overtakes : ¬ ∀ (events : List Event) (s : State), run step {} events = some s →
    (∀ (i j : Nat) (r q : Routed), i < j → s.routed[i]? = some r → s.routed[j]? = some q →
      r.scope = q.scope → q.phase.started = true → r.phase.done = true) ∧
    ∀ (i j : Nat) (r q : Routed), i < j → s.routed[i]? = some r → s.routed[j]? = some q →
      isBarrierCommand r.command = true → q.phase.started = true → r.phase.done = true := by
  intro h
  have hview : (run step {} answered).map (fun s => s.routed) =
      some [
        { frame := .control (some { type := .tailnetConfigure }), phase := .waiting },
        { frame := .control (some { type := .connect, sessionID := "s" }), barrier := some 0,
          phase := .waiting },
        { frame := .control (some { type := .keyboardInteractiveRespond, sessionID := "s" }),
          phase := .answering }] := by
    decide
  obtain ⟨s, hs, hrouted⟩ := Option.map_eq_some_iff.mp hview
  have hover := (h answered s hs).1 1 2 _ _ (by decide) (by rw [hrouted]; rfl) (by rw [hrouted]; rfl)
    (by decide) rfl
  cases hover

end Dolgate.Router
