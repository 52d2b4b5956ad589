import Dolgate.FlowCallbacks

set_option autoImplicit false

namespace Dolgate.FlowControl
open Transition

/-- Where a call of `Wait` stands: about to take the lock, in its `select` on the resume channel of
a gate, or returned. -/
inductive Phase where
  | looking
  | parked (gate resume : Nat) (timeout : Option Int)
  | returned
deriving DecidableEq, Repr

/-- One call of `Wait` for a session. -/
structure Reader where
  sessionID : String
  phase : Phase
deriving DecidableEq, Repr

namespace Registry

/-- The lock section of `Wait`. -/
def look (r : Registry) (id : String) (now : Int) : Registry × Phase :=
  match r.sessions id with
  | none => (r, .returned)
  | some a =>
    match r.gates[a]? with
    | none => (r, .returned)
    | some g =>
      let (g', waiting) := g.wait r.limits now
      ({ r with gates := r.gates.set a g' },
        match waiting with
        | .done => .returned
        | .on resume timeout => .parked a resume timeout)

def closed (r : Registry) (a resume : Nat) : Prop :=
  ∀ g, r.gates[a]? = some g → g.resume ≠ resume

instance (r : Registry) (a resume : Nat) : Decidable (r.closed a resume) := by
  unfold closed
  cases r.gates[a]? with
  | none => exact isTrue fun _ h => nomatch h
  | some g => exact decidable_of_iff (g.resume ≠ resume) (by simp)

end Registry

/-- The registry with the calls of `Wait`, by number. -/
structure Waiters where
  system : System
  readers : List Reader

/-- `ended` is the select on the session's own `closed` channel. -/
inductive WaitEvent where
  | registry (e : Event)
  | call (id : String)
  | look (i : Nat) (now : Int)
  | woken (i : Nat)
  | ended (i : Nat)
  | timeout (i : Nat)

namespace Waiters

def init (limits : Limits) : Waiters := ⟨.init limits, []⟩

def move (s : Waiters) (i : Nat) (r : Reader) (phase : Phase) : Waiters :=
  { s with readers := s.readers.set i { r with phase := phase } }

def step (s : Waiters) : WaitEvent → Option Waiters
  | .registry e => (s.system.step e).map fun system => { s with system := system }
  | .call id => some { s with readers := s.readers ++ [⟨id, .looking⟩] }
  | .look i now => do
      let r ← s.readers[i]?
      if r.phase = .looking then
        let (registry, phase) := s.system.registry.look r.sessionID now
        some (move { s with system := { s.system with registry := registry } } i r phase)
      else none
  | .woken i => do
      let r ← s.readers[i]?
      match r.phase with
      | .parked a resume _ =>
        if s.system.registry.closed a resume then some (s.move i r .looking) else none
      | _ => none
  | .ended i => do
      let r ← s.readers[i]?
      match r.phase with
      | .parked _ _ _ => some (s.move i r .returned)
      | _ => none
  | .timeout i => do
      let r ← s.readers[i]?
      match r.phase with
      | .parked _ _ (some _) => some (s.move i r .looking)
      | _ => none

end Waiters

/-- A count is never negative, a gate that the stall limit has freed is not paused, and one that is
paused has more than the low watermark to go. Only an observed gate has a timer. -/
structure Gate.Sound (l : Limits) (g : Gate) : Prop where
  nonneg : 0 ≤ g.unacked
  free : g.disabled = true → g.paused = false
  above : l.low ≤ l.high → g.paused = true → l.low < g.unacked
  untimed : g.observed = false → g.armed = []

/-- What readers rely on: as long as its channel stays, a gate without callbacks stays paused. -/
structure Gate.Follows (g g' : Gate) : Prop where
  resume : g.resume ≤ g'.resume
  observed : g'.observed = g.observed
  stays : g'.resume = g.resume → g.observed = false → g.paused = true → g.disabled = false →
    g'.paused = true ∧ g'.disabled = false

structure Gate.Tends (l : Limits) (g g' : Gate) : Prop where
  sound : g'.Sound l
  follows : g.Follows g'

namespace Gate
variable {g g' : Gate} {l : Limits}

theorem Follows.refl (g : Gate) : g.Follows g := ⟨Nat.le_refl _, rfl, fun _ _ hp hd => ⟨hp, hd⟩⟩

theorem Sound.tends (h : g.Sound l) : g.Tends l g := ⟨h, .refl g⟩

theorem Follows.of_same (hr : g'.resume = g.resume) (ho : g'.observed = g.observed)
    (hp : g'.paused = g.paused) (hd : g'.disabled = g.disabled) : g.Follows g' :=
  ⟨Nat.le_of_eq hr.symm, ho, fun _ _ h h' => ⟨hp ▸ h, hd ▸ h'⟩⟩

theorem Follows.of_released (hr : g.resume < g'.resume) (ho : g'.observed = g.observed) :
    g.Follows g' :=
  ⟨Nat.le_of_lt hr, ho, fun h => absurd h (Nat.ne_of_gt hr)⟩

@[simp] theorem release_resume : g.release.resume = g.resume + 1 := rfl

@[simp] theorem release_disabled : g.release.disabled = g.disabled := rfl

@[simp] theorem stopStallTimer_resume : g.stopStallTimer.resume = g.resume := by
  unfold stopStallTimer
  split <;> rfl

@[simp] theorem stopStallTimer_disabled : g.stopStallTimer.disabled = g.disabled := by
  unfold stopStallTimer
  split <;> rfl

theorem stopStallTimer_armed (h : g.armed = []) : g.stopStallTimer.armed = [] := by
  unfold stopStallTimer
  split <;> simp [h]

@[simp] theorem afterFunc_disabled : g.afterFunc.disabled = g.disabled := rfl

@[simp] theorem armStallTimer_resume : g.armStallTimer.resume = g.resume := by
  simp [armStallTimer, afterFunc]

@[simp] theorem armStallTimer_disabled : g.armStallTimer.disabled = g.disabled := by
  simp [armStallTimer]

theorem deduct_nonneg (g : Gate) (n : Int) : 0 ≤ g.deduct n := by
  unfold deduct
  simp only
  split <;> omega

theorem newGate_sound (id : String) (observed : Bool) (now : Int) :
    (newGate id observed now).Sound l := by
  constructor <;> simp [newGate]

theorem Sound.drop (h : g.Sound l) : g.Tends l g.drop.1 := by
  refine ⟨⟨?_, ?_, ?_, ?_⟩, .of_released ?_ ?_⟩
  · simpa [Gate.drop] using h.nonneg
  · simpa [Gate.drop] using h.free
  · simpa [Gate.drop] using h.above
  · intro ho
    exact stopStallTimer_armed (h.untimed (by simpa [Gate.drop] using ho))
  · simp [Gate.drop]
  · simp [Gate.drop]

theorem Sound.sent (h : g.Sound l) (n now : Int) : g.Tends l (g.sent l n now).1 := by
  unfold Gate.sent
  split
  · exact h.tends
  · rename_i hn
    have hnonneg := h.nonneg
    simp only
    split
    · rename_i hc
      simp only [Bool.and_eq_true, Bool.not_eq_true', decide_eq_true_eq] at hc
      obtain ⟨⟨⟨ho, hp⟩, hd⟩, hh⟩ := hc
      refine ⟨⟨?_, ?_, ?_, ?_⟩, ?_, ?_, ?_⟩
      · simp
        omega
      · simp [hd]
      · intro hl _
        simp only [armStallTimer_unacked]
        omega
      · simp [ho]
      · simp
      · simp
      · simp [ho]
    · refine ⟨⟨?_, h.free, ?_, h.untimed⟩, .of_same rfl rfl rfl rfl⟩
      · show 0 ≤ g.unacked + n
        omega
      · intro hl hp
        have := h.above hl hp
        show l.low < g.unacked + n
        omega

theorem Sound.ack (h : g.Sound l) (n now : Int) : g.Tends l (g.ack l n now).1 := by
  unfold Gate.ack
  simp only
  split
  · refine ⟨⟨?_, ?_, ?_, ?_⟩, .of_released ?_ ?_⟩
    · simpa using g.deduct_nonneg n
    · simp
    · simp
    · intro ho
      exact stopStallTimer_armed (h.untimed (by simpa using ho))
    · simp
    · simp
  · rename_i hc
    simp only [Bool.and_eq_true, decide_eq_true_eq, not_and, Int.not_le] at hc
    exact ⟨⟨g.deduct_nonneg n, nofun, fun _ hp => hc hp, h.untimed⟩,
      Nat.le_refl _, rfl, fun _ _ hp _ => ⟨hp, rfl⟩⟩

theorem Sound.checkObservedStall (h : g.Sound l) (ho : g.observed = true) (now : Int) :
    g.Tends l (g.checkObservedStall l now).1 := by
  unfold Gate.checkObservedStall
  split
  · exact h.tends
  · split
    · exact ⟨⟨h.nonneg, h.free, h.above, h.untimed⟩, .of_same rfl rfl rfl rfl⟩
    · split
      · refine ⟨⟨h.nonneg, h.free, h.above, ?_⟩, .of_same rfl rfl rfl rfl⟩
        simp [ho]
      · exact ⟨⟨h.nonneg, fun _ => rfl, nofun, h.untimed⟩, Nat.le_refl _, rfl, by simp [ho]⟩

theorem Sound.setHidden (h : g.Sound l) (hidden : Bool) (now : Int) :
    g.Tends l (g.setHidden hidden now) := by
  unfold Gate.setHidden
  split
  · exact h.tends
  · simp only
    split
    · exact ⟨⟨h.nonneg, h.free, h.above, h.untimed⟩, .of_same rfl rfl rfl rfl⟩
    · split
      · rename_i ho
        refine ⟨⟨?_, ?_, ?_, ?_⟩, .of_same ?_ ?_ ?_ ?_⟩
        · simpa using h.nonneg
        · simpa using h.free
        · simpa using h.above
        · simp_all
        · simp
        · simp
        · simp
        · simp
      · exact ⟨⟨h.nonneg, h.free, h.above, h.untimed⟩, .of_released (Nat.lt_succ_self _) rfl⟩

theorem Sound.expire (h : g.Sound l) {timer : Nat} (he : g.expire timer = some g') :
    g.Tends l g' ∧ g.observed = true := by
  unfold Gate.expire at he
  split at he
  · rename_i hm
    cases he
    have ho : g.observed = true := by
      by_contra ho
      simp [h.untimed (by simpa using ho)] at hm
    exact ⟨⟨⟨h.nonneg, h.free, h.above, by simp [ho]⟩, .of_same rfl rfl rfl rfl⟩, ho⟩
  · cases he

theorem Sound.wait (h : g.Sound l) (now : Int) :
    g.Tends l (g.wait l now).1 ∧
      ∀ resume timeout, (g.wait l now).2 = .on resume timeout →
        resume = (g.wait l now).1.resume ∧ (g.wait l now).1.paused = true ∧
          (g.wait l now).1.disabled = false := by
  unfold Gate.wait
  split
  · exact ⟨h.tends, nofun⟩
  · rename_i hc
    simp only [Bool.or_eq_true, Bool.and_eq_true, Bool.not_eq_true', decide_eq_true_eq, not_or,
      not_and, Int.not_le, Bool.not_eq_true] at hc
    obtain ⟨hd, hh⟩ := hc
    have hpaused : ∀ {b : Gate}, b = (if g.paused = true then g
        else { g with paused := true, lastSign := now }) →
        b.paused = true ∧ b.disabled = false ∧ g.Tends l b := by
      intro b hb
      split at hb
      · rename_i hp
        subst hb
        exact ⟨hp, hd, h.tends⟩
      · rename_i hp
        subst hb
        have hp : g.paused = false := by simpa using hp
        refine ⟨rfl, hd, ⟨h.nonneg, ?_, ?_, h.untimed⟩, Nat.le_refl _, rfl, ?_⟩
        · simp [hd]
        · intro hl _
          have := hh hp
          show l.low < g.unacked
          omega
        · simp [hp]
    generalize hb : (if g.paused = true then g
      else { g with paused := true, lastSign := now }) = b
    obtain ⟨hp, hd, ht⟩ := hpaused hb.symm
    simp only
    split
    · refine ⟨ht, fun resume timeout hon => ?_⟩
      cases hon
      exact ⟨rfl, hp, hd⟩
    · split
      · refine ⟨⟨⟨ht.sound.nonneg, fun _ => rfl, nofun, ht.sound.untimed⟩, ?_⟩, nofun⟩
        exact .of_released (Nat.lt_succ_of_le ht.follows.resume) ht.follows.observed
      · refine ⟨ht, fun resume timeout hon => ?_⟩
        cases hon
        exact ⟨rfl, hp, hd⟩

end Gate

/-- The reader is parked on a channel that its gate has now or had earlier; the current one belongs
to the registered gate, which is paused. -/
def Held (r : Registry) (id : String) (a resume : Nat) : Prop :=
  ∃ g, r.gates[a]? = some g ∧ resume ≤ g.resume ∧
    (resume = g.resume → g.observed = false →
      r.sessions id = some a ∧ g.paused = true ∧ g.disabled = false)

structure Tended (l : Limits) (s : Waiters) : Prop where
  limits : s.system.registry.limits = l
  sound : ∀ (a : Nat) (g : Gate), s.system.registry.gates[a]? = some g → g.Sound l
  due : ∀ id a, (id, a) ∈ s.system.due →
    ∃ g, s.system.registry.gates[a]? = some g ∧ g.observed = true
  held : ∀ r ∈ s.readers, ∀ a resume timeout, r.phase = .parked a resume timeout →
    Held s.system.registry r.sessionID a resume

section
variable {r r' : Registry} {id : String} {a resume : Nat} {l : Limits}

/-- One registry follows another: its gates do, and a session that is registered anew has released
the readers of its old gate. -/
structure Registry.Follows (l : Limits) (r r' : Registry) : Prop where
  limits : r'.limits = r.limits
  gates : ∀ (a : Nat) (g : Gate), r.gates[a]? = some g → ∃ g', r'.gates[a]? = some g' ∧ g.Follows g'
  sound : ∀ (a : Nat) (g : Gate), r'.gates[a]? = some g → g.Sound l
  sessions : ∀ id a, r.sessions id = some a → r'.sessions id = some a ∨
    ∀ g g', r.gates[a]? = some g → r'.gates[a]? = some g' → g.resume < g'.resume

theorem Held.follows (h : Held r id a resume) (hf : r.Follows l r') : Held r' id a resume := by
  obtain ⟨g, hg, hle, hheld⟩ := h
  obtain ⟨g', hg', hgg⟩ := hf.gates a g hg
  refine ⟨g', hg', Nat.le_trans hle hgg.resume, fun hr ho => ?_⟩
  have hsame : resume = g.resume := Nat.le_antisymm hle (hr ▸ hgg.resume)
  have hchan : g'.resume = g.resume := hr.symm.trans hsame
  obtain ⟨hs, hp, hd⟩ := hheld hsame (hgg.observed ▸ ho)
  refine ⟨?_, hgg.stays hchan (hgg.observed ▸ ho) hp hd⟩
  rcases hf.sessions id a hs with hs | hlt
  · exact hs
  · exact absurd hchan (Nat.ne_of_gt (hlt g g' hg hg'))

theorem Registry.Follows.refl (hs : ∀ (a : Nat) (g : Gate), r.gates[a]? = some g → g.Sound l) : r.Follows l r :=
  ⟨rfl, fun _ g hg => ⟨g, hg, .refl g⟩, hs, fun _ _ h => .inl h⟩

theorem Registry.Follows.set {g g' : Gate} (hs : ∀ (a : Nat) (g : Gate), r.gates[a]? = some g → g.Sound l)
    (hg : r.gates[a]? = some g) (ht : g.Tends l g') :
    r.Follows l { r with gates := r.gates.set a g' } := by
  have hlt := (List.getElem?_eq_some_iff.mp hg).1
  refine ⟨rfl, fun b h hb => ?_, fun b h hb => ?_, fun _ _ h => .inl h⟩
  · by_cases hba : a = b
    · subst hba
      cases hg.symm.trans hb
      exact ⟨g', List.getElem?_set_self hlt, ht.follows⟩
    · exact ⟨h, (List.getElem?_set_ne hba).trans hb, .refl h⟩
  · by_cases hba : a = b
    · subst hba
      cases (List.getElem?_set_self hlt).symm.trans hb
      exact ht.sound
    · exact hs b h ((List.getElem?_set_ne hba).symm.trans hb)

theorem Registry.Follows.update {f : Gate → Gate × Option Callback}
    (hs : ∀ (a : Nat) (g : Gate), r.gates[a]? = some g → g.Sound l)
    (hf : ∀ (a : Nat) (g : Gate), r.sessions id = some a → r.gates[a]? = some g → g.Tends l (f g).1) :
    r.Follows l (r.update id f).1 := by
  unfold Registry.update
  cases ha : r.sessions id with
  | none => exact .refl hs
  | some a =>
      simp only
      cases hg : r.gates[a]? with
      | none => exact .refl hs
      | some g => exact .set hs hg (hf a g ha hg)

theorem Registry.Follows.dropLocked (hs : ∀ (a : Nat) (g : Gate), r.gates[a]? = some g → g.Sound l)
    (id : String) : r.Follows l (r.dropLocked id).1 := by
  have hu : r.Follows l (r.update id Gate.drop).1 :=
    .update hs fun a g _ hg => (hs a g hg).drop
  refine ⟨hu.limits, hu.gates, hu.sound, fun id' a h => ?_⟩
  by_cases hid : id' = id
  · subst hid
    right
    intro g g' hg hg'
    have hlt := (List.getElem?_eq_some_iff.mp hg).1
    simp only [Registry.dropLocked, Registry.update, h, hg, List.getElem?_set_self hlt,
      Option.some.injEq] at hg'
    subst hg'
    simp [Gate.drop]
  · left
    have hsame : (r.update id Gate.drop).1.sessions = r.sessions := by
      unfold Registry.update
      split
      · rfl
      · split <;> rfl
    simpa [Registry.dropLocked, Registry.assign, hid, hsame] using h

theorem Registry.Follows.register (hf : r.Follows l r') (hnone : r'.sessions id = none)
    (observed : Bool) (now : Int) :
    r.Follows l { r' with
      sessions := Registry.assign r'.sessions id (some r'.gates.length),
      gates := r'.gates ++ [newGate id observed now] } := by
  refine ⟨hf.limits, fun a g hg => ?_, fun a g hg => ?_, fun id' a h => ?_⟩
  · obtain ⟨g', hg', hgg⟩ := hf.gates a g hg
    exact ⟨g', (List.getElem?_append_left (List.getElem?_eq_some_iff.mp hg').1).trans hg', hgg⟩
  · rcases Nat.lt_or_ge a r'.gates.length with hlt | hge
    · exact hf.sound a g ((List.getElem?_append_left hlt).symm.trans hg)
    · rw [List.getElem?_append_right hge] at hg
      obtain rfl := List.mem_singleton.mp (List.mem_of_getElem? hg)
      exact Gate.newGate_sound id observed now
  · rcases hf.sessions id' a h with hs | hlt
    · have hid : id' ≠ id := fun hid => by simp [hid, hnone] at hs
      left
      simpa [Registry.assign, hid] using hs
    · right
      intro g g' hg hg'
      obtain ⟨k, hk, -⟩ := hf.gates a g hg
      rw [List.getElem?_append_left (List.getElem?_eq_some_iff.mp hk).1] at hg'
      exact hlt g g' hg hg'

theorem Registry.Follows.start (hs : ∀ (a : Nat) (g : Gate), r.gates[a]? = some g → g.Sound l) (id : String)
    (observed : Bool) (now : Int) : r.Follows l (r.start id observed now).1 :=
  (Registry.Follows.dropLocked hs id).register (by simp [Registry.dropLocked, Registry.assign])
    observed now

end

section
variable {limits : Limits} {s t : Waiters}

theorem tended_init (limits : Limits) : Tended limits (.init limits) := by
  constructor <;> simp [Waiters.init, System.init, Registry.new]

theorem Tended.follows (h : Tended limits s) {system : System}
    (hf : s.system.registry.Follows limits system.registry)
    (hd : ∀ id a, (id, a) ∈ system.due → (id, a) ∈ s.system.due ∨
      ∃ g, system.registry.gates[a]? = some g ∧ g.observed = true) :
    Tended limits { s with system := system } where
  limits := hf.limits.trans h.limits
  sound := hf.sound
  due := by
    intro id a hm
    rcases hd id a hm with hm | hg
    · obtain ⟨g, hg, ho⟩ := h.due id a hm
      obtain ⟨g', hg', hgg⟩ := hf.gates a g hg
      exact ⟨g', hg', hgg.observed.trans ho⟩
    · exact hg
  held := fun r hr a resume timeout hp => (h.held r hr a resume timeout hp).follows hf

theorem Tended.locked (h : Tended limits s) {r : Registry × Option (Nat × Callback)}
    (hf : s.system.registry.Follows limits r.1) :
    Tended limits { s with system := s.system.locked r } :=
  h.follows hf fun _ _ hm => .inl hm

theorem Tended.registry (h : Tended limits s) {e : Event} {system : System}
    (he : s.system.step e = some system) : Tended limits { s with system := system } := by
  have hl := h.limits
  cases e with
  | start id observed now =>
      cases he
      exact h.locked (.start h.sound id observed now)
  | stop id =>
      cases he
      exact h.locked (.dropLocked h.sound id)
  | sent id n now =>
      cases he
      exact h.locked (.update h.sound fun a g _ hg => hl ▸ (h.sound a g hg).sent n now)
  | ack id n now =>
      cases he
      exact h.locked (.update h.sound fun a g _ hg => hl ▸ (h.sound a g hg).ack n now)
  | setHidden id hidden now =>
      cases he
      exact h.locked (.update h.sound fun a g _ hg => (h.sound a g hg).setHidden hidden now)
  | expire watched timer =>
      simp only [System.step, Option.bind_eq_bind, Option.bind_eq_some_iff] at he
      obtain ⟨g, hg, g', hx, he⟩ := he
      cases he
      obtain ⟨ht, ho⟩ := (h.sound watched g hg).expire hx
      refine h.follows (.set h.sound hg ht) fun id a hm => ?_
      rcases List.mem_append.mp hm with hm | hm
      · exact .inl hm
      · cases List.mem_singleton.mp hm
        have hlt := (List.getElem?_eq_some_iff.mp hg).1
        exact .inr ⟨g', List.getElem?_set_self hlt, ht.follows.observed.trans ho⟩
  | check i now =>
      simp only [System.step, Option.bind_eq_bind, Option.bind_eq_some_iff] at he
      obtain ⟨d, hd, he⟩ := he
      cases he
      have hobs := h.due d.1 d.2 (List.mem_of_getElem? hd)
      refine h.follows ?_ fun _ _ hm => .inl (List.mem_of_mem_eraseIdx hm)
      unfold Registry.checkObservedStall
      split
      · rename_i hw
        refine .update h.sound fun a g ha hg => ?_
        obtain ⟨g', hg', ho⟩ := hobs
        cases hw.symm.trans ha
        cases hg'.symm.trans hg
        exact hl ▸ (h.sound _ g hg).checkObservedStall ho now
      · exact .refl h.sound
  | call i =>
      simp only [System.step, Option.bind_eq_bind, Option.bind_eq_some_iff] at he
      obtain ⟨c, -, he⟩ := he
      cases he
      exact h.follows (.refl h.sound) fun _ _ hm => .inl hm

theorem Tended.move (h : Tended limits s) (i : Nat) (r : Reader) {phase : Phase}
    (hp : ∀ a resume timeout, phase = .parked a resume timeout →
      Held s.system.registry r.sessionID a resume) : Tended limits (s.move i r phase) where
  limits := h.limits
  sound := h.sound
  due := h.due
  held := by
    intro r' hr' a resume timeout hphase
    rcases List.mem_or_eq_of_mem_set hr' with hr' | rfl
    · exact h.held r' hr' a resume timeout hphase
    · exact hp a resume timeout hphase

theorem Tended.look (h : Tended limits s) (i : Nat) (r : Reader) (now : Int) :
    Tended limits (Waiters.move
      { s with system := { s.system with
        registry := (s.system.registry.look r.sessionID now).1 } } i r
      (s.system.registry.look r.sessionID now).2) := by
  unfold Registry.look
  cases ha : s.system.registry.sessions r.sessionID with
  | none => exact h.move i r nofun
  | some a =>
      simp only
      cases hg : s.system.registry.gates[a]? with
      | none => exact h.move i r nofun
      | some g =>
          have hlt := (List.getElem?_eq_some_iff.mp hg).1
          obtain ⟨ht, hon⟩ := (h.sound a g hg).wait now
          have h' : Tended limits { s with system := { s.system with registry :=
              { s.system.registry with
                gates := s.system.registry.gates.set a (g.wait limits now).1 } } } :=
            h.follows (.set h.sound hg ht) fun _ _ hm => .inl hm
          simp only [h.limits] at h' ⊢
          refine h'.move i r ?_
          intro b resume timeout hphase
          split at hphase
          · cases hphase
          · rename_i resume' timeout' hw
            cases hphase
            obtain ⟨hr, hp, hd⟩ := hon _ _ hw
            exact ⟨_, List.getElem?_set_self hlt, Nat.le_of_eq hr, fun _ _ => ⟨ha, hp, hd⟩⟩

theorem Tended.step {e : WaitEvent} (h : Tended limits s) (he : s.step e = some t) :
    Tended limits t := by
  cases e with
  | registry e =>
      obtain ⟨system, hs, rfl⟩ := Option.map_eq_some_iff.mp he
      exact h.registry hs
  | call id =>
      cases he
      refine ⟨h.limits, h.sound, h.due, fun r hr a resume timeout hp => ?_⟩
      rcases List.mem_append.mp hr with hr | hr
      · exact h.held r hr a resume timeout hp
      · cases List.mem_singleton.mp hr
        cases hp
  | look i now =>
      simp only [Waiters.step, Option.bind_eq_bind, Option.bind_eq_some_iff] at he
      obtain ⟨r, -, he⟩ := he
      split at he
      · cases he
        exact h.look i r now
      · cases he
  | woken i =>
      simp only [Waiters.step, Option.bind_eq_bind, Option.bind_eq_some_iff] at he
      obtain ⟨r, -, he⟩ := he
      split at he
      · split at he
        · cases he
          exact h.move i r nofun
        · cases he
      · cases he
  | ended i =>
      simp only [Waiters.step, Option.bind_eq_bind, Option.bind_eq_some_iff] at he
      obtain ⟨r, -, he⟩ := he
      split at he
      · cases he
        exact h.move i r nofun
      · cases he
  | timeout i =>
      simp only [Waiters.step, Option.bind_eq_bind, Option.bind_eq_some_iff] at he
      obtain ⟨r, -, he⟩ := he
      split at he
      · cases he
        exact h.move i r nofun
      · cases he

/-- No reader is parked on the current channel of a gate that nobody would release. -/
theorem parked_reader_kept (limits : Limits) (es : List WaitEvent)
    (hr : run Waiters.step (.init limits) es = some s) :
    (∀ r ∈ s.readers, ∀ a resume timeout g, r.phase = .parked a resume timeout →
      s.system.registry.gates[a]? = some g → g.observed = false → g.resume = resume →
      s.system.registry.sessions r.sessionID = some a ∧ g.paused = true ∧
        g.disabled = false) ∧
    ∀ (a : Nat) (g : Gate), s.system.registry.gates[a]? = some g →
      0 ≤ g.unacked ∧ (limits.low ≤ limits.high → g.paused = true → limits.low < g.unacked) ∧
        (g.disabled = true → g.paused = false) := by
  have h : Tended limits s := run_invariant (fun _ _ _ h he => h.step he) (tended_init limits) hr
  constructor
  · intro r hr a resume timeout g hp hg ho hcur
    obtain ⟨g', hg', -, hheld⟩ := h.held r hr a resume timeout hp
    cases hg'.symm.trans hg
    exact hheld hcur.symm ho
  · intro a g hg
    have hs := h.sound a g hg
    exact ⟨hs.nonneg, hs.above, hs.free⟩

def floodedReader : List WaitEvent :=
  [.registry (.start "shell" false 0), .registry (.sent "shell" 1048577 1), .call "shell",
    .look 0 2]

theorem parked_reader_kept_flooded :
    ∃ s g, run Waiters.step (.init newLimits) floodedReader = some s ∧
      s.readers = [⟨"shell", .parked 0 0 (some 10000)⟩] ∧
      s.system.registry.gates[0]? = some g ∧ s.system.registry.sessions "shell" = some 0 ∧
      g.paused = true ∧ g.disabled = false ∧ 262144 < g.unacked := by
  refine ⟨_, _, rfl, rfl, rfl, ?_⟩
  obtain ⟨hp, hs⟩ := parked_reader_kept newLimits floodedReader rfl
  obtain ⟨h, h', h''⟩ := hp _ (List.mem_singleton_self _) 0 0 _ _ rfl rfl rfl rfl
  exact ⟨h, h', h'', (hs 0 _ rfl).2.1 (by decide) rfl⟩

end

end Dolgate.FlowControl
