import Mathlib.Data.List.Induction
import Dolgate.FlowControl
import Dolgate.Transition

set_option autoImplicit false

namespace Dolgate.FlowControl
open Transition

/-- `gates` are all gates ever made, by address; `sessions` holds addresses. -/
structure Registry where
  limits : Limits
  sessions : String → Option Nat
  gates : List Gate

namespace Registry

def new (limits : Limits) : Registry := ⟨limits, fun _ => none, []⟩

def assign (sessions : String → Option Nat) (id : String) (a : Option Nat) :
    String → Option Nat :=
  fun id' => if id' = id then a else sessions id'

/-- A lock section on the session's gate, with the callback it leaves to be called. -/
def update (r : Registry) (id : String) (f : Gate → Gate × Option Callback) :
    Registry × Option (Nat × Callback) :=
  match r.sessions id with
  | none => (r, none)
  | some a =>
    match r.gates[a]? with
    | none => (r, none)
    | some g => ({ r with gates := r.gates.set a (f g).1 }, (f g).2.map fun c => (a, c))

def dropLocked (r : Registry) (id : String) : Registry × Option (Nat × Callback) :=
  let (r', resume) := r.update id Gate.drop
  ({ r' with sessions := assign r'.sessions id none }, resume)

def start (r : Registry) (id : String) (observed : Bool) (now : Int) :
    Registry × Option (Nat × Callback) :=
  let (r', resumePrevious) := r.dropLocked id
  ({ r' with sessions := assign r'.sessions id (some r'.gates.length),
             gates := r'.gates ++ [newGate id observed now] }, resumePrevious)

def stop (r : Registry) (id : String) : Registry × Option (Nat × Callback) := r.dropLocked id

def sent (r : Registry) (id : String) (n now : Int) : Registry × Option (Nat × Callback) :=
  r.update id fun g => g.sent r.limits n now

def ack (r : Registry) (id : String) (n now : Int) : Registry × Option (Nat × Callback) :=
  r.update id fun g => g.ack r.limits n now

def setHidden (r : Registry) (id : String) (hidden : Bool) (now : Int) :
    Registry × Option (Nat × Callback) :=
  r.update id fun g => (g.setHidden hidden now, none)

def checkObservedStall (r : Registry) (id : String) (watched : Nat) (now : Int) :
    Registry × Option (Nat × Callback) :=
  if r.sessions id = some watched then r.update id fun g => g.checkObservedStall r.limits now
  else (r, none)

end Registry

/-- The registry, the expired timers whose check has not run, the callbacks that a lock section has
left and that are not called yet (in the order of the lock sections), and those called, in the order
of the calls. -/
structure System where
  registry : Registry
  due : List (String × Nat)
  pending : List (Nat × Callback)
  calls : List (Nat × Callback)

inductive Event where
  | start (id : String) (observed : Bool) (now : Int)
  | stop (id : String)
  | sent (id : String) (n now : Int)
  | ack (id : String) (n now : Int)
  | setHidden (id : String) (hidden : Bool) (now : Int)
  | expire (watched timer : Nat)
  | check (i : Nat) (now : Int)
  | call (i : Nat)

namespace System

def init (limits : Limits) : System := ⟨.new limits, [], [], []⟩

def locked (s : System) (r : Registry × Option (Nat × Callback)) : System :=
  { s with registry := r.1, pending := s.pending ++ r.2.toList }

def step (s : System) : Event → Option System
  | .start id observed now => some (s.locked (s.registry.start id observed now))
  | .stop id => some (s.locked (s.registry.stop id))
  | .sent id n now => some (s.locked (s.registry.sent id n now))
  | .ack id n now => some (s.locked (s.registry.ack id n now))
  | .setHidden id hidden now => some (s.locked (s.registry.setHidden id hidden now))
  | .expire watched timer => do
      let g ← s.registry.gates[watched]?
      let g' ← g.expire timer
      some { s with registry := { s.registry with gates := s.registry.gates.set watched g' },
                    due := s.due ++ [(g.sessionID, watched)] }
  | .check i now => do
      let (id, watched) ← s.due[i]?
      some (locked { s with due := s.due.eraseIdx i }
        (s.registry.checkObservedStall id watched now))
  | .call i => do
      let c ← s.pending[i]?
      some { s with pending := s.pending.eraseIdx i, calls := s.calls ++ [c] }

end System

def callsOf (a : Nat) (calls : List (Nat × Callback)) : List Callback :=
  (calls.filter fun c => c.1 = a).map Prod.snd

/-- The last callback called for the gate is `pause` exactly if the gate is paused. -/
def Agrees (s : System) (a : Nat) (g : Gate) : Prop :=
  (callsOf a s.calls).getLast? = some .pause ↔ g.paused = true

/-- The callbacks of one gate are called in the order in which its lock sections left them. -/
def InOrder (s : System) : Event → Prop
  | .call i => ∀ c, s.pending[i]? = some c → ∀ d ∈ s.pending.take i, d.1 ≠ c.1
  | _ => True

def PausedAlong (limits : Limits) (es : List Event) (a : Nat) : Prop :=
  ∃ es₁ es₂ t g, es = es₁ ++ es₂ ∧ run System.step (.init limits) es₁ = some t ∧
    t.registry.gates[a]? = some g ∧ g.paused = true

@[simp] theorem callsOf_append (a : Nat) (cs ds : List (Nat × Callback)) :
    callsOf a (cs ++ ds) = callsOf a cs ++ callsOf a ds := by
  simp [callsOf]

theorem callsOf_eq_nil {a : Nat} {cs : List (Nat × Callback)} (h : ∀ c ∈ cs, c.1 ≠ a) :
    callsOf a cs = [] := by
  simpa [callsOf, List.filter_eq_nil_iff] using fun b c hc => h (b, c) hc

/-- The map names gates that exist, each at most once; what was left for a registered gate so far
tells its state. -/
structure Kept (s : System) : Prop where
  valid : ∀ id a, s.registry.sessions id = some a → a < s.registry.gates.length
  unique : ∀ id id' a, s.registry.sessions id = some a → s.registry.sessions id' = some a →
    id = id'
  known : ∀ c ∈ s.calls ++ s.pending, c.1 < s.registry.gates.length
  agree : ∀ id a g, s.registry.sessions id = some a → s.registry.gates[a]? = some g →
    g.observed = true →
      ((callsOf a (s.calls ++ s.pending)).getLast? = some .pause ↔ g.paused = true)

variable {s t : System} {r : Registry} {id : String} {a : Nat} {g : Gate}

theorem kept_init (limits : Limits) : Kept (.init limits) := by
  constructor <;> simp [System.init, Registry.new]

theorem mem_left {c : Option Callback} {d : Nat × Callback}
    (h : d ∈ (c.map fun c => (a, c)).toList) : d.1 = a := by
  cases c with
  | none => simp at h
  | some c =>
      simp only [Option.map_some, Option.toList_some, List.mem_singleton] at h
      rw [h]

/-- One gate changes and leaves a callback; if it stays registered, it moves as the callback says. -/
theorem Kept.touch {sessions : String → Option Nat} {c : Option Callback} {g' : Gate}
    (hk : Kept s) (due : List (String × Nat))
    (hsub : ∀ id b, sessions id = some b → s.registry.sessions id = some b)
    (hg : s.registry.gates[a]? = some g) (hm : ∀ id, sessions id = some a → g.Moves (g', c)) :
    Kept ⟨⟨s.registry.limits, sessions, s.registry.gates.set a g'⟩, due,
      s.pending ++ (c.map fun c => (a, c)).toList, s.calls⟩ := by
  have hlt := (List.getElem?_eq_some_iff.mp hg).1
  refine ⟨?_, ?_, ?_, ?_⟩
  · intro id b hb
    simpa using hk.valid id b (hsub id b hb)
  · intro id id' b hb hb'
    exact hk.unique id id' b (hsub id b hb) (hsub id' b hb')
  · intro d hd
    simp only [← List.append_assoc, List.length_set] at hd ⊢
    rcases List.mem_append.mp hd with hd | hd
    · exact hk.known d hd
    · rwa [mem_left hd]
  · intro id b h hb hh ho
    simp only at hb hh ⊢
    rw [← List.append_assoc, callsOf_append]
    by_cases hba : b = a
    · subst hba
      simp only [List.getElem?_set_self hlt, Option.some.injEq] at hh
      subst hh
      have hold := hk.agree id b g (hsub id b hb) hg
      cases hm id hb with
      | same hobs hp => simpa [callsOf, hp] using hold (hobs ▸ ho)
      | pause hobs hp hp' => simp [callsOf, hp']
      | resume hobs hp hp' => simp [callsOf, hp']
      | unobserved hobs hno => simp [hobs, hno] at ho
    · simp only [List.getElem?_set_ne (Ne.symm hba)] at hh
      have hnil : callsOf b (c.map fun c => (a, c)).toList = [] :=
        callsOf_eq_nil fun d hd => mem_left hd ▸ Ne.symm hba
      rw [hnil, List.append_nil]
      exact hk.agree id b h (hsub id b hb) hh ho

theorem locked_none (s : System) : s.locked (s.registry, none) = s := by
  simp [System.locked]

theorem Kept.update {f : Gate → Gate × Option Callback} (hk : Kept s)
    (hf : ∀ g : Gate, g.Moves (f g)) (id : String) :
    Kept (s.locked (s.registry.update id f)) := by
  unfold Registry.update
  split
  · rwa [locked_none]
  · split
    · rwa [locked_none]
    · rename_i g hg
      exact hk.touch s.due (fun _ _ h => h) hg fun _ _ => hf g

theorem assign_none {sessions : String → Option Nat} {id id' : String} {b : Nat}
    (h : Registry.assign sessions id none id' = some b) : id' ≠ id ∧ sessions id' = some b := by
  unfold Registry.assign at h
  split at h
  · cases h
  · exact ⟨‹_›, h⟩

theorem Kept.dropLocked (hk : Kept s) (id : String) :
    Kept (s.locked (s.registry.dropLocked id)) := by
  cases ha : s.registry.sessions id with
  | none =>
      have hsame : Registry.assign s.registry.sessions id none = s.registry.sessions := by
        funext id'
        by_cases h : id' = id <;> simp [Registry.assign, h, ha]
      simp only [Registry.dropLocked, Registry.update, ha, hsame]
      rwa [locked_none]
  | some a =>
      have hg := List.getElem?_eq_getElem (hk.valid id a ha)
      simp only [Registry.dropLocked, Registry.update, ha, hg]
      refine hk.touch s.due (fun _ _ h => (assign_none h).2) hg ?_
      intro id' h
      obtain ⟨hne, h⟩ := assign_none h
      exact absurd (hk.unique id' id a h ha) hne

theorem Kept.register (hk : Kept s) (id : String) (observed : Bool) (now : Int) :
    Kept { s with registry := { s.registry with
      sessions := Registry.assign s.registry.sessions id (some s.registry.gates.length),
      gates := s.registry.gates ++ [newGate id observed now] } } := by
  have hold : ∀ id' b, Registry.assign s.registry.sessions id (some s.registry.gates.length) id' =
      some b → (id' = id ∧ b = s.registry.gates.length) ∨
        (s.registry.sessions id' = some b ∧ b < s.registry.gates.length) := by
    intro id' b h
    unfold Registry.assign at h
    split at h
    · exact .inl ⟨‹_›, (Option.some.inj h).symm⟩
    · exact .inr ⟨h, hk.valid id' b h⟩
  refine ⟨?_, ?_, ?_, ?_⟩
  · intro id' b h
    rcases hold id' b h with ⟨-, hb⟩ | ⟨-, hb⟩ <;> simp <;> omega
  · intro id₁ id₂ b h₁ h₂
    rcases hold id₁ b h₁ with ⟨h₁, hb⟩ | ⟨h₁, hb⟩ <;> rcases hold id₂ b h₂ with ⟨h₂, hb'⟩ | ⟨h₂, hb'⟩
    · rw [h₁, h₂]
    · omega
    · omega
    · exact hk.unique id₁ id₂ b h₁ h₂
  · intro d hd
    have := hk.known d hd
    simp
    omega
  · intro id' b g hb hg ho
    rcases hold id' b hb with ⟨-, hb⟩ | ⟨hs, hb⟩
    · have hnil : callsOf b (s.calls ++ s.pending) = [] :=
        callsOf_eq_nil fun d hd => hb ▸ Nat.ne_of_lt (hk.known d hd)
      subst hb
      simp only [List.getElem?_concat_length, Option.some.injEq] at hg
      subst hg
      simp [hnil, newGate]
    · rw [List.getElem?_append_left hb] at hg
      exact hk.agree id' b g hs hg ho

theorem Kept.start (hk : Kept s) (id : String) (observed : Bool) (now : Int) :
    Kept (s.locked (s.registry.start id observed now)) :=
  (hk.dropLocked id).register id observed now

theorem Kept.due (hk : Kept s) (due : List (String × Nat)) : Kept { s with due := due } :=
  ⟨hk.valid, hk.unique, hk.known, hk.agree⟩

theorem Kept.checkObservedStall (hk : Kept s) (id : String) (watched : Nat) (now : Int) :
    Kept (s.locked (s.registry.checkObservedStall id watched now)) := by
  unfold Registry.checkObservedStall
  split
  · exact hk.update (fun g => g.checkObservedStall_moves s.registry.limits now) id
  · rwa [locked_none]

theorem callsOf_call {calls pending : List (Nat × Callback)} {i : Nat} {c : Nat × Callback}
    (hc : pending[i]? = some c) (hfirst : ∀ d ∈ pending.take i, d.1 ≠ c.1) (a : Nat) :
    callsOf a (calls ++ [c] ++ pending.eraseIdx i) = callsOf a (calls ++ pending) := by
  obtain ⟨hi, hc⟩ := List.getElem?_eq_some_iff.mp hc
  have hsplit : pending = pending.take i ++ ([c] ++ pending.drop (i + 1)) := by
    rw [← hc, List.singleton_append, List.getElem_cons_drop, List.take_append_drop]
  have herase : pending.eraseIdx i = pending.take i ++ pending.drop (i + 1) :=
    List.eraseIdx_eq_take_drop_succ _ _
  rw [herase]
  conv_rhs => rw [hsplit]
  simp only [callsOf_append, List.append_assoc]
  by_cases hca : c.1 = a
  · have hnil : callsOf a (pending.take i) = [] := callsOf_eq_nil fun d hd => hca ▸ hfirst d hd
    simp [hnil]
  · have hnil : callsOf a [c] = [] := callsOf_eq_nil (by simpa using hca)
    simp [hnil]

theorem Kept.call {i : Nat} {c : Nat × Callback} (hk : Kept s) (hc : s.pending[i]? = some c)
    (hfirst : ∀ d ∈ s.pending.take i, d.1 ≠ c.1) :
    Kept { s with pending := s.pending.eraseIdx i, calls := s.calls ++ [c] } := by
  refine ⟨hk.valid, hk.unique, ?_, ?_⟩
  · intro d hd
    refine hk.known d ?_
    rcases List.mem_append.mp hd with hd | hd
    · rcases List.mem_append.mp hd with hd | hd
      · exact List.mem_append_left _ hd
      · rw [List.mem_singleton.mp hd]
        exact List.mem_append_right _ (List.mem_of_getElem? hc)
    · exact List.mem_append_right _ (List.mem_of_mem_eraseIdx hd)
  · intro id a g ha hg ho
    simp only [callsOf_call hc hfirst]
    exact hk.agree id a g ha hg ho

theorem Kept.step {e : Event} (hk : Kept s) (ho : InOrder s e) (h : s.step e = some t) :
    Kept t := by
  cases e with
  | start id observed now =>
      cases h
      exact hk.start id observed now
  | stop id =>
      cases h
      exact hk.dropLocked id
  | sent id n now =>
      cases h
      exact hk.update (fun g => g.sent_moves s.registry.limits n now) id
  | ack id n now =>
      cases h
      exact hk.update (fun g => g.ack_moves s.registry.limits n now) id
  | setHidden id hidden now =>
      cases h
      exact hk.update (fun g => g.setHidden_moves hidden now) id
  | expire watched timer =>
      simp only [System.step, Option.bind_eq_bind, Option.bind_eq_some_iff] at h
      obtain ⟨g, hg, g', he, h⟩ := h
      cases h
      have := hk.touch (s.due ++ [(g.sessionID, watched)]) (fun _ _ h => h) hg
        fun _ _ => Gate.expire_moves he
      simpa using this
  | check i now =>
      simp only [System.step, Option.bind_eq_bind, Option.bind_eq_some_iff] at h
      obtain ⟨d, -, h⟩ := h
      cases h
      exact (hk.due (s.due.eraseIdx i)).checkObservedStall d.1 d.2 now
  | call i =>
      simp only [System.step, Option.bind_eq_bind, Option.bind_eq_some_iff] at h
      obtain ⟨c, hc, h⟩ := h
      cases h
      exact hk.call hc (ho c hc)

theorem Gate.Moves.paused {c : Callback} {g' : Gate} (h : g.Moves (g', some c)) :
    g.paused = true ∨ g'.paused = true := by
  cases h with
  | pause _ _ h => exact .inr h
  | resume _ h _ => exact .inl h

def PausedAt (s : System) (a : Nat) : Prop :=
  ∃ g, s.registry.gates[a]? = some g ∧ g.paused = true

theorem update_left {f : Gate → Gate × Option Callback} {c : Nat × Callback}
    (h : (r.update id f).2 = some c) :
    ∃ g, r.gates[c.1]? = some g ∧ (r.update id f).1.gates[c.1]? = some (f g).1 ∧
      (f g).2 = some c.2 := by
  unfold Registry.update at h ⊢
  split at h
  · cases h
  · split at h
    · cases h
    · rename_i a _ g hg
      obtain ⟨c', hc', rfl⟩ := Option.map_eq_some_iff.mp h
      have hlt := (List.getElem?_eq_some_iff.mp hg).1
      exact ⟨g, hg, by simp [*], hc'⟩

theorem moves_left {f : Gate → Gate × Option Callback} {c : Nat × Callback}
    (hf : ∀ g : Gate, g.Moves (f g)) (h : (s.registry.update id f).2 = some c) :
    PausedAt s c.1 ∨ PausedAt (s.locked (s.registry.update id f)) c.1 := by
  obtain ⟨g, hg, hg', hc⟩ := update_left h
  have hm : g.Moves ((f g).1, some c.2) := hc ▸ hf g
  rcases hm.paused with hp | hp
  · exact .inl ⟨g, hg, hp⟩
  · exact .inr ⟨_, hg', hp⟩

theorem dropLocked_left {c : Nat × Callback} (h : (s.registry.dropLocked id).2 = some c) :
    PausedAt s c.1 := by
  obtain ⟨g, hg, -, hc⟩ := update_left (f := Gate.drop) h
  refine ⟨g, hg, ?_⟩
  unfold Gate.drop at hc
  by_contra hp
  simp [hp] at hc

theorem mem_locked {r : Registry × Option (Nat × Callback)} {c : Nat × Callback}
    (h : c ∈ (s.locked r).calls ++ (s.locked r).pending) :
    c ∈ s.calls ++ s.pending ∨ r.2 = some c := by
  simp only [System.locked, ← List.append_assoc] at h
  rcases List.mem_append.mp h with h | h
  · exact .inl h
  · exact .inr (Option.mem_toList.mp h)

theorem step_left {e : Event} {c : Nat × Callback} (h : s.step e = some t)
    (hc : c ∈ t.calls ++ t.pending) :
    c ∈ s.calls ++ s.pending ∨ PausedAt s c.1 ∨ PausedAt t c.1 := by
  cases e with
  | start id observed now =>
      cases h
      exact (mem_locked hc).imp_right fun h => .inl (dropLocked_left h)
  | stop id =>
      cases h
      exact (mem_locked hc).imp_right fun h => .inl (dropLocked_left h)
  | sent id n now =>
      cases h
      exact (mem_locked hc).imp_right
        (moves_left fun g => g.sent_moves s.registry.limits n now)
  | ack id n now =>
      cases h
      exact (mem_locked hc).imp_right
        (moves_left fun g => g.ack_moves s.registry.limits n now)
  | setHidden id hidden now =>
      cases h
      exact (mem_locked hc).imp_right (moves_left fun g => g.setHidden_moves hidden now)
  | expire watched timer =>
      simp only [System.step, Option.bind_eq_bind, Option.bind_eq_some_iff] at h
      obtain ⟨g, -, g', -, h⟩ := h
      cases h
      exact .inl hc
  | check i now =>
      simp only [System.step, Option.bind_eq_bind, Option.bind_eq_some_iff] at h
      obtain ⟨d, -, h⟩ := h
      cases h
      refine (mem_locked hc).imp_right fun h => ?_
      unfold Registry.checkObservedStall at h ⊢
      split at h
      · rename_i hw
        simp only [hw, if_true]
        exact moves_left (fun g => g.checkObservedStall_moves s.registry.limits now) h
      · cases h
  | call i =>
      simp only [System.step, Option.bind_eq_bind, Option.bind_eq_some_iff] at h
      obtain ⟨d, hd, h⟩ := h
      cases h
      left
      simp only [List.append_assoc, List.singleton_append, List.mem_append, List.mem_cons] at hc ⊢
      rcases hc with hc | rfl | hc
      · exact .inl hc
      · exact .inr (List.mem_of_getElem? hd)
      · exact .inr (List.mem_of_mem_eraseIdx hc)

theorem pausedAlong_append {limits : Limits} {es fs : List Event} (h : PausedAlong limits es a) :
    PausedAlong limits (es ++ fs) a := by
  obtain ⟨es₁, es₂, t, g, rfl, h⟩ := h
  exact ⟨es₁, es₂ ++ fs, t, g, List.append_assoc _ _ _, h⟩

theorem pausedAlong_of_mem {limits : Limits} {es : List Event} {c : Nat × Callback}
    (hr : run System.step (.init limits) es = some s) (hc : c ∈ s.calls ++ s.pending) :
    PausedAlong limits es c.1 := by
  induction es using List.reverseRecOn generalizing s with
  | nil =>
      cases hr
      cases hc
  | append_singleton es e ih =>
      obtain ⟨t, ht, hs⟩ := run_append.mp hr
      obtain ⟨u, hu, hs⟩ := run_cons.mp hs
      cases hs
      rcases step_left hu hc with hc | ⟨g, hg, hp⟩ | ⟨g, hg, hp⟩
      · exact pausedAlong_append (ih ht hc)
      · exact ⟨es, [e], t, g, rfl, ht, hg, hp⟩
      · exact ⟨es ++ [e], [], s, g, (List.append_nil _).symm, hr, hg, hp⟩

theorem callbacks_agree (limits : Limits) (es : List Event)
    (ha : Admissible InOrder System.step (.init limits) es)
    (hr : run System.step (.init limits) es = some s) (id : String)
    (hs : s.registry.sessions id = some a) (hg : s.registry.gates[a]? = some g)
    (ho : g.observed = true) (hp : ∀ c ∈ s.pending, c.1 ≠ a) :
    Agrees s a g ∧ (¬ PausedAlong limits es a → callsOf a s.calls = []) := by
  have hk : Kept s := run_invariant_of_admissible (fun _ _ _ hk ho h => hk.step ho h)
    (kept_init limits) ha hr
  refine ⟨?_, fun hnever => callsOf_eq_nil fun c hc hca => hnever ?_⟩
  · have hagree := hk.agree id a g hs hg ho
    rwa [callsOf_append, callsOf_eq_nil hp, List.append_nil] at hagree
  · exact hca ▸ pausedAlong_of_mem hr (List.mem_append_left _ hc)

def flooded : List Event := [.start "pane" true 0, .sent "pane" 1048577 1, .call 0]

theorem callbacks_agree_flooded :
    ∃ s g, run System.step (.init newLimits) flooded = some s ∧
      s.registry.gates[0]? = some g ∧ g.paused = true ∧ Agrees s 0 g := by
  refine ⟨_, _, rfl, rfl, rfl,
    (callbacks_agree newLimits flooded ?_ rfl "pane" rfl rfl rfl ?_).1⟩
  · refine ⟨trivial, fun t ht => ?_⟩
    cases ht
    refine ⟨trivial, fun t ht => ?_⟩
    cases ht
    refine ⟨fun _ _ d h => ?_, fun _ _ => trivial⟩
    cases h
  · exact fun _ h => nomatch h

/-- `Sent` pauses the gate and `Ack` resumes it; the callback of `Ack` is called first, that of
`Sent` last. -/
def overtaken : List Event :=
  [.start "pane" true 0, .sent "pane" 1048577 1, .ack "pane" 1048577 2, .call 1, .call 0]

theorem overtaken_callback_leaves_paused :
    ∃ s g, run System.step (.init newLimits) overtaken = some s ∧
      s.registry.sessions "pane" = some 0 ∧ s.registry.gates[0]? = some g ∧
      g.observed = true ∧ s.pending = [] ∧ ¬ Agrees s 0 g := by
  refine ⟨_, _, rfl, rfl, rfl, rfl, rfl, fun h => ?_⟩
  exact absurd (h.mp rfl) (by decide)

end Dolgate.FlowControl
