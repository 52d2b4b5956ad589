import Mathlib.Tactic.Common
import Mathlib.Algebra.BigOperators.Group.List.Basic
import Dolgate.EventWriter

set_option autoImplicit false

/-! What the event writer keeps over a run, and that it writes all it has been given. -/

namespace Dolgate.EventWriter

open CoalescedLog Transition

variable {κ ε β : Type}

/-- A remembered place is that of the last frame of its target, and no control event follows it. -/
def Remembers (queue : List (Frame κ ε β)) (lastData : κ → Option Nat) : Prop :=
  ∀ (metadata : κ) (i : Nat), lastData metadata = some i →
    (∃ f, queue[i]? = some f ∧ f.control = none ∧ f.metadata = metadata) ∧
    ∀ (j : Nat) (f : Frame κ ε β), i < j → queue[j]? = some f →
      f.control = none ∧ f.metadata ≠ metadata

def bytes (queue : List (Frame κ ε β)) : Nat := (queue.map fun f => f.payload.length).sum

@[simp] theorem bytes_append {queue frames : List (Frame κ ε β)} :
    bytes (queue ++ frames) = bytes queue + bytes frames := by simp [bytes]

@[simp] theorem bytes_singleton {f : Frame κ ε β} : bytes [f] = f.payload.length := by simp [bytes]

theorem bytes_set {queue : List (Frame κ ε β)} {i : Nat} {f g : Frame κ ε β}
    (h : queue[i]? = some f) :
    bytes (queue.set i g) + f.payload.length = bytes queue + g.payload.length := by
  induction queue generalizing i with
  | nil => simp at h
  | cons x queue ih =>
      cases i with
      | zero =>
          cases h
          simp only [bytes, List.set_cons_zero, List.map_cons, List.sum_cons]
          omega
      | succ i =>
          have hrest := ih (by simpa using h)
          simp only [bytes, List.set_cons_succ, List.map_cons, List.sum_cons] at hrest ⊢
          omega

theorem remembers_none {queue : List (Frame κ ε β)} : Remembers queue fun _ => none := by
  intro metadata i h
  cases h

theorem Remembers.set {queue : List (Frame κ ε β)} {lastData : κ → Option Nat}
    (h : Remembers queue lastData) {i : Nat} {f g : Frame κ ε β} (hf : queue[i]? = some f)
    (hcontrol : g.control = f.control) (hm : g.metadata = f.metadata) :
    Remembers (queue.set i g) lastData := by
  have hget : ∀ (j : Nat) (x : Frame κ ε β), (queue.set i g)[j]? = some x →
      ∃ y, queue[j]? = some y ∧ x.control = y.control ∧ x.metadata = y.metadata := by
    intro j x hx
    rw [List.getElem?_set] at hx
    split at hx
    · next hij =>
      subst hij
      split at hx
      · cases hx
        exact ⟨f, hf, hcontrol, hm⟩
      · cases hx
    · exact ⟨x, hx, rfl, rfl⟩
  intro metadata k hk
  obtain ⟨⟨y, hy, hycontrol, hym⟩, hlast⟩ := h metadata k hk
  have hlt : k < (queue.set i g).length := by
    rw [List.length_set]
    exact (List.getElem?_eq_some_iff.mp hy).1
  obtain ⟨z, hz, hzcontrol, hzm⟩ := hget k _ (List.getElem?_eq_getElem hlt)
  cases hy.symm.trans hz
  constructor
  · exact ⟨_, List.getElem?_eq_getElem hlt, hzcontrol.trans hycontrol, hzm.trans hym⟩
  · intro j x hj hx
    obtain ⟨y, hy, hxcontrol, hxm⟩ := hget j x hx
    obtain ⟨hyc, hyne⟩ := hlast j y hj hy
    exact ⟨hxcontrol.trans hyc, hxm ▸ hyne⟩

theorem waiting_not_mem_broadcast {metadata : κ} {payload : List β} {callers : List (Caller κ β)} :
    Caller.waiting metadata payload ∉ callers.map Caller.broadcast := by
  intro h
  obtain ⟨d, -, hd⟩ := List.mem_map.mp h
  cases d <;> cases hd

variable [DecidableEq κ]

structure Held (s : State κ ε β) : Prop extends Kept s where
  remembers : Remembers s.queue s.lastData

variable {s t : State κ ε β} {metadata : κ} {payload : List β}

theorem Remembers.snoc {queue : List (Frame κ ε β)} {lastData : κ → Option Nat}
    (h : Remembers queue lastData) {f : Frame κ ε β} (hcontrol : f.control = none) :
    Remembers (queue ++ [f]) (Function.update lastData f.metadata (some queue.length)) := by
  intro metadata i hi
  by_cases hm : metadata = f.metadata
  · subst hm
    rw [Function.update_self] at hi
    cases hi
    constructor
    · exact ⟨f, by simp, hcontrol, rfl⟩
    · intro j g hj hg
      rw [List.getElem?_eq_none (by simp; omega)] at hg
      cases hg
  · rw [Function.update_of_ne hm] at hi
    obtain ⟨⟨g, hg, hgcontrol, hgm⟩, hlast⟩ := h metadata i hi
    have hlt : i < queue.length := (List.getElem?_eq_some_iff.mp hg).1
    constructor
    · exact ⟨g, by rw [List.getElem?_append_left hlt, hg], hgcontrol, hgm⟩
    · intro j x hj hx
      by_cases hjlt : j < queue.length
      · rw [List.getElem?_append_left hjlt] at hx
        exact hlast j x hj hx
      · rw [List.getElem?_append_right (by omega)] at hx
        obtain rfl := List.mem_singleton.mp (List.mem_of_getElem? hx)
        exact ⟨hcontrol, fun hx => hm hx.symm⟩

theorem Held.last (h : Held s) {i : Nat} {f : Frame κ ε β}
    (hlast : s.last metadata payload = some (i, f)) :
    ∃ g, s.queue[i]? = some g ∧ s.lastData metadata = some i ∧ g.control = none ∧
      g.metadata = metadata ∧ f = { g with payload := g.payload ++ payload } := by
  simp only [State.last, Option.bind_eq_bind, Option.bind_eq_some_iff] at hlast
  obtain ⟨j, hj, g, hg, hfits⟩ := hlast
  split at hfits
  · cases hfits
    obtain ⟨⟨x, hx, hcontrol, hm⟩, -⟩ := h.remembers metadata i hj
    cases hg.symm.trans hx
    exact ⟨g, hg, hj, hcontrol, hm, rfl⟩
  · cases hfits

theorem Held.append (h : Held s) (metadata : κ) (payload : List β) :
    ∃ (queue : List (Frame κ ε β)) (lastData : κ → Option Nat) (urgent : Bool),
      (s.append metadata payload).1 = { s with
        queue, lastData, urgent
        queuedBytes := s.queuedBytes + payload.length
        emitted := s.emitted ++ [.data metadata payload] } ∧
      Agrees (queue.map Frame.item) (s.queue.map Frame.item ++ [.data metadata payload]) ∧
      bytes queue = bytes s.queue + payload.length ∧ Remembers queue lastData := by
  unfold State.append
  match hlast : s.last metadata payload with
  | some (i, f) =>
      obtain ⟨g, hg, hi, hcontrol, hm, rfl⟩ := h.last hlast
      refine ⟨_, _, _, rfl, ?_, ?_, h.remembers.set hg rfl rfl⟩
      · have hset : (s.queue.set i { g with payload := g.payload ++ payload }).map Frame.item =
            (s.queue.map Frame.item).set i (.data metadata (g.payload ++ payload)) := by
          rw [List.map_set]
          simp [Frame.item, hcontrol, hm]
        rw [hset]
        apply agrees_set
        · rw [List.getElem?_map, hg]
          simp [Frame.item, hcontrol, hm]
        · intro j x hj hx
          rw [List.getElem?_map, Option.map_eq_some_iff] at hx
          obtain ⟨y, hy, rfl⟩ := hx
          obtain ⟨hycontrol, hym⟩ := (h.remembers metadata i hi).2 j y hj hy
          exact ⟨y.metadata, y.payload, by simp [Frame.item, hycontrol], hym⟩
      · have hset := bytes_set (g := { g with payload := g.payload ++ payload }) hg
        rw [List.length_append] at hset
        omega
  | none =>
      refine ⟨_, _, _, rfl, ?_, by simp, h.remembers.snoc rfl⟩
      rw [List.map_append]
      exact Agrees.refl

theorem Held.inRange (h : Held s) : s.outOfRange metadata = false := by
  unfold State.outOfRange
  cases hi : s.lastData metadata with
  | none => rfl
  | some i =>
      obtain ⟨⟨f, hf, -⟩, -⟩ := h.remembers metadata i hi
      have hlt := (List.getElem?_eq_some_iff.mp hf).1
      simpa using hlt

theorem pending_map {queue : List (Frame κ ε β)} {x : Item κ ε β}
    (hw : t.writer = s.writer) (hq : t.queue = queue)
    (h : Agrees (queue.map Frame.item) (s.queue.map Frame.item ++ [x])) :
    Agrees (t.pending.map Frame.item) (s.pending.map Frame.item ++ [x]) := by
  unfold State.pending
  rw [hw, hq]
  cases s.writer with
  | writing frames =>
      rw [List.map_append, List.map_append, List.append_assoc]
      exact h.prepend _
  | looking lingered => exact h
  | parked lingered => exact h
  | lingering => exact h
  | ended => exact h

theorem Held.offer (h : Held s) (metadata : κ) (payload : List β) :
    (s.offer metadata payload = (s, .waiting metadata payload) ∧
      queueLimitBytes ≤ s.queuedBytes) ∨
    ∃ full, s.offer metadata payload = ((s.append metadata payload).1, .waking full) := by
  unfold State.offer
  split
  · next hfull => exact .inl ⟨rfl, hfull.1⟩
  · rw [if_neg (by simp [h.inRange])]
    exact .inr ⟨_, rfl⟩

theorem Held.appended (h : Held s) {callers : List (Caller κ β)} (full : Bool)
    (hmem : Caller.waking full ∈ callers)
    (hwait : ∀ m b, Caller.waiting m b ∈ callers → Caller.waiting m b ∈ s.callers) :
    Held { (s.append metadata payload).1 with callers } := by
  obtain ⟨queue, lastData, urgent, heq, horder, hbytes, hremembers⟩ :=
    h.append metadata payload
  rw [heq]
  constructor
  · constructor
    · exact h.running
    · have hpending := pending_map (s := s) (t := { s with queue }) rfl rfl horder
      have hlog := hpending.prepend s.written
      rw [← List.append_assoc] at hlog
      exact hlog.trans (h.order.append _)
    · exact (congrArg (· + payload.length) h.measured).trans hbytes.symm
    · intro _ _ _
      exact .inr ⟨full, hmem⟩
    · intro m b hm
      have hspace := h.space m b (hwait m b hm)
      simp only
      omega
  · exact hremembers

theorem Held.moves (h : Held s) {writer : Writer κ ε β} {wake kick : Bool}
    {written : List (Item κ ε β)}
    (horder : Agrees (written ++
      ({ s with writer, wake, kick, written } : State κ ε β).pending.map Frame.item) s.emitted)
    (hparked : ∀ lingered, writer ≠ .parked lingered) :
    Held { s with writer, wake, kick, written } := by
  constructor
  · constructor
    · exact h.running
    · exact horder
    · exact h.measured
    · intro lingered hp
      exact absurd hp (hparked lingered)
    · exact h.space
  · exact h.remembers

theorem Held.look (h : Held s) {lingered recent : Bool} (hw : s.writer = .looking lingered) :
    Held (s.look lingered recent) := by
  have hpending : s.pending = s.queue := by simp [State.pending, hw]
  have horder := h.order
  rw [hpending] at horder
  unfold State.look
  split
  · next hempty =>
    split
    · exact h.moves horder (by simp)
    · exact ⟨⟨h.running, horder, h.measured, fun _ _ hne => absurd hempty hne, h.space⟩,
        h.remembers⟩
  · split
    · exact h.moves horder (by simp)
    · refine ⟨⟨h.running, ?_, rfl, fun _ hp => (nomatch hp), ?_⟩, remembers_none⟩
      · simpa [State.pending] using horder
      · intro m b hm
        exact absurd hm waiting_not_mem_broadcast

theorem mem_set_of_ne {γ : Type} {l : List γ} {i : Nat} {x y z : γ} (h : x ∈ l)
    (hi : l[i]? = some y) (hne : x ≠ y) : x ∈ l.set i z := by
  obtain ⟨j, hj⟩ := List.mem_iff_getElem?.mp h
  have hij : i ≠ j := by
    rintro rfl
    exact hne (Option.some.inj (hj.symm.trans hi))
  exact List.mem_of_getElem? (i := j) (by rw [List.getElem?_set_ne hij, hj])

theorem held_initial : Held ({} : State κ ε β) := by
  constructor
  · constructor
    · rfl
    · exact Agrees.refl
    · rfl
    · intro lingered hp
      cases hp
    · intro m b hm
      cases hm
  · exact remembers_none

variable [Inhabited κ]

theorem Held.step {e : Event κ ε β} (h : Held s) (he : step s e = some t) : Held t := by
  unfold EventWriter.step at he
  rw [if_neg (by simp [h.running])] at he
  cases e with
  | emit event =>
      cases he
      constructor
      · constructor
        · exact h.running
        · have hpending := pending_map (s := s) (x := Item.mark event)
            (t := { s with queue := s.queue ++ [⟨some event, default, []⟩] }) rfl rfl
            (by rw [List.map_append]; exact Agrees.refl)
          have hlog := hpending.prepend s.written
          rw [← List.append_assoc] at hlog
          exact hlog.trans (h.order.append _)
        · simpa using h.measured
        · intro _ _ _
          exact .inr ⟨true, by simp⟩
        · intro m b hm
          exact h.space m b (by simpa using hm)
      · exact remembers_none
  | emitStream metadata payload =>
      obtain ⟨hoffer, hfull⟩ | ⟨full, hoffer⟩ := h.offer metadata payload
      · simp only [hoffer] at he
        cases he
        refine ⟨⟨h.running, h.order, h.measured, ?_, ?_⟩, h.remembers⟩
        · intro lingered hp hne
          obtain hwake | ⟨kick, hk⟩ := h.awake lingered hp hne
          · exact .inl hwake
          · exact .inr ⟨kick, List.mem_append_left _ hk⟩
        · intro m b hm
          obtain hm | hm := List.mem_append.mp hm
          · exact h.space m b hm
          · exact hfull
      · simp only [hoffer] at he
        cases he
        obtain ⟨queue, lastData, urgent, heq, -⟩ :=
          h.append metadata payload
        refine h.appended full ?_ ?_
        · simp
        · intro m b hm
          rw [heq] at hm
          simpa using hm
  | close =>
      cases he
      refine ⟨⟨h.running, h.order, h.measured, ?_, ?_⟩, h.remembers⟩
      · intro _ _ _
        exact .inr ⟨true, by simp⟩
      · intro m b hm
        obtain hm | hm := List.mem_append.mp hm
        · exact absurd hm waiting_not_mem_broadcast
        · simp at hm
  | retry i =>
      simp only at he
      split at he
      · next m b hc =>
        have hlt := (List.getElem?_eq_some_iff.mp hc).1
        obtain ⟨hoffer, hfull⟩ | ⟨full, hoffer⟩ := h.offer m b
        · simp only [hoffer] at he
          cases he
          refine ⟨⟨h.running, h.order, h.measured, ?_, ?_⟩, h.remembers⟩
          · intro lingered hp hne
            obtain hwake | ⟨kick, hk⟩ := h.awake lingered hp hne
            · exact .inl hwake
            · exact .inr ⟨kick, mem_set_of_ne hk hc (by simp)⟩
          · intro m' b' hm
            obtain hm | hm := List.mem_or_eq_of_mem_set hm
            · exact h.space m' b' hm
            · exact hfull
        · simp only [hoffer] at he
          cases he
          obtain ⟨queue, lastData, urgent, heq, -⟩ := h.append m b
          refine h.appended full ?_ ?_
          · rw [heq]
            exact List.mem_set hlt _
          · intro m' b' hm
            rw [heq] at hm
            obtain hm | hm := List.mem_or_eq_of_mem_set hm
            · exact hm
            · cases hm
      · cases he
  | nudge i =>
      simp only at he
      split at he
      · cases he
        refine ⟨⟨h.running, h.order, h.measured, fun _ _ _ => .inl rfl, ?_⟩, h.remembers⟩
        intro m b hm
        obtain hm | hm := List.mem_or_eq_of_mem_set hm
        · exact h.space m b hm
        · split at hm <;> cases hm
      · next hc =>
        cases he
        refine ⟨⟨h.running, h.order, h.measured, ?_, ?_⟩, h.remembers⟩
        · intro lingered hp hne
          obtain hwake | ⟨kick, hk⟩ := h.awake lingered hp hne
          · exact .inl hwake
          · exact .inr ⟨kick, mem_set_of_ne hk hc (by simp)⟩
        · intro m b hm
          obtain hm | hm := List.mem_or_eq_of_mem_set hm
          · exact h.space m b hm
          · cases hm
      · cases he
  | look recent =>
      simp only at he
      split at he
      · next lingered hw =>
        cases he
        exact h.look hw
      · cases he
  | wakes =>
      simp only at he
      split at he
      · next lingered hw =>
        split at he
        · cases he
          have horder := h.order
          simp only [State.pending, hw] at horder
          exact h.moves horder (by simp)
        · cases he
      · cases he
  | timer =>
      simp only at he
      split at he
      · next hw =>
        cases he
        have horder := h.order
        simp only [State.pending, hw] at horder
        exact h.moves horder (by simp)
      · cases he
  | kicks =>
      simp only at he
      split at he
      · next hw =>
        split at he
        · cases he
          have horder := h.order
          simp only [State.pending, hw] at horder
          exact h.moves horder (by simp)
        · cases he
      · cases he
  | write =>
      simp only at he
      split at he
      · next f frames hw =>
        cases he
        have horder := h.order
        simp only [State.pending, hw] at horder
        exact h.moves (by simpa [State.pending] using horder) (by simp)
      · cases he
  | flush =>
      simp only at he
      split at he
      · next hw =>
        cases he
        have horder := h.order
        simp only [State.pending, hw] at horder
        exact h.moves horder (by simp)
      · cases he

/-- `t` follows without another call, and nothing of what has been emitted is left to write. -/
def Delivers (s : State κ ε β) : Prop :=
  ∃ (es : List (Event κ ε β)) (t : State κ ε β), run step s es = some t ∧
    (∀ e ∈ es, e.calls = false) ∧ t.emitted = s.emitted ∧ Delivered t

theorem Delivers.before {e : Event κ ε β} (he : step s e = some t) (hcalls : e.calls = false)
    (hemitted : t.emitted = s.emitted) (h : Delivers t) : Delivers s := by
  obtain ⟨es, u, hr, hown, heq, hd⟩ := h
  refine ⟨e :: es, u, run_cons.mpr ⟨t, he, hr⟩, ?_, heq.trans hemitted, hd⟩
  intro x hx
  obtain rfl | hx := List.mem_cons.mp hx
  · exact hcalls
  · exact hown x hx

theorem Held.delivers_of_empty (h : Held s) (hp : s.pending = []) : Delivers s := by
  have horder := h.order
  rw [hp] at horder
  exact ⟨[], s, rfl, by simp, rfl, by simpa [Delivered] using horder⟩

theorem Held.delivers_writing (h : Held s) {frames : List (Frame κ ε β)}
    (hw : s.writer = .writing frames) (hq : s.queue = []) : Delivers s := by
  induction frames generalizing s with
  | nil => exact h.delivers_of_empty (by simp [State.pending, hw, hq])
  | cons f frames ih =>
      have he : EventWriter.step s .write =
          some { s with writer := .writing frames, written := s.written ++ [f.item] } := by
        simp [EventWriter.step, h.running, hw]
      exact (ih (h.step he) rfl hq).before he rfl rfl

theorem Held.delivers_looking (h : Held s) {lingered : Bool} (hw : s.writer = .looking lingered) :
    Delivers s := by
  by_cases hq : s.queue = []
  · exact h.delivers_of_empty (by simp [State.pending, hw, hq])
  · have he : EventWriter.step s (.look false) = some (s.look lingered false) := by
      simp [EventWriter.step, h.running, hw]
    have hlook : (s.look lingered false).writer = .writing s.queue ∧
        (s.look lingered false).queue = [] ∧
        (s.look lingered false).emitted = s.emitted := by
      simp [State.look, hq]
    exact ((h.step he).delivers_writing hlook.1 hlook.2.1).before he rfl hlook.2.2

theorem Held.delivers_flush (h : Held s) {frames : List (Frame κ ε β)}
    (hw : s.writer = .writing frames) : Delivers s := by
  induction frames generalizing s with
  | nil =>
      have he : EventWriter.step s .flush = some { s with writer := .looking false } := by
        simp [EventWriter.step, h.running, hw]
      exact ((h.step he).delivers_looking rfl).before he rfl rfl
  | cons f frames ih =>
      have he : EventWriter.step s .write =
          some { s with writer := .writing frames, written := s.written ++ [f.item] } := by
        simp [EventWriter.step, h.running, hw]
      exact (ih (h.step he) rfl).before he rfl rfl

theorem Held.delivers_woken (h : Held s) {lingered : Bool} (hw : s.writer = .parked lingered)
    (hwake : s.wake = true) : Delivers s := by
  have he : EventWriter.step s .wakes =
      some { s with wake := false, writer := .looking lingered } := by
    simp [EventWriter.step, h.running, hw, hwake]
  exact ((h.step he).delivers_looking rfl).before he rfl rfl

/-- While the writer is there, what it and the signals of the calls that are on their way do is
enough. -/
theorem Held.delivers (h : Held s) (hover : s.writer ≠ .ended) : Delivers s := by
  cases hw : s.writer with
  | looking lingered => exact h.delivers_looking hw
  | parked lingered =>
      by_cases hq : s.queue = []
      · exact h.delivers_of_empty (by simp [State.pending, hw, hq])
      · obtain hwake | ⟨kick, hk⟩ := h.awake lingered hw hq
        · exact h.delivers_woken hw hwake
        · obtain ⟨i, hi⟩ := List.mem_iff_getElem?.mp hk
          have he : EventWriter.step s (.nudge i) = some { s with
              wake := true
              callers := s.callers.set i (if kick then .kicking else .ended) } := by
            simp [EventWriter.step, h.running, hi]
          exact ((h.step he).delivers_woken hw rfl).before he rfl rfl
  | lingering =>
      have he : EventWriter.step s .timer = some { s with writer := .looking true } := by
        simp [EventWriter.step, h.running, hw]
      exact ((h.step he).delivers_looking rfl).before he rfl rfl
  | writing frames => exact h.delivers_flush hw
  | ended => exact absurd hw hover

theorem events_are_kept_in_order {events : List (Event κ ε β)}
    (hr : run step {} events = some s) :
    Kept s ∧ (s.pending = [] → Delivered s) ∧ (s.writer ≠ .ended → Delivers s) := by
  have h : Held s := run_invariant (fun _ _ _ hs he => hs.step he) held_initial hr
  refine ⟨h.toKept, ?_, h.delivers⟩
  intro hp
  have horder := h.order
  rw [hp] at horder
  simpa [Delivered] using horder

def twoSessions : List (Event String String UInt8) :=
  [.look false, .emitStream "a" [1], .emitStream "b" [2], .emitStream "a" [3], .emit "exit",
   .emitStream "a" [4], .nudge 0, .wakes]

theorem output_is_delivered : ∃ s, run step {} twoSessions = some s ∧ s.queue.length = 4 ∧
    Kept s ∧ Delivers s := by
  have hview : (run step {} twoSessions).map (fun s => (s.queue.length, s.writer)) =
      some (4, .looking false) := by
    decide
  obtain ⟨s, hs, hview⟩ := Option.map_eq_some_iff.mp hview
  obtain ⟨hlength, hw⟩ := Prod.mk.inj hview
  obtain ⟨hkept, -, hdelivers⟩ := events_are_kept_in_order hs
  exact ⟨s, hs, hlength, hkept, hdelivers (by simp [hw])⟩

/-- The writer has parked, and a call has let go of the lock and not yet sent its signal. -/
theorem signal_follows_the_lock : ¬ ∀ (events : List (Event String String UInt8))
    (s : State String String UInt8), run step {} events = some s →
    ∀ lingered, s.writer = .parked lingered → s.queue ≠ [] → s.wake = true := by
  intro h
  have hview : (run step ({} : State String String UInt8) [.look false, .emit "exit"]).map
      (fun s => (s.writer, s.queue.length, s.wake)) = some (.parked false, 1, false) := by
    decide
  obtain ⟨s, hs, hview⟩ := Option.map_eq_some_iff.mp hview
  obtain ⟨hw, hlength, hwake⟩ := by simpa using hview
  have hawake := h _ s hs false hw (by
    intro hq
    simp [hq] at hlength)
  cases hwake.symm.trans hawake

end Dolgate.EventWriter
