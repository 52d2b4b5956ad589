import Mathlib.Tactic.Common
import Dolgate.CoalescedPush

set_option autoImplicit false

/-! Every call of a generation is covered, unless it comes too late for the push that it joins. -/

namespace Dolgate.CoalescedPush

open Transition

section

variable {ρ : Type} {s : SyncService.Service ρ}

theorem of_pushDirty {context : SyncService.AuthSyncContext} (hs : s.session = some context)
    (hauth : s.authStatus = .authenticated) (hready : s.vaultReady = true) :
    Flags.of (SyncService.pushDirty s).1 = (Flags.of s).call.1 ∧
      (SyncService.pushDirty s).2.isSome = (Flags.of s).call.2 := by
  have hmark : ∃ patch, SyncService.markPendingPush { s with pushTimer := false } =
      SyncService.patchState patch { s with pushTimer := false } := by
    unfold SyncService.markPendingPush
    split
    · exact ⟨_, rfl⟩
    · exact ⟨_, rfl⟩
  obtain ⟨patch, hpatch⟩ := hmark
  unfold SyncService.pushDirty
  simp only [hpatch, SyncService.patchState]
  by_cases htask : s.pushTask = some s.syncGeneration
  · simp [SyncService.captureSyncLease, hs, hauth, hready, htask, Flags.of, Flags.call]
  · simp [SyncService.captureSyncLease, hs, hauth, hready, htask, Flags.of, Flags.call]

theorem of_startPushRound {lease : SyncService.SyncLease} :
    Flags.of (SyncService.startPushRound lease s) = (Flags.of s).round lease.generation := rfl

theorem of_settlePush {lease : SyncService.SyncLease} :
    Flags.of (SyncService.settlePush lease s) = (Flags.of s).settle lease.generation := rfl

theorem of_pause {message : Option String} :
    Flags.of (SyncService.pause message s) = (Flags.of s).invalidate := rfl

end

def CoveredIn (history : List Mark) (generation : Nat) : Prop :=
  ∀ before after : List Mark, history = before ++ .call generation :: after →
    .build generation ∈ after ∨ .paused generation ∈ after

variable {s t : State} {history : List Mark} {g h : Nat} {m : Mark}

theorem CoveredIn.snoc (hc : CoveredIn history g) (hm : m ≠ .call g) :
    CoveredIn (history ++ [m]) g := by
  intro before after heq
  rcases List.eq_nil_or_concat' after with rfl | ⟨rest, x, rfl⟩
  · have hlast := congrArg List.getLast? heq
    rw [List.getLast?_concat, List.getLast?_concat] at hlast
    exact absurd (Option.some.inj hlast) hm
  · rw [← List.cons_append, ← List.append_assoc] at heq
    obtain ⟨heq, -⟩ := List.append_inj' heq rfl
    obtain hb | hp := hc before rest heq
    · exact .inl (List.mem_append_left _ hb)
    · exact .inr (List.mem_append_left _ hp)

theorem coveredIn_of_last (hm : m = .build g ∨ m = .paused g) : CoveredIn (history ++ [m]) g := by
  intro before after heq
  rcases List.eq_nil_or_concat' after with rfl | ⟨rest, x, rfl⟩
  · have hlast := congrArg List.getLast? heq
    rw [List.getLast?_concat, List.getLast?_concat] at hlast
    obtain rfl | rfl := hm <;> cases hlast
  · rw [← List.cons_append, ← List.append_assoc] at heq
    obtain ⟨-, hx⟩ := List.append_inj' heq rfl
    obtain rfl := List.singleton_inj.mp hx
    obtain rfl | rfl := hm
    · exact .inl (List.mem_append_right _ (List.mem_singleton_self _))
    · exact .inr (List.mem_append_right _ (List.mem_singleton_self _))

theorem coveredIn_of_not_mem (hc : Mark.call g ∉ history) : CoveredIn history g := by
  rintro before after rfl
  exact absurd (List.mem_append_right _ List.mem_cons_self) hc

/-- The push of the current generation, of which there is at most one, and what is still to cover
the calls of that generation. -/
structure Held (s : State) : Prop where
  bound : ∀ p ∈ s.pushes, p.generation ≤ s.flags.syncGeneration
  bound_task : ∀ generation, s.flags.pushTask = some generation →
    generation ≤ s.flags.syncGeneration
  older : ∀ p ∈ s.pushes, p.generation ≠ s.flags.syncGeneration →
    p.phase = .settling ∨ p.phase = .ended
  current : ∀ (i : Nat) (p : Push), s.pushes[i]? = some p →
    p.generation = s.flags.syncGeneration → p.phase ≠ .ended →
    s.flags.pushTask = some s.flags.syncGeneration ∧
    ∀ (j : Nat) (q : Push), s.pushes[j]? = some q → q.generation = s.flags.syncGeneration →
      q.phase ≠ .ended → j = i
  task : s.flags.pushTask = some s.flags.syncGeneration →
    ∃ p ∈ s.pushes, p.generation = s.flags.syncGeneration ∧ p.phase ≠ .ended
  calls : ∀ generation, Mark.call generation ∈ s.history → generation ≤ s.flags.syncGeneration
  earlier : ∀ generation, generation ≠ s.flags.syncGeneration → CoveredIn s.history generation
  covers : CoveredIn s.history s.flags.syncGeneration ∨ s.flags.pushTimer = true ∨
    (∃ p ∈ s.pushes, p.generation = s.flags.syncGeneration ∧ p.phase = .queued) ∨
    (s.flags.queuedPushGeneration = some s.flags.syncGeneration ∧
      ∃ p ∈ s.pushes, p.generation = s.flags.syncGeneration ∧
        (p.phase = .building ∨ p.phase = .pushing ∨ p.phase = .rejecting))

theorem Held.covered (h : Held s) (hq : Quiet s) : Covered s := by
  obtain ⟨hover, -, htimer⟩ := hq
  intro before after g heq
  by_cases hg : g = s.flags.syncGeneration
  · subst hg
    obtain hc | ht | ⟨p, hp, -, hphase⟩ | ⟨-, p, hp, -, hphase⟩ := h.covers
    · exact hc before after heq
    · rw [htimer] at ht
      cases ht
    · rw [hover p hp] at hphase
      cases hphase
    · rw [hover p hp] at hphase
      obtain hphase | hphase | hphase := hphase <;> cases hphase
  · exact h.earlier g hg before after heq

theorem held_initial : Held {} where
  bound p hp := nomatch hp
  bound_task g hg := nomatch hg
  older p hp := nomatch hp
  current i p hp := by simp at hp
  task htask := nomatch htask
  calls g hg := nomatch hg
  earlier g _ := coveredIn_of_not_mem (by simp)
  covers := .inl (coveredIn_of_not_mem (by simp))

theorem find_eq_some {i : Nat} {p : Push} {phases : List Phase}
    (h : s.find i phases = some p) : s.pushes[i]? = some p ∧ p.phase ∈ phases := by
  obtain ⟨hp, hphase⟩ := Option.filter_eq_some_iff.mp h
  exact ⟨hp, by simpa using hphase⟩

theorem Held.active (h : Held s) {i : Nat} {p : Push} (hp : s.pushes[i]? = some p)
    (hsettling : p.phase ≠ .settling) (hover : p.phase ≠ .ended) :
    p.generation = s.flags.syncGeneration := by
  by_contra hne
  obtain hphase | hphase := h.older p (List.mem_of_getElem? hp) hne
  · exact hsettling hphase
  · exact hover hphase

theorem Held.only (h : Held s) {i : Nat} {p : Push} (hp : s.pushes[i]? = some p)
    (hg : p.generation = s.flags.syncGeneration) (hover : p.phase ≠ .ended) {q : Push}
    (hq : q ∈ s.pushes) (hqg : q.generation = s.flags.syncGeneration) (hqover : q.phase ≠ .ended) :
    q = p := by
  obtain ⟨j, hj⟩ := List.mem_iff_getElem?.mp hq
  obtain rfl := (h.current i p hp hg hover).2 j q hj hqg hqover
  exact Option.some.inj (hj.symm.trans hp)

theorem mem_put {i : Nat} {p q : Push} {phase : Phase} (h : q ∈ (s.put i p phase).pushes) :
    q ∈ s.pushes ∨ q = { p with phase } := List.mem_or_eq_of_mem_set h

theorem put_getElem? {i j : Nat} {p q : Push} {phase : Phase} (hp : s.pushes[i]? = some p)
    (h : (s.put i p phase).pushes[j]? = some q) :
    (j = i ∧ q = { p with phase }) ∨ (j ≠ i ∧ s.pushes[j]? = some q) := by
  have hlt := (List.getElem?_eq_some_iff.mp hp).1
  by_cases hij : i = j
  · subst hij
    rw [State.put, List.getElem?_set_self hlt] at h
    exact .inl ⟨rfl, (Option.some.inj h).symm⟩
  · rw [State.put, List.getElem?_set_ne hij] at h
    exact .inr ⟨fun hji => hij hji.symm, h⟩

theorem mem_put_self {i : Nat} {p : Push} {phase : Phase} (hp : s.pushes[i]? = some p) :
    { p with phase } ∈ (s.put i p phase).pushes :=
  List.mem_set (List.getElem?_eq_some_iff.mp hp).1 _

theorem Held.moves (h : Held s) {i : Nat} {p : Push} {phase : Phase} {flags : Flags}
    {history : List Mark} (hp : s.pushes[i]? = some p)
    (hg : p.generation = s.flags.syncGeneration) (hpover : p.phase ≠ .ended)
    (hover : phase ≠ .ended)
    (hgeneration : flags.syncGeneration = s.flags.syncGeneration)
    (htask : flags.pushTask = s.flags.pushTask)
    (hhistory : history = s.history ∨ history = s.history ++ [.build s.flags.syncGeneration])
    (hcovers : CoveredIn history s.flags.syncGeneration ∨ flags.pushTimer = true ∨
      (flags.queuedPushGeneration = some s.flags.syncGeneration ∧
        (phase = .building ∨ phase = .pushing ∨ phase = .rejecting))) :
    Held { s.put i p phase with flags, history } := by
  constructor
  · intro q hq
    rw [hgeneration]
    obtain hq | rfl := mem_put hq
    · exact h.bound q hq
    · exact Nat.le_of_eq hg
  · intro g hgt
    rw [hgeneration]
    exact h.bound_task g (htask ▸ hgt)
  · intro q hq hne
    rw [hgeneration] at hne
    obtain hq | rfl := mem_put hq
    · exact h.older q hq hne
    · exact absurd hg hne
  · intro j q hq hqg hqover
    rw [hgeneration] at hqg ⊢
    rw [htask]
    have hcurrent := h.current i p hp hg hpover
    refine ⟨hcurrent.1, ?_⟩
    have hall : ∀ (k : Nat) (r : Push), (s.put i p phase).pushes[k]? = some r →
        r.generation = s.flags.syncGeneration → r.phase ≠ .ended → k = i := by
      intro k r hr hrg hrover
      obtain ⟨hk, -⟩ | ⟨-, hr⟩ := put_getElem? hp hr
      · exact hk
      · exact hcurrent.2 k r hr hrg hrover
    intro k r hr hrg hrover
    rw [hall k r hr hrg hrover, hall j q hq hqg hqover]
  · intro _
    rw [hgeneration]
    exact ⟨_, mem_put_self hp, hg, hover⟩
  · intro g hcall
    rw [hgeneration]
    obtain rfl | rfl := hhistory
    · exact h.calls g hcall
    · exact h.calls g (by simpa using hcall)
  · intro g hne
    rw [hgeneration] at hne
    obtain rfl | rfl := hhistory
    · exact h.earlier g hne
    · exact (h.earlier g hne).snoc (by simp)
  · rw [hgeneration]
    obtain hc | ht | ⟨hqueued, hphase⟩ := hcovers
    · exact .inl hc
    · exact .inr (.inl ht)
    · exact .inr (.inr (.inr ⟨hqueued, _, mem_put_self hp, hg, hphase⟩))

theorem Held.running (h : Held s) {i : Nat} {p : Push} (hp : s.pushes[i]? = some p)
    (hg : p.generation = s.flags.syncGeneration)
    (hphase : p.phase = .building ∨ p.phase = .pushing ∨ p.phase = .rejecting) :
    CoveredIn s.history s.flags.syncGeneration ∨ s.flags.pushTimer = true ∨
      s.flags.queuedPushGeneration = some s.flags.syncGeneration := by
  have hover : p.phase ≠ .ended := by
    obtain hphase | hphase | hphase := hphase <;> simp [hphase]
  obtain hc | ht | ⟨q, hq, hqg, hqueued⟩ | ⟨hqueued, -⟩ := h.covers
  · exact .inl hc
  · exact .inr (.inl ht)
  · have heq := h.only hp hg hover hq hqg (by simp [hqueued])
    rw [heq] at hqueued
    rw [hqueued] at hphase
    obtain hphase | hphase | hphase := hphase <;> cases hphase
  · exact .inr (.inr hqueued)

/-- A push that is not asked for another round, or has returned, leaves the calls covered, or a
retry to come. -/
theorem Held.done (h : Held s) {i : Nat} {p : Push} (hp : s.pushes[i]? = some p)
    (hg : p.generation = s.flags.syncGeneration) (hover : p.phase ≠ .ended)
    (hqueued : p.phase ≠ .queued)
    (hround : s.flags.queuedPushGeneration ≠ some s.flags.syncGeneration ∨ p.phase = .settling) :
    CoveredIn s.history s.flags.syncGeneration ∨ s.flags.pushTimer = true := by
  obtain hc | ht | ⟨q, hq, hqg, hqphase⟩ | ⟨hwish, q, hq, hqg, hqphase⟩ := h.covers
  · exact .inl hc
  · exact .inr ht
  · rw [h.only hp hg hover hq hqg (by simp [hqphase])] at hqphase
    exact absurd hqphase hqueued
  · have hqover : q.phase ≠ .ended := by
      obtain hqphase | hqphase | hqphase := hqphase <;> simp [hqphase]
    rw [h.only hp hg hover hq hqg hqover] at hqphase
    obtain hround | hround := hround
    · exact absurd hwish hround
    · rw [hround] at hqphase
      obtain hqphase | hqphase | hqphase := hqphase <;> cases hqphase

theorem Held.round (h : Held s) {i : Nat} {p : Push} (hp : s.pushes[i]? = some p)
    (hg : p.generation = s.flags.syncGeneration) (hover : p.phase ≠ .ended) :
    Held (s.round i p) := by
  unfold State.round
  exact h.moves hp hg hover (by simp) rfl rfl (.inr (by rw [hg]))
    (.inl (by rw [hg]; exact coveredIn_of_last (.inl rfl)))

theorem Held.call (h : Held s)
    (hsettling : ∀ p ∈ s.pushes, p.generation = s.flags.syncGeneration → p.phase ≠ .settling) :
    Held s.call := by
  unfold State.call Flags.call
  by_cases htask : s.flags.pushTask = some s.flags.syncGeneration
  · rw [if_pos htask]
    obtain ⟨p, hp, hg, hover⟩ := h.task htask
    have hne := hsettling p hp hg
    refine ⟨by simpa using h.bound, h.bound_task, by simpa using h.older,
      by simpa using h.current, ?_, ?_, ?_, ?_⟩
    · intro _
      exact ⟨p, by simpa using hp, hg, hover⟩
    · intro g hcall
      obtain hcall | hcall := List.mem_append.mp hcall
      · exact h.calls g hcall
      · cases List.mem_singleton.mp hcall
        exact Nat.le_refl _
    · intro g hgne
      exact (h.earlier g hgne).snoc (by simpa using fun hx => hgne hx.symm)
    · refine .inr (.inr ?_)
      cases hphase : p.phase with
      | queued => exact .inl ⟨p, by simpa using hp, hg, hphase⟩
      | building => exact .inr ⟨rfl, p, by simpa using hp, hg, .inl hphase⟩
      | pushing => exact .inr ⟨rfl, p, by simpa using hp, hg, .inr (.inl hphase)⟩
      | rejecting => exact .inr ⟨rfl, p, by simpa using hp, hg, .inr (.inr hphase)⟩
      | settling => exact absurd hphase hne
      | ended => exact absurd hphase hover
  · rw [if_neg htask]
    have hover : ∀ (i : Nat) (p : Push), s.pushes[i]? = some p →
        p.generation = s.flags.syncGeneration → p.phase = .ended := by
      intro i p hp hg
      by_contra hover
      exact htask (h.current i p hp hg hover).1
    have hnew : ∀ (i : Nat) (p : Push),
        (s.pushes ++ [{ generation := s.flags.syncGeneration }])[i]? = some p →
        p.generation = s.flags.syncGeneration → p.phase ≠ .ended → i = s.pushes.length := by
      intro i p hp hg hpover
      by_cases hlt : i < s.pushes.length
      · rw [List.getElem?_append_left hlt] at hp
        exact absurd (hover i p hp hg) hpover
      · have hlength := (List.getElem?_eq_some_iff.mp hp).1
        simp only [List.length_append, List.length_singleton] at hlength
        omega
    refine ⟨?_, ?_, ?_, ?_, ?_, ?_, ?_, ?_⟩
    · intro p hp
      obtain hp | hp := List.mem_append.mp hp
      · exact h.bound p hp
      · cases List.mem_singleton.mp hp
        exact Nat.le_refl _
    · intro g hg
      cases hg
      exact Nat.le_refl _
    · intro p hp hgne
      obtain hp | hp := List.mem_append.mp hp
      · exact h.older p hp hgne
      · obtain rfl := List.mem_singleton.mp hp
        exact absurd rfl hgne
    · intro i p hp hg hpover
      refine ⟨rfl, fun j q hq hqg hqover => ?_⟩
      rw [hnew i p hp hg hpover, hnew j q hq hqg hqover]
    · intro _
      exact ⟨_, List.mem_append_right _ (List.mem_singleton_self _), rfl, by simp⟩
    · intro g hcall
      obtain hcall | hcall := List.mem_append.mp hcall
      · exact h.calls g hcall
      · cases List.mem_singleton.mp hcall
        exact Nat.le_refl _
    · intro g hgne
      exact (h.earlier g hgne).snoc (by simpa using fun hx => hgne hx.symm)
    · exact .inr (.inr (.inl ⟨_, List.mem_append_right _ (List.mem_singleton_self _), rfl, rfl⟩))

theorem Held.pauses (h : Held s) {i : Nat} {p : Push} (hp : s.pushes[i]? = some p)
    (hg : p.generation = s.flags.syncGeneration) (hover : p.phase ≠ .ended) :
    Held { s.put i p .settling with
      flags := s.flags.invalidate, history := s.history ++ [.paused p.generation] } := by
  have hbound : ∀ q ∈ (s.put i p .settling).pushes, q.generation ≤ s.flags.syncGeneration := by
    intro q hq
    obtain hq | rfl := mem_put hq
    · exact h.bound q hq
    · exact h.bound p (List.mem_of_getElem? hp)
  have hnext : ∀ q ∈ (s.put i p .settling).pushes, q.generation ≠ s.flags.syncGeneration + 1 := by
    intro q hq
    have hle := hbound q hq
    omega
  refine ⟨?_, ?_, ?_, ?_, ?_, ?_, ?_, ?_⟩
  · intro q hq
    exact Nat.le_succ_of_le (hbound q hq)
  · intro g htask
    exact Nat.le_succ_of_le (h.bound_task g htask)
  · intro q hq _
    obtain ⟨j, hj⟩ := List.mem_iff_getElem?.mp hq
    obtain ⟨-, rfl⟩ | ⟨hji, hj⟩ := put_getElem? hp hj
    · exact .inl rfl
    · by_cases hqg : q.generation = s.flags.syncGeneration
      · by_cases hqover : q.phase = .ended
        · exact .inr hqover
        · exact absurd ((h.current i p hp hg hover).2 j q hj hqg hqover) hji
      · exact h.older q (List.mem_of_getElem? hj) hqg
  · intro j q hq hqg
    exact absurd hqg (hnext q (List.mem_of_getElem? hq))
  · intro htask
    have hle := h.bound_task _ htask
    simp only [Flags.invalidate] at hle
    omega
  · intro g hcall
    exact Nat.le_succ_of_le (h.calls g (by simpa using hcall))
  · intro g _
    by_cases hgg : g = s.flags.syncGeneration
    · rw [hgg, hg]
      exact coveredIn_of_last (.inr rfl)
    · exact (h.earlier g hgg).snoc (by simp)
  · refine .inl (coveredIn_of_not_mem fun hcall => ?_)
    have hle := h.calls _ (by simpa using hcall)
    simp only [Flags.invalidate] at hle
    omega

theorem Held.settles (h : Held s) {i : Nat} {p : Push} (hp : s.pushes[i]? = some p)
    (hphase : p.phase = .settling) :
    Held { s.put i p .ended with flags := s.flags.settle p.generation } := by
  have hkeep : p.generation ≠ s.flags.syncGeneration →
      ((s.flags.settle p.generation).pushTask = some s.flags.syncGeneration ↔
        s.flags.pushTask = some s.flags.syncGeneration) ∧
      ((s.flags.settle p.generation).queuedPushGeneration = some s.flags.syncGeneration ↔
        s.flags.queuedPushGeneration = some s.flags.syncGeneration) := by
    intro hne
    simp only [Flags.settle]
    constructor
    · split
      · next htask => simp [htask, hne]
      · exact Iff.rfl
    · split
      · next htask => simp [htask, hne]
      · exact Iff.rfl
  have hmem : ∀ (j : Nat) (q : Push), (s.put i p .ended).pushes[j]? = some q → q.phase ≠ .ended →
      j ≠ i ∧ s.pushes[j]? = some q := by
    intro j q hq hqover
    obtain ⟨-, rfl⟩ | hj := put_getElem? hp hq
    · exact absurd rfl hqover
    · exact hj
  have hstay : ∀ q ∈ s.pushes, q ≠ p → q ∈ (s.put i p .ended).pushes := by
    intro q hq hqp
    obtain ⟨j, hj⟩ := List.mem_iff_getElem?.mp hq
    have hij : i ≠ j := by
      rintro rfl
      exact hqp (Option.some.inj (hj.symm.trans hp))
    exact List.mem_of_getElem? (i := j) (by rw [State.put, List.getElem?_set_ne hij, hj])
  refine ⟨?_, ?_, ?_, ?_, ?_, h.calls, h.earlier, ?_⟩
  · intro q hq
    obtain hq | rfl := mem_put hq
    · exact h.bound q hq
    · exact h.bound p (List.mem_of_getElem? hp)
  · intro g htask
    simp only [Flags.settle] at htask
    split at htask
    · cases htask
    · exact h.bound_task g htask
  · intro q hq hne
    obtain hq | rfl := mem_put hq
    · exact h.older q hq hne
    · exact .inr rfl
  · intro j q hq hqg hqover
    obtain ⟨hji, hj⟩ := hmem j q hq hqover
    have hcurrent := h.current j q hj hqg hqover
    have hne : p.generation ≠ s.flags.syncGeneration := by
      intro hg
      exact hji (hcurrent.2 i p hp hg (by simp [hphase])).symm
    refine ⟨(hkeep hne).1.mpr hcurrent.1, fun k r hr hrg hrover => ?_⟩
    exact hcurrent.2 k r (hmem k r hr hrover).2 hrg hrover
  · intro htask
    by_cases hg : p.generation = s.flags.syncGeneration
    · simp only [Flags.settle, hg] at htask
      split at htask
      · cases htask
      · next hne => exact absurd htask hne
    · obtain ⟨q, hq, hqg, hqover⟩ := h.task ((hkeep hg).1.mp htask)
      exact ⟨q, hstay q hq (fun hqp => hg (hqp ▸ hqg)), hqg, hqover⟩
  · by_cases hg : p.generation = s.flags.syncGeneration
    · obtain hc | ht := h.done hp hg (by simp [hphase]) (by simp [hphase]) (.inr hphase)
      · exact .inl hc
      · exact .inr (.inl ht)
    · obtain hc | ht | ⟨q, hq, hqg, hqphase⟩ | ⟨hqueued, q, hq, hqg, hqphase⟩ := h.covers
      · exact .inl hc
      · exact .inr (.inl ht)
      · exact .inr (.inr (.inl ⟨q, hstay q hq (fun hqp => hg (hqp ▸ hqg)), hqg, hqphase⟩))
      · have hq := hstay q hq fun hqp => hg (hqp ▸ hqg)
        exact .inr (.inr (.inr ⟨(hkeep hg).2.mpr hqueued, q, hq, hqg, hqphase⟩))

theorem Held.step {e : Event} (h : Held s) (hok : InTime s e) (he : step s e = some t) :
    Held t := by
  cases e with
  | pushDirty =>
      cases he
      exact h.call hok
  | timer =>
      simp only [CoalescedPush.step] at he
      split at he
      · cases he
        exact h.call hok
      · cases he
  | begins i =>
      simp only [CoalescedPush.step, Option.bind_eq_bind, Option.bind_eq_some_iff] at he
      obtain ⟨p, hfind, he⟩ := he
      obtain ⟨hp, hphase⟩ := find_eq_some hfind
      obtain hphase := List.mem_singleton.mp hphase
      have hg := h.active hp (by simp [hphase]) (by simp [hphase])
      rw [if_pos (by simp [State.active, hg])] at he
      cases he
      exact h.round hp hg (by simp [hphase])
  | built i =>
      simp only [CoalescedPush.step, Option.bind_eq_bind, Option.bind_eq_some_iff] at he
      obtain ⟨p, hfind, he⟩ := he
      obtain ⟨hp, hphase⟩ := find_eq_some hfind
      obtain hphase := List.mem_singleton.mp hphase
      have hg := h.active hp (by simp [hphase]) (by simp [hphase])
      rw [if_pos (by simp [State.active, hg])] at he
      cases he
      refine h.moves hp hg (by simp [hphase]) (by simp) rfl rfl (.inl rfl) ?_
      obtain hc | ht | hqueued := h.running hp hg (.inl hphase)
      · exact .inl hc
      · exact .inr (.inl ht)
      · exact .inr (.inr ⟨hqueued, .inr (.inl rfl)⟩)
  | pushed i deletions =>
      simp only [CoalescedPush.step, Option.bind_eq_bind, Option.bind_eq_some_iff] at he
      obtain ⟨p, hfind, he⟩ := he
      obtain ⟨hp, hphase⟩ := find_eq_some hfind
      obtain hphase := List.mem_singleton.mp hphase
      have hg := h.active hp (by simp [hphase]) (by simp [hphase])
      rw [if_pos (by simp [State.active, hg])] at he
      split at he
      · cases he
        exact h.round hp hg (by simp [hphase])
      · next hround =>
        cases he
        refine h.moves hp hg (by simp [hphase]) (by simp) rfl rfl (.inl rfl) ?_
        obtain hc | ht := h.done hp hg (by simp [hphase]) (by simp [hphase])
          (.inl fun hwish => hround (.inl (by rw [hg]; exact hwish)))
        · exact .inl hc
        · exact .inr (.inl ht)
  | fails i =>
      simp only [CoalescedPush.step, Option.bind_eq_bind, Option.bind_eq_some_iff] at he
      obtain ⟨p, hfind, he⟩ := he
      obtain ⟨hp, hphase⟩ := find_eq_some hfind
      have hat : p.phase = .building ∨ p.phase = .pushing := by simpa using hphase
      have hsettling : p.phase ≠ .settling := by obtain hat | hat := hat <;> simp [hat]
      have hover : p.phase ≠ .ended := by obtain hat | hat := hat <;> simp [hat]
      have hg := h.active hp hsettling hover
      rw [if_pos (by simp [State.active, hg])] at he
      cases he
      exact h.moves hp hg hover (by simp) rfl rfl (.inl rfl) (.inr (.inl rfl))
  | rejected i =>
      simp only [CoalescedPush.step, Option.bind_eq_bind, Option.bind_eq_some_iff] at he
      obtain ⟨p, hfind, he⟩ := he
      obtain ⟨hp, hphase⟩ := find_eq_some hfind
      obtain hphase := List.mem_singleton.mp hphase
      have hg := h.active hp (by simp [hphase]) (by simp [hphase])
      rw [if_pos (by simp [State.active, hg])] at he
      cases he
      refine h.moves hp hg (by simp [hphase]) (by simp) rfl rfl (.inl rfl) ?_
      obtain hc | ht | hqueued := h.running hp hg (.inr (.inl hphase))
      · exact .inl hc
      · exact .inr (.inl ht)
      · exact .inr (.inr ⟨hqueued, .inr (.inr rfl)⟩)
  | pauses i =>
      simp only [CoalescedPush.step, Option.bind_eq_bind, Option.bind_eq_some_iff] at he
      obtain ⟨p, hfind, he⟩ := he
      obtain ⟨hp, hphase⟩ := find_eq_some hfind
      obtain hphase := List.mem_singleton.mp hphase
      have hg := h.active hp (by simp [hphase]) (by simp [hphase])
      rw [if_pos (by simp [State.active, hg])] at he
      cases he
      exact h.pauses hp hg (by simp [hphase])
  | expires i =>
      simp only [CoalescedPush.step, Option.bind_eq_bind, Option.bind_eq_some_iff] at he
      obtain ⟨p, hfind, he⟩ := he
      obtain ⟨hp, hphase⟩ := find_eq_some hfind
      obtain ⟨hbegun, hwish⟩ := hok p hp
      have hsettling : p.phase ≠ .settling := by
        intro hsettling
        simp [hsettling] at hphase
      have hover : p.phase ≠ .ended := by
        intro hover
        simp [hover] at hphase
      have hg := h.active hp hsettling hover
      cases he
      refine h.moves hp hg hover (by simp) rfl rfl (.inl rfl) ?_
      obtain hc | ht := h.done hp hg hover hbegun (.inl (by rw [← hg]; exact hwish))
      · exact .inl hc
      · exact .inr (.inl ht)
  | settles i =>
      simp only [CoalescedPush.step, Option.bind_eq_bind, Option.bind_eq_some_iff] at he
      obtain ⟨p, hfind, he⟩ := he
      obtain ⟨hp, hphase⟩ := find_eq_some hfind
      obtain hphase := List.mem_singleton.mp hphase
      cases he
      exact h.settles hp hphase
  | other =>
      cases he
      exact ⟨h.bound, h.bound_task, h.older, h.current, h.task, h.calls, h.earlier, h.covers⟩
  | otherEnds retries =>
      simp only [CoalescedPush.step] at he
      split at he
      · cases he
      · cases he
        refine ⟨h.bound, h.bound_task, h.older, h.current, h.task, h.calls, h.earlier, ?_⟩
        obtain hc | ht | hrest := h.covers
        · exact .inl hc
        · exact .inr (.inl (by simp [ht]))
        · exact .inr (.inr hrest)

/-- In every run without a late call or an early end of a lease, the calls are covered whenever the
service comes to rest. -/
theorem calls_are_covered (events : List Event) (h : Admissible InTime step {} events) :
    Always (fun s => Quiet s → Covered s) step {} events :=
  always_of_admissible (fun _ h => h.covered) (fun _ _ _ h hok he => h.step hok he) held_initial h

/-- `InTime`, computed. -/
def inTime (s : State) : Event → Bool
  | .pushDirty => s.pushes.all fun p =>
      p.generation != s.flags.syncGeneration || p.phase != .settling
  | .timer => s.pushes.all fun p => p.generation != s.flags.syncGeneration || p.phase != .settling
  | .expires i => s.pushes[i]?.all fun p =>
      p.phase != .queued && s.flags.queuedPushGeneration != some p.generation
  | _ => true

theorem inTime_of_computed (s : State) (e : Event) (h : inTime s e = true) : InTime s e := by
  have hcall : (s.pushes.all fun p =>
      p.generation != s.flags.syncGeneration || p.phase != .settling) = true →
      ∀ p ∈ s.pushes, p.generation = s.flags.syncGeneration → p.phase ≠ .settling := by
    intro h p hp hg
    have hp := List.all_eq_true.mp h p hp
    simpa [hg] using hp
  cases e with
  | pushDirty => exact hcall h
  | timer => exact hcall h
  | expires i =>
      intro p hp
      simpa [inTime, hp] using h
  | _ => trivial

/-- A call while a push is under way, and one after it that fails and is tried again. -/
def joined : List Event :=
  [.pushDirty, .begins 0, .pushDirty, .built 0, .pushed 0 false, .built 0, .pushed 0 false,
   .settles 0, .pushDirty, .begins 1, .fails 1, .settles 1, .timer, .begins 2, .built 2,
   .pushed 2 false, .settles 2]

theorem joined_calls_are_covered : Always (fun s => Quiet s → Covered s) step {} joined :=
  calls_are_covered joined (admissible_of_allows inTime_of_computed (by decide))

/-- A call between the return of a push and its `finally`. -/
def lateCall : List Event :=
  [.pushDirty, .begins 0, .built 0, .pushed 0 false, .pushDirty, .settles 0]

theorem late_call_is_lost : ¬ ∀ events : List Event,
    Always (fun s => Quiet s → Covered s) step {} events := by
  intro h
  have hrun : run step {} lateCall = some {
      pushes := [{ generation := 0, phase := .ended }]
      history := [.call 0, .build 0, .call 0] } := by
    decide
  have halways := h (lateCall ++ [])
  have hcovered := halways.state hrun (by simp [Quiet])
  obtain hb | hp := hcovered [.call 0, .build 0] [] 0 rfl
  · cases hb
  · cases hp

end Dolgate.CoalescedPush
