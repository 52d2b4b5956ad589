import Mathlib.Tactic.Common
import Dolgate.PortForwards

set_option autoImplicit false

/-! Who holds the client of a port forward. -/

namespace Dolgate.PortForwards

open Transition

def Phase.made : Phase → Bool
  | .inserted => true
  | .returned => true
  | _ => false

/-- A client that is open is in its call, in a registered runtime, or in one that is being closed. -/
structure Kept (s : State) : Prop where
  returns : ∀ r ∈ s.returns, r.registered = true ∨ r.closed = true
  failures : ∀ x ∈ s.failures, x.removed = none ∨ x.removed = some x.forward
  stopped : ∀ rule, s.stopped rule = true → s.runtimes rule = none ∧
    ∀ f ∈ s.forwards, f.rule = rule → f.client = false ∧ f.listener = false
  registered : ∀ rule n, s.runtimes rule = some n → ∃ f, s.forwards[n]? = some f ∧
    f.rule = rule ∧ f.client = true ∧ f.phase.made = true ∧ n ∉ s.closers
  closers : ∀ n ∈ s.closers, ∃ f, s.forwards[n]? = some f ∧ f.client = true ∧
    f.phase.made = true
  held : ∀ (n : Nat) (f : Forward), s.forwards[n]? = some f → f.client = true →
    f.phase.made = true → s.runtimes f.rule = some n ∨ n ∈ s.closers
  whole : ∀ (n : Nat) (f : Forward), s.forwards[n]? = some f → f.phase.made = false →
    f.client = true
  listener : ∀ (n : Nat) (f : Forward), s.forwards[n]? = some f → f.listener = true →
    f.client = true ∧ (f.phase = .inserting ∨ f.phase.made = true)
  busy : ∀ (n : Nat) (f : Forward), s.forwards[n]? = some f → f.phase ≠ .returned →
    s.lanes f.rule = .starting n
  free : ∀ (n : Nat) (f : Forward), s.forwards[n]? = some f →
    f.phase = .listening ∨ f.phase = .inserting → s.runtimes f.rule = none
  stopping : ∀ rule removed, s.lanes rule = .stopping removed → s.runtimes rule = none
  quiet : ∀ rule n, s.stopped rule = true → s.lanes rule ≠ .starting n

theorem kept_nil : Kept {} where
  returns := nofun
  failures := nofun
  stopped := nofun
  registered := nofun
  closers := nofun
  held := by simp
  whole := by simp
  listener := by simp
  busy := by simp
  free := by simp
  stopping := nofun
  quiet := nofun

variable {s t : State} {e : Event} {n k : Nat} {f g : Forward} {rule : String}

theorem find_eq {phase : Phase} : s.find n phase = some f ↔
    s.forwards[n]? = some f ∧ f.phase = phase := by
  simp [State.find, Option.filter_eq_some_iff]

theorem put_back {q : Forward} (hf : s.forwards[n]? = some f)
    (hk : (s.put n q).forwards[k]? = some g) :
    (k = n ∧ g = q) ∨ (k ≠ n ∧ s.forwards[k]? = some g) := by
  have hn := (List.getElem?_eq_some_iff.mp hf).1
  by_cases h : k = n
  · subst h
    left
    simpa [State.put, hn, eq_comm] using hk
  · right
    refine ⟨h, ?_⟩
    simpa [State.put, List.getElem?_set_ne (Ne.symm h)] using hk

theorem put_self {q : Forward} (hf : s.forwards[n]? = some f) :
    (s.put n q).forwards[n]? = some q := by
  have hn := (List.getElem?_eq_some_iff.mp hf).1
  simp [State.put, hn]

theorem put_ne {q : Forward} (hne : k ≠ n) (hk : s.forwards[k]? = some g) :
    (s.put n q).forwards[k]? = some g := by
  simpa [State.put, List.getElem?_set_ne (Ne.symm hne)] using hk

theorem mem_put {q : Forward} (hf : s.forwards[n]? = some f)
    (hg : g ∈ (s.put n q).forwards) : g = q ∨ ∃ k, k ≠ n ∧ s.forwards[k]? = some g := by
  obtain ⟨k, hk⟩ := List.mem_iff_getElem?.mp hg
  obtain ⟨-, rfl⟩ | ⟨hne, hk⟩ := put_back hf hk
  · exact Or.inl rfl
  · exact Or.inr ⟨k, hne, hk⟩

theorem Kept.once (h : Kept s) {rule' : String} (hr : s.runtimes rule = some n)
    (hr' : s.runtimes rule' = some n) : rule = rule' := by
  obtain ⟨f, hf, rfl, -⟩ := h.registered rule n hr
  obtain ⟨g, hg, rfl, -⟩ := h.registered rule' n hr'
  cases hf.symm.trans hg
  rfl

theorem Kept.owned (h : Kept s) : Owned s where
  returns := h.returns
  once _ _ _ := h.once
  failures := h.failures
  stopped := h.stopped

theorem Kept.clean (h : Kept s) {q : Forward} (hf : s.forwards[n]? = some f)
    (hrule : q.rule = f.rule)
    (hopen : s.stopped f.rule = true → q.client = false ∧ q.listener = false)
    (hs : s.stopped rule = true) :
    ∀ g ∈ (s.put n q).forwards, g.rule = rule → g.client = false ∧ g.listener = false := by
  intro g hg hgrule
  obtain rfl | ⟨k, -, hk⟩ := mem_put hf hg
  · rw [hrule] at hgrule
    exact hopen (hgrule ▸ hs)
  · exact (h.stopped rule hs).2 g (List.mem_of_getElem? hk) hgrule

theorem Kept.not_stopped (h : Kept s) (hf : s.forwards[n]? = some f)
    (hphase : f.phase ≠ .returned) : s.stopped f.rule = false := by
  by_contra hs
  exact h.quiet f.rule n (by simpa using hs) (h.busy n f hf hphase)

theorem Kept.put (h : Kept s) {q : Forward} (hf : s.forwards[n]? = some f)
    (hrule : q.rule = f.rule) (hphase : q.phase = f.phase) (hclient : q.client = f.client)
    (hlistener : q.listener = true → f.listener = true) : Kept (s.put n q) where
  returns := h.returns
  failures := h.failures
  stopped rule hs := by
    refine ⟨(h.stopped rule hs).1, h.clean hf hrule ?_ hs⟩
    intro hs'
    obtain ⟨hc, hl⟩ := (h.stopped f.rule hs').2 f (List.mem_of_getElem? hf) rfl
    refine ⟨hclient.trans hc, ?_⟩
    by_contra hl'
    simp [hlistener (by simpa using hl')] at hl
  registered rule k hk := by
    obtain ⟨g, hg, hgrule, hgclient, hgmade, hgclosers⟩ := h.registered rule k hk
    by_cases hkn : k = n
    · subst hkn
      cases hf.symm.trans hg
      exact ⟨q, put_self hf, hrule.trans hgrule, hclient.trans hgclient, hphase ▸ hgmade,
        hgclosers⟩
    · exact ⟨g, put_ne hkn hg, hgrule, hgclient, hgmade, hgclosers⟩
  closers k hk := by
    obtain ⟨g, hg, hgclient, hgmade⟩ := h.closers k hk
    by_cases hkn : k = n
    · subst hkn
      cases hf.symm.trans hg
      exact ⟨q, put_self hf, hclient.trans hgclient, hphase ▸ hgmade⟩
    · exact ⟨g, put_ne hkn hg, hgclient, hgmade⟩
  held k g hk hgclient hgmade := by
    obtain ⟨rfl, rfl⟩ | ⟨-, hk⟩ := put_back hf hk
    · rw [hrule]
      exact h.held k f hf (hclient ▸ hgclient) (hphase ▸ hgmade)
    · exact h.held k g hk hgclient hgmade
  whole k g hk hgmade := by
    obtain ⟨rfl, rfl⟩ | ⟨-, hk⟩ := put_back hf hk
    · exact hclient.trans (h.whole k f hf (hphase ▸ hgmade))
    · exact h.whole k g hk hgmade
  listener k g hk hg := by
    obtain ⟨rfl, rfl⟩ | ⟨-, hk⟩ := put_back hf hk
    · rw [hclient, hphase]
      exact h.listener k f hf (hlistener hg)
    · exact h.listener k g hk hg
  busy k g hk hg := by
    obtain ⟨rfl, rfl⟩ | ⟨-, hk⟩ := put_back hf hk
    · rw [hrule]
      exact h.busy k f hf (hphase ▸ hg)
    · exact h.busy k g hk hg
  free k g hk hg := by
    obtain ⟨rfl, rfl⟩ | ⟨-, hk⟩ := put_back hf hk
    · rw [hrule]
      exact h.free k f hf (hphase ▸ hg)
    · exact h.free k g hk hg
  stopping := h.stopping
  quiet := h.quiet

theorem Kept.advance (h : Kept s) {q : Forward} (hf : s.forwards[n]? = some f)
    (hmade : f.phase.made = false) (hrule : q.rule = f.rule) (hclient : q.client = f.client)
    (hphase : q.phase = .listening ∨ q.phase = .inserting)
    (hlistener : q.listener = true → q.phase = .inserting)
    (hfree : s.runtimes f.rule = none) : Kept (s.put n q) where
  returns := h.returns
  failures := h.failures
  stopped rule hs := by
    refine ⟨(h.stopped rule hs).1, h.clean hf hrule ?_ hs⟩
    have hnot := h.not_stopped hf (by rintro hr; simp [hr, Phase.made] at hmade)
    simp [hnot]
  registered rule k hk := by
    obtain ⟨g, hg, hgrule, hgclient, hgmade, hgclosers⟩ := h.registered rule k hk
    have hkn : k ≠ n := by
      rintro rfl
      cases hf.symm.trans hg
      simp [hmade] at hgmade
    exact ⟨g, put_ne hkn hg, hgrule, hgclient, hgmade, hgclosers⟩
  closers k hk := by
    obtain ⟨g, hg, hgclient, hgmade⟩ := h.closers k hk
    have hkn : k ≠ n := by
      rintro rfl
      cases hf.symm.trans hg
      simp [hmade] at hgmade
    exact ⟨g, put_ne hkn hg, hgclient, hgmade⟩
  held k g hk hgclient hgmade := by
    obtain ⟨rfl, rfl⟩ | ⟨-, hk⟩ := put_back hf hk
    · cases hphase with
      | inl hp => simp [hp, Phase.made] at hgmade
      | inr hp => simp [hp, Phase.made] at hgmade
    · exact h.held k g hk hgclient hgmade
  whole k g hk hgmade := by
    obtain ⟨rfl, rfl⟩ | ⟨-, hk⟩ := put_back hf hk
    · exact hclient.trans (h.whole k f hf hmade)
    · exact h.whole k g hk hgmade
  listener k g hk hg := by
    obtain ⟨rfl, rfl⟩ | ⟨-, hk⟩ := put_back hf hk
    · exact ⟨hclient.trans (h.whole k f hf hmade), Or.inl (hlistener hg)⟩
    · exact h.listener k g hk hg
  busy k g hk hg := by
    obtain ⟨rfl, rfl⟩ | ⟨-, hk⟩ := put_back hf hk
    · rw [hrule]
      refine h.busy k f hf ?_
      rintro hr
      simp [hr, Phase.made] at hmade
    · exact h.busy k g hk hg
  free k g hk hg := by
    obtain ⟨rfl, rfl⟩ | ⟨-, hk⟩ := put_back hf hk
    · rw [hrule]
      exact hfree
    · exact h.free k g hk hg
  stopping := h.stopping
  quiet := h.quiet

theorem Kept.finish (h : Kept s) {q : Forward} (hf : s.forwards[n]? = some f)
    (hphase : f.phase ≠ .returned) (hrule : q.rule = f.rule)
    (hend : s.runtimes f.rule = some n ∨ q.client = false)
    (hclient : f.phase.made = true → q.client = f.client)
    (hlistener : q.listener = true → q.client = true) : Kept (s.finish n q) := by
  have hlane := h.busy n f hf hphase
  have hreturn : ∀ r ∈ (s.finish n q).returns, r.registered = true ∨ r.closed = true := by
    intro r hr
    obtain hr | hr := List.mem_append.mp hr
    · exact h.returns r hr
    · cases List.mem_singleton.mp hr
      rw [hrule]
      exact hend.imp (by simp) (by simp)
  refine ⟨hreturn, h.failures, ?stopped, ?registered, ?closers, ?held, ?whole, ?listener, ?busy,
    ?free, ?stopping, ?quiet⟩
  case stopped =>
    intro rule hs
    have hnot := h.not_stopped hf hphase
    exact ⟨(h.stopped rule hs).1, h.clean hf hrule (by simp [hnot]) hs⟩
  case registered =>
    intro rule k hk
    obtain ⟨g, hg, hgrule, hgclient, hgmade, hgclosers⟩ := h.registered rule k hk
    by_cases hkn : k = n
    · subst hkn
      cases hf.symm.trans hg
      exact ⟨_, put_self hf, hrule.trans hgrule, (hclient hgmade).trans hgclient, rfl, hgclosers⟩
    · exact ⟨g, put_ne hkn hg, hgrule, hgclient, hgmade, hgclosers⟩
  case closers =>
    intro k hk
    obtain ⟨g, hg, hgclient, hgmade⟩ := h.closers k hk
    by_cases hkn : k = n
    · subst hkn
      cases hf.symm.trans hg
      exact ⟨_, put_self hf, (hclient hgmade).trans hgclient, rfl⟩
    · exact ⟨g, put_ne hkn hg, hgclient, hgmade⟩
  case held =>
    intro k g hk hgclient hgmade
    obtain ⟨rfl, rfl⟩ | ⟨-, hk⟩ := put_back hf hk
    · left
      rw [← hrule] at hend
      exact hend.resolve_right fun hc => by simp [hc] at hgclient
    · exact h.held k g hk hgclient hgmade
  case whole =>
    intro k g hk hgmade
    obtain ⟨rfl, rfl⟩ | ⟨-, hk⟩ := put_back hf hk
    · cases hgmade
    · exact h.whole k g hk hgmade
  case listener =>
    intro k g hk hg
    obtain ⟨rfl, rfl⟩ | ⟨-, hk⟩ := put_back hf hk
    · exact ⟨hlistener hg, Or.inr rfl⟩
    · exact h.listener k g hk hg
  case busy =>
    intro k g hk hg
    obtain ⟨rfl, rfl⟩ | ⟨hkn, hk⟩ := put_back hf hk
    · exact absurd rfl hg
    · have hbusy := h.busy k g hk hg
      have hne : g.rule ≠ q.rule := by
        intro heq
        rw [heq, hrule, hlane] at hbusy
        cases hbusy
        exact hkn rfl
      simpa [State.finish, hne] using hbusy
  case free =>
    intro k g hk hg
    obtain ⟨rfl, rfl⟩ | ⟨-, hk⟩ := put_back hf hk
    · simp at hg
    · exact h.free k g hk hg
  case stopping =>
    intro rule removed hs
    simp only [State.finish, Function.update_apply] at hs
    split at hs
    · cases hs
    · exact h.stopping rule removed hs
  case quiet =>
    intro rule k hs
    simp only [State.finish, Function.update_apply]
    split
    · simp
    · exact h.quiet rule k hs

theorem Kept.insert (h : Kept s) (hf : s.forwards[n]? = some f) (hphase : f.phase = .inserting) :
    Kept { s.put n { f with phase := .inserted } with
      runtimes := Function.update s.runtimes f.rule (some n) } := by
  have hlane := h.busy n f hf (by simp [hphase])
  have hnot := h.not_stopped hf (by simp [hphase])
  have hfree := h.free n f hf (Or.inr hphase)
  have hopen := h.whole n f hf (hphase ▸ rfl)
  have hclosers : n ∉ s.closers := by
    intro hn
    obtain ⟨g, hg, -, hmade⟩ := h.closers n hn
    cases hf.symm.trans hg
    simp [hphase, Phase.made] at hmade
  refine ⟨h.returns, h.failures, ?stopped, ?registered, ?closers, ?held, ?whole, ?listener, ?busy,
    ?free, ?stopping, h.quiet⟩
  case stopped =>
    intro rule hs
    have hne : rule ≠ f.rule := by
      rintro rfl
      exact Bool.false_ne_true (hnot.symm.trans hs)
    have hnone : Function.update s.runtimes f.rule (some n) rule = none := by
      rw [Function.update_of_ne hne]
      exact (h.stopped rule hs).1
    refine ⟨hnone, ?_⟩
    intro g hg hgrule
    exact h.clean (q := { f with phase := .inserted }) hf rfl (by simp [hnot]) hs g hg hgrule
  case registered =>
    intro rule k hk
    simp only [Function.update_apply] at hk
    split at hk
    next heq =>
      cases hk
      exact ⟨_, put_self hf, heq.symm, hopen, rfl, hclosers⟩
    next =>
      obtain ⟨g, hg, hgrule, hgclient, hgmade, hgclosers⟩ := h.registered rule k hk
      have hkn : k ≠ n := by
        rintro rfl
        cases hf.symm.trans hg
        simp [hphase, Phase.made] at hgmade
      exact ⟨g, put_ne hkn hg, hgrule, hgclient, hgmade, hgclosers⟩
  case closers =>
    intro k hk
    obtain ⟨g, hg, hgclient, hgmade⟩ := h.closers k hk
    have hkn : k ≠ n := by
      rintro rfl
      exact hclosers hk
    exact ⟨g, put_ne hkn hg, hgclient, hgmade⟩
  case held =>
    intro k g hk hgclient hgmade
    obtain ⟨rfl, rfl⟩ | ⟨hkn, hk⟩ := put_back hf hk
    · left
      simp
    · refine (h.held k g hk hgclient hgmade).imp_left fun hr => ?_
      have hne : g.rule ≠ f.rule := by
        intro heq
        rw [heq, hfree] at hr
        cases hr
      simpa [hne] using hr
  case whole =>
    intro k g hk hgmade
    obtain ⟨rfl, rfl⟩ | ⟨-, hk⟩ := put_back hf hk
    · cases hgmade
    · exact h.whole k g hk hgmade
  case listener =>
    intro k g hk hg
    obtain ⟨rfl, rfl⟩ | ⟨-, hk⟩ := put_back hf hk
    · exact ⟨hopen, Or.inr rfl⟩
    · exact h.listener k g hk hg
  case busy =>
    intro k g hk hg
    obtain ⟨rfl, rfl⟩ | ⟨-, hk⟩ := put_back hf hk
    · exact hlane
    · exact h.busy k g hk hg
  case free =>
    intro k g hk hg
    obtain ⟨rfl, rfl⟩ | ⟨hkn, hk⟩ := put_back hf hk
    · simp at hg
    · have hbusy := h.busy k g hk (by rintro hr; simp [hr] at hg)
      have hne : g.rule ≠ f.rule := by
        intro heq
        rw [heq, hlane] at hbusy
        cases hbusy
        exact hkn rfl
      simpa [hne] using h.free k g hk hg
  case stopping =>
    intro rule removed hs
    have hne : rule ≠ f.rule := by
      rintro rfl
      cases hlane.symm.trans hs
    simpa [hne] using h.stopping rule removed hs

theorem Kept.remove (h : Kept s) (rule : String) : Kept (s.remove rule) where
  returns := h.returns
  failures := h.failures
  stopped rule' hs := by
    refine ⟨?_, (h.stopped rule' hs).2⟩
    simp only [State.remove, Function.update_apply]
    split
    · rfl
    · exact (h.stopped rule' hs).1
  registered rule' k hk := by
    simp only [State.remove, Function.update_apply] at hk
    split at hk
    next => cases hk
    next hne =>
      obtain ⟨g, hg, hgrule, hgclient, hgmade, hgclosers⟩ := h.registered rule' k hk
      refine ⟨g, hg, hgrule, hgclient, hgmade, ?_⟩
      intro hmem
      obtain hmem | hmem := List.mem_append.mp hmem
      · exact hgclosers hmem
      · exact hne (h.once hk (Option.mem_toList.mp hmem))
  closers k hk := by
    obtain hk | hk := List.mem_append.mp hk
    · exact h.closers k hk
    · obtain ⟨g, hg, -, hgclient, hgmade, -⟩ := h.registered rule k (Option.mem_toList.mp hk)
      exact ⟨g, hg, hgclient, hgmade⟩
  held k g hk hgclient hgmade := by
    obtain hr | hc := h.held k g hk hgclient hgmade
    · by_cases heq : g.rule = rule
      · right
        exact List.mem_append_right _ (Option.mem_toList.mpr (heq ▸ hr))
      · left
        simpa [State.remove, heq] using hr
    · exact Or.inr (List.mem_append_left _ hc)
  whole := h.whole
  listener := h.listener
  busy := h.busy
  free k g hk hg := by
    simp only [State.remove, Function.update_apply]
    split
    · rfl
    · exact h.free k g hk hg
  stopping rule' removed hs := by
    simp only [State.remove, Function.update_apply]
    split
    · rfl
    · exact h.stopping rule' removed hs
  quiet := h.quiet

theorem mem_registered : n ∈ s.registered ↔
    ∃ f, s.forwards[n]? = some f ∧ s.runtimes f.rule = some n := by
  simp only [State.registered, List.mem_filter, List.mem_range, Option.any_eq_true,
    decide_eq_true_eq]
  constructor
  · rintro ⟨-, f, hf, hr⟩
    exact ⟨f, hf, hr⟩
  · rintro ⟨f, hf, hr⟩
    exact ⟨(List.getElem?_eq_some_iff.mp hf).1, f, hf, hr⟩

theorem Kept.shutdown (h : Kept s) :
    Kept { s with runtimes := fun _ => none, closers := s.closers ++ s.registered } where
  returns := h.returns
  failures := h.failures
  stopped rule hs := ⟨rfl, (h.stopped rule hs).2⟩
  registered := nofun
  closers k hk := by
    obtain hk | hk := List.mem_append.mp hk
    · exact h.closers k hk
    · obtain ⟨g, hg, hr⟩ := mem_registered.mp hk
      obtain ⟨g', hg', -, hgclient, hgmade, -⟩ := h.registered g.rule k hr
      exact ⟨g', hg', hgclient, hgmade⟩
  held k g hk hgclient hgmade := by
    right
    obtain hr | hc := h.held k g hk hgclient hgmade
    · exact List.mem_append_right _ (mem_registered.mpr ⟨g, hk, hr⟩)
    · exact List.mem_append_left _ hc
  whole := h.whole
  listener := h.listener
  busy := h.busy
  free _ _ _ _ := rfl
  stopping _ _ _ := rfl
  quiet := h.quiet

theorem Kept.close (h : Kept s) (hf : s.forwards[n]? = some f) (hn : n ∈ s.closers) :
    Kept (s.close n f) := by
  obtain ⟨q, hf', -, hmade⟩ := h.closers n hn
  cases hf.symm.trans hf'
  unfold State.close
  split
  next => exact h.put hf rfl rfl rfl id
  next =>
    split
    next => exact h.put hf rfl rfl rfl nofun
    next hlistener =>
      have hsilent : f.listener = false := by simpa using hlistener
      refine ⟨h.returns, h.failures, ?stopped, ?registered, ?closers, ?held, ?whole, ?listener,
        ?busy, ?free, h.stopping, h.quiet⟩
      case stopped =>
        intro rule hs
        exact ⟨(h.stopped rule hs).1, h.clean hf rfl (fun _ => ⟨rfl, hsilent⟩) hs⟩
      case registered =>
        intro rule k hk
        obtain ⟨g, hg, hgrule, hgclient, hgmade, hgclosers⟩ := h.registered rule k hk
        have hkn : k ≠ n := by
          rintro rfl
          exact hgclosers hn
        exact ⟨g, put_ne hkn hg, hgrule, hgclient, hgmade,
          fun hmem => hgclosers (List.mem_filter.mp hmem).1⟩
      case closers =>
        intro k hk
        obtain ⟨hk, hkn⟩ := List.mem_filter.mp hk
        obtain ⟨g, hg, hgclient, hgmade⟩ := h.closers k hk
        exact ⟨g, put_ne (by simpa using hkn) hg, hgclient, hgmade⟩
      case held =>
        intro k g hk hgclient hgmade
        obtain ⟨rfl, rfl⟩ | ⟨hkn, hk⟩ := put_back hf hk
        · cases hgclient
        · refine (h.held k g hk hgclient hgmade).imp_right fun hc => ?_
          exact List.mem_filter.mpr ⟨hc, by simpa using hkn⟩
      case whole =>
        intro k g hk hgmade
        obtain ⟨rfl, rfl⟩ | ⟨-, hk⟩ := put_back hf hk
        · rw [show ({ f with client := false } : Forward).phase = f.phase from rfl, hmade] at hgmade
          cases hgmade
        · exact h.whole k g hk hgmade
      case listener =>
        intro k g hk hg
        obtain ⟨rfl, rfl⟩ | ⟨-, hk⟩ := put_back hf hk
        · exact absurd hg hlistener
        · exact h.listener k g hk hg
      case busy =>
        intro k g hk hg
        obtain ⟨rfl, rfl⟩ | ⟨-, hk⟩ := put_back hf hk
        · exact h.busy k f hf hg
        · exact h.busy k g hk hg
      case free =>
        intro k g hk hg
        obtain ⟨rfl, rfl⟩ | ⟨-, hk⟩ := put_back hf hk
        · exact h.free k f hf hg
        · exact h.free k g hk hg

theorem Kept.call (h : Kept s) (hlane : s.lanes rule = .idle) :
    Kept { s with
      forwards := s.forwards ++ [{ rule }]
      lanes := Function.update s.lanes rule (.starting s.forwards.length)
      stopped := Function.update s.stopped rule false } := by
  have hback : ∀ {k : Nat} {g : Forward},
      (s.forwards ++ [({ rule } : Forward)])[k]? = some g →
      (s.forwards[k]? = some g ∧ k < s.forwards.length) ∨
        (k = s.forwards.length ∧ g = { rule }) := by
    intro k g hk
    rw [List.getElem?_append] at hk
    split at hk
    next hlt => exact Or.inl ⟨hk, hlt⟩
    next hge =>
      obtain ⟨hlt, hget⟩ := List.getElem?_eq_some_iff.mp hk
      have hlt' : k - s.forwards.length < 1 := hlt
      have hzero : k - s.forwards.length = 0 := by omega
      right
      refine ⟨by omega, ?_⟩
      simpa [hzero] using hget.symm
  have hforth : ∀ {k : Nat} {g : Forward}, s.forwards[k]? = some g →
      (s.forwards ++ [({ rule } : Forward)])[k]? = some g := by
    intro k g hk
    rw [List.getElem?_append_left (List.getElem?_eq_some_iff.mp hk).1]
    exact hk
  refine ⟨h.returns, h.failures, ?stopped, ?registered, ?closers, ?held, ?whole, ?listener,
    ?busy, ?free, ?stopping, ?quiet⟩
  case stopped =>
    intro rule' hs
    simp only [Function.update_apply] at hs
    split at hs
    next => cases hs
    next hne =>
      refine ⟨(h.stopped rule' hs).1, ?_⟩
      intro g hg hgrule
      obtain hg | hg := List.mem_append.mp hg
      · exact (h.stopped rule' hs).2 g hg hgrule
      · cases List.mem_singleton.mp hg
        exact absurd hgrule.symm hne
  case registered =>
    intro rule' k hk
    obtain ⟨g, hg, hrest⟩ := h.registered rule' k hk
    exact ⟨g, hforth hg, hrest⟩
  case closers =>
    intro k hk
    obtain ⟨g, hg, hrest⟩ := h.closers k hk
    exact ⟨g, hforth hg, hrest⟩
  case held =>
    intro k g hk hgclient hgmade
    obtain ⟨hk, -⟩ | ⟨-, rfl⟩ := hback hk
    · exact h.held k g hk hgclient hgmade
    · cases hgmade
  case whole =>
    intro k g hk hgmade
    obtain ⟨hk, -⟩ | ⟨-, rfl⟩ := hback hk
    · exact h.whole k g hk hgmade
    · rfl
  case listener =>
    intro k g hk hg
    obtain ⟨hk, -⟩ | ⟨-, rfl⟩ := hback hk
    · exact h.listener k g hk hg
    · cases hg
  case busy =>
    intro k g hk hg
    obtain ⟨hk, -⟩ | ⟨rfl, rfl⟩ := hback hk
    · have hbusy := h.busy k g hk hg
      have hne : g.rule ≠ rule := by
        intro heq
        rw [heq, hlane] at hbusy
        cases hbusy
      simpa [hne] using hbusy
    · simp
  case free =>
    intro k g hk hg
    obtain ⟨hk, -⟩ | ⟨-, rfl⟩ := hback hk
    · exact h.free k g hk hg
    · simp at hg
  case stopping =>
    intro rule' removed hs
    simp only [Function.update_apply] at hs
    split at hs
    next => cases hs
    next => exact h.stopping rule' removed hs
  case quiet =>
    intro rule' k hs
    simp only [Function.update_apply] at hs ⊢
    split at hs
    next => cases hs
    next hne =>
      rw [if_neg hne]
      exact h.quiet rule' k hs

theorem Kept.stop (h : Kept s) (hlane : s.lanes rule = .idle) :
    Kept { s.remove rule with
      lanes := Function.update s.lanes rule (.stopping (s.runtimes rule)) } := by
  have hr := h.remove rule
  refine ⟨hr.returns, hr.failures, hr.stopped, hr.registered, hr.closers, hr.held, hr.whole,
    hr.listener, ?busy, hr.free, ?stopping, ?quiet⟩
  case busy =>
    intro k g hk hg
    have hbusy := h.busy k g hk hg
    have hne : g.rule ≠ rule := by
      intro heq
      rw [heq, hlane] at hbusy
      cases hbusy
    simpa [hne] using hbusy
  case stopping =>
    intro rule' removed hs
    by_cases heq : rule' = rule
    · simp [State.remove, heq]
    · simp only [Function.update_of_ne heq] at hs
      exact hr.stopping rule' removed hs
  case quiet =>
    intro rule' k hs
    by_cases heq : rule' = rule
    · simp [heq]
    · simp only [Function.update_of_ne heq]
      exact h.quiet rule' k hs

theorem Kept.stopReturns {removed : Option Nat} (h : Kept s)
    (hlane : s.lanes rule = .stopping removed) (hok : Proper s (.stopReturns rule)) :
    Kept { s with
      lanes := Function.update s.lanes rule .idle
      stopped := Function.update s.stopped rule true } := by
  have hnone := h.stopping rule removed hlane
  refine ⟨h.returns, h.failures, ?stopped, h.registered, h.closers, h.held, h.whole, h.listener,
    ?busy, h.free, ?stopping, ?quiet⟩
  case stopped =>
    intro rule' hs
    by_cases heq : rule' = rule
    · subst heq
      refine ⟨hnone, ?_⟩
      intro f hf hrule
      obtain ⟨n, hn⟩ := List.mem_iff_getElem?.mp hf
      have hreturned : f.phase = .returned := by
        by_contra hphase
        have hbusy := h.busy n f hn hphase
        rw [hrule, hlane] at hbusy
        cases hbusy
      have hclient : f.client = false := by
        by_contra hopen
        obtain hr | hc := h.held n f hn (by simpa using hopen) (hreturned ▸ rfl)
        · rw [hrule, hnone] at hr
          cases hr
        · exact hok n f hc hn hrule
      refine ⟨hclient, ?_⟩
      by_contra hlistener
      have hopen := (h.listener n f hn (by simpa using hlistener)).1
      simp [hclient] at hopen
    · simp only [Function.update_of_ne heq] at hs
      exact h.stopped rule' hs
  case busy =>
    intro k g hk hg
    have hbusy := h.busy k g hk hg
    have hne : g.rule ≠ rule := by
      intro heq
      rw [heq, hlane] at hbusy
      cases hbusy
    simpa [hne] using hbusy
  case stopping =>
    intro rule' removed' hs
    simp only [Function.update_apply] at hs
    split at hs
    next => cases hs
    next => exact h.stopping rule' removed' hs
  case quiet =>
    intro rule' k hs
    by_cases heq : rule' = rule
    · simp [heq]
    · simp only [Function.update_of_ne heq] at hs ⊢
      exact h.quiet rule' k hs

theorem Kept.fails (h : Kept s) (hf : s.forwards[n]? = some f)
    (hok : s.runtimes f.rule = none ∨ s.runtimes f.rule = some n) :
    Kept { (s.put n { f with accepting := .over }).remove f.rule with
      failures := s.failures ++ [{ forward := n, removed := s.runtimes f.rule }] } := by
  have hr := (h.put (q := { f with accepting := .over }) hf rfl rfl rfl id).remove f.rule
  refine ⟨hr.returns, ?_, hr.stopped, hr.registered, hr.closers, hr.held, hr.whole, hr.listener,
    hr.busy, hr.free, hr.stopping, hr.quiet⟩
  intro x hx
  obtain hx | hx := List.mem_append.mp hx
  · exact h.failures x hx
  · cases List.mem_singleton.mp hx
    exact hok

theorem Kept.step (h : Kept s) (hok : Proper s e) (he : step s e = some t) : Kept t := by
  cases e with
  | call rule =>
      simp only [PortForwards.step] at he
      split at he
      next hlane =>
        cases he
        exact h.call hlane
      next => cases he
  | check n =>
      simp only [PortForwards.step, Option.bind_eq_bind, Option.bind_eq_some_iff, find_eq] at he
      obtain ⟨f, ⟨hf, hphase⟩, he⟩ := he
      obtain ⟨hrule, hfree⟩ := hok f hf
      rw [if_neg hrule, hfree] at he
      cases he
      exact h.advance hf (hphase ▸ rfl) rfl rfl (Or.inl rfl)
        (fun hl => by simpa [hphase, Phase.made] using (h.listener n f hf hl).2) hfree
  | listenFails n =>
      simp only [PortForwards.step, Option.bind_eq_bind, Option.bind_eq_some_iff, find_eq] at he
      obtain ⟨f, ⟨hf, hphase⟩, he⟩ := he
      cases he
      refine h.finish hf (by simp [hphase]) rfl (Or.inr rfl) (by simp [hphase, Phase.made]) ?_
      intro hl
      simpa [hphase, Phase.made] using (h.listener n f hf hl).2
  | listens n =>
      simp only [PortForwards.step, Option.bind_eq_bind, Option.bind_eq_some_iff, find_eq] at he
      obtain ⟨f, ⟨hf, hphase⟩, he⟩ := he
      cases he
      exact h.advance hf (hphase ▸ rfl) rfl rfl (Or.inr rfl) (fun _ => rfl)
        (h.free n f hf (Or.inl hphase))
  | insert n =>
      simp only [PortForwards.step, Option.bind_eq_bind, Option.bind_eq_some_iff, find_eq] at he
      obtain ⟨f, ⟨hf, hphase⟩, he⟩ := he
      cases he
      exact h.insert hf hphase
  | returns n =>
      simp only [PortForwards.step, Option.bind_eq_bind, Option.bind_eq_some_iff, find_eq] at he
      obtain ⟨f, ⟨hf, hphase⟩, he⟩ := he
      cases he
      refine h.finish hf (by simp [hphase]) rfl ?_ (fun _ => rfl)
        (fun hl => (h.listener n f hf hl).1)
      by_cases hclient : f.client = true
      · exact Or.inl ((h.held n f hf hclient (hphase ▸ rfl)).resolve_right hok)
      · exact Or.inr (by simpa using hclient)
  | stop rule =>
      simp only [PortForwards.step] at he
      split at he
      next hlane =>
        cases he
        exact h.stop hlane
      next => cases he
  | stopReturns rule =>
      simp only [PortForwards.step] at he
      split at he
      next removed hlane =>
        split at he
        next =>
          cases he
          exact h.stopReturns hlane hok
        next => cases he
      next => cases he
  | shutdown =>
      cases he
      exact h.shutdown
  | acceptFails n =>
      simp only [PortForwards.step, Option.bind_eq_bind, Option.bind_eq_some_iff] at he
      obtain ⟨f, hf, he⟩ := he
      split at he
      next =>
        cases he
        exact h.put hf rfl rfl rfl id
      next => cases he
  | fails n =>
      simp only [PortForwards.step, Option.bind_eq_bind, Option.bind_eq_some_iff] at he
      obtain ⟨f, hf, he⟩ := he
      split at he
      next =>
        cases he
        exact h.fails hf (hok f hf)
      next => cases he
  | close n =>
      simp only [PortForwards.step, Option.bind_eq_bind, Option.bind_eq_some_iff] at he
      obtain ⟨f, hf, he⟩ := he
      split at he
      next hn =>
        cases he
        exact h.close hf hn
      next => cases he

theorem not_owned_finish {q : Forward} (hrule : s.runtimes q.rule ≠ some n)
    (hclient : q.client = true) : ¬ Owned (s.finish n q) := by
  intro ho
  have hr := ho.returns _ (List.mem_append_right _ (List.mem_singleton_self _))
  simp [hrule, hclient] at hr

theorem Kept.lost (h : Kept s) (hnot : ¬ Proper s e) (he : PortForwards.step s e = some t) : ¬ Owned t := by
  cases e with
  | check n =>
      simp only [PortForwards.step, Option.bind_eq_bind, Option.bind_eq_some_iff, find_eq] at he
      obtain ⟨f, ⟨hf, hphase⟩, he⟩ := he
      have hunregistered : s.runtimes f.rule ≠ some n := by
        intro hr
        obtain ⟨g, hg, -, -, hmade, -⟩ := h.registered f.rule n hr
        cases hf.symm.trans hg
        simp [hphase, Phase.made] at hmade
      have hopen := h.whole n f hf (hphase ▸ rfl)
      split at he
      next =>
        cases he
        exact not_owned_finish hunregistered hopen
      next hrule =>
        split at he
        next =>
          cases he
          exact not_owned_finish hunregistered hopen
        next hnone =>
          refine absurd ?_ hnot
          intro g hg
          cases hf.symm.trans hg
          exact ⟨hrule, by simpa using hnone⟩
  | returns n =>
      simp only [PortForwards.step, Option.bind_eq_bind, Option.bind_eq_some_iff, find_eq] at he
      obtain ⟨f, ⟨hf, hphase⟩, he⟩ := he
      cases he
      simp only [Proper, not_not] at hnot
      obtain ⟨g, hg, hopen, -⟩ := h.closers n hnot
      cases hf.symm.trans hg
      refine not_owned_finish ?_ hopen
      intro hr
      obtain ⟨-, -, -, -, -, hclosers⟩ := h.registered f.rule n hr
      exact hclosers hnot
  | stopReturns rule =>
      simp only [PortForwards.step] at he
      split at he
      next removed hlane =>
        split at he
        next =>
          cases he
          simp only [Proper, not_forall, not_not] at hnot
          obtain ⟨n, f, hn, hf, hrule⟩ := hnot
          obtain ⟨g, hg, hopen, -⟩ := h.closers n hn
          cases hf.symm.trans hg
          intro ho
          have hclosed := ((ho.stopped rule (by simp)).2 f (List.mem_of_getElem? hf) hrule).1
          simp [hopen] at hclosed
        next => cases he
      next => cases he
  | fails n =>
      simp only [PortForwards.step, Option.bind_eq_bind, Option.bind_eq_some_iff] at he
      obtain ⟨f, hf, he⟩ := he
      split at he
      next =>
        cases he
        intro ho
        apply hnot
        intro g hg
        cases hf.symm.trans hg
        exact ho.failures { forward := n, removed := s.runtimes f.rule }
          (List.mem_append_right _ (List.mem_singleton_self _))
      next => cases he
  | _ => exact absurd trivial hnot

/-- The runtimes own their clients and listeners in every state of a run exactly when no step is of
the kinds that lose one. -/
theorem owned_iff_proper {events : List Event} (hr : run step {} events = some s) :
    Always Owned step {} events ↔ Admissible Proper step {} events :=
  always_iff_admissible (fun _ h => h.owned) (fun _ _ _ h hok he => h.step hok he)
    (fun _ _ _ h hnot he => h.lost hnot he) kept_nil hr

def startedTwice : List Event :=
  [.call "rule", .check 0, .listens 0, .insert 0, .returns 0, .call "rule", .check 1]

/-- A rule is stopped and started again, while the goroutine of its first runtime is yet to take up
a failure. -/
def restarted : List Event :=
  [.call "rule", .check 0, .listens 0, .insert 0, .returns 0, .acceptFails 0, .stop "rule",
   .close 0, .close 0, .close 0, .stopReturns "rule", .call "rule", .check 1, .listens 1,
   .insert 1, .returns 1]

theorem second_start_leaks : ¬ ∀ (events : List Event) (s : State),
    run step {} events = some s → Owned s := by
  intro h
  have hview : (run step {} startedTwice).map State.returns =
      some [{ forward := 0, registered := true, closed := false },
        { forward := 1, registered := false, closed := false }] := by decide
  obtain ⟨s, hs, hreturns⟩ := Option.map_eq_some_iff.mp hview
  have hr := (h startedTwice s hs).returns { forward := 1, registered := false, closed := false }
    (by simp [hreturns])
  simp at hr

/-- `Proper`, as it can be computed. -/
def proper (s : State) : Event → Bool
  | .check n => s.forwards[n]?.all fun f => f.rule ≠ "" && s.runtimes f.rule = none
  | .returns n => n ∉ s.closers
  | .stopReturns rule => s.closers.all fun n => s.forwards[n]?.all fun f => f.rule ≠ rule
  | .fails n => s.forwards[n]?.all fun f =>
      s.runtimes f.rule = none || s.runtimes f.rule = some n
  | _ => true

theorem proper_of_check (h : proper s e = true) : Proper s e := by
  cases e with
  | check n =>
      intro f hf
      simpa [proper, hf] using h
  | returns n => simpa [proper, Proper] using h
  | stopReturns rule =>
      intro n f hn hf
      simp only [proper, List.all_eq_true] at h
      simpa [hf] using h n hn
  | fails n =>
      intro f hf
      simpa [proper, hf] using h
  | _ => trivial

theorem restart_after_stop_is_owned : Always Owned step {} restarted := by
  have hrun : (run step {} restarted).isSome = true := by decide
  obtain ⟨s, hs⟩ := Option.isSome_iff_exists.mp hrun
  exact (owned_iff_proper hs).mpr
    (admissible_of_allows (fun _ _ => proper_of_check) (by decide))

end Dolgate.PortForwards
