import Dolgate.InFlight

set_option autoImplicit false

/-! Which connections a command interrupts that stands behind them. -/

namespace Dolgate.InFlight

open Transition Router

variable {s t : State} {e : Event} {i j k : Nat} {r q q' : Routed} {op : Operation}

theorem routed_back {s t : Router.State} {e : Router.Event} (he : Router.step s e = some t)
    (hk : t.routed[k]? = some q') :
    (∃ frame, e = .route frame ∧ k = s.routed.length ∧ q' = arrival frame) ∨
      ∃ q, s.routed[k]? = some q ∧ q'.frame = q.frame ∧
        (q'.phase = .cancelling → q.phase = .cancelling) ∧
        (q.phase = .cancelling → q'.phase = .cancelling ∨ e = .cancelled) := by
  have hput : ∀ {i : Nat} {r r' : Routed}, s.routed[i]? = some r →
      (s.put i r').routed[k]? = some q' → r'.frame = r.frame →
      r'.phase ≠ .cancelling → (r.phase ≠ .cancelling ∨ e = .cancelled) → ∃ q, s.routed[k]? = some q ∧ q'.frame = q.frame ∧
        (q'.phase = .cancelling → q.phase = .cancelling) ∧
        (q.phase = .cancelling → q'.phase = .cancelling ∨ e = .cancelled) := by
    intro i r r' hr hk hframe hr' hphase
    obtain ⟨rfl, rfl⟩ | ⟨-, hk⟩ := put_back hr hk
    · refine ⟨r, hr, hframe, fun h => absurd h hr', fun h => ?_⟩
      exact Or.inr (hphase.resolve_left fun hn => hn h)
    · exact ⟨q', hk, rfl, id, Or.inl⟩
  cases e with
  | route frame =>
      obtain ⟨-, rfl⟩ := step_route.mp he
      obtain hk | ⟨hk, hq'⟩ := append_back hk
      · exact Or.inr ⟨q', hk, rfl, id, Or.inl⟩
      · exact Or.inl ⟨frame, rfl, hk, hq'⟩
  | answer =>
      obtain ⟨i, r, -, hr, hphase, rfl⟩ := step_answer.mp he
      exact Or.inr (hput hr hk rfl (by simp) (Or.inl (by simp [hphase])))
  | cancelled =>
      obtain ⟨i, r, -, hr, -, rfl⟩ := step_cancelled.mp he
      exact Or.inr (hput hr hk rfl (by simp) (Or.inr rfl))
  | claim =>
      obtain ⟨i, r, -, hr, hphase, rfl⟩ := step_claim.mp he
      exact Or.inr (hput hr hk rfl (by simp) (Or.inl (by simp [hphase])))
  | spawn =>
      obtain ⟨i, r, -, hr, hphase, rfl⟩ := step_spawn.mp he
      exact Or.inr (hput hr hk rfl (by simp) (Or.inl (by simp [hphase])))
  | passBarrier i =>
      obtain ⟨r, hr, hphase, -, rfl⟩ := step_passBarrier.mp he
      exact Or.inr (hput hr hk rfl (by simp) (Or.inl (by simp [hphase])))
  | start i =>
      obtain ⟨r, hr, hphase, -, rfl⟩ := step_start.mp he
      exact Or.inr (hput hr hk rfl (by simp) (Or.inl (by simp [hphase])))
  | finish i =>
      obtain ⟨r, hr, hphase, rfl⟩ := step_finish.mp he
      exact Or.inr (hput hr hk rfl (by simp) (Or.inl (by simp [hphase])))
  | unlist i =>
      obtain ⟨r, hr, hphase, rfl⟩ := step_unlist.mp he
      exact Or.inr (hput hr hk rfl (by simp) (Or.inl (by simp [hphase])))
  | close i =>
      obtain ⟨r, hr, hphase, rfl⟩ := step_close.mp he
      exact Or.inr (hput hr hk rfl (by simp) (Or.inl (by simp [hphase])))

/-- The operations that the reader has still to end are those it has collected and those whose
registry it is yet to read. -/
structure Covered (s : State) : Prop where
  sound : Sound s.router
  past : ∀ (i j : Nat) (r q : Routed) (op : Operation), i < j → s.router.routed[i]? = some r →
    s.router.routed[j]? = some q → operation r.frame = some op → Cancels q.frame op.target →
    q.phase ≠ .cancelling → s.Over i
  now : ∀ (i j : Nat) (r q : Routed) (op : Operation), i < j → s.router.routed[i]? = some r →
    s.router.routed[j]? = some q → operation r.frame = some op → Cancels q.frame op.target →
    q.phase = .cancelling → s.Over i ∨ i ∈ s.cancels ∨
      ∃ service, op.service = some service ∧ (service, op.target.id) ∈ s.todo

theorem covered_nil : Covered {} where
  sound := sound_nil
  past := by simp
  now := by simp

theorem Covered.interrupted (h : Covered s) : Interrupted s := by
  intro i j r q op hij hr hq hop hcancels hheld
  refine h.past i j r q op hij hr hq hop hcancels ?_
  intro hphase
  simp [hphase, Phase.held] at hheld

theorem Covered.elsewhere (h : Covered s) (hrouter : t.router = s.router)
    (htodo : t.todo = s.todo) (hcancels : t.cancels = s.cancels)
    (hover : ∀ i, s.Over i → t.Over i) : Covered t where
  sound := hrouter ▸ h.sound
  past i j r q op hij hr hq hop hc hphase := by
    rw [hrouter] at hr hq
    exact hover i (h.past i j r q op hij hr hq hop hc hphase)
  now i j r q op hij hr hq hop hc hphase := by
    rw [hrouter] at hr hq
    rw [htodo, hcancels]
    exact (h.now i j r q op hij hr hq hop hc hphase).imp_left (hover i)

theorem over_cancelled (h : s.Over i) : ∀ t : State, t.ended = s.ended →
    t.cancelled = Function.update s.cancelled j true → t.Over i := by
  intro t hended hcancelled
  unfold State.Over
  rw [hended, hcancelled]
  cases h with
  | inl h => exact Or.inl h
  | inr h =>
      right
      by_cases hij : i = j
      · simp [hij]
      · simp [hij, h]

theorem over_end (h : s.Over k) : (s.end i op).Over k := by
  have hended : s.ended k = true → Function.update s.ended i true k = true := by
    intro hk
    by_cases hki : k = i <;> simp [hki, hk]
  unfold State.end
  dsimp only
  split
  next =>
    cases h with
    | inl h => exact Or.inl (hended h)
    | inr h =>
        right
        by_cases hki : k = i
        · simp [hki]
        · simpa [State.setRegistry, hki] using h
  next =>
    cases h with
    | inl h => exact Or.inl (hended h)
    | inr h => exact Or.inr h

theorem arrival_cancelling {frame : Frame} (h : isCancelCommand (frameCommand frame) = true) :
    (arrival frame).phase = .cancelling := by
  cases hc : frameCommand frame <;>
    simp_all [isCancelCommand, arrival, firstPhase, isAnswer, isFlowCommand]

theorem Covered.router {e : Router.Event} {router : Router.State} (h : Covered s)
    (hok : Found s (.router e)) (hp : s.permits e = true)
    (he : Router.step s.router e = some router) :
    Covered { s with router, todo := s.todoAfter e } where
  sound := h.sound.step he
  past i j r' q' op hij hr' hq' hop hc hphase := by
    obtain ⟨frame, rfl, rfl, rfl⟩ | ⟨q, hq, hqframe, -, hkeep⟩ := routed_back he hq'
    · exact absurd (arrival_cancelling hc.1) hphase
    · obtain ⟨frame, rfl, rfl, rfl⟩ | ⟨r, hr, hrframe, -⟩ := routed_back he hr'
      · have := routed_lt hq
        omega
      rw [hrframe] at hop
      rw [hqframe] at hc
      by_cases hcancelling : q.phase = .cancelling
      · obtain hq'' | rfl := hkeep hcancelling
        · exact absurd hq'' hphase
        simp only [State.permits, Bool.and_eq_true, List.isEmpty_iff] at hp
        have hnow := h.now i j r q op hij hr hq hop hc hcancelling
        rw [hp.1, hp.2] at hnow
        have hover : s.Over i := by simpa using hnow
        exact hover
      · exact h.past i j r q op hij hr hq hop hc hcancelling
  now i j r' q' op hij hr' hq' hop hc hphase := by
    obtain ⟨frame, rfl, rfl, rfl⟩ | ⟨r, hr, hrframe, -⟩ := routed_back he hr'
    · have hlt := routed_lt hq'
      obtain ⟨-, rfl⟩ := step_route.mp he
      simp at hlt
      omega
    rw [hrframe] at hop
    obtain ⟨frame, rfl, rfl, rfl⟩ | ⟨q, hq, hqframe, hback, -⟩ := routed_back he hq'
    · have hc' : Cancels frame op.target := hc
      by_cases hmem : ∃ service, op.service = some service ∧
          (service, op.target.id) ∈ asked frame
      · obtain ⟨service, hservice, hmem⟩ := hmem
        refine Or.inr (Or.inr ⟨service, hservice, ?_⟩)
        simp only [State.todoAfter, hc'.1, if_true]
        exact hmem
      · left
        exact hok i r op hr hop hc' fun service hservice hin => hmem ⟨service, hservice, hin⟩
    · rw [hqframe] at hc
      have hq := h.now i j r q op hij hr hq hop hc (hback hphase)
      have htodo : s.todoAfter e = s.todo := by
        cases e with
        | route frame =>
            -- The reader is at another frame.
            obtain ⟨hnone, -⟩ := step_route.mp he
            have hheld := (h.sound.lines.held j q ‹_› (by simp [hback hphase, Phase.held])).1
            rw [hnone] at hheld
            cases hheld
        | _ => rfl
      change s.Over i ∨ i ∈ s.cancels ∨ ∃ service, op.service = some service ∧
        (service, op.target.id) ∈ s.todoAfter e
      rw [htodo]
      exact hq

theorem Covered.collect {service : Service} {key : String} {rest : List (Service × String)}
    (h : Covered s) (hok : Found s .collect) (hcancels : s.cancels = [])
    (htodo : s.todo = (service, key) :: rest) : Covered (s.collect service key rest) where
  sound := h.sound
  past := h.past
  now i j r q op hij hr hq hop hc hphase := by
    have hnow := h.now i j r q op hij hr hq hop hc hphase
    rw [hcancels, htodo] at hnow
    obtain hover | hmem | ⟨service', hservice, hmem⟩ := hnow
    · exact Or.inl hover
    · cases hmem
    · obtain heq | hmem := List.mem_cons.mp hmem
      · cases heq
        have hreading := (h.sound.lines.held j q hq (by simp [hphase, Phase.held])).1
        have hfound := hok service op.target.id i j r q op (by rw [htodo]; rfl) hreading hij hr hq hop
          hc hservice rfl
        exact hfound.imp id fun hregistered => Or.inl hregistered
      · exact Or.inr (Or.inr ⟨service', hservice, hmem⟩)

theorem Covered.cancel {rest : List Nat} (h : Covered s) (hcancels : s.cancels = k :: rest) :
    Covered { s with cancels := rest, cancelled := Function.update s.cancelled k true } where
  sound := h.sound
  past i j r q op hij hr hq hop hc hphase :=
    over_cancelled (h.past i j r q op hij hr hq hop hc hphase) _ rfl rfl
  now i j r q op hij hr hq hop hc hphase := by
    have hnow := h.now i j r q op hij hr hq hop hc hphase
    rw [hcancels] at hnow
    obtain hover | hmem | htodo := hnow
    · exact Or.inl (over_cancelled hover _ rfl rfl)
    · obtain rfl | hmem := List.mem_cons.mp hmem
      · left
        right
        simp
      · exact Or.inr (Or.inl hmem)
    · exact Or.inr (Or.inr htodo)

theorem Covered.step (h : Covered s) (hok : Found s e) (he : step s e = some t) : Covered t := by
  cases e with
  | router e =>
      simp only [InFlight.step] at he
      split at he
      next hp =>
        obtain ⟨router, hrouter, rfl⟩ := Option.map_eq_some_iff.mp he
        exact h.router hok hp hrouter
      next => cases he
  | begin i =>
      simp only [InFlight.step] at he
      split at he
      next =>
        cases he
        exact h.elsewhere rfl rfl rfl fun _ => id
      next => cases he
  | ends i =>
      obtain ⟨op, -, rfl⟩ := Option.map_eq_some_iff.mp he
      refine h.elsewhere ?_ ?_ ?_ fun _ => over_end
      all_goals
        unfold State.end
        dsimp only
        split <;> rfl
  | collect =>
      simp only [InFlight.step] at he
      split at he
      next hcancels htodo =>
        cases he
        exact h.collect hok hcancels htodo
      next => cases he
  | cancel =>
      simp only [InFlight.step] at he
      split at he
      next => cases he
      next hcancels =>
        cases he
        exact h.cancel hcancels
  | collectElsewhere service key =>
      cases he
      exact h.elsewhere rfl rfl rfl fun _ => id
  | cancelElsewhere n =>
      simp only [InFlight.step] at he
      split at he
      next =>
        cases he
        exact h.elsewhere rfl rfl rfl fun _ hover => over_cancelled hover _ rfl rfl
      next => cases he

/-- The registries hold operations under their own keys, and the reader reads no registry twice. -/
structure Owned (s : State) : Prop where
  entries : ∀ (service : Service) (key : String) (i : Nat),
    i ∈ collected (s.registries service) key → ∃ r op, s.router.routed[i]? = some r ∧
      operation r.frame = some op ∧ op.service = some service ∧ op.target.id = key
  todo : s.todo.Nodup
  busy : s.todo ≠ [] ∨ s.cancels ≠ [] → ∃ (j : Nat) (q : Routed), s.router.reading = some j ∧
    s.router.routed[j]? = some q ∧ q.phase = .cancelling

theorem owned_nil : Owned {} where
  entries := by simp [collected]
  todo := List.nodup_nil
  busy := by simp

theorem asked_nodup (frame : Frame) : (asked frame).Nodup := by
  unfold asked
  split <;> split <;> simp

theorem working_some : s.working i = some op ↔ ∃ r, s.router.routed[i]? = some r ∧
    r.phase.started = true ∧ s.ended i = false ∧ operation r.frame = some op := by
  simp only [State.working, Option.bind_eq_bind, Option.bind_eq_some_iff,
    Option.ite_none_right_eq_some, and_assoc]

theorem routed_forth {s t : Router.State} {e : Router.Event} (he : Router.step s e = some t)
    (hk : s.routed[k]? = some q) : ∃ q', t.routed[k]? = some q' ∧ q'.frame = q.frame := by
  have hlength : k < t.routed.length := by
    have hlt := routed_lt hk
    have hput : ∀ (i : Nat) (r : Routed), (s.put i r).routed.length = s.routed.length := by
      simp [State.put]
    cases e with
    | route frame =>
        obtain ⟨-, rfl⟩ := step_route.mp he
        simp
        omega
    | answer =>
        obtain ⟨i, r, -, -, -, rfl⟩ := step_answer.mp he
        simpa [State.put] using hlt
    | cancelled =>
        obtain ⟨i, r, -, -, -, rfl⟩ := step_cancelled.mp he
        simpa [State.put] using hlt
    | claim =>
        obtain ⟨i, r, -, -, -, rfl⟩ := step_claim.mp he
        simpa [State.claim, State.put] using hlt
    | spawn =>
        obtain ⟨i, r, -, -, -, rfl⟩ := step_spawn.mp he
        simpa [State.spawn, State.put] using hlt
    | passBarrier i =>
        obtain ⟨r, -, -, -, rfl⟩ := step_passBarrier.mp he
        simpa [State.put] using hlt
    | start i =>
        obtain ⟨r, -, -, -, rfl⟩ := step_start.mp he
        simpa [State.put] using hlt
    | finish i =>
        obtain ⟨r, -, -, rfl⟩ := step_finish.mp he
        simpa [State.put] using hlt
    | unlist i =>
        obtain ⟨r, -, -, rfl⟩ := step_unlist.mp he
        simpa [State.unlist, State.put] using hlt
    | close i =>
        obtain ⟨r, -, -, rfl⟩ := step_close.mp he
        simpa [State.put] using hlt
  have hk' := List.getElem?_eq_getElem hlength
  refine ⟨_, hk', ?_⟩
  obtain ⟨frame, rfl, hlast, -⟩ | ⟨m, hm, hframe, -⟩ := routed_back he hk'
  · have := routed_lt hk
    omega
  · cases hk.symm.trans hm
    exact hframe

theorem collected_begin {registry : Registry} {key key' : String} :
    k ∈ collected (registry.begin key' i) key ↔
      k ∈ collected registry key ∨ key = key' ∧ k = i := by
  unfold collected Registry.begin
  by_cases hkey : key = key'
  · subst hkey
    simp
  · simp [hkey]

theorem collected_release {registry : Registry} {key key' : String} {id : Nat}
    (h : k ∈ collected (registry.release key' id) key) : k ∈ collected registry key := by
  unfold collected Registry.release at h
  by_cases hkey : key = key'
  · subst hkey
    simp only [Function.update_self, List.mem_map, List.mem_filter] at h
    obtain ⟨entry, ⟨hentry, -⟩, rfl⟩ := h
    exact List.mem_map_of_mem hentry
  · simpa [collected, hkey] using h

theorem collected_remove {registry : Registry} {key key' : String}
    (h : k ∈ collected (registry.remove key') key) : k ∈ collected registry key := by
  unfold collected Registry.remove at h
  by_cases hkey : key = key'
  · simp [hkey] at h
  · simpa [collected, hkey] using h

theorem reading_forth {s t : Router.State} {e : Router.Event} (he : Router.step s e = some t)
    (hj : s.reading = some j) (hq : s.routed[j]? = some q) (hphase : q.phase = .cancelling)
    (hne : e ≠ .cancelled) :
    ∃ q', t.reading = some j ∧ t.routed[j]? = some q' ∧ q'.phase = .cancelling := by
  obtain ⟨q', hq', -⟩ := routed_forth he hq
  have hphase' : q'.phase = .cancelling := by
    obtain ⟨frame, rfl, rfl, rfl⟩ | ⟨m, hm, -, -, hkeep⟩ := routed_back he hq'
    · have := routed_lt hq
      omega
    · cases hq.symm.trans hm
      exact (hkeep hphase).resolve_right hne
  refine ⟨q', ?_, hq', hphase'⟩
  cases e with
  | route frame =>
      obtain ⟨hnone, -⟩ := step_route.mp he
      rw [hj] at hnone
      cases hnone
  | answer =>
      obtain ⟨i, r, hi, hr, hanswering, -⟩ := step_answer.mp he
      cases hj.symm.trans hi
      cases hq.symm.trans hr
      cases hphase.symm.trans hanswering
  | cancelled => exact absurd rfl hne
  | claim =>
      obtain ⟨i, r, -, -, -, rfl⟩ := step_claim.mp he
      exact hj
  | spawn =>
      obtain ⟨i, r, hi, hr, hclaimed, -⟩ := step_spawn.mp he
      cases hj.symm.trans hi
      cases hq.symm.trans hr
      cases hphase.symm.trans hclaimed
  | passBarrier i =>
      obtain ⟨r, -, -, -, rfl⟩ := step_passBarrier.mp he
      exact hj
  | start i =>
      obtain ⟨r, -, -, -, rfl⟩ := step_start.mp he
      exact hj
  | finish i =>
      obtain ⟨r, -, -, rfl⟩ := step_finish.mp he
      exact hj
  | unlist i =>
      obtain ⟨r, -, -, rfl⟩ := step_unlist.mp he
      exact hj
  | close i =>
      obtain ⟨r, -, -, rfl⟩ := step_close.mp he
      exact hj

theorem Owned.router {e : Router.Event} {router : Router.State} (h : Owned s)
    (hp : s.permits e = true) (he : Router.step s.router e = some router) :
    Owned { s with router, todo := s.todoAfter e } where
  entries service key k hk := by
    obtain ⟨r, op, hr, hop, hrest⟩ := h.entries service key k hk
    obtain ⟨r', hr', hframe⟩ := routed_forth he hr
    exact ⟨r', op, hr', hframe ▸ hop, hrest⟩
  todo := by
    cases e with
    | route frame =>
        simp only [State.todoAfter]
        split
        · exact asked_nodup frame
        · exact List.nodup_nil
    | _ => exact h.todo
  busy hbusy := by
    by_cases hold : s.todo ≠ [] ∨ s.cancels ≠ []
    · obtain ⟨j, q, hj, hq, hphase⟩ := h.busy hold
      have hne : e ≠ .cancelled := by
        rintro rfl
        simp only [State.permits, Bool.and_eq_true, List.isEmpty_iff] at hp
        simp [hp.1, hp.2] at hold
      obtain ⟨q', hj', hq', hphase'⟩ := reading_forth he hj hq hphase hne
      exact ⟨j, q', hj', hq', hphase'⟩
    · simp only [not_or, not_not] at hold
      cases e with
      | route frame =>
          obtain ⟨-, rfl⟩ := step_route.mp he
          by_cases hc : isCancelCommand (frameCommand frame) = true
          · exact ⟨_, arrival frame, rfl, List.getElem?_concat_length, arrival_cancelling hc⟩
          · simp [State.todoAfter, hc, hold.2] at hbusy
      | _ => simp [State.todoAfter, hold.1, hold.2] at hbusy

theorem Owned.fewer (h : Owned s) (hrouter : t.router = s.router) (htodo : t.todo.Nodup)
    (hbusy : t.todo ≠ [] ∨ t.cancels ≠ [] → s.todo ≠ [] ∨ s.cancels ≠ [])
    (hentries : ∀ service key k, k ∈ collected (t.registries service) key →
      k ∈ collected (s.registries service) key) : Owned t where
  entries service key k hk := by
    rw [hrouter]
    exact h.entries service key k (hentries service key k hk)
  todo := htodo
  busy hb := by
    rw [hrouter]
    exact h.busy (hbusy hb)

theorem collected_set {service service' : Service} {registry : Registry} {key : String}
    (hsub : ∀ key, k ∈ collected registry key → k ∈ collected (s.registries service') key)
    (h : k ∈ collected ((s.setRegistry service' registry).registries service) key) :
    k ∈ collected (s.registries service) key := by
  unfold State.setRegistry at h
  by_cases hservice : service = service'
  · subst hservice
    simp only [Function.update_self] at h
    exact hsub key h
  · simpa [hservice] using h

theorem Owned.step (h : Owned s) (he : step s e = some t) : Owned t := by
  cases e with
  | router e =>
      simp only [InFlight.step] at he
      split at he
      next hp =>
        obtain ⟨router, hrouter, rfl⟩ := Option.map_eq_some_iff.mp he
        exact h.router hp hrouter
      next => cases he
  | begin i =>
      simp only [InFlight.step] at he
      split at he
      next op service hworking hids =>
        cases he
        refine ⟨?_, h.todo, h.busy⟩
        intro service' key k hk
        obtain ⟨r, hr, -, -, hop⟩ := working_some.mp hworking
        by_cases hservice : service' = service
        · subst hservice
          simp only [State.begin, State.setRegistry, Function.update_self] at hk
          obtain hk | ⟨rfl, rfl⟩ := collected_begin.mp hk
          · exact h.entries service' key k hk
          · exact ⟨r, _, hr, hop, rfl, rfl⟩
        · refine h.entries service' key k ?_
          simpa [State.begin, State.setRegistry, hservice] using hk
      next => cases he
  | ends i =>
      obtain ⟨op, -, rfl⟩ := Option.map_eq_some_iff.mp he
      unfold State.end
      dsimp only
      split
      next =>
        exact h.fewer rfl h.todo id fun _ _ _ hk =>
          collected_set (fun _ => collected_release) hk
      next => exact h.fewer rfl h.todo id fun _ _ _ => id
  | collect =>
      simp only [InFlight.step] at he
      split at he
      next hcancels htodo =>
        cases he
        refine h.fewer rfl ?_ (fun _ => Or.inl (by simp [htodo])) fun _ _ _ hk =>
          collected_set (fun _ => collected_remove) hk
        have hnodup := h.todo
        rw [htodo] at hnodup
        exact hnodup.of_cons
      next => cases he
  | cancel =>
      simp only [InFlight.step] at he
      split at he
      next => cases he
      next hcancels =>
        cases he
        refine h.fewer rfl h.todo ?_ fun _ _ _ => id
        exact fun _ => Or.inr (by simp [hcancels])
  | collectElsewhere service key =>
      cases he
      exact h.fewer rfl h.todo id fun _ _ _ hk => collected_set (fun _ => collected_remove) hk
  | cancelElsewhere n =>
      simp only [InFlight.step] at he
      split at he
      next =>
        cases he
        exact h.fewer rfl h.todo id fun _ _ _ => id
      next => cases he

/-- The reader is in `CancelInFlight` for the frame `j`, and has not ended the operation `i` that
came before it, and will not. -/
structure Missed (s : State) (i j : Nat) (r q : Routed) (op : Operation) : Prop where
  order : i < j
  before : s.router.routed[i]? = some r
  starts : operation r.frame = some op
  reading : s.router.reading = some j
  cancels : s.router.routed[j]? = some q
  target : Cancels q.frame op.target
  phase : q.phase = .cancelling
  live : ¬ s.Over i
  collected : i ∉ s.cancels
  todo : ∀ service, op.service = some service → (service, op.target.id) ∉ s.todo

theorem live_cancelled {t : State} (h : ¬ s.Over i) (hne : i ≠ k) (hended : t.ended = s.ended)
    (hcancelled : t.cancelled = Function.update s.cancelled k true) : ¬ t.Over i := by
  intro hover
  apply h
  unfold State.Over at hover ⊢
  rw [hended, hcancelled] at hover
  simpa [hne] using hover

theorem Missed.last (h : Missed s i j r q op) (hcancels : s.cancels = []) (htodo : s.todo = []) :
    ∃ events t, run step s events = some t ∧ ¬ Interrupted t := by
  have hne : i ≠ j := by
    have := h.order
    omega
  obtain ⟨s₁, hs₁⟩ : ∃ s₁, s₁ = s.router.put j { q with phase := .routing } := ⟨_, rfl⟩
  have hj₁ : s₁.routed[j]? = some { q with phase := .routing } := hs₁ ▸ put_self h.cancels
  have he₁ : Router.step s.router .cancelled = some s₁ :=
    step_cancelled.mpr ⟨j, q, h.reading, h.cancels, h.phase, hs₁⟩
  have hr₁ : s₁.reading = some j := hs₁ ▸ h.reading
  obtain ⟨s₂, hs₂⟩ : ∃ s₂, s₂ = s₁.claim j { q with phase := .routing } := ⟨_, rfl⟩
  obtain ⟨q₂, hq₂⟩ : ∃ q₂ : Routed, q₂ = { q with
      previous := s₁.tails (Routed.scope { q with phase := .routing }), phase := .claimed } :=
    ⟨_, rfl⟩
  have hj₂ : s₂.routed[j]? = some q₂ := by
    rw [hs₂, hq₂]
    exact put_self hj₁
  have he₂ : Router.step s₁ .claim = some s₂ :=
    step_claim.mpr ⟨j, _, hr₁, hj₁, rfl, hs₂⟩
  have hr₂ : s₂.reading = some j := by
    rw [hs₂]
    exact hr₁
  have he₃ : Router.step s₂ .spawn = some (s₂.spawn j q₂) :=
    step_spawn.mpr ⟨j, q₂, hr₂, hj₂, by rw [hq₂], rfl⟩
  have hi : (s₂.spawn j q₂).routed[i]? = some r := by
    refine put_ne hj₂ hne ?_
    rw [hs₂]
    refine put_ne hj₁ hne ?_
    rw [hs₁]
    exact put_ne h.cancels hne h.before
  refine ⟨[.router .cancelled, .router .claim, .router .spawn],
    { s with router := s₂.spawn j q₂ }, ?_, ?_⟩
  · simp [run, step, State.permits, State.todoAfter, hcancels, htodo, he₁, he₂, he₃]
  · intro hall
    refine h.live (hall i j r { q₂ with barrier := s₂.barrier, phase := .waiting } op h.order hi
      (put_self hj₂) h.starts ?_ rfl)
    rw [hq₂]
    exact h.target

theorem Missed.drain (h : Missed s i j r q op) : ∃ events t, run step s events = some t ∧
    Missed t i j r q op ∧ t.cancels = [] ∧ t.todo = s.todo ∧ t.registries = s.registries ∧
      t.router = s.router := by
  obtain ⟨cancels, hcancels⟩ : ∃ cancels, s.cancels = cancels := ⟨_, rfl⟩
  induction cancels generalizing s with
  | nil => exact ⟨[], s, rfl, h, hcancels, rfl, rfl, rfl⟩
  | cons k rest ih =>
      have hnot : i ≠ k ∧ i ∉ rest := by
        have := h.collected
        rw [hcancels] at this
        simpa using this
      have hnext : Missed { s with
          cancels := rest, cancelled := Function.update s.cancelled k true } i j r q op :=
        { h with
          live := live_cancelled h.live hnot.1 rfl rfl
          collected := hnot.2 }
      obtain ⟨events, t, hr, ht⟩ := ih hnext rfl
      refine ⟨.cancel :: events, t, run_cons.mpr ⟨_, ?_, hr⟩, ht⟩
      simp [step, hcancels]

theorem Missed.goes_on (h : Missed s i j r q op) (ho : Owned s) :
    ∃ events t, run step s events = some t ∧ ¬ Interrupted t := by
  obtain ⟨todo, htodo⟩ : ∃ todo, s.todo = todo := ⟨_, rfl⟩
  induction todo generalizing s with
  | nil =>
      obtain ⟨events, t, hr, ht, hcancels, htodo', -⟩ := h.drain
      obtain ⟨events', u, hr', hu⟩ := ht.last hcancels (htodo'.trans htodo)
      exact ⟨events ++ events', u, run_append.mpr ⟨t, hr, hr'⟩, hu⟩
  | cons ask rest ih =>
      obtain ⟨service, key⟩ := ask
      obtain ⟨events, t, hr, ht, hcancels, htodo', -⟩ := h.drain
      have hot : Owned t := run_invariant (fun _ _ _ ho he => ho.step he) ho hr
      rw [htodo] at htodo'
      have hcollect : step t .collect = some (t.collect service key rest) := by
        simp [step, hcancels, htodo']
      have hnot : i ∉ InFlight.collected (t.registries service) key := by
        intro hin
        obtain ⟨r', op', hr', hop', hservice, hkey⟩ := hot.entries service key i hin
        cases ht.before.symm.trans hr'
        cases ht.starts.symm.trans hop'
        apply ht.todo service hservice
        rw [hkey, htodo']
        exact List.mem_cons_self
      have hmissed : Missed (t.collect service key rest) i j r q op :=
        { ht with
          collected := hnot
          todo := fun service' hservice hin => ht.todo service' hservice (by
            rw [htodo']
            exact List.mem_cons_of_mem _ hin) }
      obtain ⟨events', u, hr', hu⟩ := ih hmissed (hot.step hcollect) rfl
      refine ⟨events ++ .collect :: events', u, run_append.mpr ⟨t, hr, ?_⟩, hu⟩
      exact run_cons.mpr ⟨_, hcollect, hr'⟩

theorem goes_on_of_not_found (ho : Owned s) (he : step s e = some t)
    (hnot : ¬ Found s e) : ∃ events u, run step t events = some u ∧ ¬ Interrupted u := by
  have hot := ho.step he
  cases e with
  | router e =>
      cases e with
      | route frame =>
          simp only [Found, not_forall] at hnot
          obtain ⟨i, r, op, hr, hop, hc, hasked, hlive⟩ := hnot
          simp only [step] at he
          split at he
          next =>
            obtain ⟨router, hrouter, rfl⟩ := Option.map_eq_some_iff.mp he
            obtain ⟨hreading, rfl⟩ := step_route.mp hrouter
            have hlt := routed_lt hr
            have hidle : s.cancels = [] := by
              by_contra hcancels
              obtain ⟨j, q, hj, -⟩ := ho.busy (Or.inr hcancels)
              rw [hreading] at hj
              cases hj
            have hmissed : Missed { s with
                router := { s.router with
                  routed := s.router.routed ++ [arrival frame]
                  reading := some s.router.routed.length }
                todo := s.todoAfter (.route frame) } i s.router.routed.length r (arrival frame)
                  op := {
              order := hlt
              before := append_forth hr
              starts := hop
              reading := rfl
              cancels := List.getElem?_concat_length
              target := hc
              phase := arrival_cancelling hc.1
              live := hlive
              collected := by simp [hidle]
              todo := by
                simp only [State.todoAfter, hc.1, if_true]
                exact hasked }
            exact hmissed.goes_on hot
          next => cases he
      | _ => exact absurd trivial hnot
  | collect =>
      simp only [Found, not_forall, not_or] at hnot
      obtain ⟨service, key, i, j, r, q, op, hhead, hj, hij, hr, hq, hop, hc, hservice, hkey, hlive,
        hregistered⟩ := hnot
      simp only [step] at he
      split at he
      next hcancels htodo =>
        cases he
        rw [htodo] at hhead
        cases hhead
        obtain ⟨j', q', hj', hq', hphase⟩ := ho.busy (Or.inl (by simp [htodo]))
        cases hj.symm.trans hj'
        cases hq.symm.trans hq'
        have hmissed : Missed (s.collect service key _) i j r q op := {
          order := hij
          before := hr
          starts := hop
          reading := hj
          cancels := hq
          target := hc
          phase := hphase
          live := hlive
          collected := hregistered
          todo := fun service' hservice' hin => by
            cases hservice.symm.trans hservice'
            have hnodup := ho.todo
            rw [htodo, List.nodup_cons] at hnodup
            exact hnodup.1 (hkey ▸ hin) }
        exact hmissed.goes_on hot
      next => cases he
  | _ => exact absurd trivial hnot

/-- A command to end what goes on for a target has ended all of it when it has been routed, if the
reader has found all of it. Where it has not, nobody else has to end the rest. -/
theorem found_operations_are_interrupted {events : List Event}
    (hr : run step {} events = some s) :
    (Admissible Found step {} events → Always Interrupted step {} events) ∧
      ∀ (e : Event) (t : State), step s e = some t → ¬ Found s e →
        ∃ events u, run step t events = some u ∧ ¬ Interrupted u := by
  constructor
  · exact always_of_admissible (fun _ h => h.interrupted) (fun _ _ _ h hok he => h.step hok he)
      covered_nil
  · intro e t he hnot
    have ho : Owned s := run_invariant (fun _ _ _ h he => h.step he) owned_nil hr
    exact goes_on_of_not_found ho he hnot

def startForward : Frame := .control (some { type := .portForwardStart, endpointID := "rule" })

def stopForward : Frame := .control (some { type := .portForwardStop, endpointID := "rule" })

def lineUp (frame : Frame) : List Event :=
  [.router (.route frame), .router .claim, .router .spawn]

def lineUpStop : List Event :=
  [.router (.route stopForward), .collect, .collect, .cancel, .collect, .router .cancelled,
   .router .claim, .router .spawn]

def found : List Event :=
  lineUp startForward ++
    [.router (.passBarrier 0), .router (.start 0), .begin 0, .router (.route stopForward),
     .collect, .cancel, .collect, .collect, .router .cancelled, .router .claim, .router .spawn]

def overtaken : List Event :=
  lineUp startForward ++
    [.router (.route stopForward), .collect, .collect, .collect, .router .cancelled,
     .router .claim, .router .spawn, .router (.passBarrier 0), .router (.start 0), .begin 0]

theorem overtaken_start_is_not_interrupted : ¬ ∀ (events : List Event) (s : State),
    run step {} events = some s → Interrupted s := by
  intro h
  have hview : (run step {} overtaken).map (fun s =>
      (s.router.routed.map fun r => (r.frame, r.phase), s.ended 0, s.cancelled 0)) =
      some ([(startForward, .running), (stopForward, .waiting)], false, false) := by
    decide
  obtain ⟨s, hs, hview⟩ := Option.map_eq_some_iff.mp hview
  simp only [Prod.mk.injEq, List.map_eq_cons_iff, List.map_eq_nil_iff] at hview
  obtain ⟨⟨r, rest, hrouted, ⟨hr, -⟩, q, rest', rfl, ⟨hq, hphase⟩, rfl⟩, hended, hcancelled⟩ := hview
  have hover := h overtaken s hs 0 1 r q
    { target := .endpoint "rule", service := some .forwarding } (by decide) (by rw [hrouted]; rfl)
    (by rw [hrouted]; rfl) (hr ▸ rfl) (hq ▸ by decide) (hphase ▸ rfl)
  simp [State.Over, hended, hcancelled] at hover

/-- `Found`, as it can be computed. -/
def finds (s : State) (e : Event) : Bool :=
  (s.router.routed.zipIdx.all fun (r, i) =>
    match operation r.frame, e with
    | some op, .router (.route frame) =>
        !decide (Cancels frame op.target) || decide (s.Over i) ||
          op.service.any fun service => (service, op.target.id) ∈ asked frame
    | some op, .collect =>
        s.todo.head?.all fun (service, key) =>
          op.service ≠ some service || op.target.id ≠ key || decide (s.Over i) ||
            decide (s.Registered i service key)
    | _, _ => true)

theorem found_of_finds (h : finds s e = true) : Found s e := by
  have hmem : ∀ {i : Nat} {r : Routed}, s.router.routed[i]? = some r →
      (r, i) ∈ s.router.routed.zipIdx := fun hr => List.mem_zipIdx_iff_getElem?.mpr hr
  rw [finds, List.all_eq_true] at h
  cases e with
  | router e =>
      cases e with
      | route frame =>
          intro i r op hr hop hc hasked
          have hi := h (r, i) (hmem hr)
          simp only [hop, hc, decide_true, Bool.not_true, Bool.false_or, Bool.or_eq_true,
            decide_eq_true_eq] at hi
          refine hi.resolve_right fun hany => ?_
          cases hservice : op.service with
          | none => simp [hservice] at hany
          | some service =>
              rw [hservice] at hany
              exact hasked service hservice (by simpa using hany)
      | _ => trivial
  | collect =>
      intro service key i j r q op hhead hj hij hr hq hop hc hservice hkey
      have hi := h (r, i) (hmem hr)
      simp only [hop, hhead, Option.all_some] at hi
      simpa [hservice, hkey] using hi
  | _ => trivial

theorem running_start_is_interrupted : Always Interrupted step {} found := by
  have hrun : (run step {} found).isSome = true := by decide
  obtain ⟨s, hs⟩ := Option.isSome_iff_exists.mp hrun
  refine (found_operations_are_interrupted hs).1 ?_
  exact admissible_of_allows (fun _ _ => found_of_finds) (by decide)

end Dolgate.InFlight
