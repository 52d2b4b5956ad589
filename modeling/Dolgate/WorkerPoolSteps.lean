import Dolgate.WorkerPool

set_option autoImplicit false

/-! What each step of a call keeps. -/

namespace Dolgate.WorkerPool

variable {Command Output : Type}

namespace State

variable {s t : State Command Output}

variable {i : Nat} {call : Call Command Output} {lane : Lane} {w : Nat}

theorem workers_setWorker {f : Worker → Worker} {v : Nat} {worker : Worker}
    (h : (s.setWorker w f).workers[v]? = some worker) :
    ∃ old, s.workers[v]? = some old ∧ worker = if w = v then f old else old := by
  simp only [setWorker, List.getElem?_modify, Option.map_eq_map, Option.map_eq_some_iff] at h
  obtain ⟨old, hold, rfl⟩ := h
  exact ⟨old, hold, rfl⟩

theorem Seat.setWorker {f : Worker → Worker}
    (hf : ∀ worker, (f worker).closed = worker.closed) {v : Nat}
    (h : s.Seat lane v) : (s.setWorker w f).Seat lane v := by
  cases lane with
  | interactive => exact h
  | background =>
      obtain ⟨hne, worker, hworker, hopen⟩ := h
      refine ⟨hne, if w = v then f worker else worker, ?_, ?_⟩
      · simp [State.setWorker, List.getElem?_modify, hworker]
      · split_ifs
        · rw [hf, hopen]
        · exact hopen

theorem Stocked.setWorker (h : s.Stocked) {f : Worker → Worker}
    (hclosed : ∀ worker, (f worker).closed = worker.closed)
    (hstarted : ∀ worker, (f worker).started = true →
      worker.started = true ∨ s.interactive = some w) : (s.setWorker w f).Stocked where
  interactive_open := by
    intro v hv
    obtain ⟨worker, hworker, hopen⟩ := h.interactive_open v hv
    refine ⟨if w = v then f worker else worker, ?_, ?_⟩
    · simp [State.setWorker, List.getElem?_modify, hworker]
    · split_ifs
      · rw [hclosed, hopen]
      · exact hopen
  background_seat v hv := (h.background_seat v hv).setWorker hclosed
  started := by
    intro v worker hworker hstart
    obtain ⟨old, hold, rfl⟩ := workers_setWorker hworker
    split_ifs at hstart with hwv
    · subst hwv
      rcases hstarted old hstart with hbefore | hinteractive
      · exact h.started w old hold hbefore
      · exact hinteractive
    · exact h.started v old hold hstart
  logged := h.logged

theorem Extends.setWorker (h : s.Extends t i) {f : Worker → Worker}
    (hclosed : ∀ worker, (f worker).closed = worker.closed) : s.Extends (t.setWorker w f) i where
  calls := h.calls
  interactive := h.interactive
  seat j call v hij hcall hat hseat := (h.seat j call v hij hcall hat hseat).setWorker hclosed
  runs := h.runs

theorem Extends.hold (h : s.Extends t i) (w : Nat) (holder : Option Nat) :
    s.Extends (t.hold w holder) i :=
  h.setWorker (w := w) (f := fun worker => { worker with holder := holder }) fun _ => rfl

theorem Stocked.hold (h : s.Stocked) (w : Nat) (holder : Option Nat) : (s.hold w holder).Stocked :=
  h.setWorker (w := w) (f := fun worker => { worker with holder := holder }) (fun _ => rfl)
    fun _ hstart => Or.inl hstart

theorem Seat.hold {v : Nat} (h : s.Seat lane v) (w : Nat) (holder : Option Nat) :
    (s.hold w holder).Seat lane v :=
  h.setWorker (w := w) (f := fun worker => { worker with holder := holder }) fun _ => rfl

theorem Extends.refl (s : State Command Output) (i : Nat) : s.Extends s i :=
  ⟨rfl, fun _ h => h, fun _ _ _ _ _ _ h => h, fun _ _ => rfl⟩

theorem Sound.held_cases (h : s.Sound) (hcall : s.calls[i]? = some call) {v j : Nat}
    {worker : Worker} (hworker : s.workers[v]? = some worker) (hholder : worker.holder = some j) :
    (j = i ∧ ∃ lane, call.phase = .starting lane v ∨ call.phase = .running lane v) ∨
      j ≠ i ∧ s.HeldBy v j := by
  by_cases hij : j = i
  · obtain ⟨other, lane, hother, hphase⟩ := h.held v worker j hworker hholder
    subst hij
    obtain rfl : call = other := Option.some.inj (hcall.symm.trans hother)
    exact Or.inl ⟨rfl, lane, hphase⟩
  · exact Or.inr ⟨hij, h.held v worker j hworker hholder⟩

theorem Sound.acquire (h : s.Sound) (hcall : s.calls[i]? = some call)
    (hphase : call.phase = .queued lane w) :
    ((s.hold w (some i)).setPhase i (.starting lane w)).Sound := by
  have hkept := h.kept i call hcall
  refine h.setPhase hcall ((Extends.refl s i).hold w (some i)) (h.stocked.hold w (some i))
    ⟨?_, ?_, ?_, ?_⟩ ?_
  · intro lane' v hat
    obtain ⟨rfl, rfl⟩ : lane = lane' ∧ w = v := by simpa [Phase.At] using hat
    exact (hkept.seat lane w (Or.inl hphase)).hold w (some i)
  · intro lane' v hrunning
    cases hrunning
  · intro _
    exact hkept.waiting (by simp [hphase])
  · intro result hresult
    cases hresult
  · intro v worker j hworker hholder
    obtain ⟨old, hold, rfl⟩ := workers_setWorker hworker
    split_ifs at hholder with hwv
    · subst hwv
      exact Or.inl ⟨(Option.some.inj hholder).symm, lane, Or.inl rfl⟩
    · rcases h.held_cases hcall hold hholder with ⟨_, lane', hat⟩ | hother
      · simp [hphase] at hat
      · exact Or.inr hother

theorem Sound.leave (h : s.Sound) (hcall : s.calls[i]? = some call)
    (hphase : call.phase = .starting lane w ∨ call.phase = .running lane w)
    {result : Except RunError Output} (hext : s.Extends t i) (hstock : t.Stocked)
    (hworkers : t.workers = s.workers)
    (hkept : t.Kept i { call with phase := afterRun lane result })
    (hout : ∀ lane' v, ¬ (afterRun lane result).At lane' v) :
    (t.leave i lane w result).Sound := by
  refine h.setPhase hcall (hext.hold w none) (hstock.hold w none)
    ⟨fun lane' v hat => absurd hat (hout lane' v), hkept.lane, hkept.waiting, hkept.returned⟩ ?_
  intro v worker j hworker hholder
  obtain ⟨old, hold, rfl⟩ := workers_setWorker hworker
  split_ifs at hholder with hwv
  · rw [hworkers] at hold
    rcases h.held_cases hcall hold hholder with ⟨_, lane', hat⟩ | hother
    · rcases hphase with hphase | hphase <;> simp [hphase] at hat <;> exact absurd hat.2 hwv
    · exact Or.inr hother

theorem Sound.start (h : s.Sound) (hcall : s.calls[i]? = some call)
    (hphase : call.phase = .starting lane w) {worker : Worker}
    (hworker : s.workers[w]? = some worker) : (s.ensureStarted i lane w worker).Sound := by
  have hkept := h.kept i call hcall
  have hseat := hkept.seat lane w (Or.inr (Or.inl hphase))
  have hwait : s.runs i = [] := hkept.waiting (by simp [hphase])
  cases lane with
  | interactive =>
      have hw : s.interactive = some w := hseat
      obtain ⟨old, hold, hopen⟩ := h.interactive_open w hw
      obtain rfl : worker = old := Option.some.inj (hworker.symm.trans hold)
      have hnext : s.Kept i { call with phase := .running .interactive w } := by
        refine ⟨fun lane' v hat => ?_, ?_, fun _ => hwait, ?_⟩
        · obtain ⟨rfl, rfl⟩ : Lane.interactive = lane' ∧ w = v := by simpa [Phase.At] using hat
          exact hw
        · intro lane' v hrunning
          exact (Phase.running.inj hrunning).1.symm
        · intro result hresult
          cases hresult
      have hheld : ∀ (v : Nat) (other : Worker) j, s.workers[v]? = some other →
          other.holder = some j →
          (j = i ∧ ∃ lane', Phase.running .interactive w = (.starting lane' v : Phase Output) ∨
            Phase.running .interactive w = (.running lane' v : Phase Output)) ∨
          j ≠ i ∧ s.HeldBy v j := by
        intro v other j hother hholder
        rcases h.held_cases hcall hother hholder with ⟨hji, lane', hat⟩ | hrest
        · obtain ⟨rfl, rfl⟩ : Lane.interactive = lane' ∧ w = v := by simpa [hphase] using hat
          exact Or.inl ⟨hji, .interactive, Or.inr rfl⟩
        · exact Or.inr hrest
      rw [ensureStarted, if_neg (by simp [hopen])]
      split_ifs
      · exact h.setPhase hcall (Extends.refl s i) h.stocked hnext hheld
      · have hclosed : ∀ worker : Worker, ({ worker with started := true } : Worker).closed =
            worker.closed := fun _ => rfl
        refine h.setPhase hcall ((Extends.refl s i).setWorker hclosed)
          (h.stocked.setWorker hclosed fun _ _ => Or.inr hw)
          ⟨fun lane' v hat => (hnext.seat lane' v hat).setWorker hclosed, hnext.lane,
            hnext.waiting, hnext.returned⟩ ?_
        intro v other j hother hholder
        obtain ⟨old', hold', rfl⟩ := workers_setWorker hother
        refine hheld v old' j hold' ?_
        split_ifs at hholder with hwv
        · exact hholder
        · exact hholder
  | background =>
      obtain ⟨hne, old, hold, hopen⟩ := hseat
      obtain rfl : worker = old := Option.some.inj (hworker.symm.trans hold)
      have hunstarted : ¬ worker.started = true :=
        fun hstart => hne (h.started w worker hworker hstart)
      rw [ensureStarted, if_neg (by simp [hopen]), if_neg hunstarted]
      refine h.leave hcall (Or.inl hphase) (Extends.refl s i) h.stocked rfl ?_ ?_
      · exact ⟨fun lane' v hat => by simp [afterRun, Phase.At] at hat,
          fun lane' v hrunning => by simp [afterRun] at hrunning, fun _ => hwait,
          fun result hresult => by simp [afterRun] at hresult⟩
      · intro lane' v hat
        simp [afterRun, Phase.At] at hat

theorem runs_log_append (s : State Command Output) (entry : Entry Command Output) (j : Nat) :
    ({ s with log := s.log ++ [entry] } : State Command Output).runs j =
      if entry.call = j then s.runs j ++ [entry] else s.runs j := by
  simp only [runs, List.filter_append]
  split_ifs with hj <;> simp [hj]

theorem Sound.runCommand (h : s.Sound) (hcall : s.calls[i]? = some call)
    (hphase : call.phase = .running lane w) (answer : Output) :
    (s.runCommand i lane w call.command answer).Sound := by
  have hkept := h.kept i call hcall
  obtain rfl := hkept.lane lane w hphase
  have hw : s.interactive = some w := hkept.seat .interactive w (Or.inr (Or.inr hphase))
  have hwait : s.runs i = [] := hkept.waiting (by simp [hphase])
  have hi : i < s.calls.length := (List.getElem?_eq_some_iff.mp hcall).1
  refine h.leave hcall (Or.inr hphase) ⟨rfl, fun _ hv => hv, fun _ _ _ _ _ _ hseat => hseat, ?_⟩
    ⟨h.interactive_open, h.background_seat, h.started, ?_⟩ rfl ⟨?_, ?_, ?_, ?_⟩ ?_
  · intro j hj
    rw [runs_log_append, if_neg (Ne.symm hj)]
  · intro entry hentry
    rcases List.mem_append.mp hentry with hold | hnew
    · exact h.logged entry hold
    · rw [List.mem_singleton.mp hnew]
      exact hi
  · intro lane' v hat
    simp [afterRun, Phase.At] at hat
  · intro lane' v hrunning
    simp [afterRun] at hrunning
  · intro hno
    exact absurd rfl (hno _)
  · intro result hresult
    obtain rfl := Phase.returned.inj hresult
    refine ⟨w, answer, rfl, hw, ?_⟩
    rw [runs_log_append, if_pos rfl, hwait, List.nil_append]
  · intro lane' v hat
    simp [afterRun, Phase.At] at hat

theorem Sound.held_of_out (h : s.Sound) (hcall : s.calls[i]? = some call)
    (hout : ∀ lane w, ¬ call.phase.At lane w) {v j : Nat} {worker : Worker}
    (hworker : s.workers[v]? = some worker) (hholder : worker.holder = some j) :
    j ≠ i ∧ s.HeldBy v j := by
  rcases h.held_cases hcall hworker hholder with ⟨_, lane, hat⟩ | hother
  · exact absurd (Or.inr hat) (hout lane v)
  · exact hother

theorem Sound.move (h : s.Sound) (hcall : s.calls[i]? = some call)
    (hout : ∀ lane w, ¬ call.phase.At lane w) (hext : s.Extends t i) (hstock : t.Stocked)
    (hworkers : ∀ (v : Nat) worker j, t.workers[v]? = some worker → worker.holder = some j →
      ∃ old, s.workers[v]? = some old ∧ old.holder = some j)
    {phase : Phase Output} (hkept : t.Kept i { call with phase := phase }) :
    (t.setPhase i phase).Sound := by
  refine h.setPhase hcall hext hstock hkept fun v worker j hworker hholder => ?_
  obtain ⟨old, hold, hj⟩ := hworkers v worker j hworker hholder
  exact Or.inr (h.held_of_out hcall hout hold hj)

theorem getElem?_workers_denyBackground {v : Nat} {worker : Worker}
    (h : s.denyBackground.workers[v]? = some worker) :
    ∃ old, s.workers[v]? = some old ∧
      worker = if s.background = some v then old.close else old := by
  cases hback : s.background with
  | none =>
      simp only [denyBackground, hback] at h
      exact ⟨worker, h, by simp⟩
  | some w =>
      obtain ⟨old, hold, heq⟩ := workers_setWorker (s := s) (w := w) (f := Worker.close)
        (by simpa [denyBackground, setWorker, hback] using h)
      refine ⟨old, hold, heq.trans ?_⟩
      by_cases hwv : w = v <;> simp [hwv]

theorem workers_denyBackground {v : Nat} {worker : Worker} (h : s.workers[v]? = some worker)
    (hv : s.background ≠ some v) : s.denyBackground.workers[v]? = some worker := by
  cases hback : s.background with
  | none => simpa [denyBackground, hback] using h
  | some w =>
      have hne : w ≠ v := fun hwv => hv (by rw [hback, hwv])
      simp [denyBackground, hback, hne, h]

theorem Sound.deny (h : s.Sound) (hcall : s.calls[i]? = some call) (hphase : call.phase = .refused)
    (halone : ∀ w, s.background = some w → ∀ (j : Nat) other, s.calls[j]? = some other → j ≠ i →
      ¬ other.phase.At .background w) :
    (s.denyBackground.setPhase i .choosing).Sound := by
  have hout : ∀ lane w, ¬ call.phase.At lane w := by
    intro lane w hat
    simp [hphase, Phase.At] at hat
  refine h.move (t := s.denyBackground) hcall hout
    ⟨rfl, fun _ hv => hv, ?_, fun _ _ => rfl⟩ ⟨?_, ?_, ?_, h.logged⟩ ?_
    ⟨?_, ?_, fun _ => (h.kept i call hcall).waiting (by simp [hphase]), ?_⟩
  · intro j other v hj hother hat hseat
    obtain ⟨hne, worker, hworker, hopen⟩ := hseat
    have hv : s.background ≠ some v := fun hv => halone v hv j other hother hj hat
    exact ⟨hne, worker, workers_denyBackground hworker hv, hopen⟩
  · intro v hv
    obtain ⟨worker, hworker, hopen⟩ := h.interactive_open v hv
    have hne : s.background ≠ some v := fun hback => (h.background_seat v hback).1 hv
    exact ⟨worker, workers_denyBackground hworker hne, hopen⟩
  · intro v hv
    cases hv
  · intro v worker hworker hstart
    obtain ⟨old, hold, rfl⟩ := getElem?_workers_denyBackground hworker
    split_ifs at hstart with hback
    · cases hstart
    · exact h.started v old hold hstart
  · intro v worker j hworker hholder
    obtain ⟨old, hold, rfl⟩ := getElem?_workers_denyBackground hworker
    refine ⟨old, hold, ?_⟩
    split_ifs at hholder with hback
    · exact hholder
    · exact hholder
  · intro lane v hat
    simp [Phase.At] at hat
  · intro lane v hrunning
    cases hrunning
  · intro result hresult
    cases hresult

theorem getElem?_append_fresh {workers : List Worker} {v : Nat} {worker : Worker}
    (h : (workers ++ [newWorker])[v]? = some worker) :
    workers[v]? = some worker ∨ v = workers.length ∧ worker = newWorker := by
  rcases Nat.lt_trichotomy v workers.length with hlt | rfl | hgt
  · exact Or.inl (by rwa [List.getElem?_append_left hlt] at h)
  · rw [List.getElem?_concat_length] at h
    exact Or.inr ⟨rfl, (Option.some.inj h).symm⟩
  · rw [List.getElem?_eq_none (by simp; omega)] at h
    cases h

theorem getElem?_append_old {workers : List Worker} {v : Nat} {worker : Worker}
    (h : workers[v]? = some worker) : (workers ++ [newWorker])[v]? = some worker := by
  rw [List.getElem?_append_left (List.getElem?_eq_some_iff.mp h).1]
  exact h

theorem held_append_fresh {workers : List Worker} {v j : Nat} {worker : Worker}
    (h : (workers ++ [newWorker])[v]? = some worker) (hholder : worker.holder = some j) :
    ∃ old, workers[v]? = some old ∧ old.holder = some j := by
  rcases getElem?_append_fresh h with hold | ⟨_, rfl⟩
  · exact ⟨worker, hold, hholder⟩
  · cases hholder

theorem Sound.choose (h : s.Sound) (hcall : s.calls[i]? = some call)
    (hphase : call.phase = .choosing) : (s.chooseInteractive i).Sound := by
  have hout : ∀ lane w, ¬ call.phase.At lane w := by
    intro lane w hat
    simp [hphase, Phase.At] at hat
  have hwait : s.runs i = [] := (h.kept i call hcall).waiting (by simp [hphase])
  cases hinter : s.interactive with
  | some v =>
      have hchoose : s.chooseInteractive i = s.setPhase i (.queued .interactive v) := by
        simp only [chooseInteractive, interactiveWorker, hinter]
      rw [hchoose]
      refine h.move hcall hout (Extends.refl s i) h.stocked
        (fun _ worker _ hworker hholder => ⟨worker, hworker, hholder⟩)
        ⟨?_, ?_, fun _ => hwait, ?_⟩
      · intro lane w hat
        obtain ⟨rfl, rfl⟩ : Lane.interactive = lane ∧ v = w := by simpa [Phase.At] using hat
        exact hinter
      · intro lane w hrunning
        cases hrunning
      · intro result hresult
        cases hresult
  | none =>
      have hchoose : s.chooseInteractive i =
          s.newInteractive.setPhase i (.queued .interactive s.workers.length) := by
        simp only [chooseInteractive, interactiveWorker, hinter]
      have hseat : ∀ v, s.Seat .background v → s.newInteractive.Seat .background v := by
        rintro v ⟨_, worker, hworker, hopen⟩
        refine ⟨fun hv => ?_, worker, getElem?_append_old hworker, hopen⟩
        have hlt := (List.getElem?_eq_some_iff.mp hworker).1
        have hlength : s.workers.length = v := Option.some.inj hv
        omega
      rw [hchoose]
      refine h.move (t := s.newInteractive) hcall hout
        ⟨rfl, ?_, fun _ _ v _ _ _ => hseat v, fun _ _ => rfl⟩
        ⟨?_, fun w hw => hseat w (h.background_seat w hw), ?_, h.logged⟩
        (fun _ _ _ => held_append_fresh) ⟨?_, ?_, fun _ => hwait, ?_⟩
      · intro v hv
        rw [hinter] at hv
        cases hv
      · intro v hv
        obtain rfl : s.workers.length = v := Option.some.inj hv
        exact ⟨newWorker, List.getElem?_concat_length, rfl⟩
      · intro v worker hworker hstart
        rcases getElem?_append_fresh hworker with hold | ⟨_, rfl⟩
        · have hv := h.started v worker hold hstart
          rw [hinter] at hv
          cases hv
        · cases hstart
      · intro lane w hat
        obtain ⟨rfl, rfl⟩ : Lane.interactive = lane ∧ s.workers.length = w := by
          simpa [Phase.At] using hat
        rfl
      · intro lane w hrunning
        cases hrunning
      · intro result hresult
        cases hresult

theorem Sound.seatBackground (h : s.Sound) (hcall : s.calls[i]? = some call)
    (hphase : call.phase = .asking) (hext : s.Extends t i) (hstock : t.Stocked)
    (hworkers : ∀ (v : Nat) worker j, t.workers[v]? = some worker → worker.holder = some j →
      ∃ old, s.workers[v]? = some old ∧ old.holder = some j)
    (hruns : t.runs i = s.runs i) (hseat : t.Seat .background w) :
    (t.setPhase i (.queued .background w)).Sound := by
  have hout : ∀ lane w, ¬ call.phase.At lane w := by
    intro lane w hat
    simp [hphase, Phase.At] at hat
  refine h.move hcall hout hext hstock hworkers ⟨?_, ?_, fun _ => ?_, ?_⟩
  · intro lane v hat
    obtain ⟨rfl, rfl⟩ : Lane.background = lane ∧ w = v := by simpa [Phase.At] using hat
    exact hseat
  · intro lane v hrunning
    cases hrunning
  · exact hruns.trans ((h.kept i call hcall).waiting (by simp [hphase]))
  · intro result hresult
    cases hresult

theorem Sound.ask (h : s.Sound) (hcall : s.calls[i]? = some call)
    (hphase : call.phase = .asking) : (s.askBackground i).Sound := by
  by_cases hdenied : s.denied = true ∧ s.now - s.deniedAt < backgroundRetryInterval
  · have hout : ∀ lane w, ¬ call.phase.At lane w := by
      intro lane w hat
      simp [hphase, Phase.At] at hat
    have hask : s.askBackground i = s.setPhase i .choosing := by
      simp only [askBackground, backgroundWorker, if_pos hdenied]
    rw [hask]
    refine h.move hcall hout (Extends.refl s i) h.stocked
      (fun _ worker _ hworker hholder => ⟨worker, hworker, hholder⟩)
      ⟨?_, ?_, fun _ => (h.kept i call hcall).waiting (by simp [hphase]), ?_⟩
    · intro lane w hat
      simp [Phase.At] at hat
    · intro lane w hrunning
      cases hrunning
    · intro result hresult
      cases hresult
  · cases hback : s.background with
    | some w =>
        have hask : s.askBackground i = ({ s with denied := false } : State Command Output).setPhase
            i (.queued .background w) := by
          simp only [askBackground, backgroundWorker, if_neg hdenied, hback]
        rw [hask]
        exact h.seatBackground (t := { s with denied := false }) hcall hphase
          ⟨rfl, fun _ hv => hv, fun _ _ _ _ _ _ hseat => hseat, fun _ _ => rfl⟩
          ⟨h.interactive_open, h.background_seat, h.started, h.logged⟩
          (fun _ worker _ hworker hholder => ⟨worker, hworker, hholder⟩) rfl
          (h.background_seat w hback)
    | none =>
        have hask : s.askBackground i =
            ({ s with denied := false } : State Command Output).newBackground.setPhase i
              (.queued .background s.workers.length) := by
          simp only [askBackground, backgroundWorker, if_neg hdenied, hback]
        rw [hask]
        have hfresh : s.interactive ≠ some s.workers.length := by
          intro hv
          obtain ⟨worker, hworker, _⟩ := h.interactive_open _ hv
          exact absurd (List.getElem?_eq_some_iff.mp hworker).1 (Nat.lt_irrefl _)
        have hseat : ({ s with denied := false } : State Command Output).newBackground.Seat
            .background s.workers.length :=
          ⟨hfresh, newWorker, List.getElem?_concat_length, rfl⟩
        refine h.seatBackground
          (t := ({ s with denied := false } : State Command Output).newBackground) hcall hphase
          ⟨rfl, fun _ hv => hv, ?_, fun _ _ => rfl⟩ ⟨?_, ?_, ?_, h.logged⟩
          (fun _ _ _ => held_append_fresh) rfl hseat
        · rintro _ _ v _ _ _ ⟨hne, worker, hworker, hopen⟩
          exact ⟨hne, worker, getElem?_append_old hworker, hopen⟩
        · intro v hv
          obtain ⟨worker, hworker, hopen⟩ := h.interactive_open v hv
          exact ⟨worker, getElem?_append_old hworker, hopen⟩
        · intro v hv
          obtain rfl : s.workers.length = v := Option.some.inj hv
          exact hseat
        · intro v worker hworker hstart
          rcases getElem?_append_fresh hworker with hold | ⟨_, rfl⟩
          · exact h.started v worker hold hstart
          · cases hstart

theorem Sound.enter (h : s.Sound) (lane : Lane) (command : Command) :
    (s.enter lane command).Sound where
  kept := by
    intro i call hcall
    by_cases hi : i < s.calls.length
    · rw [State.enter, List.getElem?_append_left hi] at hcall
      have hold := h.kept i call hcall
      exact ⟨fun lane w hat => by cases lane <;> exact hold.seat _ w hat, hold.lane, hold.waiting,
        hold.returned⟩
    · have hlength := (List.getElem?_eq_some_iff.mp hcall).1
      simp only [State.enter, List.length_append, List.length_singleton] at hlength
      obtain rfl : i = s.calls.length := by omega
      rw [State.enter, List.getElem?_concat_length] at hcall
      obtain rfl := Option.some.inj hcall
      refine ⟨?_, ?_, fun _ => s.runs_eq_nil_of_length_le h (Nat.le_refl _), ?_⟩
      · intro lane' w hat
        cases lane <;> simp [Phase.At] at hat
      · intro lane' w hrunning
        cases lane <;> simp at hrunning
      · intro result hresult
        cases lane <;> simp at hresult
  interactive_open := h.interactive_open
  background_seat := h.background_seat
  started := h.started
  held := by
    intro w worker j hworker hholder
    obtain ⟨call, lane', hcall, hphase⟩ := h.held w worker j hworker hholder
    refine ⟨call, lane', ?_, hphase⟩
    rw [State.enter, List.getElem?_append_left (List.getElem?_eq_some_iff.mp hcall).1]
    exact hcall
  logged := by
    intro entry hentry
    have hlt := h.logged entry hentry
    simp only [State.enter, List.length_append, List.length_singleton]
    omega

theorem Sound.afterStep (h : s.Sound) {e : Event Command Output} (halone : AloneInRefusal s e)
    (hstep : step s e = some t) : t.Sound := by
  cases e with
  | call lane command =>
      obtain rfl := Option.some.inj hstep
      exact h.enter lane command
  | tick elapsed =>
      obtain rfl := Option.some.inj hstep
      exact ⟨fun i call hcall => ⟨fun lane w hat => by
          cases lane <;> exact (h.kept i call hcall).seat _ w hat,
        (h.kept i call hcall).lane, (h.kept i call hcall).waiting, (h.kept i call hcall).returned⟩,
        h.interactive_open, h.background_seat, h.started, h.held, h.logged⟩
  | advance i answer =>
      obtain ⟨call, hcall, hadvance⟩ := Option.bind_eq_some_iff.mp hstep
      cases hphase : call.phase with
      | asking =>
          simp only [advance, hphase] at hadvance
          exact Option.some.inj hadvance ▸ h.ask hcall hphase
      | choosing =>
          simp only [advance, hphase] at hadvance
          exact Option.some.inj hadvance ▸ h.choose hcall hphase
      | queued lane w =>
          simp only [advance, hphase] at hadvance
          obtain ⟨worker, _, hfree⟩ := Option.bind_eq_some_iff.mp hadvance
          obtain ⟨_, hnext⟩ := Option.ite_none_right_eq_some.mp hfree
          exact Option.some.inj hnext ▸ h.acquire hcall hphase
      | starting lane w =>
          simp only [advance, hphase] at hadvance
          obtain ⟨worker, hworker, hnext⟩ := Option.map_eq_some_iff.mp hadvance
          exact hnext ▸ h.start hcall hphase hworker
      | running lane w =>
          simp only [advance, hphase] at hadvance
          exact Option.some.inj hadvance ▸ h.runCommand hcall hphase answer
      | refused =>
          simp only [advance, hphase] at hadvance
          exact Option.some.inj hadvance ▸ h.deny hcall hphase (halone call hcall hphase)
      | returned result => simp [advance, hphase] at hadvance

/-- As long as a call has not returned, some call can go on: only a worker's place has to be waited
for, and the call that holds it does not wait. -/
theorem Sound.progress (h : s.Sound) (answer : Output) (hcall : s.calls[i]? = some call)
    (hpending : ∀ result, call.phase ≠ .returned result) :
    ∃ j, (step s (.advance j answer)).isSome = true := by
  have hworker : ∀ lane w, call.phase.At lane w → ∃ worker, s.workers[w]? = some worker := by
    intro lane w hat
    cases lane with
    | interactive =>
        obtain ⟨worker, hworker, _⟩ := h.interactive_open w ((h.kept i call hcall).seat _ w hat)
        exact ⟨worker, hworker⟩
    | background =>
        obtain ⟨_, worker, hworker, _⟩ := (h.kept i call hcall).seat _ w hat
        exact ⟨worker, hworker⟩
  have hstep : step s (.advance i answer) = s.advance i call answer := by
    rw [step, hcall, Option.bind_some]
  cases hphase : call.phase with
  | asking => exact ⟨i, by simp [hstep, advance, hphase]⟩
  | choosing => exact ⟨i, by simp [hstep, advance, hphase]⟩
  | queued lane w =>
      obtain ⟨worker, hw⟩ := hworker lane w (Or.inl hphase)
      cases hholder : worker.holder with
      | none => exact ⟨i, by simp [hstep, advance, hphase, hw, hholder]⟩
      | some j =>
          obtain ⟨other, lane', hother, hat⟩ := h.held w worker j hw hholder
          have hnext : step s (.advance j answer) = s.advance j other answer := by
            rw [step, hother, Option.bind_some]
          rcases hat with hat | hat
          · exact ⟨j, by simp [hnext, advance, hat, hw]⟩
          · exact ⟨j, by simp [hnext, advance, hat]⟩
  | starting lane w =>
      obtain ⟨worker, hw⟩ := hworker lane w (Or.inr (Or.inl hphase))
      exact ⟨i, by simp [hstep, advance, hphase, hw]⟩
  | running lane w => exact ⟨i, by simp [hstep, advance, hphase]⟩
  | refused => exact ⟨i, by simp [hstep, advance, hphase]⟩
  | returned result => exact absurd hphase (hpending result)

end State

end Dolgate.WorkerPool
