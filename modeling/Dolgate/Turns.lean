import Dolgate.Calls

set_option autoImplicit false

/-! Programs that await, and share a state with others that run while they do. From one await to
the next a program has the state for itself: that is a turn. -/

namespace Dolgate.Turns
open Calls

/-- `σ` is the shared state, and `A` what can be awaited. -/
inductive Act (σ A : Type) where
  | read
  | write (s : σ)
  | await (a : A)

variable {σ A : Type}

/-- `R a` is the type of what `a` is settled with. -/
def Act.Reply (R : A → Type) : Act σ A → Type
  | .read => σ
  | .write _ => Unit
  | .await a => R a

abbrev Proc (σ : Type) {A : Type} (R : A → Type) : Type → Type := Prog (Act σ A) (Act.Reply R)

/-- A task that may throw an `ε`. -/
abbrev Async (σ : Type) {A : Type} (R : A → Type) (ε : Type) : Type → Type := ExceptT ε (Proc σ R)

variable {R : A → Type} {ε α β : Type}

namespace Proc

def look : Proc σ R σ := Prog.perform Act.read

def store (s : σ) : Proc σ R Unit := Prog.perform (Act.write s)

def update (f : σ → σ) : Proc σ R Unit := do store (f (← look))

def await (a : A) : Proc σ R (R a) := Prog.perform (Act.await a)

end Proc

def look : Async σ R ε σ := ExceptT.lift Proc.look

def update (f : σ → σ) : Async σ R ε Unit := ExceptT.lift (Proc.update f)

def await (a : A) : Async σ R ε (R a) := ExceptT.lift (Proc.await a)

def called (tick : A) (x : Async σ R ε α) : Async σ R ε α := ExceptT.mk do
  let result ← x.run
  let _ ← Proc.await tick
  return result

def andFinally (tick : A) (x : Async σ R ε α) (f : σ → σ) : Async σ R ε α := ExceptT.mk do
  let result ← (called tick x).run
  Proc.update f
  return result

/-- The task goes on only where the state is as `c` says. -/
def assertThat (c : σ → Prop) [DecidablePred c] (e : ε) : Async σ R ε Unit := do
  let s ← look
  if c s then pure () else throw e

def turn : Proc σ R α → σ → σ × Proc σ R α
  | .ret a, s => (s, .ret a)
  | .call .read k, s => turn (k s) s
  | .call (.write s') k, _ => turn (k ()) s'
  | .call (.await a) k, s => (s, .call (.await a) k)

def resume (reply : (a : A) → Option (R a)) : Proc σ R α → σ → Option (σ × Proc σ R α)
  | .call (.await a) k, s => (reply a).map fun r => turn (k r) s
  | _, _ => none

section

variable (Stale : σ → Prop) (Moves Same : σ → σ → Prop)

/-- A turn moves the state as `Moves` allows. If it finds the state stale it leaves it the same, and
so do all later ones. The state is `s`, and `stale` if the turn at hand has found it so. -/
def guarded : Proc σ R α → (α → Bool → σ → Prop) → Bool → σ → Prop
  | .ret a, Q, stale, s => Q a stale s
  | .call .read k, Q, stale, s => guarded (k s) Q stale s
  | .call (.write s') k, Q, stale, s =>
      Moves s s' ∧ (stale = true → Same s s') ∧ guarded (k ()) Q stale s'
  | .call (.await _) k, Q, _, _ =>
      ∀ r s, guarded (k r) Q false s ∧ (Stale s → guarded (k r) Q true s)

def Fits (stale : Bool) (s : σ) : Prop := stale = true → Stale s

def Quiet (p : Proc σ R α) : Prop :=
  ∀ stale s, Fits Stale stale s → guarded Stale Moves Same p (fun _ => Fits Stale) stale s

def Live (p : Proc σ R α) : Prop := ∀ s, guarded Stale Moves Same p (fun _ => Fits Stale) false s

def Waiting : Proc σ R α → Prop
  | .call (.await _) k => ∀ r, Quiet Stale Moves Same (k r)
  | .ret _ => True
  | .call _ _ => False

end

variable {Stale : σ → Prop} {Moves Same : σ → σ → Prop}

theorem fits_false (s : σ) : Fits Stale false s := fun h => by cases h

theorem guarded_mono {p : Proc σ R α} {Q Q' : α → Bool → σ → Prop} {stale : Bool} {s : σ}
    (hQ : ∀ a stale s, Q a stale s → Q' a stale s) (h : guarded Stale Moves Same p Q stale s) :
    guarded Stale Moves Same p Q' stale s := by
  induction p generalizing stale s with
  | ret a => exact hQ a stale s h
  | call c k ih =>
    cases c with
    | read => exact ih s h
    | write s' => exact ⟨h.1, h.2.1, ih () h.2.2⟩
    | await a => exact fun r s => ⟨ih r (h r s).1, fun hs => ih r ((h r s).2 hs)⟩

theorem guarded_bind {p : Proc σ R α} {f : α → Proc σ R β} {Q : β → Bool → σ → Prop}
    {stale : Bool} {s : σ} : guarded Stale Moves Same (p >>= f) Q stale s ↔
      guarded Stale Moves Same p (fun a => guarded Stale Moves Same (f a) Q) stale s := by
  induction p generalizing stale s with
  | ret a => exact Iff.rfl
  | call c k ih =>
    cases c with
    | read => exact ih s
    | write s' => exact and_congr_right fun _ => and_congr_right fun _ => ih ()
    | await a =>
      exact forall_congr' fun r => forall_congr' fun s =>
        and_congr (ih r) (imp_congr_right fun _ => ih r)

/-- What one turn leaves is ready for the next. -/
theorem waiting_turn {p : Proc σ R α} {stale : Bool} {s : σ}
    (h : guarded Stale Moves Same p (fun _ => Fits Stale) stale s) :
    Waiting Stale Moves Same (turn p s).2 := by
  induction p generalizing s with
  | ret a => trivial
  | call c k ih =>
    cases c with
    | read => exact ih s h
    | write s' => exact ih () h.2.2
    | await a =>
      intro r stale s hs
      cases stale with
      | false => exact (h r s).1
      | true => exact (h r s).2 (hs rfl)

theorem moves_turn (hrefl : ∀ s, Moves s s) (htrans : ∀ s t u, Moves s t → Moves t u → Moves s u)
    {p : Proc σ R α} {Q : α → Bool → σ → Prop} {stale : Bool} {s : σ}
    (h : guarded Stale Moves Same p Q stale s) : Moves s (turn p s).1 := by
  induction p generalizing s with
  | ret a => exact hrefl s
  | call c k ih =>
    cases c with
    | read => exact ih s h
    | write s' => exact htrans s s' _ h.1 (ih () h.2.2)
    | await a => exact hrefl s

/-- A turn that finds the state stale leaves it the same. -/
theorem same_turn (hrefl : ∀ s, Same s s) (htrans : ∀ s t u, Same s t → Same t u → Same s u)
    {p : Proc σ R α} {Q : α → Bool → σ → Prop} {s : σ}
    (h : guarded Stale Moves Same p Q true s) : Same s (turn p s).1 := by
  induction p generalizing s with
  | ret a => exact hrefl s
  | call c k ih =>
    cases c with
    | read => exact ih s h
    | write s' => exact htrans s s' _ (h.2.1 rfl) (ih () h.2.2)
    | await a => exact hrefl s

theorem resume_cases {reply : (a : A) → Option (R a)} {p q : Proc σ R α} {s t : σ}
    (hp : Waiting Stale Moves Same p) (h : resume reply p s = some (t, q)) :
    ∃ p', Quiet Stale Moves Same p' ∧ turn p' s = (t, q) := by
  unfold resume at h
  split at h
  · rename_i a k
    obtain ⟨r, _, hr⟩ := Option.map_eq_some_iff.mp h
    exact ⟨k r, hp r, hr⟩
  · cases h

theorem Quiet.live {p : Proc σ R α} (h : Quiet Stale Moves Same p) : Live Stale Moves Same p :=
  fun s => h false s (fits_false s)

theorem Quiet.waiting {p : Proc σ R α} (h : Quiet Stale Moves Same p) (s : σ) :
    Waiting Stale Moves Same (turn p s).2 :=
  waiting_turn (h.live s)

theorem quiet_pure (a : α) : Quiet Stale Moves Same (pure a : Proc σ R α) := fun _ _ hs => hs

theorem Quiet.bind {p : Proc σ R α} {f : α → Proc σ R β} (hp : Quiet Stale Moves Same p)
    (hf : ∀ a, Quiet Stale Moves Same (f a)) : Quiet Stale Moves Same (p >>= f) :=
  fun stale s hs =>
    guarded_bind.mpr (guarded_mono (fun a stale s hs => hf a stale s hs) (hp stale s hs))

theorem Quiet.ite {c : Prop} [Decidable c] {p q : Proc σ R α} (hp : Quiet Stale Moves Same p)
    (hq : Quiet Stale Moves Same q) : Quiet Stale Moves Same (if c then p else q) := by
  split
  · exact hp
  · exact hq

theorem Live.ite {c : Prop} [Decidable c] {p q : Proc σ R α} (hp : Live Stale Moves Same p)
    (hq : Live Stale Moves Same q) : Live Stale Moves Same (if c then p else q) := by
  split
  · exact hp
  · exact hq

section

variable {x : Async σ R ε α} {f : α → Async σ R ε β}

theorem quiet_return (a : α) : Quiet Stale Moves Same (pure a : Async σ R ε α).run := quiet_pure _

theorem quiet_throw (e : ε) : Quiet Stale Moves Same (throw e : Async σ R ε α).run := quiet_pure _

theorem quiet_continue (hf : ∀ a, Quiet Stale Moves Same (f a).run) (r : Except ε α) :
    Quiet Stale Moves Same (ExceptT.bindCont f r) := by
  cases r with
  | ok a => exact hf a
  | error e => exact quiet_pure _

theorem Quiet.seq (hx : Quiet Stale Moves Same x.run) (hf : ∀ a, Quiet Stale Moves Same (f a).run) :
    Quiet Stale Moves Same (x >>= f).run :=
  hx.bind (quiet_continue hf)

theorem Quiet.tryCatch {handler : ε → Async σ R ε α} (hx : Quiet Stale Moves Same x.run)
    (hh : ∀ e, Quiet Stale Moves Same (handler e).run) :
    Quiet Stale Moves Same (tryCatch x handler).run := by
  refine hx.bind fun r => ?_
  cases r with
  | ok a => exact quiet_pure _
  | error e => exact hh e

/-- Whoever awaits has to look at the state again. -/
theorem quiet_await (a : A) : Quiet Stale Moves Same (await a : Async σ R ε (R a)).run :=
  fun _ _ _ _ s => ⟨fits_false s, fun hs _ => hs⟩

theorem quiet_called {tick : A} (hx : Quiet Stale Moves Same x.run) :
    Quiet Stale Moves Same (called tick x).run :=
  hx.bind fun _ _ _ _ _ s => ⟨fits_false s, fun hs _ => hs⟩

theorem quiet_look {g : σ → Async σ R ε β} (hg : ∀ s, Quiet Stale Moves Same (g s).run) :
    Quiet Stale Moves Same (look >>= g).run :=
  fun stale s hs => hg s stale s hs

theorem live_look {g : σ → Async σ R ε β} (hg : ∀ s, Live Stale Moves Same (g s).run) :
    Live Stale Moves Same (look >>= g).run :=
  fun s => hg s s

theorem live_update {g : σ → σ} {k : Unit → Async σ R ε β} (hg : ∀ s, Moves s (g s))
    (hk : Live Stale Moves Same (k ()).run) : Live Stale Moves Same (update g >>= k).run :=
  fun s => ⟨hg s, nofun, hk (g s)⟩

theorem live_change {g : σ → σ} (hg : ∀ s, Moves s (g s)) :
    Live Stale Moves Same (update g : Async σ R ε Unit).run :=
  fun s => ⟨hg s, nofun, fits_false _⟩

/-- A change that leaves the state the same may be made in any turn. -/
theorem quiet_update {g : σ → σ} (hg : ∀ s, Moves s (g s)) (hsame : ∀ s, Same s (g s))
    (hstale : ∀ s t, Stale s → Same s t → Stale t) :
    Quiet Stale Moves Same (Proc.update g : Proc σ R Unit) :=
  fun _ s hs => ⟨hg s, fun _ => hsame s, fun h => hstale s _ (hs h) (hsame s)⟩

theorem quiet_andFinally {tick : A} {g : σ → σ} (hx : Quiet Stale Moves Same x.run)
    (hg : ∀ s, Moves s (g s)) (hsame : ∀ s, Same s (g s))
    (hstale : ∀ s t, Stale s → Same s t → Stale t) :
    Quiet Stale Moves Same (andFinally tick x g).run :=
  (quiet_called hx).bind fun r => (quiet_update hg hsame hstale).bind fun _ => quiet_pure r

/-- A branch that is taken only where the state is not stale may change it. -/
theorem quiet_unless_stale {c : σ → Prop} [DecidablePred c] {p q : Async σ R ε β}
    (hc : ∀ s, c s → ¬ Stale s) (hp : Live Stale Moves Same p.run)
    (hq : Quiet Stale Moves Same q.run) :
    Quiet Stale Moves Same ((look : Async σ R ε σ) >>= fun s => if c s then p else q).run := by
  intro stale s hs
  change guarded Stale Moves Same (if c s then p else q).run _ _ _
  split
  · rename_i h
    cases stale with
    | false => exact hp s
    | true => exact absurd (hs rfl) (hc s h)
  · exact hq stale s hs

/-- What follows an assertion runs only where the state is not stale. -/
theorem quiet_assertThat {c : σ → Prop} [DecidablePred c] {e : ε} {k : Unit → Async σ R ε β}
    (hc : ∀ s, c s → ¬ Stale s) (hk : Live Stale Moves Same (k ()).run) :
    Quiet Stale Moves Same (assertThat c e >>= k).run := by
  intro stale s hs
  change guarded Stale Moves Same
    ((if c s then pure () else throw e : Async σ R ε Unit) >>= k).run _ _ _
  split
  · rename_i h
    cases stale with
    | false => exact hk s
    | true => exact absurd (hs rfl) (hc s h)
  · exact quiet_throw e stale s hs

end

end Dolgate.Turns
