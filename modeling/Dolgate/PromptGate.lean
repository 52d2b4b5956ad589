import Mathlib.Data.List.DropRight
import Dolgate.EchoMatch
import Dolgate.Transition

set_option autoImplicit false

/-! The gate that waits for a shell's prompt to settle before a command is injected. -/

namespace Dolgate.Autocomplete
open GoBytes Transition

def promptSuffixes : List (List UInt8) :=
  [ascii "$", ascii "#", ascii "%", ascii ">", [0xE2, 0x9D, 0xAF], [0xE2, 0x9E, 0x9C]]

def stripTerminalControls : List UInt8 → List UInt8
  | [] => []
  | b :: rest =>
      if b = 27 then stripTerminalControls (skipEscapeSequence rest)
      else if b < 0x20 ∧ b ≠ 13 ∧ b ≠ 10 ∧ b ≠ 9 then stripTerminalControls rest
      else b :: stripTerminalControls rest
termination_by value => value.length
decreasing_by
  · have := skipEscapeSequence_length rest
    simp
    omega
  · simp
  · simp

/-- `strings.TrimRight` with blanks, tabs and line ends. -/
def trimRightBlank (value : List UInt8) : List UInt8 :=
  value.rdropWhile fun b => b = 32 || b = 9 || b = 13 || b = 10

def looksLikeShellPrompt (value : List UInt8) : Bool :=
  let trimmed := trimRightBlank (stripTerminalControls value)
  if trimmed = [] then false
  else promptSuffixes.any fun suffix => suffix.isSuffixOf trimmed

def promptTailLimit : Nat := 2048

inductive Fire where
  | settled
  | timeout
deriving DecidableEq, Repr

/-- A callback is named by the `Arm` that passed it, counted from zero. `running` are the timers
that the runtime has not fired yet. -/
structure PromptSettleGate where
  tailCap : Nat
  armed : Bool
  tail : List UInt8
  quietTimer : Option Nat
  maxTimer : Option Nat
  onCommit : Option Nat
  onSettled : Option Nat
  onTimeout : Option Nat
  inputDirty : Bool
  inputSubmitted : Bool
  anyQuiet : Bool
  running : List (Nat × Fire)
  nextTimer : Nat
deriving DecidableEq, Repr

def newPromptSettleGate : PromptSettleGate where
  tailCap := promptTailLimit
  armed := false
  tail := []
  quietTimer := none
  maxTimer := none
  onCommit := none
  onSettled := none
  onTimeout := none
  inputDirty := false
  inputSubmitted := false
  anyQuiet := false
  running := []
  nextTimer := 0

namespace PromptSettleGate

/-- `Timer.Stop`. A timer whose function has been started already is not called back. -/
def stop (g : PromptSettleGate) (timer : Option Nat) : PromptSettleGate :=
  { g with running := g.running.filter fun r => some r.1 ≠ timer }

def stopQuietTimer (g : PromptSettleGate) : PromptSettleGate :=
  { g.stop g.quietTimer with quietTimer := none }

def stopTimersLocked (g : PromptSettleGate) : PromptSettleGate :=
  let g := g.stopQuietTimer
  { g.stop g.maxTimer with
    maxTimer := none, tail := [], inputDirty := false, inputSubmitted := false }

/-- `time.AfterFunc`: the timer made is the one of number `nextTimer` before the call. -/
def afterFunc (g : PromptSettleGate) (fire : Fire) : PromptSettleGate :=
  { g with running := (g.nextTimer, fire) :: g.running, nextTimer := g.nextTimer + 1 }

/-- The `n`th call of `Arm`, `ArmQuiet` or `ArmWithCommit`, and which callbacks it passes. -/
def arm (g : PromptSettleGate) (n : Nat) (commit settled timeout anyQuiet : Bool) :
    PromptSettleGate :=
  let g := g.stopTimersLocked
  { g.afterFunc .timeout with
    armed := true, anyQuiet := anyQuiet
    onCommit := if commit then some n else none
    onSettled := if settled then some n else none
    onTimeout := if timeout then some n else none
    maxTimer := some g.nextTimer }

def observeInput (g : PromptSettleGate) (data : List UInt8) : PromptSettleGate :=
  if data = [] ∨ g.armed = false then g
  else
    { g.stopQuietTimer with
      inputDirty := true
      inputSubmitted := g.inputSubmitted || data.any fun ch => ch = 13 || ch = 10 || ch = 3
      tail := [] }

def afterLineBoundary (data : List UInt8) : Option (List UInt8) :=
  if data.any fun b => b = 13 || b = 10 then
    some (data.rtakeWhile fun b => !(b = 13 || b = 10))
  else none

/-- A quiet timer that there is is reset, also when its function has been started already. -/
def restartQuietTimer (g : PromptSettleGate) : PromptSettleGate × Nat :=
  match g.quietTimer with
  | none => ({ g.afterFunc .settled with quietTimer := some g.nextTimer }, g.nextTimer)
  | some timer => ({ g.stop (some timer) with
      running := (timer, .settled) :: (g.stop (some timer)).running }, timer)

/-- What `Observe` does once the tail holds the output that counts. The second component is the
quiet timer that the prompt has started. -/
def judge (g : PromptSettleGate) : PromptSettleGate × Option Nat :=
  if g.anyQuiet || looksLikeShellPrompt g.tail then
    let (g, timer) := g.restartQuietTimer
    (g, some timer)
  else (g.stopQuietTimer, none)

def observe (g : PromptSettleGate) (chunk : List UInt8) : PromptSettleGate × Option Nat :=
  if chunk = [] ∨ g.armed = false then (g, none)
  else
    let g := { g with tail := (g.tail ++ chunk).rtake g.tailCap }
    if g.inputDirty then
      if g.inputSubmitted then
        match afterLineBoundary g.tail with
        | none => (g, none)
        | some tail =>
          let g := { g with tail := tail, inputDirty := false, inputSubmitted := false }
          if tail = [] then (g, none) else g.judge
      else (g, none)
    else g.judge

def disarm (g : PromptSettleGate) : PromptSettleGate := { g with armed := false }.stopTimersLocked

def expire (g : PromptSettleGate) (timer : Nat) : Option (PromptSettleGate × Fire) := do
  let r ← g.running.find? fun r => r.1 = timer
  some (g.stop (some timer), r.2)

end PromptSettleGate

/-- What is seen of a gate: an `Arm` by its number, a prompt that starts a quiet timer, input that
the gate has recorded, and the callbacks that run, each with the `Arm` that passed it. -/
inductive Seen where
  | arm (n : Nat)
  | disarm
  | input
  | prompt (timer : Nat)
  | commit (n : Nat)
  | settled (n timer : Nat) (tail : List UInt8)
  | timeout (n : Nat)
deriving DecidableEq, Repr

namespace Seen

/-- The `Arm` whose `onSettled` or `onTimeout` runs. -/
def runs : Seen → Option Nat
  | .settled n _ _ => some n
  | .timeout n => some n
  | _ => none

def cancels : Seen → Bool
  | .arm _ => true
  | .disarm => true
  | _ => false

def disturbs : Seen → Bool
  | .arm _ => true
  | .input => true
  | _ => false

end Seen

/-- The gate, the calls of `Arm` so far, the expired timers whose function has not taken the lock
yet, the callbacks read under the lock that do not run yet, and what was seen, newest first. -/
structure SettleSystem where
  gate : PromptSettleGate
  arms : Nat
  fired : List (Nat × Fire)
  pending : List Seen
  log : List Seen
deriving DecidableEq, Repr

inductive SettleEvent where
  | arm (commit settled timeout anyQuiet : Bool)
  | observeInput (data : List UInt8)
  | observe (chunk : List UInt8)
  | disarm
  | expire (timer : Nat)
  | lock (i : Nat)
  | call (i : Nat)
deriving DecidableEq, Repr

namespace SettleSystem

def init : SettleSystem := ⟨newPromptSettleGate, 0, [], [], []⟩

/-- The lock section of `fireSettled`, with `onCommit` called in it. -/
def fireSettled (s : SettleSystem) (timer : Nat) : SettleSystem :=
  if s.gate.armed then
    { s with
      gate := { s.gate with armed := false }.stopTimersLocked
      pending := s.pending ++
        (s.gate.onSettled.map fun n => Seen.settled n timer s.gate.tail).toList
      log := (s.gate.onCommit.map Seen.commit).toList ++ s.log }
  else s

def fireTimeout (s : SettleSystem) : SettleSystem :=
  if s.gate.armed then
    { s with
      gate := { s.gate with armed := false }.stopTimersLocked
      pending := s.pending ++ (s.gate.onTimeout.map Seen.timeout).toList }
  else s

def step (s : SettleSystem) : SettleEvent → Option SettleSystem
  | .arm commit settled timeout anyQuiet =>
      some { s with
        gate := s.gate.arm s.arms commit settled timeout anyQuiet
        arms := s.arms + 1
        log := .arm s.arms :: s.log }
  | .observeInput data =>
      some { s with
        gate := s.gate.observeInput data
        log := if data = [] ∨ s.gate.armed = false then s.log else .input :: s.log }
  | .observe chunk =>
      some { s with
        gate := (s.gate.observe chunk).1
        log := ((s.gate.observe chunk).2.map Seen.prompt).toList ++ s.log }
  | .disarm => some { s with gate := s.gate.disarm, log := .disarm :: s.log }
  | .expire timer => do
      let (gate, fire) ← s.gate.expire timer
      some { s with gate := gate, fired := s.fired ++ [(timer, fire)] }
  | .lock i => do
      let (timer, fire) ← s.fired[i]?
      let s := { s with fired := s.fired.eraseIdx i }
      some (match fire with
        | .settled => s.fireSettled timer
        | .timeout => s.fireTimeout)
  | .call i => do
      let c ← s.pending[i]?
      some { s with pending := s.pending.eraseIdx i, log := c :: s.log }

end SettleSystem

/-- The `Arm` has been neither replaced nor disarmed. -/
def Standing (n : Nat) (earlier : List Seen) : Prop :=
  ∃ since before, earlier = since ++ .arm n :: before ∧ ∀ x ∈ since, x.cancels = false

/-- There was a prompt that started the timer, and neither input nor an `Arm` since any of them. -/
def Undisturbed (timer : Nat) (earlier : List Seen) : Prop :=
  .prompt timer ∈ earlier ∧
    ∀ since before, earlier = since ++ .prompt timer :: before → ∀ x ∈ since, x.disturbs = false

/-- At most one of an `Arm`'s two callbacks runs, none after it was replaced or disarmed, and
`onSettled` only if the shell has been left alone since its prompt. -/
structure FiresRightly (log : List Seen) : Prop where
  once : ∀ later e earlier n, log = later ++ e :: earlier → e.runs = some n →
    ∀ x ∈ earlier, x.runs ≠ some n
  standing : ∀ later e earlier n, log = later ++ e :: earlier → e.runs = some n →
    Standing n earlier
  undisturbed : ∀ later n timer tail earlier, log = later ++ .settled n timer tail :: earlier →
    Undisturbed timer earlier

/-- A settle function that finds the gate armed belongs to the gate's quiet timer, and no `Arm` or
`Disarm` comes between a lock section and the callback it has left. -/
def InTime (s : SettleSystem) : SettleEvent → Prop
  | .arm _ _ _ _ => s.pending = []
  | .disarm => s.pending = []
  | .lock i => ∀ timer, s.fired[i]? = some (timer, .settled) → s.gate.armed = true →
      s.gate.quietTimer = some timer
  | _ => True

namespace PromptSettleGate

/-- What a watch leaves as `Arm` set it. -/
structure Keeps (g g' : PromptSettleGate) : Prop where
  armed : g'.armed = g.armed
  onSettled : g'.onSettled = g.onSettled
  onTimeout : g'.onTimeout = g.onTimeout
  nextTimer : g.nextTimer ≤ g'.nextTimer

variable {g g' : PromptSettleGate}

theorem Keeps.refl (g : PromptSettleGate) : g.Keeps g := ⟨rfl, rfl, rfl, Nat.le_refl _⟩

@[simp] theorem stopQuietTimer_quietTimer : g.stopQuietTimer.quietTimer = none := rfl

@[simp] theorem stopTimersLocked_quietTimer : g.stopTimersLocked.quietTimer = none := rfl

@[simp] theorem stopTimersLocked_armed : g.stopTimersLocked.armed = g.armed := rfl

@[simp] theorem stopTimersLocked_nextTimer : g.stopTimersLocked.nextTimer = g.nextTimer := rfl

theorem stopQuietTimer_keeps (g : PromptSettleGate) : g.Keeps g.stopQuietTimer :=
  ⟨rfl, rfl, rfl, Nat.le_refl _⟩

theorem observeInput_keeps (g : PromptSettleGate) (data : List UInt8) :
    g.Keeps (g.observeInput data) := by
  unfold observeInput
  split
  · exact .refl g
  · exact ⟨rfl, rfl, rfl, Nat.le_refl _⟩

theorem observeInput_quietTimer {data : List UInt8} (hd : ¬ (data = [] ∨ g.armed = false)) :
    (g.observeInput data).quietTimer = none := by
  simp [observeInput, hd]

/-- What `Observe` makes of the quiet timer: it stays or stops, or a prompt starts the old one or a
new one. -/
inductive Watches (g : PromptSettleGate) : PromptSettleGate × Option Nat → Prop where
  | kept {g' : PromptSettleGate} : g.Keeps g' → g'.quietTimer = g.quietTimer → Watches g (g', none)
  | stopped {g' : PromptSettleGate} : g.Keeps g' → g'.quietTimer = none → Watches g (g', none)
  | reset {g' : PromptSettleGate} {timer : Nat} : g.Keeps g' → g.quietTimer = some timer →
      g'.quietTimer = some timer → Watches g (g', some timer)
  | started {g' : PromptSettleGate} : g.Keeps g' → g.nextTimer < g'.nextTimer →
      g'.quietTimer = some g.nextTimer → Watches g (g', some g.nextTimer)

theorem Watches.keeps {r : PromptSettleGate × Option Nat} (h : g.Watches r) : g.Keeps r.1 := by
  cases h <;> assumption

theorem judge_watches (g : PromptSettleGate) : g.Watches g.judge := by
  unfold judge
  split
  · unfold restartQuietTimer
    cases hq : g.quietTimer with
    | none => exact .started ⟨rfl, rfl, rfl, Nat.le_succ _⟩ (Nat.lt_succ_self _) rfl
    | some timer => exact .reset ⟨rfl, rfl, rfl, Nat.le_refl _⟩ hq hq
  · exact .stopped g.stopQuietTimer_keeps rfl

theorem Watches.of_same {r : PromptSettleGate × Option Nat} (h : g'.Watches r) (hk : g.Keeps g')
    (hq : g'.quietTimer = g.quietTimer) (hn : g'.nextTimer = g.nextTimer) : g.Watches r := by
  have trans : ∀ {k : PromptSettleGate}, g'.Keeps k → g.Keeps k := fun h =>
    ⟨h.armed.trans hk.armed, h.onSettled.trans hk.onSettled, h.onTimeout.trans hk.onTimeout,
      Nat.le_trans hk.nextTimer h.nextTimer⟩
  cases h with
  | kept h h' => exact .kept (trans h) (h'.trans hq)
  | stopped h h' => exact .stopped (trans h) h'
  | reset h h' h'' => exact .reset (trans h) (hq ▸ h') h''
  | started h h' h'' =>
      rw [hn] at h' h'' ⊢
      exact .started (trans h) h' h''

theorem observe_watches (g : PromptSettleGate) (chunk : List UInt8) :
    g.Watches (g.observe chunk) := by
  have same : ∀ tail dirty submitted, g.Keeps
      { g with tail := tail, inputDirty := dirty, inputSubmitted := submitted } :=
    fun _ _ _ => ⟨rfl, rfl, rfl, Nat.le_refl _⟩
  unfold observe
  split
  · exact .kept (.refl g) rfl
  · simp only
    split
    · split
      · split
        · exact .kept (same _ _ _) rfl
        · split
          · exact .kept (same _ _ _) rfl
          · exact (judge_watches _).of_same (same _ _ _) rfl rfl
      · exact .kept (same _ _ _) rfl
    · exact (judge_watches _).of_same (same _ _ _) rfl rfl

theorem observe_idle (h : g.armed = false) (chunk : List UInt8) : g.observe chunk = (g, none) := by
  simp [observe, h]

end PromptSettleGate

section
variable {log : List Seen} {e : Seen} {n timer : Nat}

theorem Standing.cons (h : Standing n log) (he : e.cancels = false) : Standing n (e :: log) := by
  obtain ⟨since, before, rfl, hs⟩ := h
  exact ⟨e :: since, before, rfl, List.forall_mem_cons.mpr ⟨he, hs⟩⟩

theorem standing_arm (n : Nat) (log : List Seen) : Standing n (.arm n :: log) :=
  ⟨[], log, rfl, nofun⟩

theorem Undisturbed.cons (h : Undisturbed timer log) (he : e.disturbs = false) :
    Undisturbed timer (e :: log) := by
  refine ⟨List.mem_cons_of_mem _ h.1, fun since before hs => ?_⟩
  cases since with
  | nil => exact nofun
  | cons x since =>
      obtain ⟨rfl, hlog⟩ := List.cons.inj hs
      exact List.forall_mem_cons.mpr ⟨he, h.2 since before hlog⟩

theorem undisturbed_prompt (h : .prompt timer ∉ log) : Undisturbed timer (.prompt timer :: log) := by
  refine ⟨List.mem_cons_self, fun since before hs => ?_⟩
  cases since with
  | nil => exact nofun
  | cons x since =>
      obtain ⟨-, hs⟩ := List.cons.inj hs
      exact absurd (hs ▸ List.mem_append_right _ List.mem_cons_self) h

theorem firesRightly_nil : FiresRightly [] := by
  constructor <;> simp

theorem FiresRightly.cons (h : FiresRightly log)
    (hr : ∀ n, e.runs = some n → (∀ x ∈ log, x.runs ≠ some n) ∧ Standing n log)
    (hu : ∀ n timer tail, e = .settled n timer tail → Undisturbed timer log) :
    FiresRightly (e :: log) := by
  refine ⟨fun later x earlier n hs => ?_, fun later x earlier n hs => ?_,
    fun later n timer tail earlier hs => ?_⟩ <;> cases later with
    | nil =>
        obtain ⟨rfl, rfl⟩ := List.cons.inj hs
        first
          | exact fun hn => (hr n hn).1
          | exact fun hn => (hr n hn).2
          | exact hu n timer tail rfl
    | cons y later =>
        obtain ⟨-, hs⟩ := List.cons.inj hs
        first
          | exact h.once later x earlier n hs
          | exact h.standing later x earlier n hs
          | exact h.undisturbed later n timer tail earlier hs

theorem FiresRightly.cons_silent (h : FiresRightly log) (he : e.runs = none) :
    FiresRightly (e :: log) := by
  refine h.cons (fun n hn => ?_) fun n timer tail ht => ?_
  · simp [he] at hn
  · simp [ht, Seen.runs] at he

/-- The callbacks of the `Arm` may still run. -/
structure Open (s : SettleSystem) (n : Nat) : Prop where
  standing : Standing n s.log
  unrun : ∀ x ∈ s.log, x.runs ≠ some n
  armed : n < s.arms

def Due (s : SettleSystem) : Seen → Prop
  | .settled n timer _ => Open s n ∧ Undisturbed timer s.log
  | .timeout n => Open s n
  | _ => False

structure Watched (s : SettleSystem) : Prop where
  rightly : FiresRightly s.log
  numbered : ∀ x ∈ s.log, ∀ n, x.runs = some n → n < s.arms
  timers : ∀ timer, .prompt timer ∈ s.log → timer < s.gate.nextTimer
  idle : s.gate.armed = false → s.gate.quietTimer = none
  armed : s.gate.armed = true → s.pending = []
  callbacks : s.gate.armed = true → ∀ n,
    s.gate.onSettled = some n ∨ s.gate.onTimeout = some n → Open s n
  quiet : ∀ timer, s.gate.quietTimer = some timer → Undisturbed timer s.log
  due : ∀ c ∈ s.pending, Due s c
  single : s.pending.length ≤ 1

end

section
variable {s t : SettleSystem} {e : Seen} {n : Nat}

theorem Open.cons (h : Open s n) (he : e.cancels = false) (hr : e.runs = none)
    (ht : t.log = e :: s.log) (ha : t.arms = s.arms) : Open t n := by
  refine ⟨ht ▸ h.standing.cons he, ?_, ha ▸ h.armed⟩
  rw [ht]
  exact List.forall_mem_cons.mpr ⟨by simp [hr], h.unrun⟩

theorem Open.of_same (h : Open s n) (ht : t.log = s.log) (ha : t.arms = s.arms) : Open t n :=
  ⟨ht ▸ h.standing, ht ▸ h.unrun, ha ▸ h.armed⟩

theorem watched_init : Watched .init := by
  refine ⟨firesRightly_nil, ?_, ?_, ?_, ?_, ?_, ?_, ?_, ?_⟩ <;>
    simp [SettleSystem.init, newPromptSettleGate]

theorem Watched.numbered_cons (h : Watched s) (he : e.runs = none) (m : Nat) :
    ∀ x ∈ e :: s.log, ∀ n, x.runs = some n → n < s.arms + m := by
  refine List.forall_mem_cons.mpr ⟨by simp [he], fun x hx n hn => ?_⟩
  have := h.numbered x hx n hn
  omega

theorem Watched.arm (h : Watched s) (hp : s.pending = []) (commit settled timeout anyQuiet : Bool) :
    Watched { s with
      gate := s.gate.arm s.arms commit settled timeout anyQuiet
      arms := s.arms + 1
      log := .arm s.arms :: s.log } where
  rightly := h.rightly.cons_silent rfl
  numbered := h.numbered_cons rfl 1
  timers := by
    intro timer ht
    have := h.timers timer (by simpa using ht)
    simp only [PromptSettleGate.arm, PromptSettleGate.afterFunc,
      PromptSettleGate.stopTimersLocked_nextTimer]
    omega
  idle := nofun
  armed := fun _ => hp
  callbacks := by
    intro _ n hn
    have hn : n = s.arms := by
      rcases hn with hn | hn <;> simp only [PromptSettleGate.arm] at hn <;> split at hn <;> simp_all
    subst hn
    refine ⟨standing_arm _ _, fun x hx hr => ?_, Nat.lt_succ_self _⟩
    rcases List.mem_cons.mp hx with rfl | hx
    · cases hr
    · exact absurd (h.numbered x hx _ hr) (Nat.lt_irrefl _)
  quiet := nofun
  due := by simp [hp]
  single := h.single

theorem Watched.disarm (h : Watched s) (hp : s.pending = []) :
    Watched { s with gate := s.gate.disarm, log := .disarm :: s.log } where
  rightly := h.rightly.cons_silent rfl
  numbered := h.numbered_cons rfl 0
  timers := fun timer ht => h.timers timer (by simpa using ht)
  idle := fun _ => rfl
  armed := nofun
  callbacks := nofun
  quiet := nofun
  due := by simp [hp]
  single := h.single

theorem Watched.observeInput (h : Watched s) {data : List UInt8}
    (hd : ¬ (data = [] ∨ s.gate.armed = false)) :
    Watched { s with gate := s.gate.observeInput data, log := .input :: s.log } := by
  have hk := s.gate.observeInput_keeps data
  have ha : s.gate.armed = true := by
    by_contra ha
    exact hd (.inr (by simpa using ha))
  have hq := PromptSettleGate.observeInput_quietTimer hd
  refine ⟨h.rightly.cons_silent rfl, h.numbered_cons rfl 0, ?_, ?_, ?_, ?_, ?_, ?_, h.single⟩
  · intro timer ht
    exact Nat.lt_of_lt_of_le (h.timers timer (by simpa using ht)) hk.nextTimer
  · exact fun _ => hq
  · exact fun _ => h.armed ha
  · intro _ n hn
    exact (h.callbacks ha n (hk.onSettled ▸ hk.onTimeout ▸ hn)).cons rfl rfl rfl rfl
  · simp [hq]
  · simp [h.armed ha]

theorem Watched.observe (h : Watched s) (ha : s.gate.armed = true) (chunk : List UInt8) :
    Watched { s with
      gate := (s.gate.observe chunk).1
      log := ((s.gate.observe chunk).2.map Seen.prompt).toList ++ s.log } := by
  have hw := s.gate.observe_watches chunk
  generalize s.gate.observe chunk = r at hw
  have hk := hw.keeps
  have hp := h.armed ha
  have hcall : ∀ n, r.1.onSettled = some n ∨ r.1.onTimeout = some n → Open s n := fun n hn =>
    h.callbacks ha n (hk.onSettled ▸ hk.onTimeout ▸ hn)
  have hidle : r.1.armed = false → r.1.quietTimer = none := fun hf => by
    simp [hk.armed, ha] at hf
  have htimers : ∀ timer, .prompt timer ∈ s.log → timer < r.1.nextTimer := fun timer ht =>
    Nat.lt_of_lt_of_le (h.timers timer ht) hk.nextTimer
  cases hw with
  | kept _ hq =>
      exact ⟨h.rightly, h.numbered, htimers, hidle, fun _ => hp,
        fun _ n hn => (hcall n hn).of_same rfl rfl, fun timer ht => h.quiet timer (hq ▸ ht),
        by simp [hp], h.single⟩
  | stopped _ hq =>
      exact ⟨h.rightly, h.numbered, htimers, hidle, fun _ => hp,
        fun _ n hn => (hcall n hn).of_same rfl rfl, fun timer ht => (by simp [hq] at ht),
        by simp [hp], h.single⟩
  | @reset g' timer _ hold hq =>
      have hund := h.quiet timer hold
      refine ⟨h.rightly.cons_silent rfl, h.numbered_cons rfl 0, ?_, hidle, fun _ => hp,
        fun _ n hn => (hcall n hn).cons rfl rfl rfl rfl, ?_, by simp [hp], h.single⟩
      · intro timer' ht
        rcases List.mem_cons.mp ht with ht | ht
        · cases ht
          exact htimers timer hund.1
        · exact htimers timer' ht
      · intro timer' ht
        cases hq.symm.trans ht
        exact hund.cons rfl
  | @started g' _ hlt hq =>
      refine ⟨h.rightly.cons_silent rfl, h.numbered_cons rfl 0, ?_, hidle, fun _ => hp,
        fun _ n hn => (hcall n hn).cons rfl rfl rfl rfl, ?_, by simp [hp], h.single⟩
      · intro timer ht
        rcases List.mem_cons.mp ht with ht | ht
        · cases ht
          exact hlt
        · exact htimers timer ht
      · intro timer ht
        cases hq.symm.trans ht
        exact undisturbed_prompt fun ht => Nat.lt_irrefl _ (h.timers _ ht)

theorem Due.of_same {c : Seen} (h : Due s c) (ht : t.log = s.log) (ha : t.arms = s.arms) :
    Due t c := by
  cases c with
  | settled n timer tail => exact ⟨h.1.of_same ht ha, ht ▸ h.2⟩
  | timeout n => exact Open.of_same h ht ha
  | arm | disarm | input | prompt | commit => exact h

theorem Watched.fired (h : Watched s) (fired : List (Nat × Fire)) :
    Watched { s with fired := fired } where
  rightly := h.rightly
  numbered := h.numbered
  timers := h.timers
  idle := h.idle
  armed := h.armed
  callbacks := fun ha n hn => (h.callbacks ha n hn).of_same rfl rfl
  quiet := h.quiet
  due := fun c hc => (h.due c hc).of_same rfl rfl
  single := h.single

theorem Watched.expire (h : Watched s) {timer : Nat} {g : PromptSettleGate} {fire : Fire}
    (he : s.gate.expire timer = some (g, fire)) : Watched { s with gate := g } := by
  simp only [PromptSettleGate.expire, Option.bind_eq_bind, Option.bind_eq_some_iff] at he
  obtain ⟨r, -, he⟩ := he
  cases he
  exact ⟨h.rightly, h.numbered, h.timers, h.idle, h.armed,
    fun ha n hn => (h.callbacks ha n hn).of_same rfl rfl, h.quiet,
    fun c hc => (h.due c hc).of_same rfl rfl, h.single⟩

theorem Watched.commit (h : Watched s) (commit : Option Nat) :
    Watched { s with log := (commit.map Seen.commit).toList ++ s.log } := by
  cases commit with
  | none => exact h
  | some n =>
      refine ⟨h.rightly.cons_silent rfl, h.numbered_cons rfl 0, ?_, h.idle, h.armed, ?_, ?_, ?_,
        h.single⟩
      · exact fun timer ht => h.timers timer (by simpa using ht)
      · exact fun ha n hn => (h.callbacks ha n hn).cons rfl rfl rfl rfl
      · exact fun timer ht => (h.quiet timer ht).cons rfl
      · intro c hc
        have := h.due c hc
        cases c with
        | settled n timer tail => exact ⟨this.1.cons rfl rfl rfl rfl, this.2.cons rfl⟩
        | timeout n => exact Open.cons this rfl rfl rfl rfl
        | arm | disarm | input | prompt | commit => exact this

theorem Watched.settle (h : Watched s) (ha : s.gate.armed = true) {c : Option Seen}
    (hc : ∀ x, c = some x → Due s x) :
    Watched { s with
      gate := { s.gate with armed := false }.stopTimersLocked
      pending := s.pending ++ c.toList } where
  rightly := h.rightly
  numbered := h.numbered
  timers := h.timers
  idle := fun _ => rfl
  armed := nofun
  callbacks := nofun
  quiet := nofun
  due := by
    intro x hx
    rw [h.armed ha, List.nil_append, Option.mem_toList] at hx
    exact (hc x hx).of_same rfl rfl
  single := by
    rw [h.armed ha]
    cases c <;> simp

theorem Watched.fireSettled (h : Watched s) {timer : Nat}
    (hq : s.gate.armed = true → s.gate.quietTimer = some timer) :
    Watched (s.fireSettled timer) := by
  unfold SettleSystem.fireSettled
  split
  · rename_i ha
    refine Watched.commit (h.settle ha fun x hx => ?_) _
    obtain ⟨n, hn, rfl⟩ := Option.map_eq_some_iff.mp hx
    exact ⟨h.callbacks ha n (.inl hn), h.quiet timer (hq ha)⟩
  · exact h

theorem Watched.fireTimeout (h : Watched s) : Watched s.fireTimeout := by
  unfold SettleSystem.fireTimeout
  split
  · rename_i ha
    refine h.settle ha fun x hx => ?_
    obtain ⟨n, hn, rfl⟩ := Option.map_eq_some_iff.mp hx
    exact h.callbacks ha n (.inr hn)
  · exact h

theorem Due.opened {c : Seen} (h : Due s c) (hn : c.runs = some n) : Open s n := by
  cases c with
  | settled m timer tail =>
      cases hn
      exact h.1
  | timeout m =>
      cases hn
      exact h
  | arm | disarm | input | prompt | commit => exact h.elim

theorem Watched.call (h : Watched s) {i : Nat} {c : Seen} (hc : s.pending[i]? = some c) :
    Watched { s with pending := s.pending.eraseIdx i, log := c :: s.log } := by
  obtain ⟨hi, hc⟩ := List.getElem?_eq_some_iff.mp hc
  have hmem : c ∈ s.pending := hc ▸ List.getElem_mem hi
  have hdue := h.due c hmem
  have hidle : s.gate.armed = false := by
    by_contra ha
    rw [h.armed (by simpa using ha)] at hmem
    cases hmem
  have hnone : s.pending.eraseIdx i = [] := by
    have := h.single
    refine List.eq_nil_of_length_eq_zero ?_
    rw [List.length_eraseIdx_of_lt hi]
    omega
  refine ⟨h.rightly.cons (fun n hn => ⟨(hdue.opened hn).unrun, (hdue.opened hn).standing⟩) ?_, ?_, ?_,
    h.idle, ?_, ?_, ?_, ?_, ?_⟩
  · rintro n timer tail rfl
    exact hdue.2
  · exact List.forall_mem_cons.mpr ⟨fun n hn => (hdue.opened hn).armed, h.numbered⟩
  · intro timer ht
    rcases List.mem_cons.mp ht with rfl | ht
    · exact hdue.elim
    · exact h.timers timer ht
  · simp [hidle]
  · simp [hidle]
  · simp [h.idle hidle]
  · simp [hnone]
  · simp [hnone]

theorem Watched.step {e : SettleEvent} (h : Watched s) (ho : InTime s e)
    (he : s.step e = some t) : Watched t := by
  cases e with
  | arm commit settled timeout anyQuiet =>
      cases he
      exact h.arm ho commit settled timeout anyQuiet
  | observeInput data =>
      cases he
      by_cases hd : data = [] ∨ s.gate.armed = false
      · simpa [hd, PromptSettleGate.observeInput] using h
      · simpa [hd] using h.observeInput hd
  | observe chunk =>
      cases he
      cases ha : s.gate.armed with
      | false => simpa [PromptSettleGate.observe_idle ha] using h
      | true => exact h.observe ha chunk
  | disarm =>
      cases he
      exact h.disarm ho
  | expire timer =>
      simp only [SettleSystem.step, Option.bind_eq_bind, Option.bind_eq_some_iff] at he
      obtain ⟨⟨g, fire⟩, hx, he⟩ := he
      cases he
      exact (h.expire hx).fired _
  | lock i =>
      simp only [SettleSystem.step, Option.bind_eq_bind, Option.bind_eq_some_iff] at he
      obtain ⟨⟨timer, fire⟩, hf, he⟩ := he
      cases fire with
      | settled =>
          cases he
          exact (h.fired (s.fired.eraseIdx i)).fireSettled (ho timer hf)
      | timeout =>
          cases he
          exact (h.fired (s.fired.eraseIdx i)).fireTimeout
  | call i =>
      simp only [SettleSystem.step, Option.bind_eq_bind, Option.bind_eq_some_iff] at he
      obtain ⟨c, hc, he⟩ := he
      cases he
      exact h.call hc

theorem settle_fires_rightly (es : List SettleEvent)
    (ha : Admissible InTime SettleSystem.step .init es)
    (hr : run SettleSystem.step .init es = some s) : FiresRightly s.log := by
  have h : Watched s := run_invariant_of_admissible (fun _ _ _ h ho he => h.step ho he)
    watched_init ha hr
  exact h.rightly

def settles : List SettleEvent :=
  [.arm false true true false, .observe (ascii "$ "), .expire 1, .lock 0, .call 0]

theorem settle_fires_rightly_once :
    ∃ s, run SettleSystem.step .init settles = some s ∧
      s.log = [.settled 0 1 (ascii "$ "), .prompt 1, .arm 0] ∧ FiresRightly s.log := by
  have hlog : (run SettleSystem.step .init settles).map SettleSystem.log =
      some [.settled 0 1 (ascii "$ "), .prompt 1, .arm 0] := by decide +kernel
  obtain ⟨s, hs, hlog⟩ := Option.map_eq_some_iff.mp hlog
  refine ⟨s, hs, hlog, settle_fires_rightly settles ?_ hs⟩
  refine ⟨rfl, fun t ht => ?_⟩
  cases ht
  refine ⟨trivial, fun t ht => ?_⟩
  cases ht
  refine ⟨trivial, fun t ht => ⟨fun timer hf _ => ?_, fun _ _ => ⟨trivial, fun _ _ => trivial⟩⟩⟩
  have hq : t.gate.quietTimer = some 1 ∧ t.fired = [(1, .settled)] := by
    have hrun : run SettleSystem.step .init (settles.take 3) = some t :=
      run_cons.mpr ⟨_, rfl, run_cons.mpr ⟨_, rfl, run_cons.mpr ⟨t, ht, rfl⟩⟩⟩
    have hmap : (run SettleSystem.step .init (settles.take 3)).map
        (fun t => (t.gate.quietTimer, t.fired)) = some (some 1, [(1, .settled)]) := by
      decide +kernel
    rw [hrun] at hmap
    exact Prod.mk.inj (Option.some.inj hmap)
  rw [hq.2] at hf
  cases hf
  exact hq.1

/-- The user types while the function of an expired timer waits for the lock; what is typed then
ends at a prompt's glyph. -/
def typedOver : List SettleEvent :=
  [.arm false true true false, .observe (ascii "$ "), .expire 1, .observeInput (ascii "l"),
    .lock 0, .call 0]

theorem stale_timer_settles_over_input :
    ∃ s, run SettleSystem.step .init typedOver = some s ∧ ¬ FiresRightly s.log := by
  have hlog : (run SettleSystem.step .init typedOver).map SettleSystem.log =
      some [.settled 0 1 [], .input, .prompt 1, .arm 0] := by decide +kernel
  obtain ⟨s, hs, hlog⟩ := Option.map_eq_some_iff.mp hlog
  refine ⟨s, hs, fun h => ?_⟩
  have hquiet := (h.undisturbed [] 0 1 [] [.input, .prompt 1, .arm 0] hlog).2 [.input] [.arm 0] rfl
  exact absurd (hquiet .input (List.mem_singleton_self _)) (by decide)

end

end Dolgate.Autocomplete
