import Mathlib.Data.List.Basic

set_option autoImplicit false

namespace Dolgate.FlowControl

structure Limits where
  high : Int
  low : Int
  stall : Int
deriving DecidableEq, Repr

def defaultHighWatermark : Int := 1048576

def defaultLowWatermark : Int := 262144

def defaultStallTimeout : Int := 10000

def newLimits : Limits := ⟨defaultHighWatermark, defaultLowWatermark, defaultStallTimeout⟩

/-- `onPause` and `onResume` of an observed session. -/
inductive Callback where
  | pause
  | resume
deriving DecidableEq, Repr

/-- One session's count. `resume` names the channel that waiting readers hold: closing it moves on
to the next one. `armed` are the timers of this gate that the runtime has not fired yet; they know
the gate and its session. -/
structure Gate where
  sessionID : String
  unacked : Int
  paused : Bool
  resume : Nat
  lastSign : Int
  observed : Bool
  stallTimer : Option Nat
  armed : List Nat
  nextTimer : Nat
  hidden : Bool
  disabled : Bool
deriving DecidableEq, Repr

def newGate (sessionID : String) (observed : Bool) (now : Int) : Gate where
  sessionID := sessionID
  unacked := 0
  paused := false
  resume := 0
  lastSign := now
  observed := observed
  stallTimer := none
  armed := []
  nextTimer := 0
  hidden := false
  disabled := false

namespace Gate

def release (g : Gate) : Gate := { g with resume := g.resume + 1 }

def stopStallTimer (g : Gate) : Gate :=
  match g.stallTimer with
  | some timer => { g with stallTimer := none, armed := g.armed.filter (· ≠ timer) }
  | none => g

/-- `time.AfterFunc` with `checkObservedStall`, kept in the gate. -/
def afterFunc (g : Gate) : Gate :=
  { g with stallTimer := some g.nextTimer, armed := g.nextTimer :: g.armed,
           nextTimer := g.nextTimer + 1 }

def armStallTimer (g : Gate) : Gate := g.stopStallTimer.afterFunc

def callback (g : Gate) (c : Callback) : Option Callback := if g.observed then some c else none

/-- What is left of a gate that is dropped: its waiters are freed, a paused peer is resumed. -/
def drop (g : Gate) : Gate × Option Callback :=
  let g' := g.release.stopStallTimer
  (g', if g.paused then g.callback .resume else none)

def sent (l : Limits) (g : Gate) (n now : Int) : Gate × Option Callback :=
  if n ≤ 0 then (g, none)
  else
    let g := { g with unacked := g.unacked + n }
    if g.observed && !g.paused && !g.disabled && decide (l.high < g.unacked) then
      (armStallTimer { g with paused := true, lastSign := now }, some .pause)
    else (g, none)

def deduct (g : Gate) (n : Int) : Int :=
  let left := if 0 < n then g.unacked - n else g.unacked
  if left < 0 then 0 else left

def ack (l : Limits) (g : Gate) (n now : Int) : Gate × Option Callback :=
  let g := { g with lastSign := now, disabled := false, unacked := g.deduct n }
  if g.paused && decide (g.unacked ≤ l.low) then
    (stopStallTimer (release { g with paused := false }), g.callback .resume)
  else (g, none)

def checkObservedStall (l : Limits) (g : Gate) (now : Int) : Gate × Option Callback :=
  if !g.paused then (g, none)
  else if g.hidden then ({ g with stallTimer := none }, none)
  else if 0 < l.stall - (now - g.lastSign) then (g.afterFunc, none)
  else ({ g with stallTimer := none, paused := false, disabled := true }, g.callback .resume)

def setHidden (g : Gate) (hidden : Bool) (now : Int) : Gate :=
  if g.hidden = hidden then g
  else
    let g := { g with hidden := hidden }
    if hidden || !g.paused then g
    else
      let g := { g with lastSign := now }
      if g.observed then g.armStallTimer else g.release

/-- What a reader does after one look at the gate: it goes on to read, or it waits for the channel
to close, for the session's end, or for the timeout if there is one. -/
inductive Waiting where
  | done
  | on (resume : Nat) (timeout : Option Int)
deriving DecidableEq, Repr

def wait (l : Limits) (g : Gate) (now : Int) : Gate × Waiting :=
  if g.disabled || (!g.paused && decide (g.unacked ≤ l.high)) then (g, .done)
  else
    let g := if g.paused then g else { g with paused := true, lastSign := now }
    if g.hidden then (g, .on g.resume none)
    else
      let remaining := l.stall - (now - g.lastSign)
      if remaining ≤ 0 then (release { g with paused := false, disabled := true }, .done)
      else (g, .on g.resume (some remaining))

def expire (g : Gate) (timer : Nat) : Option Gate :=
  if timer ∈ g.armed then some { g with armed := g.armed.filter (· ≠ timer) } else none

/-- What one lock section does to a gate: for an observed one the callback it leaves for later
tells how `paused` changed. -/
inductive Moves (g : Gate) : Gate × Option Callback → Prop where
  | same {g' : Gate} : g'.observed = g.observed → g'.paused = g.paused → Moves g (g', none)
  | pause {g' : Gate} : g'.observed = g.observed → g.paused = false → g'.paused = true →
      Moves g (g', some .pause)
  | resume {g' : Gate} : g'.observed = g.observed → g.paused = true → g'.paused = false →
      Moves g (g', some .resume)
  | unobserved {g' : Gate} : g'.observed = g.observed → g.observed = false → Moves g (g', none)

section
variable (g : Gate)

@[simp] theorem release_unacked : g.release.unacked = g.unacked := rfl

@[simp] theorem release_paused : g.release.paused = g.paused := rfl

@[simp] theorem release_observed : g.release.observed = g.observed := rfl

@[simp] theorem stopStallTimer_unacked : g.stopStallTimer.unacked = g.unacked := by
  unfold stopStallTimer
  split <;> rfl

@[simp] theorem stopStallTimer_paused : g.stopStallTimer.paused = g.paused := by
  unfold stopStallTimer
  split <;> rfl

@[simp] theorem stopStallTimer_observed : g.stopStallTimer.observed = g.observed := by
  unfold stopStallTimer
  split <;> rfl

@[simp] theorem afterFunc_unacked : g.afterFunc.unacked = g.unacked := rfl

@[simp] theorem afterFunc_paused : g.afterFunc.paused = g.paused := rfl

@[simp] theorem afterFunc_observed : g.afterFunc.observed = g.observed := rfl

@[simp] theorem armStallTimer_unacked : g.armStallTimer.unacked = g.unacked := by
  simp [armStallTimer]

@[simp] theorem armStallTimer_paused : g.armStallTimer.paused = g.paused := by
  simp [armStallTimer]

@[simp] theorem armStallTimer_observed : g.armStallTimer.observed = g.observed := by
  simp [armStallTimer]

end

section
variable {g : Gate} (l : Limits)

theorem moves_resume {g' : Gate} (ho : g'.observed = g.observed) (hp : g.paused = true)
    (hp' : g'.paused = false) : Moves g (g', g.callback .resume) := by
  cases h : g.observed with
  | false =>
      simp only [callback, h]
      exact .unobserved ho h
  | true =>
      simp only [callback, h]
      exact .resume ho hp hp'

theorem sent_moves (n now : Int) : Moves g (g.sent l n now) := by
  unfold sent
  split
  · exact .same rfl rfl
  · simp only
    split
    · rename_i h
      simp only [Bool.and_eq_true, Bool.not_eq_true'] at h
      exact .pause (by simp) h.1.1.2 (by simp)
    · exact .same rfl rfl

theorem ack_moves (n now : Int) : Moves g (g.ack l n now) := by
  unfold ack
  simp only
  split
  · rename_i h
    simp only [Bool.and_eq_true] at h
    exact moves_resume (by simp) h.1 (by simp)
  · exact .same rfl rfl

theorem checkObservedStall_moves (now : Int) : Moves g (g.checkObservedStall l now) := by
  unfold checkObservedStall
  split
  · exact .same rfl rfl
  · rename_i hp
    split
    · exact .same rfl rfl
    · split
      · exact .same rfl rfl
      · exact moves_resume rfl (by simpa using hp) rfl

theorem setHidden_moves (hidden : Bool) (now : Int) : Moves g (g.setHidden hidden now, none) := by
  unfold setHidden
  split
  · exact .same rfl rfl
  · simp only
    split
    · exact .same rfl rfl
    · split
      · exact .same (by simp) (by simp)
      · exact .same rfl rfl

theorem expire_moves {timer : Nat} {g' : Gate} (h : g.expire timer = some g') :
    Moves g (g', none) := by
  unfold expire at h
  split at h
  · cases h
    exact .same rfl rfl
  · cases h

end

end Gate
end Dolgate.FlowControl
