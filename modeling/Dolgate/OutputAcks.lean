import Mathlib
import Dolgate.FlowControl
import Dolgate.Transition

set_option autoImplicit false

namespace Dolgate.OutputFlow
open FlowControl Transition

def outputAckStepBytes : Int := 131072

def outputHeartbeatMs : Int := 1000

def outputHiddenBacklogBytes : Int := 67108864

structure OutputFlowControl where
  received : Int
  acked : Int
  lastAckAt : Int
  disposed : Bool
  reportedHidden : Bool
deriving DecidableEq, Repr

inductive Message where
  | ack (bytes : Int)
  | setHidden (hidden : Bool)
  | stop
deriving DecidableEq, Repr

namespace OutputFlowControl

def reportVisibility (f : OutputFlowControl) (visible : Bool) :
    OutputFlowControl × List Message :=
  if f.reportedHidden ≠ !visible then
    ({ f with reportedHidden := !visible }, [.setHidden (!visible)])
  else (f, [])

def create (now : Int) (visible : Bool) : OutputFlowControl × List Message :=
  reportVisibility ⟨0, 0, now, false, false⟩ visible

def receive (f : OutputFlowControl) (bytes : Int) : OutputFlowControl :=
  if !f.disposed && decide (0 < bytes) then { f with received := f.received + bytes } else f

def processed (f : OutputFlowControl) (visible : Bool) (pending : Int) : Int :=
  let unprocessed := if visible then pending else max 0 (pending - outputHiddenBacklogBytes)
  max f.acked (f.received - unprocessed)

def settle (f : OutputFlowControl) (visible : Bool) (pendingBytes now : Int) :
    OutputFlowControl × List Message :=
  if f.disposed then (f, [])
  else
    let (f, report) := f.reportVisibility visible
    let pending := max 0 pendingBytes
    let processed := f.processed visible pending
    let delta := processed - f.acked
    if outputAckStepBytes ≤ delta ∨ (0 < pending ∧ outputHeartbeatMs ≤ now - f.lastAckAt) then
      ({ f with acked := processed, lastAckAt := now }, report ++ [.ack delta])
    else (f, report)

def dispose (f : OutputFlowControl) : OutputFlowControl × List Message :=
  if f.disposed then (f, []) else ({ f with disposed := true }, [.stop])

end OutputFlowControl

/-- One gate and one subscription. `counted` has been counted by `Sent` and not yet written,
`chunks` is on its way to the renderer, `messages` on their way to the core. `settled` tells that
`settle` has run since output arrived or was processed. -/
structure System where
  gate : Option Gate
  counted : List Nat
  chunks : List Nat
  renderer : OutputFlowControl
  pendingBytes : Int
  settled : Bool
  messages : List Message

/-- `backlog` is output that left before the gate was made: the renderer receives it, `Sent` has not
counted it. -/
inductive Event where
  | sent (n : Nat) (now : Int)
  | write (i : Nat)
  | wait (now : Int)
  | checkObservedStall (now : Int)
  | backlog (bytes : Nat)
  | deliver
  | progress (pendingBytes : Int)
  | settle (visible : Bool) (now : Int)
  | dispose
  | handle (now : Int)

namespace System

def init (sessionID : String) (observed : Bool) (started created : Int) (visible : Bool) :
    System where
  gate := some (newGate sessionID observed started)
  counted := []
  chunks := []
  renderer := (OutputFlowControl.create created visible).1
  pendingBytes := 0
  settled := false
  messages := (OutputFlowControl.create created visible).2

def handle (s : System) (now : Int) : Message → System
  | .ack bytes => { s with gate := s.gate.map fun g => (g.ack newLimits bytes now).1 }
  | .setHidden hidden => { s with gate := s.gate.map fun g => g.setHidden hidden now }
  | .stop => { s with gate := none }

def step (s : System) : Event → Option System
  | .sent n now =>
      some { s with gate := s.gate.map fun g => (g.sent newLimits n now).1,
                    counted := s.counted ++ [n] }
  | .write i => do
      let n ← s.counted[i]?
      some { s with counted := s.counted.eraseIdx i, chunks := s.chunks ++ [n] }
  | .wait now => some { s with gate := s.gate.map fun g => (g.wait newLimits now).1 }
  | .checkObservedStall now =>
      some { s with gate := s.gate.map fun g => (g.checkObservedStall newLimits now).1 }
  | .backlog bytes =>
      some { s with renderer := s.renderer.receive bytes, settled := false }
  | .deliver =>
      match s.chunks with
      | [] => none
      | n :: chunks =>
          some { s with chunks := chunks, renderer := s.renderer.receive n, settled := false }
  | .progress pendingBytes => some { s with pendingBytes := pendingBytes, settled := false }
  | .settle visible now =>
      some { s with renderer := (s.renderer.settle visible s.pendingBytes now).1,
                    messages := s.messages ++ (s.renderer.settle visible s.pendingBytes now).2,
                    settled := true }
  | .dispose =>
      some { s with renderer := s.renderer.dispose.1,
                    messages := s.messages ++ s.renderer.dispose.2 }
  | .handle now =>
      match s.messages with
      | [] => none
      | m :: messages => some (handle { s with messages := messages } now m)

end System

/-- Nothing is on its way, the renderer has processed all that it got and has settled since. -/
def Quiescent (s : System) : Prop :=
  s.counted = [] ∧ s.chunks = [] ∧ (∀ m ∈ s.messages, ∃ hidden, m = .setHidden hidden) ∧
    s.pendingBytes = 0 ∧ s.settled = true

/-- At most `d` bytes are not acknowledged, and the gate is paused only above its low watermark. -/
def Within (g : Gate) (d : Int) : Prop :=
  g.unacked ≤ d ∧ (g.paused = true → defaultLowWatermark < g.unacked)

section
variable {g : Gate} {d : Int}

theorem Within.sent (h : Within g d) (n : Nat) (now : Int) :
    Within (g.sent newLimits n now).1 (d + n) := by
  obtain ⟨hd, hp⟩ := h
  unfold Gate.sent
  split
  · refine ⟨?_, hp⟩
    change g.unacked ≤ d + n
    omega
  · have hp' : g.paused = true → defaultLowWatermark < g.unacked + n := fun h => by
      have := hp h
      omega
    simp only
    split
    · rename_i h
      simp only [Bool.and_eq_true, decide_eq_true_eq] at h
      have hhigh : defaultHighWatermark < g.unacked + n := h.2
      simp only [Within, Gate.armStallTimer_unacked, defaultHighWatermark,
        defaultLowWatermark] at hhigh ⊢
      exact ⟨by omega, fun _ => by omega⟩
    · exact ⟨by simpa using hd, hp'⟩

theorem Within.ack {n : Int} (h : Within g d) (hn : 0 ≤ n) (hd : n ≤ d) (now : Int) :
    Within (g.ack newLimits n now).1 (d - n) := by
  have hu : g.deduct n ≤ d - n := by
    have := h.1
    unfold Gate.deduct
    simp only
    split_ifs <;> omega
  unfold Gate.ack
  simp only
  split
  · exact ⟨by simpa using hu, by simp⟩
  · rename_i hlow
    refine ⟨hu, fun hp => ?_⟩
    have hp : g.paused = true := hp
    simp only [hp, Bool.true_and, decide_eq_true_eq] at hlow
    exact not_le.mp hlow

theorem Within.setHidden (h : Within g d) (hidden : Bool) (now : Int) :
    Within (g.setHidden hidden now) d := by
  unfold Gate.setHidden
  simp only
  split_ifs <;> simpa [Within] using h

theorem Within.checkObservedStall (h : Within g d) (now : Int) :
    Within (g.checkObservedStall newLimits now).1 d := by
  unfold Gate.checkObservedStall
  split_ifs
  · exact h
  · exact h
  · exact h
  · exact ⟨h.1, nofun⟩

theorem Within.wait (h : Within g d) (now : Int) : Within (g.wait newLimits now).1 d := by
  unfold Gate.wait
  split
  · exact h
  · rename_i hgate
    have hpause : Within (if g.paused then g else { g with paused := true, lastSign := now }) d := by
      split
      · exact h
      · rename_i hp
        have hhigh : defaultHighWatermark < g.unacked := by
          simp only [Bool.eq_false_of_not_eq_true hp, Bool.not_false, Bool.true_and,
            Bool.or_eq_true, decide_eq_true_eq, not_or] at hgate
          exact not_le.mp hgate.2
        refine ⟨h.1, fun _ => ?_⟩
        simp only [defaultHighWatermark, defaultLowWatermark] at hhigh ⊢
        omega
    generalize (if g.paused then g else { g with paused := true, lastSign := now }) = g' at hpause
    simp only
    split_ifs
    · exact hpause
    · exact ⟨hpause.1, nofun⟩
    · exact hpause

end

def Message.bytes : Message → Int
  | .ack bytes => bytes
  | _ => 0

/-- Bytes between `Sent` and `Ack`: on their way, received and not reported, or reported in a
message on its way. -/
def System.outstanding (s : System) : Int :=
  ((s.counted.sum + s.chunks.sum : Nat) : Int) + (s.renderer.received - s.renderer.acked) +
    (s.messages.map Message.bytes).sum

structure Inv (s : System) : Prop where
  within : s.renderer.disposed = false → ∀ g, s.gate = some g → Within g s.outstanding
  acked : s.renderer.acked ≤ s.renderer.received
  messages : ∀ m ∈ s.messages, 0 ≤ m.bytes
  disposed : s.renderer.disposed = true → s.gate = none ∨ .stop ∈ s.messages
  reported : s.renderer.disposed = false → s.settled = true → s.pendingBytes = 0 →
    s.renderer.received - s.renderer.acked < outputAckStepBytes

/-- What `settle` reports and what stays unreported. -/
structure Settles (f f' : OutputFlowControl) (pendingBytes : Int) (messages : List Message) :
    Prop where
  received : f'.received = f.received
  disposed : f'.disposed = f.disposed
  bounded : f'.acked ≤ f.received
  reported : (messages.map Message.bytes).sum = f'.acked - f.acked
  nonneg : ∀ m ∈ messages, 0 ≤ m.bytes
  rest : pendingBytes = 0 → f.received - f'.acked < outputAckStepBytes

theorem reportVisibility_frame (f : OutputFlowControl) (visible : Bool) :
    (f.reportVisibility visible).1.received = f.received ∧
      (f.reportVisibility visible).1.acked = f.acked ∧
      (f.reportVisibility visible).1.disposed = f.disposed ∧
      ∀ m ∈ (f.reportVisibility visible).2, m.bytes = 0 := by
  unfold OutputFlowControl.reportVisibility
  split <;> simp [Message.bytes]

theorem sum_bytes_eq_zero {messages : List Message} (h : ∀ m ∈ messages, m.bytes = 0) :
    (messages.map Message.bytes).sum = 0 :=
  List.sum_eq_zero (by simpa using h)

theorem settle_settles {f : OutputFlowControl} (hd : f.disposed = false)
    (ha : f.acked ≤ f.received) (visible : Bool) (pendingBytes now : Int) :
    Settles f (f.settle visible pendingBytes now).1 pendingBytes
      (f.settle visible pendingBytes now).2 := by
  obtain ⟨hrec, hack, hdis, hzero⟩ := reportVisibility_frame f visible
  unfold OutputFlowControl.settle
  simp only [hd, Bool.false_eq_true, if_false]
  generalize f.reportVisibility visible = r at hrec hack hdis hzero
  obtain ⟨f', report⟩ := r
  simp only at hrec hack hdis hzero ⊢
  have hsum := sum_bytes_eq_zero hzero
  have hlow : f.acked ≤ f'.processed visible (max 0 pendingBytes) := by
    rw [← hack]
    exact le_max_left _ _
  have hhigh : f'.processed visible (max 0 pendingBytes) ≤ f.received := by
    unfold OutputFlowControl.processed
    simp only
    split_ifs <;> omega
  have hall : pendingBytes = 0 → f.received ≤ f'.processed visible (max 0 pendingBytes) := by
    rintro rfl
    unfold OutputFlowControl.processed
    simp only [outputHiddenBacklogBytes]
    split_ifs <;> omega
  split_ifs with h
  · refine ⟨hrec, hdis, hhigh, ?_, ?_, ?_⟩
    · simp only [List.map_append, List.sum_append, hsum, List.map_cons, List.map_nil,
        Message.bytes, List.sum_cons, List.sum_nil]
      omega
    · intro m hm
      rcases List.mem_append.mp hm with hm | hm
      · exact (hzero m hm).ge
      · cases List.mem_singleton.mp hm
        simp only [Message.bytes]
        omega
    · intro hp
      have := hall hp
      simp only [outputAckStepBytes]
      omega
  · refine ⟨hrec, hdis, hack.trans_le ha, ?_, ?_, ?_⟩
    · simp only [hsum, hack, sub_self]
    · exact fun m hm => (hzero m hm).ge
    · intro hp
      have := hall hp
      simp only
      omega

theorem receive_frame (f : OutputFlowControl) (bytes : Nat) :
    (f.receive bytes).acked = f.acked ∧ (f.receive bytes).disposed = f.disposed ∧
      f.received ≤ (f.receive bytes).received ∧
      (f.disposed = false → (f.receive bytes).received = f.received + bytes) := by
  unfold OutputFlowControl.receive
  split_ifs with h
  · refine ⟨rfl, rfl, ?_, fun _ => rfl⟩
    simp only
    omega
  · refine ⟨rfl, rfl, le_refl _, fun hd => ?_⟩
    simp only [hd, Bool.not_false, Bool.true_and, decide_eq_true_eq] at h
    omega

theorem create_frame (now : Int) (visible : Bool) :
    (OutputFlowControl.create now visible).1.received = 0 ∧
      (OutputFlowControl.create now visible).1.acked = 0 ∧
      (OutputFlowControl.create now visible).1.disposed = false ∧
      ∀ m ∈ (OutputFlowControl.create now visible).2, m.bytes = 0 :=
  reportVisibility_frame _ _

variable {s t : System}

theorem inv_init (sessionID : String) (observed : Bool) (started created : Int) (visible : Bool) :
    Inv (.init sessionID observed started created visible) := by
  obtain ⟨hrec, hack, hdis, hzero⟩ := create_frame created visible
  refine ⟨fun _ g hg => ?_, ?_, fun m hm => (hzero m hm).ge, ?_, nofun⟩
  · cases hg
    refine ⟨?_, nofun⟩
    simp [System.outstanding, System.init, hrec, hack, sum_bytes_eq_zero hzero, newGate]
  · simp [System.init, hrec, hack]
  · simp [System.init, hdis]

theorem outstanding_nonneg (ha : s.renderer.acked ≤ s.renderer.received)
    (hm : ∀ m ∈ s.messages, 0 ≤ m.bytes) : 0 ≤ s.outstanding := by
  have : 0 ≤ (s.messages.map Message.bytes).sum := List.sum_nonneg (by simpa using hm)
  unfold System.outstanding
  omega

theorem Inv.gate {f : Gate → Gate} (hi : Inv s) (hf : ∀ g d, Within g d → Within (f g) d) :
    Inv { s with gate := s.gate.map f } := by
  refine ⟨fun hd g hg => ?_, hi.acked, hi.messages, fun hd => ?_, hi.reported⟩
  · obtain ⟨g₀, hg₀, rfl⟩ := Option.map_eq_some_iff.mp hg
    exact hf g₀ _ (hi.within hd g₀ hg₀)
  · exact (hi.disposed hd).imp_left fun h => by simp [h]

theorem Inv.sent (hi : Inv s) (n : Nat) (now : Int) :
    Inv { s with gate := s.gate.map fun g => (g.sent newLimits n now).1,
                 counted := s.counted ++ [n] } := by
  refine ⟨fun hd g hg => ?_, hi.acked, hi.messages, fun hd => ?_, hi.reported⟩
  · obtain ⟨g₀, hg₀, rfl⟩ := Option.map_eq_some_iff.mp hg
    have := (hi.within hd g₀ hg₀).sent n now
    convert this using 1
    simp only [System.outstanding, List.sum_append, List.sum_singleton]
    push_cast
    ring
  · exact (hi.disposed hd).imp_left fun h => by simp [h]

theorem Inv.write {i n : Nat} (hi : Inv s) (hn : s.counted[i]? = some n) :
    Inv { s with counted := s.counted.eraseIdx i, chunks := s.chunks ++ [n] } := by
  refine ⟨fun hd g hg => ?_, hi.acked, hi.messages, hi.disposed, hi.reported⟩
  have := hi.within hd g hg
  convert this using 1
  have hsum : (s.counted.eraseIdx i).sum + n = s.counted.sum := by
    obtain ⟨h, rfl⟩ := List.getElem?_eq_some_iff.mp hn
    rw [add_comm]
    exact List.CommMonoid.add_sum_eraseIdx h
  simp only [System.outstanding, List.sum_append, List.sum_singleton, ← hsum]
  push_cast
  ring

theorem Inv.receive {counted chunks : List Nat} (hi : Inv s) (n : Nat)
    (hn : s.counted.sum + s.chunks.sum ≤ counted.sum + chunks.sum + n) :
    Inv { s with counted := counted, chunks := chunks, renderer := s.renderer.receive n,
                 settled := false } := by
  obtain ⟨hack, hdis, hle, hrec⟩ := receive_frame s.renderer n
  refine ⟨fun hd g hg => ?_, ?_, hi.messages, fun hd => hi.disposed (hdis ▸ hd), nofun⟩
  · rw [hdis] at hd
    obtain ⟨hu, hp⟩ := hi.within hd g hg
    refine ⟨?_, hp⟩
    simp only [System.outstanding, hack, hrec hd] at hu ⊢
    omega
  · have := hi.acked
    simp only [hack]
    omega

theorem Inv.settle (hi : Inv s) (visible : Bool) (now : Int) :
    Inv { s with renderer := (s.renderer.settle visible s.pendingBytes now).1,
                 messages := s.messages ++ (s.renderer.settle visible s.pendingBytes now).2,
                 settled := true } := by
  cases hd : s.renderer.disposed with
  | true =>
      have hnone : s.renderer.settle visible s.pendingBytes now = (s.renderer, []) := by
        simp [OutputFlowControl.settle, hd]
      simp only [hnone, List.append_nil]
      exact ⟨fun h => by simp [hd] at h, hi.acked, hi.messages, hi.disposed,
        fun h => by simp [hd] at h⟩
  | false =>
      have hs := settle_settles hd hi.acked visible s.pendingBytes now
      generalize s.renderer.settle visible s.pendingBytes now = r at hs
      refine ⟨fun _ g hg => ?_, ?_, ?_, fun h => ?_, fun _ _ hp => ?_⟩
      · have := hi.within hd g hg
        convert this using 1
        simp only [System.outstanding, List.map_append, List.sum_append, hs.received, hs.reported]
        ring
      · exact hs.bounded.trans_eq hs.received.symm
      · intro m hm
        exact (List.mem_append.mp hm).elim (hi.messages m) (hs.nonneg m)
      · simp [hs.disposed, hd] at h
      · simpa only [hs.received] using hs.rest hp

theorem Inv.dispose (hi : Inv s) :
    Inv { s with renderer := s.renderer.dispose.1,
                 messages := s.messages ++ s.renderer.dispose.2 } := by
  unfold OutputFlowControl.dispose
  split_ifs with hd
  · simpa using hi
  · refine ⟨nofun, hi.acked, ?_, fun _ => .inr (by simp), nofun⟩
    intro m hm
    rcases List.mem_append.mp hm with hm | hm
    · exact hi.messages m hm
    · cases List.mem_singleton.mp hm
      exact le_refl _

theorem Inv.handle {m : Message} {messages : List Message} (hi : Inv s)
    (hm : s.messages = m :: messages) (now : Int) :
    Inv (System.handle { s with messages := messages } now m) := by
  have hmem : ∀ m' ∈ messages, 0 ≤ m'.bytes := fun m' h =>
    hi.messages m' (hm ▸ List.mem_cons_of_mem _ h)
  have hpos : 0 ≤ m.bytes := hi.messages m (hm ▸ List.mem_cons_self)
  have hout : s.outstanding =
      System.outstanding { s with messages := messages } + m.bytes := by
    simp only [System.outstanding, hm, List.map_cons, List.sum_cons]
    ring
  cases m with
  | ack n =>
      refine ⟨fun hd g hg => ?_, hi.acked, hmem, fun hd => ?_, hi.reported⟩
      · obtain ⟨g₀, hg₀, rfl⟩ := Option.map_eq_some_iff.mp hg
        have hrest : 0 ≤ System.outstanding { s with messages := messages } :=
          outstanding_nonneg hi.acked hmem
        simp only [Message.bytes] at hout hpos
        have := (hi.within hd g₀ hg₀).ack hpos (by omega) now
        rwa [hout, add_sub_cancel_right] at this
      · refine (hi.disposed hd).imp (fun h => by simp [System.handle, h]) fun h => ?_
        simpa [hm, System.handle] using h
  | setHidden hidden =>
      have hsame : Inv { s with messages := messages } := by
        refine ⟨fun hd g hg => ?_, hi.acked, hmem, fun hd => ?_, hi.reported⟩
        · simpa [hout, Message.bytes] using hi.within hd g hg
        · exact (hi.disposed hd).imp_right fun h => by simpa [hm] using h
      exact hsame.gate fun g d h => h.setHidden hidden now
  | stop =>
      exact ⟨nofun, hi.acked, hmem, fun _ => .inl rfl, hi.reported⟩

theorem Inv.step {e : Event} (hi : Inv s) (h : s.step e = some t) : Inv t := by
  cases e with
  | sent n now =>
      cases h
      exact hi.sent n now
  | write i =>
      simp only [System.step, Option.bind_eq_bind, Option.bind_eq_some_iff] at h
      obtain ⟨n, hn, h⟩ := h
      cases h
      exact hi.write hn
  | wait now =>
      cases h
      exact hi.gate fun g d h => h.wait now
  | checkObservedStall now =>
      cases h
      exact hi.gate fun g d h => h.checkObservedStall now
  | backlog bytes =>
      cases h
      exact hi.receive bytes (Nat.le_add_right _ _)
  | deliver =>
      simp only [System.step] at h
      split at h
      · cases h
      · rename_i n chunks hc
        cases h
        refine hi.receive n ?_
        simp [hc]
        omega
  | progress pendingBytes =>
      cases h
      exact ⟨hi.within, hi.acked, hi.messages, hi.disposed, nofun⟩
  | settle visible now =>
      cases h
      exact hi.settle visible now
  | dispose =>
      cases h
      exact hi.dispose
  | handle now =>
      simp only [System.step] at h
      split at h
      · cases h
      · rename_i m messages hm
        cases h
        exact hi.handle hm now

theorem Inv.open (hi : Inv s) (hq : Quiescent s) {g : Gate} (hg : s.gate = some g) :
    g.paused = false ∧ g.unacked ≤ defaultLowWatermark := by
  obtain ⟨hcounted, hchunks, hmessages, hpending, hsettled⟩ := hq
  have hdis : s.renderer.disposed = false := by
    by_contra hd
    rcases hi.disposed (by simpa using hd) with h | h
    · simp [h] at hg
    · obtain ⟨_, h⟩ := hmessages _ h
      cases h
  have hzero : (s.messages.map Message.bytes).sum = 0 := by
    refine sum_bytes_eq_zero fun m hm => ?_
    obtain ⟨hidden, rfl⟩ := hmessages m hm
    rfl
  obtain ⟨hu, hp⟩ := hi.within hdis g hg
  have hrest := hi.reported hdis hsettled hpending
  have hlow : g.unacked ≤ defaultLowWatermark := by
    simp only [System.outstanding, hcounted, hchunks, hzero, List.sum_nil, outputAckStepBytes,
      defaultLowWatermark] at hu hrest ⊢
    omega
  refine ⟨?_, hlow⟩
  by_contra h
  have := hp (by simpa using h)
  omega

theorem no_stuck_pause (sessionID : String) (observed : Bool) (started created : Int)
    (visible : Bool) (es : List Event)
    (hr : run System.step (.init sessionID observed started created visible) es = some s)
    (hq : Quiescent s) (g : Gate) (hg : s.gate = some g) :
    g.paused = false ∧ g.unacked ≤ defaultLowWatermark := by
  have hi : Inv s := run_invariant (fun _ _ _ hi h => hi.step h)
    (inv_init sessionID observed started created visible) hr
  exact hi.open hq hg

/-- One chunk over the high watermark stops the reader; it is processed in two parts, the last of
them too small to be reported. -/
def flood : List Event :=
  [.sent 1048577 1, .write 0, .wait 2, .deliver, .progress 100000, .settle true 3, .handle 4,
    .progress 0, .settle true 5]

theorem no_stuck_pause_flood :
    ∃ s g, run System.step (.init "shell" false 0 0 true) flood = some s ∧ s.gate = some g ∧
      g.unacked = 100000 ∧ g.paused = false ∧ g.unacked ≤ defaultLowWatermark := by
  refine ⟨_, _, rfl, rfl, rfl, no_stuck_pause "shell" false 0 0 true flood rfl ?_ _ rfl⟩
  exact ⟨rfl, rfl, nofun, rfl, rfl⟩

end Dolgate.OutputFlow
