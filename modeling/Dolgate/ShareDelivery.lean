import Dolgate.ShareHub

set_option autoImplicit false

/-! What a connection is told on one topic: what has been written to it and what is still to be
written, in the order of the lock sections. `f` tells what a message says on the topic. -/

namespace Dolgate.SessionShare
open Transition

variable {β : Type} (f : Message → Option β)

def Action.on (conn : Nat) : Action → Option β
  | .write c m => if c = conn then f m else none
  | .send c m => if c = conn then f m else none
  | .late c m => if c = conn then f m else none
  | .close _ => none

def Seen.on (conn : Nat) : Seen → Option β
  | .wrote c m => if c = conn then f m else none
  | _ => none

namespace System

def sent (s : System) (conn : Nat) : List β := s.log.filterMap (Seen.on f conn)

def unsent (s : System) (conn : Nat) : List β := s.pending.filterMap fun e => e.2.on f conn

def conveyed (s : System) (conn : Nat) : List β := s.sent f conn ++ s.unsent f conn

/-- What is written to a connection on the topic comes in the order of the lock sections. -/
def InTurn (s : System) : Event → Prop
  | .perform i => ∀ t a conn, s.pending[i]? = some (t, a) → a.on f conn ≠ none →
      ∀ y ∈ s.pending.take i, y.2.on f conn = none
  | _ => True

def Relooks (f : Message → Option β) : Prop := ∀ m layout, f (Message.relook layout m) = f m

variable {s u : System} {conn t : Nat} {actions : List Action} {f}

theorem conveyed_enqueue : (s.enqueue t actions).conveyed f conn =
    s.conveyed f conn ++ actions.filterMap (Action.on f conn) := by
  simp only [conveyed, sent, unsent, enqueue_log, enqueue_pending, List.filterMap_append,
    List.filterMap_map, List.append_assoc]
  rfl

theorem conveyed_record {e : Seen} (he : ∀ c m, e ≠ .wrote c m) :
    (s.record e).conveyed f conn = s.conveyed f conn := by
  have hnone : Seen.on f conn e = none := by
    cases e with
    | wrote c m => exact absurd rfl (he c m)
    | accepted | set | returned => rfl
  simp [conveyed, sent, unsent, hnone]

theorem on_eq_nil (h : ∀ a ∈ actions, a.on f conn = none) :
    actions.filterMap (Action.on f conn) = [] :=
  Outbox.filterMap_eq_nil h

theorem flatMap_on {viewers : List Nat} {act : Nat → List Action} {l : List β}
    (hact : ∀ v, (act v).filterMap (Action.on f conn) = if v = conn then l else [])
    (hnd : viewers.Nodup) :
    (viewers.flatMap act).filterMap (Action.on f conn) = if conn ∈ viewers then l else [] := by
  induction viewers with
  | nil => simp
  | cons v viewers ih =>
      obtain ⟨hv, hnd⟩ := List.nodup_cons.mp hnd
      rw [List.flatMap_cons, List.filterMap_append, hact, ih hnd]
      by_cases hvc : v = conn
      · subst hvc
        simp [hv]
      · have hne : conn ≠ v := fun h => hvc h.symm
        simp [hvc, hne]

theorem toViewers_on {share : Share} {act : Nat → Action} {b : Option β}
    (hact : ∀ v c, (act v).on f c = if v = c then b else none) (hnd : share.viewers.Nodup) :
    (share.toViewers act).filterMap (Action.on f conn) =
      if conn ∈ share.viewers then b.toList else [] := by
  rw [Share.toViewers, List.map_eq_flatMap]
  refine flatMap_on (fun v => ?_) hnd
  by_cases hv : v = conn
  · cases b <;> simp [hact, hv]
  · simp [hact, hv]

theorem toOwner_on {share : Share} {act : Nat → Action} {b : Option β}
    (hact : ∀ v c, (act v).on f c = if v = c then b else none) :
    (share.toOwner act).filterMap (Action.on f conn) =
      if share.owner = some conn then b.toList else [] := by
  cases ho : share.owner with
  | none => simp [Share.toOwner, ho]
  | some owner =>
      by_cases hc : owner = conn
      · cases b <;> simp [Share.toOwner, ho, hact, hc]
      · simp [Share.toOwner, ho, hact, hc]

theorem leaveLoop_conveyed (s : System) (t : Nat) (thread : Thread) :
    (s.leaveLoop t thread).conveyed f conn = s.conveyed f conn := rfl

theorem conveyed_perform (hf : Relooks f) {i : Nat} {a : Action}
    (hi : s.pending[i]? = some (t, a))
    (hturn : a.on f conn ≠ none → ∀ y ∈ s.pending.take i, y.2.on f conn = none)
    (hopen : a.on f conn ≠ none → s.shut conn = false) :
    (System.act { s with pending := s.pending.eraseIdx i } t a).conveyed f conn =
      s.conveyed f conn := by
  have hdeliver := Outbox.filterMap_deliver (f := fun e : Nat × Action => e.2.on f conn) hi hturn
  have hwrote : ∀ c m, (Seen.on f conn (.wrote c m)) = if c = conn then f m else none :=
    fun _ _ => rfl
  have hdone : a.on f conn = none →
      s.sent f conn ++ (s.pending.eraseIdx i).filterMap (fun e => e.2.on f conn) =
        s.conveyed f conn := by
    intro hnone
    simpa [hnone, conveyed, unsent] using congrArg (s.sent f conn ++ ·) hdeliver
  have hsaid : ∀ c m, a.on f conn = (if c = conn then f m else none) →
      (if c = conn then f m else none).toList = [Seen.wrote c m].filterMap (Seen.on f conn) := by
    intro c m _
    by_cases hc : c = conn
    · cases hm : f m <;> simp [hwrote, hc, hm]
    · simp [hwrote, hc]
  have hput : ∀ c m, a.on f conn = (if c = conn then f m else none) →
      (System.record { s with pending := s.pending.eraseIdx i } (.wrote c m)).conveyed f conn =
        s.conveyed f conn := by
    intro c m ha
    have hd := hdeliver
    simp only [ha] at hd
    rw [hsaid c m ha] at hd
    simp only [conveyed, sent, unsent, record_log, record_pending, List.filterMap_append,
      List.append_assoc, hd]
  have hshut : ∀ c m, a.on f conn = (if c = conn then f m else none) → s.shut c = true →
      a.on f conn = none := by
    intro c m ha hc
    by_contra hne
    have hcc : c = conn := by
      by_contra hcc
      exact hne (by rw [ha, if_neg hcc])
    rw [hcc, hopen hne] at hc
    cases hc
  cases a with
  | write c m =>
      simp only [act]
      split
      · exact hdone (hshut c m rfl ‹_›)
      · exact hput c m rfl
  | late c m =>
      simp only [act]
      split
      · exact hdone (hshut c m rfl ‹_›)
      · exact hput c _ (by rw [Action.on, hf m])
  | send c m =>
      simp only [act]
      split
      · split
        · exact hdone (hshut c m rfl ‹_›)
        · exact hdone (hshut c m rfl ‹_›)
      · exact hput c m rfl
  | close c => exact hdone rfl

structure Neutral (f : Message → Option β) : Prop where
  viewerCount : ∀ n, f (.viewerCount n) = none
  shareEnded : ∀ message reason, f (.shareEnded message reason) = none
  viewerInput : ∀ encoding data, f (.viewerInput encoding data) = none
  controlSignal : ∀ signal, f (.controlSignal signal) = none

theorem toViewers_silent {share : Share} {act : Nat → Action}
    (hact : ∀ v c, (act v).on f c = none) : ∀ a ∈ share.toViewers act, a.on f conn = none := by
  simpa [Share.toViewers] using fun v _ => hact v conn

theorem toOwner_silent {share : Share} {act : Nat → Action}
    (hact : ∀ v c, (act v).on f c = none) : ∀ a ∈ share.toOwner act, a.on f conn = none := by
  cases ho : share.owner <;> simp [Share.toOwner, ho, hact]

theorem Neutral.broadcastViewerCount (hn : Neutral f) (share : Share) :
    ∀ a ∈ share.broadcastViewerCount, a.on f conn = none := by
  have hact : ∀ n v c, (Action.write v (.viewerCount n)).on f c = none := by
    simp [Action.on, hn.viewerCount]
  exact List.forall_mem_append.mpr ⟨toOwner_silent (hact _), toViewers_silent (hact _)⟩

theorem Neutral.ended (hn : Neutral f) (share : Share) (reason : String) :
    ∀ a ∈ share.ended reason, a.on f conn = none := by
  have hact : ∀ c a, a ∈ [Action.write c (.shareEnded (shareEndedMessageFor reason) reason),
      .close c] → a.on f conn = none := by
    simp [Action.on, hn.shareEnded]
  refine List.forall_mem_append.mpr ⟨?_, ?_⟩
  · cases ho : share.owner with
    | none => simp
    | some c => exact hact c
  · intro a ha
    obtain ⟨v, -, ha⟩ := List.mem_flatMap.mp ha
    exact hact v a ha

theorem Neutral.viewerInput_silent (hn : Neutral f) (share : Share) (encoding data : String) :
    ∀ a ∈ share.viewerInput encoding data, a.on f conn = none := by
  unfold Share.viewerInput
  split
  · exact toOwner_silent (by simp [Action.on, hn.viewerInput])
  · simp

theorem Neutral.controlSignal_silent (hn : Neutral f) (share : Share) (signal : String) :
    ∀ a ∈ share.controlSignal signal, a.on f conn = none := by
  unfold Share.controlSignal
  split
  · exact toOwner_silent (by simp [Action.on, hn.controlSignal])
  · simp

def accepted (s : System) : List OwnerMessage :=
  s.log.filterMap fun
    | .accepted m => some m
    | _ => none

def Greets (s : System) (conn : Nat) : Prop := ∃ thread ∈ s.threads, .greet conn ∈ thread.ops

/-- A step after which the share shows what it showed, and nobody has been told more. -/
structure Quiet (f : Message → Option β) (s u : System) : Prop where
  owner : u.share.owner = s.share.owner
  viewers : u.share.viewers.Sublist s.share.viewers
  snapshot : u.share.snapshot = s.share.snapshot
  inputEnabled : u.share.inputEnabled = s.share.inputEnabled
  conns : u.conns = s.conns
  shut : ∀ c, s.shut c = true → u.shut c = true
  accepted : u.accepted = s.accepted
  conveyed : ∀ c, u.shut c = false → u.conveyed f c = s.conveyed f c
  blank : ∀ c, s.conveyed f c = [] → u.conveyed f c = []
  greets : ∀ c, s.Greets c → u.Greets c
  greeting : ∀ c, u.Greets c → s.Greets c

namespace Quiet

theorem refl (s : System) : Quiet f s s :=
  ⟨rfl, .refl _, rfl, rfl, rfl, fun _ h => h, rfl, fun _ _ => rfl, fun _ h => h, fun _ h => h,
    fun _ h => h⟩

theorem trans {w : System} (h : Quiet f s u) (h' : Quiet f u w) : Quiet f s w where
  owner := h'.owner.trans h.owner
  viewers := h'.viewers.trans h.viewers
  snapshot := h'.snapshot.trans h.snapshot
  inputEnabled := h'.inputEnabled.trans h.inputEnabled
  conns := h'.conns.trans h.conns
  shut := fun c hc => h'.shut c (h.shut c hc)
  accepted := h'.accepted.trans h.accepted
  conveyed := by
    intro c hc
    refine (h'.conveyed c hc).trans (h.conveyed c ?_)
    by_contra hu
    simp [h'.shut c (by simpa using hu)] at hc
  blank := fun c hc => h'.blank c (h.blank c hc)
  greets := fun c hc => h'.greets c (h.greets c hc)
  greeting := fun c hc => h.greeting c (h'.greeting c hc)

theorem enqueue (hq : ∀ c, ∀ a ∈ actions, a.on f c = none) :
    Quiet f s (s.enqueue t actions) := by
  have hconv : ∀ c, (s.enqueue t actions).conveyed f c = s.conveyed f c := by
    intro c
    rw [conveyed_enqueue, on_eq_nil (hq c), List.append_nil]
  exact ⟨rfl, .refl _, rfl, rfl, rfl, fun _ h => h, rfl, fun c _ => hconv c,
    fun c h => (hconv c).trans h, fun _ h => h, fun _ h => h⟩

theorem record {e : Seen} (hw : ∀ c m, e ≠ .wrote c m) (ha : ∀ m, e ≠ .accepted m) :
    Quiet f s (s.record e) := by
  refine ⟨rfl, .refl _, rfl, rfl, rfl, fun _ h => h, ?_, fun c _ => conveyed_record hw,
    fun c h => (conveyed_record hw).trans h, fun _ h => h, fun _ h => h⟩
  cases e with
  | accepted m => exact absurd rfl (ha m)
  | wrote | set | returned => simp [System.accepted]

theorem setThread {thread thread' : Thread} (ht : s.threads[t]? = some thread)
    (hg : ∀ c, .greet c ∈ thread'.ops ↔ .greet c ∈ thread.ops) :
    Quiet f s (s.setThread t thread') := by
  have hlt := (List.getElem?_eq_some_iff.mp ht).1
  refine ⟨rfl, .refl _, rfl, rfl, rfl, fun _ h => h, rfl, fun _ _ => rfl, fun _ h => h, ?_, ?_⟩
  · rintro c ⟨th, hm, hc⟩
    obtain ⟨j, hj⟩ := List.mem_iff_getElem?.mp hm
    by_cases hjt : t = j
    · subst hjt
      cases ht.symm.trans hj
      exact ⟨thread', List.mem_set hlt thread', (hg c).mpr hc⟩
    · exact ⟨th, List.mem_of_getElem? ((List.getElem?_set_ne hjt).trans hj), hc⟩
  · rintro c ⟨th, hm, hc⟩
    rcases List.mem_or_eq_of_mem_set hm with hm | rfl
    · exact ⟨th, hm, hc⟩
    · exact ⟨thread, List.mem_of_getElem? ht, (hg c).mp hc⟩

theorem addThread {thread : Thread} (hg : ∀ c, .greet c ∉ thread.ops) :
    Quiet f s { s with threads := s.threads ++ [thread] } := by
  refine ⟨rfl, .refl _, rfl, rfl, rfl, fun _ h => h, rfl, fun _ _ => rfl, fun _ h => h, ?_, ?_⟩
  · rintro c ⟨th, hm, hc⟩
    exact ⟨th, List.mem_append_left _ hm, hc⟩
  · rintro c ⟨th, hm, hc⟩
    rcases List.mem_append.mp hm with hm | hm
    · exact ⟨th, hm, hc⟩
    · exact absurd (List.mem_singleton.mp hm ▸ hc) (hg c)

theorem leaveLoop {thread : Thread} (ht : s.threads[t]? = some thread) :
    Quiet f s (s.leaveLoop t thread) := by
  refine .setThread ht fun c => ?_
  cases thread.role <;> simp

theorem remove (hn : Neutral f) (t : Nat) (reason : String) : Quiet f s (s.remove t reason) := by
  unfold System.remove
  split
  · have hreg : Quiet f s { s with registered := false } :=
      ⟨rfl, .refl _, rfl, rfl, rfl, fun _ h => h, rfl, fun _ _ => rfl, fun _ h => h,
        fun _ h => h, fun _ h => h⟩
    exact hreg.trans (.enqueue fun c => hn.ended s.share reason)
  · exact .refl s

theorem leave (v : Nat) : Quiet f s (s.runOp t (.leave v)) := by
  simp only [System.runOp]
  have hclose : ∀ c, ∀ a ∈ [Action.close v], a.on f c = none := by simp [Action.on]
  split
  · have hout : Quiet f s { s with
        share := { s.share with viewers := s.share.viewers.filter (· ≠ v) } } :=
      ⟨rfl, List.filter_sublist, rfl, rfl, rfl, fun _ h => h, rfl, fun _ _ => rfl, fun _ h => h,
        fun _ h => h, fun _ h => h⟩
    exact hout.trans (.enqueue hclose)
  · exact .enqueue hclose

theorem runOp (hn : Neutral f) {op : Op} (hop : ∀ c, op ≠ .greet c) :
    Quiet f s (s.runOp t op) := by
  cases op with
  | broadcastViewerCount =>
      simp only [System.runOp]
      split
      · exact .enqueue fun c => hn.broadcastViewerCount s.share
      · exact .refl s
  | tellViewerCount owner n => exact .enqueue (by simp [Action.on, hn.viewerCount])
  | greet c => exact absurd rfl (hop c)
  | returned n => exact .record nofun nofun
  | leave v => exact .leave v
  | delete => exact .remove hn t _

theorem handleViewerPayload (hn : Neutral f) {thread : Thread} (ht : s.threads[t]? = some thread)
    (m : ViewerMessage) : Quiet f s (s.handleViewerPayload t thread m) := by
  cases m with
  | other => exact .refl s
  | input encoding data =>
      simp only [System.handleViewerPayload]
      split
      · exact .enqueue fun c => hn.viewerInput_silent s.share encoding data
      · split
        · exact .leaveLoop ht
        · exact .refl s
  | controlSignal signal =>
      simp only [System.handleViewerPayload]
      split
      · exact .enqueue fun c => hn.controlSignal_silent s.share signal
      · split
        · exact .leaveLoop ht
        · exact .refl s

theorem perform (hf : Relooks f) {i : Nat} {a : Action} (hi : s.pending[i]? = some (t, a))
    (hturn : ∀ c, a.on f c ≠ none → ∀ y ∈ s.pending.take i, y.2.on f c = none) :
    Quiet f s (System.act { s with pending := s.pending.eraseIdx i } t a) := by
  have hshut : ∀ c, s.shut c = true →
      (System.act { s with pending := s.pending.eraseIdx i } t a).shut c = true := by
    intro c hc
    cases a with
    | close conn =>
        simp only [System.act, System.shut, List.contains_cons, Bool.or_eq_true] at hc ⊢
        exact hc.imp .inr id
    | write | late =>
        simp only [System.act]
        split <;> exact hc
    | send =>
        simp only [System.act]
        split
        · split <;> exact hc
        · exact hc
  have hconv : ∀ c, s.shut c = false →
      (System.act { s with pending := s.pending.eraseIdx i } t a).conveyed f c =
        s.conveyed f c :=
    fun c hc => conveyed_perform hf hi (hturn c) fun _ => hc
  have hblank : ∀ c, s.conveyed f c = [] →
      (System.act { s with pending := s.pending.eraseIdx i } t a).conveyed f c = [] := by
    intro c hc
    have hnone : a.on f c = none := by
      have hun := (List.append_eq_nil_iff.mp hc).2
      exact List.filterMap_eq_nil_iff.mp hun (t, a) (List.mem_of_getElem? hi)
    rw [conveyed_perform hf hi (hturn c) (absurd hnone), hc]
  have hopen : ∀ c, (System.act { s with pending := s.pending.eraseIdx i } t a).shut c = false →
      s.shut c = false := by
    intro c hc
    by_contra hs
    simp [hshut c (by simpa using hs)] at hc
  have hsame : ∀ w : System, w = System.act { s with pending := s.pending.eraseIdx i } t a →
      w.share = s.share ∧ w.conns = s.conns ∧ w.accepted = s.accepted ∧
        (∀ c, w.Greets c ↔ s.Greets c) := by
    rintro w rfl
    have hrec : ∀ c m, (System.record { s with pending := s.pending.eraseIdx i }
        (.wrote c m)).accepted = s.accepted := by
      simp [System.accepted]
    cases a with
    | close conn => exact ⟨rfl, rfl, rfl, fun _ => .rfl⟩
    | write c m | late c m =>
        simp only [System.act]
        split
        · exact ⟨rfl, rfl, rfl, fun _ => .rfl⟩
        · exact ⟨rfl, rfl, hrec _ _, fun _ => .rfl⟩
    | send c m =>
        simp only [System.act]
        split
        · split
          · exact ⟨rfl, rfl, rfl, fun _ => .rfl⟩
          · rename_i thread ht
            have hq : Quiet f { s with pending := s.pending.eraseIdx i }
                (System.leaveLoop { s with pending := s.pending.eraseIdx i } t thread) :=
              .leaveLoop ht
            exact ⟨rfl, rfl, rfl, fun c => ⟨hq.greeting c, hq.greets c⟩⟩
        · exact ⟨rfl, rfl, hrec _ _, fun _ => .rfl⟩
  obtain ⟨hshare, hconns, hacc, hg⟩ := hsame _ rfl
  exact ⟨by rw [hshare], by rw [hshare], by rw [hshare], by rw [hshare], hconns, hshut, hacc,
    fun c hc => hconv c (hopen c hc), hblank, fun c => (hg c).mpr, fun c => (hg c).mp⟩

end Quiet

/-- The steps that bring in a connection, change what the share shows, or greet an owner. -/
def Speaks (s : System) : Event → Prop
  | .connectOwner _ => True
  | .connectViewer _ => True
  | .setInputEnabled _ _ => True
  | .receiveOwner _ m => m ≠ .sessionEnded ∧ m ≠ .other
  | .op t => ∃ thread c ops, s.threads[t]? = some thread ∧ thread.ops = .greet c :: ops
  | _ => False

theorem quiet_step {e : Event} (hf : Relooks f) (hn : Neutral f) (hs : ¬ s.Speaks e)
    (hturn : InTurn f s e) (he : s.step e = some u) : Quiet f s u := by
  cases e with
  | connectOwner token => exact absurd trivial hs
  | connectViewer token => exact absurd trivial hs
  | setInputEnabled userID b => exact absurd trivial hs
  | delete userID reason =>
      cases he
      simp only [System.delete]
      split
      · exact (Quiet.addThread (by simp)).trans (.remove hn _ _)
      · exact .refl s
  | receiveOwner t m =>
      simp only [System.step, Option.bind_eq_bind, Option.bind_eq_some_iff] at he
      obtain ⟨thread, -, he⟩ := he
      split at he
      · split at he
        · cases he
          cases m with
          | sessionEnded => exact .remove hn t _
          | other => exact .refl s
          | hello | output | resize | snapshot | inputEnabled =>
              exact absurd ⟨by simp, by simp⟩ hs
        · cases he
      · cases he
  | receiveViewer t m =>
      simp only [System.step, Option.bind_eq_bind, Option.bind_eq_some_iff] at he
      obtain ⟨thread, ht, he⟩ := he
      split at he
      · split at he
        · cases he
          exact .handleViewerPayload hn ht m
        · cases he
      · cases he
  | hangup t =>
      simp only [System.step, Option.bind_eq_bind, Option.bind_eq_some_iff] at he
      obtain ⟨thread, ht, he⟩ := he
      split at he
      · split at he
        · cases he
          exact .leaveLoop ht
        · cases he
      · cases he
  | op t =>
      simp only [System.step, Option.bind_eq_bind, Option.bind_eq_some_iff] at he
      obtain ⟨thread, ht, he⟩ := he
      split at he
      · cases he
      · rename_i op ops hops
        have hop : ∀ c, op ≠ .greet c := by
          rintro c rfl
          exact hs ⟨thread, c, ops, ht, hops⟩
        split at he
        · cases he
          refine (Quiet.setThread ht fun c => ?_).trans (.runOp hn hop)
          simp [hops, (hop c).symm]
        · cases he
  | perform i =>
      simp only [System.step, Option.bind_eq_bind, Option.bind_eq_some_iff] at he
      obtain ⟨⟨t, a⟩, hi, he⟩ := he
      split at he
      · cases he
      · cases he
        exact .perform hf hi fun c => hturn t a c hi
  | drop conn =>
      simp only [System.step] at he
      split at he
      · cases he
        refine ⟨rfl, .refl _, rfl, rfl, rfl, fun c hc => ?_, rfl, fun _ _ => rfl, fun _ h => h,
          fun _ h => h, fun _ h => h⟩
        simp only [System.shut, List.contains_cons, Bool.or_eq_true] at hc ⊢
        exact hc.imp id .inr
      · cases he

end System

end Dolgate.SessionShare
