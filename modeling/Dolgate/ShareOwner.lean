import Dolgate.ShareHub

set_option autoImplicit false

namespace Dolgate.SessionShare
open Transition

/-- The goroutine's next step is the `Delete` after the read loop of an owner's connection. -/
def Exits (s : System) (t conn : Nat) : Prop :=
  ∃ thread ops, s.threads[t]? = some thread ∧ thread.role = .owner conn ∧
    thread.ops = .delete :: ops

/-- The owner ends the share, or the read loop of its current connection has ended. -/
def Ends (s : System) : Event → Prop
  | .delete userID _ => userID = s.share.ownerUserID
  | .receiveOwner _ m => m = .sessionEnded
  | .op t => ∃ conn, Exits s t conn ∧ s.share.owner = some conn
  | _ => False

/-- A share is removed by its end only. The exit of a connection that is not the owner's any more
changes nothing that the share or its connections could notice. -/
def Lawful (s : System) (e : Event) : Prop :=
  ∀ u, s.step e = some u →
    (s.registered = true → u.registered = false → Ends s e) ∧
    ∀ t conn, e = .op t → Exits s t conn → s.share.owner ≠ some conn →
      u.registered = s.registered ∧ u.share = s.share ∧ u.closed = s.closed ∧
        u.pending = s.pending

/-- The read loop of a connection that has been replaced ends after the share is gone. -/
def InPlace (s : System) (e : Event) : Prop :=
  ∀ t conn, e = .op t → Exits s t conn → s.registered = true → s.share.owner = some conn

def Share.attached (share : Share) (conn : Nat) : Prop :=
  share.owner = some conn ∨ conn ∈ share.viewers

structure Thread.Fits (share : Share) (conns : Nat) (thread : Thread) : Prop where
  viewer : ∀ v, thread.role = .viewer v → v < conns ∧ share.owner ≠ some v
  leave : ∀ v, .leave v ∈ thread.ops → thread.role = .viewer v
  delete : .delete ∈ thread.ops → ∃ conn, thread.role = .owner conn

structure Placed (s : System) : Prop where
  owner : ∀ c, s.share.owner = some c → c < s.conns ∧ c ∉ s.share.viewers
  viewers : ∀ v ∈ s.share.viewers, v < s.conns
  closed : ∀ c ∈ s.closed, c < s.conns
  closing : ∀ t c, (t, .close c) ∈ s.pending → c < s.conns
  threads : ∀ thread ∈ s.threads, thread.Fits s.share s.conns
  left : s.registered = true → ∀ c, s.share.attached c →
    c ∉ s.closed ∧ ∀ t, (t, .close c) ∉ s.pending

section
variable {s u : System} {e : Event} {t : Nat} {thread : Thread} {actions : List Action}

theorem placed_init {share : Share} (hf : share.Fresh) : Placed (.init share) := by
  constructor <;> simp [System.init, hf.owner, hf.viewers]

theorem mem_enqueue {a : Nat × Action} (hw : ∀ c, .close c ∉ actions) {c : Nat}
    (ha : a.2 = .close c) (h : a ∈ s.pending ++ actions.map fun a => (t, a)) : a ∈ s.pending := by
  rcases List.mem_append.mp h with h | h
  · exact h
  · obtain ⟨b, hb, rfl⟩ := List.mem_map.mp h
    cases ha
    exact absurd hb (hw c)

theorem Placed.say (h : Placed s) {share : Share} (ho : share.owner = s.share.owner)
    (hv : share.viewers = s.share.viewers) (t : Nat) (hw : ∀ c, .close c ∉ actions) (sets : Nat)
    (log : List Seen) :
    Placed { s with
      share := share, sets := sets, log := log
      pending := s.pending ++ actions.map fun a => (t, a) } where
  owner := by
    simp only [ho, hv]
    exact h.owner
  viewers := by
    simp only [hv]
    exact h.viewers
  closed := h.closed
  closing := fun t c hc => h.closing t c (mem_enqueue hw rfl hc)
  threads := fun thread ht => ⟨ho ▸ (h.threads thread ht).viewer, (h.threads thread ht).leave,
    (h.threads thread ht).delete⟩
  left := by
    intro hr c hc
    have hc : s.share.attached c := by simpa only [Share.attached, ho, hv] using hc
    exact ⟨(h.left hr c hc).1, fun t ht => (h.left hr c hc).2 t (mem_enqueue hw rfl ht)⟩

theorem Placed.enqueue (h : Placed s) (t : Nat) (hw : ∀ c, .close c ∉ actions) :
    Placed (s.enqueue t actions) :=
  h.say rfl rfl t hw s.sets s.log

theorem Placed.record (h : Placed s) (e : Seen) : Placed (s.record e) :=
  ⟨h.owner, h.viewers, h.closed, h.closing, h.threads, h.left⟩

theorem Placed.setThread (h : Placed s) (t : Nat) (hf : thread.Fits s.share s.conns) :
    Placed (s.setThread t thread) :=
  ⟨h.owner, h.viewers, h.closed, h.closing, fun th hm => by
    rcases List.mem_or_eq_of_mem_set hm with hm | rfl
    · exact h.threads th hm
    · exact hf, h.left⟩

theorem Placed.addThread (h : Placed s) (hf : thread.Fits s.share s.conns) :
    Placed { s with threads := s.threads ++ [thread] } :=
  ⟨h.owner, h.viewers, h.closed, h.closing, fun th hm => by
    rcases List.mem_append.mp hm with hm | hm
    · exact h.threads th hm
    · exact List.mem_singleton.mp hm ▸ hf, h.left⟩

theorem Placed.leaveLoop (h : Placed s) (t : Nat) (hf : thread.Fits s.share s.conns) :
    Placed (s.leaveLoop t thread) := by
  refine h.setThread t ⟨hf.viewer, ?_, ?_⟩
  · intro v hv
    rcases List.mem_append.mp hv with hv | hv
    · exact hf.leave v hv
    · cases hr : thread.role <;> simp_all
  · intro hd
    rcases List.mem_append.mp hd with hd | hd
    · exact hf.delete hd
    · cases hr : thread.role <;> simp_all

theorem Placed.remove (h : Placed s) (t : Nat) (reason : String) : Placed (s.remove t reason) := by
  unfold System.remove
  split
  · refine ⟨h.owner, h.viewers, h.closed, ?_, h.threads, nofun⟩
    intro t' c hc
    rcases List.mem_append.mp hc with hc | hc
    · exact h.closing t' c hc
    · obtain ⟨a, ha, hac⟩ := List.mem_map.mp hc
      cases hac
      rcases List.mem_append.mp ha with ha | ha
      · cases hown : s.share.owner with
        | none => simp [hown] at ha
        | some conn =>
            simp [hown] at ha
            exact ha ▸ (h.owner conn hown).1
      · obtain ⟨v, hv, ha⟩ := List.mem_flatMap.mp ha
        simp at ha
        exact ha ▸ h.viewers v hv
  · exact h

theorem Placed.refuse (h : Placed s) :
    Placed { s with conns := s.conns + 1, closed := s.conns :: s.closed } where
  owner := fun c hc => ⟨Nat.lt_succ_of_lt (h.owner c hc).1, (h.owner c hc).2⟩
  viewers := fun v hv => Nat.lt_succ_of_lt (h.viewers v hv)
  closed := by
    intro c hc
    rcases List.mem_cons.mp hc with rfl | hc
    · exact Nat.lt_succ_self _
    · exact Nat.lt_succ_of_lt (h.closed c hc)
  closing := fun t c hc => Nat.lt_succ_of_lt (h.closing t c hc)
  threads := fun thread ht => ⟨fun v hv =>
      ⟨Nat.lt_succ_of_lt ((h.threads thread ht).viewer v hv).1,
        ((h.threads thread ht).viewer v hv).2⟩,
    (h.threads thread ht).leave, (h.threads thread ht).delete⟩
  left := by
    intro hr c hc
    have hlt : c < s.conns := hc.elim (fun hc => (h.owner c hc).1) (h.viewers c)
    refine ⟨fun hm => ?_, (h.left hr c hc).2⟩
    rcases List.mem_cons.mp hm with rfl | hm
    · exact Nat.lt_irrefl _ hlt
    · exact (h.left hr c hc).1 hm

theorem toViewers_no_close {share : Share} {act : Nat → Action} (h : ∀ v c, act v ≠ .close c)
    (c : Nat) : .close c ∉ share.toViewers act := by
  simpa [Share.toViewers] using fun v _ => h v c

theorem toOwner_no_close {share : Share} {act : Nat → Action} (h : ∀ v c, act v ≠ .close c)
    (c : Nat) : .close c ∉ share.toOwner act := by
  cases ho : share.owner <;> simp [Share.toOwner, ho]
  exact fun hc => h _ _ hc.symm

theorem join_no_close (share : Share) (viewer c : Nat) : .close c ∉ (share.join viewer).2 := by
  simp only [Share.join]
  intro hc
  rcases List.mem_cons.mp hc with hc | hc
  · cases hc
  · rcases List.mem_append.mp hc with hc | hc <;> split at hc <;> simp at hc

theorem Placed.connectOwner (h : Placed s) (token : String) : Placed (s.connectOwner token) := by
  unfold System.connectOwner
  simp only
  split
  · refine Placed.enqueue ⟨?_, ?_, ?_, ?_, ?_, ?_⟩ _ (by simp)
    · intro c hc
      cases hc
      exact ⟨Nat.lt_succ_self _, fun hv => Nat.lt_irrefl _ (h.viewers _ hv)⟩
    · exact fun v hv => Nat.lt_succ_of_lt (h.viewers v hv)
    · intro c hc
      rcases List.mem_append.mp hc with hc | hc
      · exact Nat.lt_succ_of_lt (h.owner c (Option.mem_toList.mp hc)).1
      · exact Nat.lt_succ_of_lt (h.closed c hc)
    · exact fun t c hc => Nat.lt_succ_of_lt (h.closing t c hc)
    · intro thread ht
      rcases List.mem_append.mp ht with ht | ht
      · have hf := h.threads thread ht
        refine ⟨fun v hv => ?_, hf.leave, hf.delete⟩
        have hlt := (hf.viewer v hv).1
        exact ⟨Nat.lt_succ_of_lt hlt, fun hs => Nat.ne_of_gt hlt (Option.some.inj hs)⟩
      · cases List.mem_singleton.mp ht
        constructor <;> simp
    · intro hr c hc
      rcases hc with hc | hc
      · cases hc
        refine ⟨fun hm => ?_, fun t ht => Nat.lt_irrefl _ (h.closing t _ ht)⟩
        rcases List.mem_append.mp hm with hm | hm
        · exact Nat.lt_irrefl _ (h.owner _ (Option.mem_toList.mp hm)).1
        · exact Nat.lt_irrefl _ (h.closed _ hm)
      · refine ⟨fun hm => ?_, (h.left hr c (.inr hc)).2⟩
        rcases List.mem_append.mp hm with hm | hm
        · exact (h.owner c (Option.mem_toList.mp hm)).2 hc
        · exact (h.left hr c (.inr hc)).1 hm
  · exact h.refuse

theorem Placed.connectViewer (h : Placed s) (token : String) : Placed (s.connectViewer token) := by
  unfold System.connectViewer
  simp only
  split
  · refine Placed.enqueue ⟨?_, ?_, ?_, ?_, ?_, ?_⟩ _ (join_no_close _ _)
    · intro c hc
      obtain ⟨hlt, hv⟩ := h.owner c hc
      refine ⟨Nat.lt_succ_of_lt hlt, fun hm => ?_⟩
      rcases List.mem_append.mp hm with hm | hm
      · exact hv hm
      · exact Nat.ne_of_lt hlt (List.mem_singleton.mp hm)
    · intro v hv
      rcases List.mem_append.mp hv with hv | hv
      · exact Nat.lt_succ_of_lt (h.viewers v hv)
      · exact List.mem_singleton.mp hv ▸ Nat.lt_succ_self _
    · exact fun c hc => Nat.lt_succ_of_lt (h.closed c hc)
    · exact fun t c hc => Nat.lt_succ_of_lt (h.closing t c hc)
    · intro thread ht
      rcases List.mem_append.mp ht with ht | ht
      · have hf := h.threads thread ht
        exact ⟨fun v hv => ⟨Nat.lt_succ_of_lt (hf.viewer v hv).1, (hf.viewer v hv).2⟩, hf.leave,
          hf.delete⟩
      · cases List.mem_singleton.mp ht
        refine ⟨fun v hv => ?_, ?_, ?_⟩
        · cases hv
          exact ⟨Nat.lt_succ_self _, fun hs => Nat.lt_irrefl _ (h.owner _ hs).1⟩
        · simp
        · simp
    · intro hr c hc
      have hc : s.share.attached c ∨ c = s.conns := by
        rcases hc with hc | hc
        · exact .inl (.inl hc)
        · rcases List.mem_append.mp hc with hc | hc
          · exact .inl (.inr hc)
          · exact .inr (List.mem_singleton.mp hc)
      rcases hc with hc | rfl
      · exact h.left hr c hc
      · exact ⟨fun hm => Nat.lt_irrefl _ (h.closed _ hm),
          fun t ht => Nat.lt_irrefl _ (h.closing t _ ht)⟩
  · exact h.refuse

theorem Placed.leave (h : Placed s) (t v : Nat) (hv : s.share.owner ≠ some v) (hlt : v < s.conns) :
    Placed (s.runOp t (.leave v)) := by
  have hclosing : ∀ t' c, (t', Action.close c) ∈ s.pending ++ [(t, .close v)] →
      (t', Action.close c) ∈ s.pending ∨ c = v := by
    intro t' c hc
    rcases List.mem_append.mp hc with hc | hc
    · exact .inl hc
    · cases List.mem_singleton.mp hc
      exact .inr rfl
  have hbound : ∀ t' c, (t', Action.close c) ∈ s.pending ++ [(t, .close v)] → c < s.conns := by
    intro t' c hc
    rcases hclosing t' c hc with hc | rfl
    · exact h.closing t' c hc
    · exact hlt
  simp only [System.runOp]
  split
  · refine ⟨?_, ?_, h.closed, hbound, ?_, ?_⟩
    · exact fun c hc => ⟨(h.owner c hc).1, fun hm => (h.owner c hc).2 (List.mem_of_mem_filter hm)⟩
    · exact fun v hv => h.viewers v (List.mem_of_mem_filter hv)
    · exact fun th hm => ⟨(h.threads th hm).viewer, (h.threads th hm).leave,
        (h.threads th hm).delete⟩
    · intro hr c hc
      have hne : c ≠ v := by
        rintro rfl
        rcases hc with hc | hc
        · exact hv hc
        · simp at hc
      have hc : s.share.attached c := hc.imp id fun hc => List.mem_of_mem_filter hc
      refine ⟨(h.left hr c hc).1, fun t' ht => ?_⟩
      rcases hclosing t' c ht with ht | rfl
      · exact (h.left hr c hc).2 t' ht
      · exact hne rfl
  · rename_i hr
    exact ⟨h.owner, h.viewers, h.closed, hbound, h.threads, fun hr' => absurd hr' hr⟩

theorem Placed.runOp (h : Placed s) (t : Nat) {op : Op}
    (hl : ∀ v, op = .leave v → v < s.conns ∧ s.share.owner ≠ some v) : Placed (s.runOp t op) := by
  cases op with
  | broadcastViewerCount =>
      simp only [System.runOp]
      split
      · refine h.enqueue t fun c hc => ?_
        rcases List.mem_append.mp hc with hc | hc
        · exact toOwner_no_close (by simp) c hc
        · exact toViewers_no_close (by simp) c hc
      · exact h
  | tellViewerCount owner n => exact h.enqueue t (by simp)
  | greet owner => exact h.enqueue t (by simp)
  | returned n => exact h.record _
  | leave v => exact h.leave t v (hl v rfl).2 (hl v rfl).1
  | delete => exact h.remove t _

theorem Placed.act (h : Placed s) (t : Nat) {a : Action}
    (hf : ∀ th, s.threads[t]? = some th → th.Fits s.share s.conns)
    (hc : ∀ c, a = .close c → c < s.conns ∧ (s.registered = true → ¬ s.share.attached c)) :
    Placed (s.act t a) := by
  cases a with
  | write conn m =>
      simp only [System.act]
      split
      · exact h
      · exact h.record _
  | late conn m =>
      simp only [System.act]
      split
      · exact h
      · exact h.record _
  | send conn m =>
      simp only [System.act]
      split
      · split
        · exact h
        · exact h.leaveLoop t (hf _ ‹_›)
      · exact h.record _
  | close conn =>
      obtain ⟨hlt, hatt⟩ := hc conn rfl
      refine ⟨h.owner, h.viewers, ?_, h.closing, h.threads, ?_⟩
      · intro c hc
        rcases List.mem_cons.mp hc with rfl | hc
        · exact hlt
        · exact h.closed c hc
      · intro hr c hc
        refine ⟨fun hm => ?_, (h.left hr c hc).2⟩
        rcases List.mem_cons.mp hm with rfl | hm
        · exact hatt hr hc
        · exact (h.left hr c hc).1 hm

theorem Placed.perform (h : Placed s) {i : Nat} {a : Action} (hi : s.pending[i]? = some (t, a)) :
    Placed (System.act { s with pending := s.pending.eraseIdx i } t a) := by
  have hmem := List.mem_of_getElem? hi
  have h' : Placed { s with pending := s.pending.eraseIdx i } :=
    ⟨h.owner, h.viewers, h.closed, fun t c hc => h.closing t c (List.mem_of_mem_eraseIdx hc),
      h.threads, fun hr c hc => ⟨(h.left hr c hc).1, fun t ht =>
        (h.left hr c hc).2 t (List.mem_of_mem_eraseIdx ht)⟩⟩
  refine h'.act t ?_ ?_
  · exact fun th ht => h.threads th (List.mem_of_getElem? ht)
  · rintro c rfl
    exact ⟨h.closing t c hmem, fun hr hatt => (h.left hr c hatt).2 t hmem⟩

theorem Placed.changed (h : Placed s) (t : Nat) (m : OwnerMessage) {r : Share × List Action}
    (ho : r.1.owner = s.share.owner) (hv : r.1.viewers = s.share.viewers)
    (hw : ∀ c, .close c ∉ r.2) : Placed (s.changed t m r) :=
  (h.say ho hv t hw s.sets s.log).record _

theorem Placed.handleOwnerPayload (h : Placed s) (ht : s.threads[t]? = some thread)
    (m : OwnerMessage) : Placed (s.handleOwnerPayload t thread m) := by
  have hf := h.threads thread (List.mem_of_getElem? ht)
  have hwrite : ∀ (m : Message) (v c : Nat), Action.write v m ≠ .close c := by simp
  have hlate : ∀ (m : Message) (v c : Nat), Action.late v m ≠ .close c := by simp
  cases m with
  | sessionEnded => exact h.remove t _
  | other => exact h
  | hello title hostLabel transport layout snapshot =>
      rw [System.handleOwnerPayload_hello]
      split
      · refine h.changed t _ rfl rfl fun c hc => ?_
        obtain ⟨v, -, hc⟩ := List.mem_flatMap.mp hc
        split at hc <;> simp at hc
      · exact h.leaveLoop t hf
  | output data =>
      rw [System.handleOwnerPayload_output]
      split
      · exact h.changed t _ rfl rfl (toViewers_no_close (hwrite _))
      · exact h.leaveLoop t hf
  | resize layout =>
      rw [System.handleOwnerPayload_resize]
      split
      · exact h.changed t _ rfl rfl (toViewers_no_close (hlate _))
      · exact h.leaveLoop t hf
  | snapshot snapshot layout kind =>
      rw [System.handleOwnerPayload_snapshot]
      split
      · refine h.changed t _ rfl rfl fun c hc => ?_
        simp only [Share.updateSnapshot] at hc
        split at hc
        · cases hc
        · exact toViewers_no_close (hlate _) c hc
      · exact h.leaveLoop t hf
  | inputEnabled b =>
      rw [System.handleOwnerPayload_inputEnabled]
      split
      · have h' : Placed { s with sets := s.sets + 1 } :=
          ⟨h.owner, h.viewers, h.closed, h.closing, h.threads, h.left⟩
        have hf' : Thread.Fits s.share s.conns { thread with ops := [.returned s.sets] } :=
          ⟨hf.viewer, by simp, by simp⟩
        refine ((h'.setThread t hf').changed t _ rfl rfl fun c hc => ?_).record _
        rcases List.mem_append.mp hc with hc | hc
        · exact toViewers_no_close (hwrite _) c hc
        · exact toOwner_no_close (hwrite _) c hc
      · exact h.leaveLoop t hf

theorem Placed.handleViewerPayload (h : Placed s) (ht : s.threads[t]? = some thread)
    (m : ViewerMessage) : Placed (s.handleViewerPayload t thread m) := by
  have hf := h.threads thread (List.mem_of_getElem? ht)
  cases m with
  | other => exact h
  | input encoding data =>
      simp only [System.handleViewerPayload]
      split
      · refine h.enqueue t fun c hc => ?_
        simp only [Share.viewerInput] at hc
        split at hc
        · exact toOwner_no_close (by simp) c hc
        · cases hc
      · split
        · exact h.leaveLoop t hf
        · exact h
  | controlSignal signal =>
      simp only [System.handleViewerPayload]
      split
      · refine h.enqueue t fun c hc => ?_
        simp only [Share.controlSignal] at hc
        split at hc
        · exact toOwner_no_close (by simp) c hc
        · cases hc
      · split
        · exact h.leaveLoop t hf
        · exact h

theorem Placed.step (h : Placed s) (he : s.step e = some u) : Placed u := by
  cases e with
  | connectOwner token =>
      cases he
      exact h.connectOwner token
  | connectViewer token =>
      cases he
      exact h.connectViewer token
  | setInputEnabled userID b =>
      cases he
      simp only [System.setInputEnabled]
      split
      · have hf : Thread.Fits s.share s.conns ⟨.request, [.returned s.sets], false⟩ := by
          constructor <;> simp
        refine Placed.record (Placed.say (h.addThread hf) ?_ ?_ _ (fun c hc => ?_) _ _) _
        · rfl
        · rfl
        · rcases List.mem_append.mp hc with hc | hc
          · exact toOwner_no_close (by simp) c hc
          · exact toViewers_no_close (by simp) c hc
      · exact h
  | delete userID reason =>
      cases he
      simp only [System.delete]
      split
      · exact (h.addThread (by constructor <;> simp)).remove _ _
      · exact h
  | receiveOwner t m =>
      simp only [System.step, Option.bind_eq_bind, Option.bind_eq_some_iff] at he
      obtain ⟨thread, ht, he⟩ := he
      split at he
      · split at he
        · cases he
          exact h.handleOwnerPayload ht m
        · cases he
      · cases he
  | receiveViewer t m =>
      simp only [System.step, Option.bind_eq_bind, Option.bind_eq_some_iff] at he
      obtain ⟨thread, ht, he⟩ := he
      split at he
      · split at he
        · cases he
          exact h.handleViewerPayload ht m
        · cases he
      · cases he
  | hangup t =>
      simp only [System.step, Option.bind_eq_bind, Option.bind_eq_some_iff] at he
      obtain ⟨thread, ht, he⟩ := he
      split at he
      · split at he
        · cases he
          exact h.leaveLoop t (h.threads _ (List.mem_of_getElem? ht))
        · cases he
      · cases he
  | op t =>
      simp only [System.step, Option.bind_eq_bind, Option.bind_eq_some_iff] at he
      obtain ⟨thread, ht, he⟩ := he
      split at he
      · cases he
      · rename_i op ops hops
        split at he
        · cases he
          have hf := h.threads thread (List.mem_of_getElem? ht)
          have hsub : ∀ o ∈ ops, o ∈ thread.ops := fun o ho => hops ▸ List.mem_cons_of_mem _ ho
          have hf' : Thread.Fits s.share s.conns { thread with ops := ops } :=
            ⟨hf.viewer, fun v hv => hf.leave v (hsub _ hv), fun hd => hf.delete (hsub _ hd)⟩
          refine (h.setThread t hf').runOp t fun v hv => ?_
          exact hf.viewer v (hf.leave v (by simp [hops, hv]))
        · cases he
  | perform i =>
      simp only [System.step, Option.bind_eq_bind, Option.bind_eq_some_iff] at he
      obtain ⟨⟨t, a⟩, hi, he⟩ := he
      split at he
      · cases he
      · cases he
        exact h.perform hi
  | drop conn =>
      simp only [System.step] at he
      split at he
      · cases he
        exact ⟨h.owner, h.viewers, h.closed, h.closing, h.threads, h.left⟩
      · cases he

@[simp] theorem act_registered (s : System) (t : Nat) (a : Action) :
    (s.act t a).registered = s.registered := by
  cases a <;> simp only [System.act] <;> split <;> try rfl
  split <;> rfl

theorem handleOwnerPayload_registered {m : OwnerMessage} (hm : m ≠ .sessionEnded) :
    (s.handleOwnerPayload t thread m).registered = s.registered := by
  cases m with
  | sessionEnded => exact absurd rfl hm
  | other => rfl
  | hello | output | resize | snapshot | inputEnabled =>
      simp only [System.handleOwnerPayload]
      split <;> rfl

theorem handleViewerPayload_registered (m : ViewerMessage) :
    (s.handleViewerPayload t thread m).registered = s.registered := by
  cases m with
  | other => rfl
  | input | controlSignal =>
      simp only [System.handleViewerPayload]
      split
      · rfl
      · split <;> rfl

theorem runOp_registered {op : Op} (hop : op ≠ .delete) :
    (s.runOp t op).registered = s.registered := by
  cases op with
  | delete => exact absurd rfl hop
  | broadcastViewerCount | leave =>
      simp only [System.runOp]
      split <;> rfl
  | tellViewerCount | greet | returned => rfl

def Removes (s : System) : Event → Prop
  | .delete userID _ => userID = s.share.ownerUserID
  | .receiveOwner _ m => m = .sessionEnded
  | .op t => ∃ conn, Exits s t conn
  | _ => False

theorem Placed.removes (h : Placed s) (he : s.step e = some u) (hr : s.registered = true)
    (hu : u.registered = false) : Removes s e := by
  have hne : u.registered ≠ s.registered := by simp [hr, hu]
  cases e with
  | connectOwner token =>
      cases he
      refine absurd ?_ hne
      simp only [System.connectOwner]
      split <;> rfl
  | connectViewer token =>
      cases he
      refine absurd ?_ hne
      simp only [System.connectViewer]
      split <;> rfl
  | setInputEnabled userID b =>
      cases he
      refine absurd ?_ hne
      simp only [System.setInputEnabled]
      split <;> rfl
  | delete userID reason =>
      cases he
      simp only [System.delete] at hne
      split at hne
      · exact Eq.symm ‹_›
      · exact absurd rfl hne
  | receiveOwner t m =>
      simp only [System.step, Option.bind_eq_bind, Option.bind_eq_some_iff] at he
      obtain ⟨thread, -, he⟩ := he
      split at he
      · split at he
        · cases he
          by_contra hm
          exact hne (handleOwnerPayload_registered hm)
        · cases he
      · cases he
  | receiveViewer t m =>
      simp only [System.step, Option.bind_eq_bind, Option.bind_eq_some_iff] at he
      obtain ⟨thread, -, he⟩ := he
      split at he
      · split at he
        · cases he
          exact absurd (handleViewerPayload_registered m) hne
        · cases he
      · cases he
  | hangup t =>
      simp only [System.step, Option.bind_eq_bind, Option.bind_eq_some_iff] at he
      obtain ⟨thread, -, he⟩ := he
      split at he
      · split at he
        · cases he
          exact absurd rfl hne
        · cases he
      · cases he
  | op t =>
      simp only [System.step, Option.bind_eq_bind, Option.bind_eq_some_iff] at he
      obtain ⟨thread, ht, he⟩ := he
      split at he
      · cases he
      · rename_i op ops hops
        split at he
        · cases he
          by_cases hop : op = .delete
          · subst hop
            have hf := h.threads thread (List.mem_of_getElem? ht)
            obtain ⟨conn, hrole⟩ := hf.delete (by simp [hops])
            exact ⟨conn, thread, ops, ht, hrole, hops⟩
          · exact absurd (runOp_registered hop) hne
        · cases he
  | perform i =>
      simp only [System.step, Option.bind_eq_bind, Option.bind_eq_some_iff] at he
      obtain ⟨⟨t, a⟩, -, he⟩ := he
      split at he
      · cases he
      · cases he
        exact absurd (act_registered _ t a) hne
  | drop conn =>
      simp only [System.step] at he
      split at he
      · cases he
        exact absurd rfl hne
      · cases he

theorem exit_step {conn : Nat} (hx : Exits s t conn) (he : s.step (.op t) = some u) :
    ∃ thread, u = (s.setThread t thread).remove t shareEndedReason := by
  obtain ⟨thread, ops, ht, -, hops⟩ := hx
  simp only [System.step, ht, Option.bind_eq_bind, Option.bind_some, hops] at he
  split at he
  · cases he
    exact ⟨_, rfl⟩
  · cases he

theorem Placed.lawful_iff (h : Placed s) (he : s.step e = some u) : Lawful s e ↔ InPlace s e := by
  constructor
  · rintro hl t conn rfl hx hr
    by_contra hne
    have hreg := ((hl u he).2 t conn rfl hx hne).1
    obtain ⟨thread, rfl⟩ := exit_step hx he
    simp [System.remove, hr] at hreg
  · intro hp v hv
    cases he.symm.trans hv
    refine ⟨fun hr hu => ?_, ?_⟩
    · have hrem := h.removes he hr hu
      cases e with
      | op t =>
          obtain ⟨conn, hx⟩ := hrem
          exact ⟨conn, hx, hp t conn rfl hx hr⟩
      | _ => exact hrem
    · rintro t conn rfl hx hne
      obtain ⟨thread, rfl⟩ := exit_step hx he
      have hr : s.registered = false := by
        by_contra hr
        exact hne (hp t conn rfl hx (by simpa using hr))
      simp [System.remove, hr, System.setThread]

theorem owner_exits_lawful_iff {share : Share} (hf : share.Fresh) (es : List Event)
    (hr : run System.step (.init share) es = some s) :
    (Admissible Lawful System.step (.init share) es ↔
      Admissible InPlace System.step (.init share) es) ∧
    (s.registered = true → ∀ c, s.share.attached c →
      c ∉ s.closed ∧ ∀ t, (t, .close c) ∉ s.pending) := by
  refine ⟨admissible_congr (fun _ _ _ h he => h.step he) (fun _ _ _ h he => h.lawful_iff he)
    (placed_init hf) hr, ?_⟩
  exact (run_invariant (fun _ _ _ h he => h.step he) (placed_init hf) hr : Placed s).left

end

def sharedShell : Share :=
  .create "user" "viewer" "owner" "shell" "host" "ssh" ⟨80, 24, ⟨"mono", 12, 0, 0⟩, none⟩ ""

def ownerLeaves : List Event :=
  [.connectOwner "owner", .perform 0, .op 0, .perform 0, .hangup 0, .op 0]

theorem owner_exits_lawful_leaves :
    ∃ s, run System.step (.init sharedShell) ownerLeaves = some s ∧ s.registered = false ∧
      Admissible Lawful System.step (.init sharedShell) ownerLeaves := by
  have hfresh : sharedShell.Fresh := Share.create_fresh ..
  refine ⟨_, rfl, rfl, (owner_exits_lawful_iff hfresh ownerLeaves rfl).1.mpr ?_⟩
  refine ⟨nofun, fun u hu => ?_⟩
  cases hu
  refine ⟨nofun, fun u hu => ?_⟩
  cases hu
  refine ⟨fun t conn h hx _ => ?_, fun u hu => ?_⟩
  · cases h
    obtain ⟨thread, ops, ht, -, hops⟩ := hx
    cases ht
    cases hops
  cases hu
  refine ⟨nofun, fun u hu => ?_⟩
  cases hu
  refine ⟨nofun, fun u hu => ?_⟩
  cases hu
  refine ⟨fun t conn h hx _ => ?_, fun _ _ => trivial⟩
  cases h
  obtain ⟨thread, ops, ht, hrole, -⟩ := hx
  cases ht
  cases hrole
  rfl

def ownerReconnects : List Event :=
  [.connectOwner "owner", .perform 0, .op 0, .perform 0, .connectOwner "owner", .hangup 0, .op 0]

theorem replaced_owner_removes_share :
    ∃ s, run System.step (.init sharedShell) ownerReconnects = some s ∧
      s.share.owner = some 1 ∧ s.registered = false ∧ (0, .close 1) ∈ s.pending ∧
      ¬ Admissible Lawful System.step (.init sharedShell) ownerReconnects := by
  refine ⟨_, rfl, rfl, rfl, by decide, fun h => ?_⟩
  have hsplit : Admissible Lawful System.step (.init sharedShell)
      (ownerReconnects.take 6 ++ [.op 0]) := h
  have hlast := (hsplit.append_right rfl).1
  have := ((hlast _ rfl).2 0 0 rfl ⟨_, _, rfl, rfl, rfl⟩ (by decide)).1
  exact absurd this (by decide)

end Dolgate.SessionShare
