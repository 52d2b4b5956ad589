import Dolgate.ShareInput
import Dolgate.ShareOwner

set_option autoImplicit false

namespace Dolgate.SessionShare
open Transition Dolgate.SessionShare.System

def Message.isInput : Message → Bool
  | .viewerInput _ _ => true
  | .controlSignal _ => true
  | _ => false

def Action.isInput : Action → Bool
  | .write _ m => m.isInput
  | .send _ m => m.isInput
  | .late _ m => m.isInput
  | .close _ => false

def Seen.isInput : Seen → Bool
  | .wrote _ m => m.isInput
  | _ => false

/-- The `n`th change of the permission took it away, and no later one has given it back. -/
def Disabled (n : Nat) (log : List Seen) : Prop :=
  ∃ before after, log = before ++ .set n false :: after ∧ ∀ k, .set k true ∉ after

/-- No input is written once a `SetInputEnabled(false)` has returned, until the next enable. -/
def Heeds (log : List Seen) : Prop :=
  ∀ before e after n, log = before ++ e :: after → e.isInput = true → .returned n ∈ before →
    ¬ Disabled n before

/-- A `SetInputEnabled(false)` that still holds returns when all input let through is written. -/
def WrittenOut (s : System) (e : Event) : Prop :=
  ∀ t thread n ops, e = .op t → s.threads[t]? = some thread → thread.ops = .returned n :: ops →
    Disabled n s.log → ∀ p ∈ s.pending, p.2.isInput = false

structure Heeded (s : System) : Prop where
  set : ∀ n b, .set n b ∈ s.log → n < s.sets
  returned : ∀ n, .returned n ∈ s.log → n < s.sets
  returning : ∀ thread ∈ s.threads, ∀ n, .returned n ∈ thread.ops → n < s.sets
  flag : ∀ n, Disabled n s.log → s.share.inputEnabled = false
  still : ∀ n, .returned n ∈ s.log → Disabled n s.log → ∀ p ∈ s.pending, p.2.isInput = false
  heeds : Heeds s.log

section
variable {log : List Seen} {e : Seen} {n : Nat}

theorem Disabled.of_concat (h : Disabled n (log ++ [e])) :
    e = .set n false ∨ (Disabled n log ∧ ∀ k, e ≠ .set k true) := by
  obtain ⟨before, after, hlog, ha⟩ := h
  rcases List.eq_nil_or_concat after with rfl | ⟨after', e', rfl⟩
  · exact .inl (List.singleton_inj.mp (List.append_inj' hlog rfl).2)
  · have hsplit : log ++ [e] = (before ++ .set n false :: after') ++ [e'] := by
      simpa using hlog
    obtain ⟨hl, he⟩ := List.append_inj' hsplit rfl
    obtain rfl := List.singleton_inj.mp he
    refine .inr ⟨⟨before, after', hl, fun k hk => ha k (by simp [hk])⟩, fun k hk => ?_⟩
    exact ha k (by simp [hk])

theorem Heeds.concat (h : Heeds log)
    (he : e.isInput = true → ∀ n, .returned n ∈ log → ¬ Disabled n log) : Heeds (log ++ [e]) := by
  intro before x after n hlog hx hn
  rcases List.eq_nil_or_concat after with rfl | ⟨after', x', rfl⟩
  · obtain ⟨hl, hxe⟩ := List.append_inj' hlog rfl
    obtain rfl := List.singleton_inj.mp hxe
    exact hl ▸ he hx n (hl ▸ hn)
  · have hsplit : log ++ [e] = (before ++ x :: after') ++ [x'] := by
      simpa using hlog
    exact h before x after' n (List.append_inj' hsplit rfl).1 hx hn

end

section
variable {s u : System} {e : Event} {t : Nat} {thread : Thread} {actions : List Action}

theorem heeded_init {share : Share} (hf : share.Fresh) : Heeded (.init share) := by
  refine ⟨?_, ?_, ?_, fun _ _ => hf.inputEnabled, ?_, ?_⟩ <;> simp [System.init, Heeds]

theorem Heeded.keep (h : Heeded s) (hlog : u.log = s.log) (hsets : u.sets = s.sets)
    (hb : u.share.inputEnabled = s.share.inputEnabled)
    (hthreads : ∀ th ∈ u.threads, ∀ n, .returned n ∈ th.ops → n < s.sets)
    (hpending : ∀ p ∈ u.pending, p ∈ s.pending ∨ p.2.isInput = false) : Heeded u where
  set := hlog ▸ hsets ▸ h.set
  returned := hlog ▸ hsets ▸ h.returned
  returning := hsets ▸ hthreads
  flag := by
    rw [hlog, hb]
    exact h.flag
  still := by
    rw [hlog]
    intro n hn hd p hp
    exact (hpending p hp).elim (h.still n hn hd p) id
  heeds := hlog ▸ h.heeds

theorem Heeded.enqueue (h : Heeded s) (t : Nat) (ha : ∀ a ∈ actions, a.isInput = false) :
    Heeded (s.enqueue t actions) := by
  refine h.keep rfl rfl rfl h.returning fun p hp => ?_
  rcases List.mem_append.mp hp with hp | hp
  · exact .inl hp
  · obtain ⟨a, hm, rfl⟩ := List.mem_map.mp hp
    exact .inr (ha a hm)

theorem Heeded.letThrough (h : Heeded s) (t : Nat) (hb : s.share.inputEnabled = true) :
    Heeded (s.enqueue t actions) where
  set := h.set
  returned := h.returned
  returning := h.returning
  flag := h.flag
  still := by
    intro n _ hd
    rw [h.flag n hd] at hb
    cases hb
  heeds := h.heeds

theorem Heeded.setThread (h : Heeded s) (t : Nat)
    (hops : ∀ n, .returned n ∈ thread.ops → n < s.sets) : Heeded (s.setThread t thread) := by
  refine h.keep rfl rfl rfl (fun th hm n hn => ?_) fun p hp => .inl hp
  rcases List.mem_or_eq_of_mem_set hm with hm | rfl
  · exact h.returning th hm n hn
  · exact hops n hn

theorem Heeded.addThread (h : Heeded s) (hops : ∀ n, .returned n ∈ thread.ops → n < s.sets) :
    Heeded { s with threads := s.threads ++ [thread] } := by
  refine h.keep rfl rfl rfl (fun th hm n hn => ?_) fun p hp => .inl hp
  rcases List.mem_append.mp hm with hm | hm
  · exact h.returning th hm n hn
  · exact hops n (List.mem_singleton.mp hm ▸ hn)

theorem Heeded.leaveLoop (h : Heeded s) (ht : s.threads[t]? = some thread) :
    Heeded (s.leaveLoop t thread) := by
  refine h.setThread t fun n hn => h.returning thread (List.mem_of_getElem? ht) n ?_
  rcases List.mem_append.mp hn with hn | hn
  · exact hn
  · cases hr : thread.role <;> simp [hr] at hn

theorem Heeded.record (h : Heeded s) {e : Seen} (hs : ∀ n b, e ≠ .set n b)
    (hr : ∀ n, e = .returned n → n < s.sets ∧
      (Disabled n s.log → ∀ p ∈ s.pending, p.2.isInput = false))
    (hi : e.isInput = true → ∀ n, .returned n ∈ s.log → ¬ Disabled n s.log) :
    Heeded (s.record e) := by
  have hold : ∀ n, Disabled n (s.log ++ [e]) → Disabled n s.log := by
    intro n hd
    rcases hd.of_concat with rfl | ⟨hd, -⟩
    · exact absurd rfl (hs n false)
    · exact hd
  refine ⟨fun n b hn => ?_, fun n hn => ?_, h.returning, fun n hd => h.flag n (hold n hd),
    fun n hn hd => ?_, h.heeds.concat hi⟩
  · rcases List.mem_append.mp hn with hn | hn
    · exact h.set n b hn
    · exact absurd (List.mem_singleton.mp hn).symm (hs n b)
  · rcases List.mem_append.mp hn with hn | hn
    · exact h.returned n hn
    · exact (hr n (List.mem_singleton.mp hn).symm).1
  · rcases List.mem_append.mp hn with hn | hn
    · exact h.still n hn (hold n hd)
    · exact (hr n (List.mem_singleton.mp hn).symm).2 (hold n hd)

theorem Heeded.accepted (h : Heeded s) (m : OwnerMessage) : Heeded (s.record (.accepted m)) :=
  h.record (by simp) (by simp) (by simp [Seen.isInput])

theorem Heeded.change (h : Heeded s) {b : Bool} (hlog : u.log = s.log ++ [.set s.sets b])
    (hsets : u.sets = s.sets + 1) (hb : u.share.inputEnabled = b)
    (hthreads : ∀ th ∈ u.threads, ∀ n, .returned n ∈ th.ops → n ≤ s.sets)
    (hpending : ∀ p ∈ u.pending, p ∈ s.pending ∨ p.2.isInput = false) : Heeded u where
  set := by
    intro n b' hn
    rw [hlog] at hn
    rw [hsets]
    rcases List.mem_append.mp hn with hn | hn
    · exact Nat.lt_succ_of_lt (h.set n b' hn)
    · cases List.mem_singleton.mp hn
      exact Nat.lt_succ_self _
  returned := by
    intro n hn
    rw [hlog] at hn
    rw [hsets]
    rcases List.mem_append.mp hn with hn | hn
    · exact Nat.lt_succ_of_lt (h.returned n hn)
    · cases List.mem_singleton.mp hn
  returning := fun th hm n hn => hsets ▸ Nat.lt_succ_of_le (hthreads th hm n hn)
  flag := by
    intro n hd
    rw [hlog] at hd
    rw [hb]
    rcases hd.of_concat with he | ⟨-, he⟩
    · cases he
      rfl
    · cases b with
      | false => rfl
      | true => exact absurd rfl (he s.sets)
  still := by
    intro n hn hd p hp
    rw [hlog] at hn hd
    have hold : .returned n ∈ s.log := by simpa using hn
    rcases hd.of_concat with he | ⟨hd, -⟩
    · cases he
      exact absurd (h.returned _ hold) (Nat.lt_irrefl _)
    · exact (hpending p hp).elim (h.still n hold hd p) id
  heeds := by
    rw [hlog]
    exact h.heeds.concat (by simp [Seen.isInput])

theorem toViewers_harmless {share : Share} {act : Nat → Action} (h : ∀ c, (act c).isInput = false) :
    ∀ a ∈ share.toViewers act, a.isInput = false := by
  simpa [Share.toViewers] using fun v _ => h v

theorem toOwner_harmless {share : Share} {act : Nat → Action} (h : ∀ c, (act c).isInput = false) :
    ∀ a ∈ share.toOwner act, a.isInput = false := by
  cases ho : share.owner <;> simp [Share.toOwner, ho, h]

theorem ended_harmless (share : Share) (reason : String) :
    ∀ a ∈ share.ended reason, a.isInput = false := by
  refine List.forall_mem_append.mpr ⟨?_, fun a ha => ?_⟩
  · cases ho : share.owner <;> simp [Action.isInput, Message.isInput]
  · obtain ⟨v, -, ha⟩ := List.mem_flatMap.mp ha
    simp only [List.mem_cons, List.not_mem_nil, or_false] at ha
    rcases ha with rfl | rfl <;> rfl

theorem join_harmless (share : Share) (viewer : Nat) :
    ∀ a ∈ (share.join viewer).2, a.isInput = false := by
  simp only [Share.join, Share.initMessage]
  split <;> split <;> simp [Action.isInput, Message.isInput]

theorem Heeded.remove (h : Heeded s) (t : Nat) (reason : String) :
    Heeded (s.remove t reason) := by
  unfold System.remove
  split
  · have hgone : Heeded { s with registered := false } :=
      h.keep rfl rfl rfl h.returning fun _ hp => .inl hp
    exact hgone.enqueue t (ended_harmless s.share reason)
  · exact h

theorem Heeded.changed (h : Heeded s) (t : Nat) (m : OwnerMessage) {r : Share × List Action}
    (hb : r.1.inputEnabled = s.share.inputEnabled) (ha : ∀ a ∈ r.2, a.isInput = false) :
    Heeded (s.changed t m r) := by
  have hshare : Heeded { s with share := r.1 } :=
    h.keep rfl rfl hb h.returning fun _ hp => .inl hp
  exact (hshare.enqueue t ha).accepted m

theorem Heeded.handleOwnerPayload (h : Heeded s) (ht : s.threads[t]? = some thread)
    (m : OwnerMessage) : Heeded (s.handleOwnerPayload t thread m) := by
  cases m with
  | sessionEnded => exact h.remove t _
  | other => exact h
  | hello title hostLabel transport layout snapshot =>
      rw [System.handleOwnerPayload_hello]
      split
      · refine h.changed t _ rfl fun a ha => ?_
        obtain ⟨v, -, ha⟩ := List.mem_flatMap.mp ha
        rcases List.mem_cons.mp ha with rfl | ha
        · rfl
        · split at ha
          · cases ha
          · exact List.mem_singleton.mp ha ▸ rfl
      · exact h.leaveLoop ht
  | output data =>
      rw [System.handleOwnerPayload_output]
      split
      · exact h.changed t _ rfl (toViewers_harmless fun _ => rfl)
      · exact h.leaveLoop ht
  | resize layout =>
      rw [System.handleOwnerPayload_resize]
      split
      · exact h.changed t _ rfl (toViewers_harmless fun _ => rfl)
      · exact h.leaveLoop ht
  | snapshot snapshot layout snapshotKind =>
      rw [System.handleOwnerPayload_snapshot]
      split
      · refine h.changed t _ rfl ?_
        simp only [Share.updateSnapshot]
        split
        · simp
        · exact toViewers_harmless fun _ => rfl
      · exact h.leaveLoop ht
  | inputEnabled b =>
      rw [System.handleOwnerPayload_inputEnabled]
      split
      · refine (h.accepted (.inputEnabled b)).change rfl rfl rfl (fun th hm n hn => ?_)
          fun p hp => ?_
        · rcases List.mem_or_eq_of_mem_set hm with hm | rfl
          · exact Nat.le_of_lt (h.returning th hm n hn)
          · cases List.mem_singleton.mp hn
            exact Nat.le_refl _
        · rcases List.mem_append.mp hp with hp | hp
          · exact .inl hp
          · obtain ⟨a, ha, rfl⟩ := List.mem_map.mp hp
            refine .inr ?_
            rcases List.mem_append.mp ha with ha | ha
            · exact toViewers_harmless (fun _ => rfl) a ha
            · exact toOwner_harmless (fun _ => rfl) a ha
      · exact h.leaveLoop ht

theorem Heeded.handleViewerPayload (h : Heeded s) (ht : s.threads[t]? = some thread)
    (m : ViewerMessage) : Heeded (s.handleViewerPayload t thread m) := by
  have hlet : ∀ (valid : Bool) (m : Message), Heeded (s.enqueue t
      (if valid && s.share.inputEnabled then s.share.toOwner (.send · m) else [])) := by
    intro valid m
    split
    · rename_i hb
      exact h.letThrough t (Bool.and_eq_true_iff.mp hb).2
    · exact h.enqueue t (by simp)
  cases m with
  | other => exact h
  | input encoding data =>
      simp only [System.handleViewerPayload]
      split
      · exact hlet _ _
      · split
        · exact h.leaveLoop ht
        · exact h
  | controlSignal signal =>
      simp only [System.handleViewerPayload]
      split
      · exact hlet _ _
      · split
        · exact h.leaveLoop ht
        · exact h

theorem Heeded.setInputEnabled (h : Heeded s) (userID : String) (b : Bool) :
    Heeded (s.setInputEnabled userID b) := by
  simp only [System.setInputEnabled]
  split
  · refine h.change rfl rfl rfl (fun th hm n hn => ?_) fun p hp => ?_
    · rcases List.mem_append.mp hm with hm | hm
      · exact Nat.le_of_lt (h.returning th hm n hn)
      · cases List.mem_singleton.mp hm
        cases List.mem_singleton.mp hn
        exact Nat.le_refl _
    · rcases List.mem_append.mp hp with hp | hp
      · exact .inl hp
      · obtain ⟨a, ha, rfl⟩ := List.mem_map.mp hp
        refine .inr ?_
        rcases List.mem_append.mp ha with ha | ha
        · exact toOwner_harmless (fun _ => rfl) a ha
        · exact toViewers_harmless (fun _ => rfl) a ha
  · exact h

theorem Heeded.runOp (h : Heeded s) {op : Op}
    (hr : ∀ n, op = .returned n → n < s.sets ∧
      (Disabled n s.log → ∀ p ∈ s.pending, p.2.isInput = false)) : Heeded (s.runOp t op) := by
  cases op with
  | broadcastViewerCount =>
      simp only [System.runOp]
      split
      · exact h.enqueue t (List.forall_mem_append.mpr
          ⟨toOwner_harmless fun _ => rfl, toViewers_harmless fun _ => rfl⟩)
      · exact h
  | tellViewerCount owner n => exact h.enqueue t (by simp [Action.isInput, Message.isInput])
  | greet owner => exact h.enqueue t (by simp [Action.isInput, Message.isInput])
  | returned n => exact h.record (by simp) (by simpa using hr n rfl) (by simp [Seen.isInput])
  | leave v =>
      simp only [System.runOp]
      split
      · have hout : Heeded { s with
            share := { s.share with viewers := s.share.viewers.filter (· ≠ v) } } :=
          h.keep rfl rfl rfl h.returning fun _ hp => .inl hp
        exact hout.enqueue t (by simp [Action.isInput])
      · exact h.enqueue t (by simp [Action.isInput])
  | delete => exact h.remove t _

theorem Heeded.perform (h : Heeded s) {i : Nat} {a : Action} (hi : s.pending[i]? = some (t, a)) :
    Heeded (System.act { s with pending := s.pending.eraseIdx i } t a) := by
  have hmem := List.mem_of_getElem? hi
  have h' : Heeded { s with pending := s.pending.eraseIdx i } :=
    h.keep rfl rfl rfl h.returning fun p hp => .inl (List.mem_of_mem_eraseIdx hp)
  have hin : ∀ c (m : Message), m.isInput = a.isInput → Heeded
      (System.record { s with pending := s.pending.eraseIdx i } (.wrote c m)) := by
    intro c m hm
    refine h'.record (by simp) (by simp) fun hx n hn hd => ?_
    have hx : a.isInput = true := hm ▸ hx
    simp [h.still n hn hd _ hmem] at hx
  have hrelook : ∀ (m : Message) layout, (m.relook layout).isInput = m.isInput := by
    intro m layout
    cases m <;> rfl
  cases a with
  | write c m =>
      simp only [System.act]
      split
      · exact h'
      · exact hin c m rfl
  | late c m =>
      simp only [System.act]
      split
      · exact h'
      · exact hin c _ (hrelook m _)
  | send c m =>
      simp only [System.act]
      split
      · split
        · exact h'
        · exact h'.leaveLoop ‹_›
      · exact hin c m rfl
  | close c => exact h'.keep rfl rfl rfl h'.returning fun _ hp => .inl hp

theorem Heeded.step (h : Heeded s) (hw : WrittenOut s e) (he : s.step e = some u) : Heeded u := by
  cases e with
  | connectOwner token =>
      cases he
      simp only [System.connectOwner]
      split
      · refine Heeded.enqueue (?_ : Heeded _) _ (by simp [Action.isInput, Message.isInput])
        refine h.keep rfl rfl rfl (fun th hm n hn => ?_) fun _ hp => .inl hp
        rcases List.mem_append.mp hm with hm | hm
        · exact h.returning th hm n hn
        · cases List.mem_singleton.mp hm
          simp at hn
      · exact h.keep rfl rfl rfl h.returning fun _ hp => .inl hp
  | connectViewer token =>
      cases he
      simp only [System.connectViewer]
      split
      · refine Heeded.enqueue (?_ : Heeded _) _ (join_harmless s.share s.conns)
        refine h.keep rfl rfl rfl (fun th hm n hn => ?_) fun _ hp => .inl hp
        rcases List.mem_append.mp hm with hm | hm
        · exact h.returning th hm n hn
        · cases List.mem_singleton.mp hm
          simp at hn
      · exact h.keep rfl rfl rfl h.returning fun _ hp => .inl hp
  | setInputEnabled userID b =>
      cases he
      exact h.setInputEnabled userID b
  | delete userID reason =>
      cases he
      simp only [System.delete]
      split
      · exact (h.addThread (by simp)).remove _ _
      · exact h
  | receiveOwner t m =>
      simp only [System.step, Option.bind_eq_bind, Option.bind_eq_some_iff] at he
      obtain ⟨thread, ht, he⟩ := he
      split at he
      · split at he
        · cases he
          exact h.handleOwnerPayload ht m
        · cases he
      · cases he
  | receiveViewer t m =>
      simp only [System.step, Option.bind_eq_bind, Option.bind_eq_some_iff] at he
      obtain ⟨thread, ht, he⟩ := he
      split at he
      · split at he
        · cases he
          exact h.handleViewerPayload ht m
        · cases he
      · cases he
  | hangup t =>
      simp only [System.step, Option.bind_eq_bind, Option.bind_eq_some_iff] at he
      obtain ⟨thread, ht, he⟩ := he
      split at he
      · split at he
        · cases he
          exact h.leaveLoop ht
        · cases he
      · cases he
  | op t =>
      simp only [System.step, Option.bind_eq_bind, Option.bind_eq_some_iff] at he
      obtain ⟨thread, ht, he⟩ := he
      split at he
      · cases he
      · rename_i op ops hops
        split at he
        · cases he
          have hold : ∀ n, .returned n ∈ thread.ops → n < s.sets :=
            h.returning thread (List.mem_of_getElem? ht)
          have hthread : Heeded (s.setThread t { thread with ops := ops }) :=
            h.setThread t fun n hn => hold n (hops ▸ List.mem_cons_of_mem _ hn)
          refine hthread.runOp fun n hn => ?_
          subst hn
          exact ⟨hold n (by simp [hops]), hw t thread n ops rfl ht hops⟩
        · cases he
  | perform i =>
      simp only [System.step, Option.bind_eq_bind, Option.bind_eq_some_iff] at he
      obtain ⟨⟨t, a⟩, hi, he⟩ := he
      split at he
      · cases he
      · cases he
        exact h.perform hi
  | drop conn =>
      simp only [System.step] at he
      split at he
      · cases he
        exact h.keep rfl rfl rfl h.returning fun _ hp => .inl hp
      · cases he

theorem input_permission_agreed {share : Share} (hf : share.Fresh) (es : List Event)
    (hr : run System.step (.init share) es = some s) :
    (Admissible (InTurn Message.permission) System.step (.init share) es →
      s.pending = [] → (∀ c, ¬ s.Greets c) → ∀ c, s.share.attached c → s.shut c = false →
        (s.sent Message.permission c).getLast? = some s.share.inputEnabled) ∧
    (Admissible WrittenOut System.step (.init share) es → Heeds s.log) := by
  constructor
  · intro ha hp hg c hc ho
    have h : Agreed s := run_invariant_of_admissible (fun _ _ _ h hok he => h.step hok he)
      (agreed_init hf) ha hr
    have hsent : s.conveyed Message.permission c = s.sent Message.permission c := by
      simp [conveyed, unsent, hp]
    rw [← hsent]
    rcases hc with hc | hc
    · exact (h.ownerTold c hc ho).resolve_left (hg c)
    · exact h.viewersTold c hc ho
  · intro ha
    have h : Heeded s := run_invariant_of_admissible (fun _ _ _ h hok he => h.step hok he)
      (heeded_init hf) ha hr
    exact h.heeds

end

theorem inTurn_first {s : System} : InTurn Message.permission s (.perform 0) :=
  fun _ _ _ _ _ _ hy => (nomatch hy)

theorem writtenOut_of_empty {s : System} {e : Event} (h : s.pending = []) : WrittenOut s e := by
  intro t thread n ops _ _ _ _ p hp
  rw [h] at hp
  cases hp

theorem writtenOut_of_ne {s : System} {e : Event} (h : ∀ t, e ≠ .op t) : WrittenOut s e :=
  fun t _ _ _ he _ _ _ _ _ => absurd he (h t)

theorem not_greets {s : System} {c : Nat} (h : s.threads.all (·.ops = []) = true) :
    ¬ s.Greets c := by
  rintro ⟨thread, hm, hg⟩
  simp [of_decide_eq_true (List.all_eq_true.mp h thread hm)] at hg

def toggledInOrder : List Event :=
  [.connectOwner "owner", .perform 0, .op 0, .perform 0, .setInputEnabled "user" true, .perform 0,
    .op 1, .setInputEnabled "user" false, .perform 0, .op 2]

theorem input_permission_agreed_in_order :
    ∃ s, run System.step (.init sharedShell) toggledInOrder = some s ∧
      (s.sent Message.permission 0).getLast? = some false ∧ Heeds s.log := by
  have hfresh : sharedShell.Fresh := Share.create_fresh ..
  refine ⟨_, rfl, ?_⟩
  obtain ⟨hagree, hheeds⟩ := input_permission_agreed hfresh toggledInOrder rfl
  refine ⟨hagree ?_ rfl ?_ 0 (.inl rfl) rfl, hheeds ?_⟩
  · refine admissible_of_mem fun e he s => ?_
    simp only [toggledInOrder, List.mem_cons, List.not_mem_nil, or_false] at he
    rcases he with rfl | rfl | rfl | rfl | rfl | rfl | rfl | rfl | rfl | rfl
    all_goals first
      | exact inTurn_first
      | trivial
  · exact fun c => not_greets rfl
  · refine ⟨writtenOut_of_ne (by simp), fun u hu => ?_⟩
    cases hu
    refine ⟨writtenOut_of_ne (by simp), fun u hu => ?_⟩
    cases hu
    refine ⟨writtenOut_of_empty rfl, fun u hu => ?_⟩
    cases hu
    refine ⟨writtenOut_of_ne (by simp), fun u hu => ?_⟩
    cases hu
    refine ⟨writtenOut_of_ne (by simp), fun u hu => ?_⟩
    cases hu
    refine ⟨writtenOut_of_ne (by simp), fun u hu => ?_⟩
    cases hu
    refine ⟨writtenOut_of_empty rfl, fun u hu => ?_⟩
    cases hu
    refine ⟨writtenOut_of_ne (by simp), fun u hu => ?_⟩
    cases hu
    refine ⟨writtenOut_of_ne (by simp), fun u hu => ?_⟩
    cases hu
    exact ⟨writtenOut_of_empty rfl, fun _ _ => trivial⟩

/-- The permission is given and taken away, and the owner hears of it the other way round. -/
def toggledTwice : List Event :=
  [.connectOwner "owner", .perform 0, .op 0, .perform 0, .setInputEnabled "user" true,
    .setInputEnabled "user" false, .perform 1, .op 2, .perform 0, .op 1]

/-- The permission is taken away between the look at it and the write of the input. -/
def typedTooLate : List Event :=
  [.connectOwner "owner", .perform 0, .op 0, .perform 0, .connectViewer "viewer", .perform 0,
    .op 1, .perform 0, .perform 0, .op 1, .perform 0, .setInputEnabled "user" true, .perform 0,
    .perform 0, .op 2, .receiveViewer 1 (.controlSignal "interrupt"),
    .setInputEnabled "user" false, .perform 1, .perform 1, .op 3, .perform 0]

theorem permission_overtaken_and_input_late :
    (∃ s, run System.step (.init sharedShell) toggledTwice = some s ∧ s.pending = [] ∧
      s.threads.all (·.ops = []) = true ∧ s.share.owner = some 0 ∧ s.shut 0 = false ∧
      s.share.inputEnabled = false ∧ (s.sent Message.permission 0).getLast? = some true) ∧
    ∃ s, run System.step (.init sharedShell) typedTooLate = some s ∧ ¬ Heeds s.log := by
  have hlast : (run System.step (.init sharedShell) typedTooLate).map (fun s => s.log.drop 10) =
      some [.set 1 false, .wrote 0 (.inputEnabled false), .wrote 1 (.inputEnabled false),
        .returned 1, .wrote 0 (.controlSignal "interrupt")] := by decide
  obtain ⟨s, hs, hlast⟩ := Option.map_eq_some_iff.mp hlast
  refine ⟨⟨_, rfl, rfl, rfl, rfl, rfl, rfl, rfl⟩, s, hs, fun h => ?_⟩
  have hlog := List.take_append_drop 10 s.log
  rw [hlast] at hlog
  refine h (s.log.take 10 ++ [.set 1 false, .wrote 0 (.inputEnabled false),
    .wrote 1 (.inputEnabled false), .returned 1]) (.wrote 0 (.controlSignal "interrupt")) [] 1
    (hlog.symm.trans (by simp)) rfl (by simp) ?_
  exact ⟨s.log.take 10, _, rfl, by simp⟩

end Dolgate.SessionShare
