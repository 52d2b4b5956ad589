import Dolgate.ShareDelivery

set_option autoImplicit false

namespace Dolgate.SessionShare
open Transition Dolgate.SessionShare.System

def Message.permission : Message → Option Bool
  | .init _ _ _ _ b _ => some b
  | .inputEnabled b => some b
  | _ => none

theorem permission_relooks : Relooks Message.permission := by
  intro m layout
  cases m <;> rfl

theorem permission_neutral : Neutral Message.permission := by
  constructor <;> intros <;> rfl

/-- Every open connection was told, or is going to be told, what holds: that of the owner from its
greeting on. -/
structure Agreed (s : System) : Prop where
  nodup : s.share.viewers.Nodup
  viewers : ∀ v ∈ s.share.viewers, v < s.conns
  owner : ∀ c, s.share.owner = some c → c < s.conns ∧ c ∉ s.share.viewers
  greets : ∀ c, s.Greets c → c < s.conns
  blank : ∀ c, s.conns ≤ c → s.conveyed Message.permission c = []
  viewersTold : ∀ v ∈ s.share.viewers, s.shut v = false →
    (s.conveyed Message.permission v).getLast? = some s.share.inputEnabled
  ownerTold : ∀ c, s.share.owner = some c → s.shut c = false → s.Greets c ∨
    (s.conveyed Message.permission c).getLast? = some s.share.inputEnabled

section
variable {s u : System} {e : Event} {t : Nat}

theorem agreed_init {share : Share} (hf : share.Fresh) : Agreed (.init share) := by
  constructor <;> simp [System.init, hf.viewers, hf.owner, conveyed, sent, unsent, Greets]

theorem Agreed.keep (h : Agreed s) (hv : u.share.viewers.Sublist s.share.viewers)
    (ho : u.share.owner = s.share.owner) (hb : u.share.inputEnabled = s.share.inputEnabled)
    (hconns : s.conns ≤ u.conns) (hshut : ∀ c, s.shut c = true → u.shut c = true)
    (hconv : ∀ c, u.shut c = false →
      u.conveyed Message.permission c = s.conveyed Message.permission c)
    (hblank : ∀ c, s.conveyed Message.permission c = [] → u.conveyed Message.permission c = [])
    (hg : ∀ c, s.Greets c ↔ u.Greets c) : Agreed u := by
  have hopen : ∀ c, u.shut c = false → s.shut c = false := by
    intro c hc
    by_contra hs
    simp [hshut c (by simpa using hs)] at hc
  refine ⟨h.nodup.sublist hv, ?_, ?_, ?_, ?_, ?_, ?_⟩
  · exact fun v hm => Nat.lt_of_lt_of_le (h.viewers v (hv.subset hm)) hconns
  · intro c hc
    obtain ⟨hlt, hnot⟩ := h.owner c (ho ▸ hc)
    exact ⟨Nat.lt_of_lt_of_le hlt hconns, fun hm => hnot (hv.subset hm)⟩
  · exact fun c hc => Nat.lt_of_lt_of_le (h.greets c ((hg c).mpr hc)) hconns
  · exact fun c hc => hblank c (h.blank c (Nat.le_trans hconns hc))
  · intro v hm hs
    rw [hconv v hs, hb]
    exact h.viewersTold v (hv.subset hm) (hopen v hs)
  · intro c hc hs
    rw [hconv c hs, hb]
    exact (h.ownerTold c (ho ▸ hc) (hopen c hs)).imp_left (hg c).mp

theorem Agreed.quiet (h : Agreed s) (hq : Quiet Message.permission s u) : Agreed u :=
  h.keep hq.viewers hq.owner hq.inputEnabled (Nat.le_of_eq hq.conns.symm) hq.shut hq.conveyed
    hq.blank fun c => ⟨hq.greets c, hq.greeting c⟩

theorem Agreed.refuse (h : Agreed s) :
    Agreed { s with conns := s.conns + 1, closed := s.conns :: s.closed } := by
  refine h.keep (.refl _) rfl rfl (Nat.le_succ _) (fun c hc => ?_) (fun _ _ => rfl)
    (fun _ hc => hc) fun _ => .rfl
  simp only [shut, List.contains_cons, Bool.or_eq_true] at hc ⊢
  exact hc.imp .inr id

theorem Agreed.connectOwner (h : Agreed s) (token : String) : Agreed (s.connectOwner token) := by
  unfold System.connectOwner
  simp only
  split
  · refine Agreed.quiet (?_ : Agreed _) (.enqueue (by simp [Action.on, Message.permission]))
    refine ⟨h.nodup, ?_, ?_, ?_, ?_, ?_, ?_⟩
    · exact fun v hv => Nat.lt_succ_of_lt (h.viewers v hv)
    · intro c hc
      cases hc
      exact ⟨Nat.lt_succ_self _, fun hm => Nat.lt_irrefl _ (h.viewers _ hm)⟩
    · rintro c ⟨thread, hm, hc⟩
      rcases List.mem_append.mp hm with hm | hm
      · exact Nat.lt_succ_of_lt (h.greets c ⟨thread, hm, hc⟩)
      · cases List.mem_singleton.mp hm
        cases List.mem_singleton.mp hc
        exact Nat.lt_succ_self _
    · exact fun c hc => h.blank c (Nat.le_of_succ_le hc)
    · intro v hv hs
      refine h.viewersTold v hv ?_
      by_contra hn
      have hn : s.shut v = true := by simpa using hn
      simp only [shut, List.contains_eq_mem, List.mem_append, Bool.or_eq_true, decide_eq_true_eq,
        Bool.or_eq_false_iff, decide_eq_false_iff_not] at hs hn
      rcases hn with hn | hn
      · exact hs.1 (.inr hn)
      · exact hs.2 hn
    · intro c hc _
      cases hc
      exact .inl ⟨_, List.mem_append_right _ (List.mem_singleton_self _), List.mem_singleton_self _⟩
  · exact h.refuse

theorem join_permission (share : Share) (viewer c : Nat) :
    (share.join viewer).2.filterMap (Action.on Message.permission c) =
      if viewer = c then [share.inputEnabled] else [] := by
  simp only [Share.join, Share.initMessage]
  by_cases hc : viewer = c <;> by_cases hs : share.snapshot = "" <;>
    by_cases hr : share.replayLog = [] <;>
      simp [Action.on, Message.permission, hc, hs, hr]

theorem Agreed.connectViewer (h : Agreed s) (token : String) : Agreed (s.connectViewer token) := by
  unfold System.connectViewer
  simp only
  split
  · have hnew : s.conns ∉ s.share.viewers := fun hm => Nat.lt_irrefl _ (h.viewers _ hm)
    have hconv : ∀ (w : System) c, w.log = s.log → w.pending = s.pending →
        (w.enqueue s.threads.length (s.share.join s.conns).2).conveyed Message.permission c =
          s.conveyed Message.permission c ++ if s.conns = c then [s.share.inputEnabled] else [] := by
      intro w c hw hp
      rw [conveyed_enqueue, join_permission]
      simp only [conveyed, sent, unsent, hw, hp]
    refine ⟨?_, ?_, ?_, ?_, ?_, ?_, ?_⟩
    · exact List.nodup_append.mpr ⟨h.nodup, by simp, fun v hv w hw hvw =>
        hnew (List.mem_singleton.mp hw ▸ hvw ▸ hv)⟩
    · intro v hv
      rcases List.mem_append.mp hv with hv | hv
      · exact Nat.lt_succ_of_lt (h.viewers v hv)
      · exact List.mem_singleton.mp hv ▸ Nat.lt_succ_self _
    · intro c hc
      obtain ⟨hlt, hnot⟩ := h.owner c hc
      refine ⟨Nat.lt_succ_of_lt hlt, fun hm => ?_⟩
      rcases List.mem_append.mp hm with hm | hm
      · exact hnot hm
      · exact Nat.ne_of_lt hlt (List.mem_singleton.mp hm)
    · rintro c ⟨thread, hm, hc⟩
      rcases List.mem_append.mp hm with hm | hm
      · exact Nat.lt_succ_of_lt (h.greets c ⟨thread, hm, hc⟩)
      · cases List.mem_singleton.mp hm
        simp at hc
    · intro c hc
      have hlt : s.conns < c := hc
      refine (hconv _ c rfl rfl).trans ?_
      rw [h.blank c (Nat.le_of_lt hlt), if_neg (Nat.ne_of_lt hlt), List.append_nil]
    · intro v hv hs
      refine (congrArg List.getLast? (hconv _ v rfl rfl)).trans ?_
      rcases List.mem_append.mp hv with hv | hv
      · have hne : s.conns ≠ v := fun hvc => hnew (hvc ▸ hv)
        rw [if_neg hne, List.append_nil]
        exact h.viewersTold v hv hs
      · obtain rfl := List.mem_singleton.mp hv
        rw [if_pos rfl, List.getLast?_concat]
        rfl
    · intro c hc hs
      have hne : s.conns ≠ c := Nat.ne_of_gt (h.owner c hc).1
      refine (h.ownerTold c hc hs).imp (fun hg => ?_) fun hl => ?_
      · obtain ⟨thread, hm, hg⟩ := hg
        exact ⟨thread, List.mem_append_left _ hm, hg⟩
      · refine (congrArg List.getLast? (hconv _ c rfl rfl)).trans ?_
        rw [if_neg hne, List.append_nil]
        exact hl
  · exact h.refuse

theorem Agreed.tell (h : Agreed s) (t : Nat) (share : Share) {actions : List Action}
    (hv : share.viewers = s.share.viewers) (ho : share.owner = s.share.owner) (sets : Nat)
    (hviewers : ∀ v ∈ s.share.viewers,
      actions.filterMap (Action.on Message.permission v) = [share.inputEnabled])
    (howner : ∀ c, s.share.owner = some c →
      actions.filterMap (Action.on Message.permission c) = [share.inputEnabled] ∨
        (share.inputEnabled = s.share.inputEnabled ∧
          actions.filterMap (Action.on Message.permission c) = []))
    (hnone : ∀ c, c ∉ s.share.viewers → s.share.owner ≠ some c →
      actions.filterMap (Action.on Message.permission c) = []) :
    Agreed ({ s with share := share, sets := sets }.enqueue t actions) := by
  have hconv : ∀ c, (System.enqueue { s with share := share, sets := sets } t
      actions).conveyed Message.permission c =
      s.conveyed Message.permission c ++ actions.filterMap (Action.on Message.permission c) :=
    fun c => conveyed_enqueue
  refine ⟨hv ▸ h.nodup, hv ▸ h.viewers, fun c hc => ?_, h.greets, fun c hc => ?_,
    fun v hm hs => ?_, fun c hc hs => ?_⟩
  · show c < s.conns ∧ c ∉ share.viewers
    rw [hv]
    exact h.owner c (ho ▸ hc)
  · have hout : c ∉ s.share.viewers := fun hm => Nat.not_lt_of_le hc (h.viewers c hm)
    have hown : s.share.owner ≠ some c := fun ho => Nat.not_lt_of_le hc (h.owner c ho).1
    rw [hconv, h.blank c hc, hnone c hout hown, List.append_nil]
  · rw [hconv, hviewers v (hv ▸ hm), List.getLast?_concat]
    rfl
  · rw [hconv]
    rcases howner c (ho ▸ hc) with hon | ⟨hb, hon⟩
    · rw [hon, List.getLast?_concat]
      exact .inr rfl
    · rw [hon, List.append_nil]
      show _ ∨ _ = some share.inputEnabled
      rw [hb]
      exact h.ownerTold c (ho ▸ hc) hs

theorem hello_permission {share : Share} (title hostLabel transport : String) (layout : Layout)
    (snapshot : String) (hnd : share.viewers.Nodup) (c : Nat) :
    (share.updateHello title hostLabel transport layout snapshot).2.filterMap
        (Action.on Message.permission c) =
      if c ∈ share.viewers then [share.inputEnabled] else [] := by
  refine flatMap_on (fun v => ?_) hnd
  by_cases hv : v = c <;> by_cases hs : snapshot = "" <;>
    simp [Share.initMessage, Action.on, Message.permission, hv, hs]

theorem permission_on (b : Bool) (v c : Nat) :
    (Action.write v (.inputEnabled b)).on Message.permission c = if v = c then some b else none :=
  rfl

theorem set_permission {share : Share} (b : Bool) (hnd : share.viewers.Nodup) (c : Nat) :
    (share.toViewers (.write · (.inputEnabled b))).filterMap (Action.on Message.permission c) =
        (if c ∈ share.viewers then [b] else []) ∧
      (share.toOwner (.write · (.inputEnabled b))).filterMap (Action.on Message.permission c) =
        if share.owner = some c then [b] else [] :=
  ⟨toViewers_on (permission_on b) hnd, toOwner_on (permission_on b)⟩

theorem Agreed.setPermission (h : Agreed s) (t : Nat) (b : Bool) (sets : Nat)
    {actions : List Action}
    (hon : ∀ c, actions.filterMap (Action.on Message.permission c) =
      if c ∈ s.share.viewers ∨ s.share.owner = some c then [b] else []) :
    Agreed ({ s with
      share := { s.share with inputEnabled := b }, sets := sets }.enqueue t actions) := by
  refine h.tell t { s.share with inputEnabled := b } rfl rfl sets (fun v hv => ?_) (fun c hc => .inl ?_) fun c hv ho => ?_
  · rw [hon, if_pos (.inl hv)]
  · rw [hon, if_pos (.inr hc)]
  · rw [hon, if_neg (not_or.mpr ⟨hv, ho⟩)]

theorem Agreed.set_on (h : Agreed s) (b : Bool) (c : Nat) :
    (s.share.setInputEnabled b).2.filterMap (Action.on Message.permission c) =
        (if c ∈ s.share.viewers ∨ s.share.owner = some c then [b] else []) ∧
      (s.share.setInputEnabledForOwnerMessage b).2.filterMap (Action.on Message.permission c) =
        if c ∈ s.share.viewers ∨ s.share.owner = some c then [b] else [] := by
  obtain ⟨hv, ho⟩ := set_permission b h.nodup c
  simp only [Share.setInputEnabled, Share.setInputEnabledForOwnerMessage, List.filterMap_append,
    hv, ho]
  by_cases hm : c ∈ s.share.viewers
  · have hne : s.share.owner ≠ some c := fun ho => (h.owner c ho).2 hm
    simp [hm, hne]
  · by_cases ho : s.share.owner = some c <;> simp [hm, ho]

theorem Agreed.addThread (h : Agreed s) {thread : Thread} (hg : ∀ c, .greet c ∉ thread.ops) :
    Agreed { s with threads := s.threads ++ [thread] } :=
  h.quiet (.addThread hg)

theorem Agreed.accepted (h : Agreed s) (m : OwnerMessage) : Agreed (s.record (.accepted m)) := by
  refine h.keep (.refl _) rfl rfl (Nat.le_refl _) (fun _ h => h) (fun c _ => ?_) (fun c hc => ?_)
    fun _ => .rfl
  · exact conveyed_record (by simp)
  · exact (conveyed_record (by simp)).trans hc

theorem Agreed.handleOwnerPayload (h : Agreed s) {thread : Thread}
    (ht : s.threads[t]? = some thread) (hops : thread.ops = []) (m : OwnerMessage) :
    Agreed (s.handleOwnerPayload t thread m) := by
  have hgone : Agreed (s.leaveLoop t thread) := h.quiet (.leaveLoop ht)
  have hsame : ∀ (m : OwnerMessage) (r : Share × List Action), r.1.viewers = s.share.viewers →
      r.1.owner = s.share.owner → r.1.inputEnabled = s.share.inputEnabled →
      (∀ c, ∀ a ∈ r.2, a.on Message.permission c = none) → Agreed (s.changed t m r) := by
    intro m r hv ho hb hq
    have hshare : Agreed { s with share := r.1 } :=
      h.keep (hv ▸ .refl _) ho hb (Nat.le_refl _) (fun _ h => h) (fun _ _ => rfl) (fun _ h => h)
        fun _ => .rfl
    exact (hshare.quiet (.enqueue hq)).accepted m
  cases m with
  | sessionEnded => exact h.quiet (.remove permission_neutral t _)
  | other => exact h
  | hello title hostLabel transport layout snapshot =>
      rw [System.handleOwnerPayload_hello]
      split
      · refine Agreed.accepted (h.tell t
          (s.share.updateHello title hostLabel transport layout snapshot).1 rfl rfl s.sets
            ?_ ?_ ?_) _
        · intro v hv
          rw [hello_permission _ _ _ _ _ h.nodup, if_pos hv]
          rfl
        · intro c hc
          exact .inr ⟨rfl, by rw [hello_permission _ _ _ _ _ h.nodup, if_neg (h.owner c hc).2]⟩
        · intro c hc _
          rw [hello_permission _ _ _ _ _ h.nodup, if_neg hc]
      · exact hgone
  | output data =>
      rw [System.handleOwnerPayload_output]
      split
      · exact hsame _ _ rfl rfl rfl fun c =>
          toViewers_silent (by simp [Action.on, Message.permission])
      · exact hgone
  | resize layout =>
      rw [System.handleOwnerPayload_resize]
      split
      · exact hsame _ _ rfl rfl rfl fun c =>
          toViewers_silent (by simp [Action.on, Message.permission])
      · exact hgone
  | snapshot snapshot layout snapshotKind =>
      rw [System.handleOwnerPayload_snapshot]
      split
      · refine hsame _ _ rfl rfl rfl fun c => ?_
        simp only [Share.updateSnapshot]
        split
        · simp
        · exact toViewers_silent (by simp [Action.on, Message.permission])
      · exact hgone
  | inputEnabled b =>
      rw [System.handleOwnerPayload_inputEnabled]
      split
      · have hthread : Agreed (s.setThread t { thread with ops := [.returned s.sets] }) :=
          h.quiet (.setThread ht (by simp [hops]))
        have hset := hthread.setPermission t b (s.sets + 1) fun c => (h.set_on b c).2
        exact (hset.accepted _).quiet (.record (by simp) (by simp))
      · exact hgone

theorem Agreed.setInputEnabled (h : Agreed s) (userID : String) (b : Bool) :
    Agreed (s.setInputEnabled userID b) := by
  simp only [System.setInputEnabled]
  split
  · have hthread : Agreed { s with
        threads := s.threads ++ [⟨.request, [.returned s.sets], false⟩] } :=
      h.addThread (by simp)
    have hset := hthread.setPermission s.threads.length b (s.sets + 1) fun c => (h.set_on b c).1
    exact hset.quiet (.record nofun nofun)
  · exact h

theorem Agreed.greet (h : Agreed s) {thread : Thread} {c : Nat} {ops : List Op}
    (ht : s.threads[t]? = some thread) (hops : thread.ops = .greet c :: ops) (hc : c < s.conns) :
    Agreed ((s.setThread t { thread with ops := ops }).runOp t (.greet c)) := by
  have hconv : ∀ d, ((s.setThread t { thread with ops := ops }).runOp t (.greet c)).conveyed
      Message.permission d = s.conveyed Message.permission d ++
        if c = d then [s.share.inputEnabled] else [] := by
    intro d
    simp only [System.runOp]
    rw [conveyed_enqueue]
    by_cases hcd : c = d <;> simp [Action.on, Message.permission, hcd] <;> rfl
  refine ⟨h.nodup, h.viewers, h.owner, ?_, fun d hd => ?_, fun v hv hs => ?_,
    fun d hd hs => ?_⟩
  · rintro d ⟨th, hm, hd⟩
    rcases List.mem_or_eq_of_mem_set hm with hm | rfl
    · exact h.greets d ⟨th, hm, hd⟩
    · exact h.greets d ⟨thread, List.mem_of_getElem? ht, hops ▸ List.mem_cons_of_mem _ hd⟩
  · have hne : c ≠ d := fun hcd => Nat.not_lt_of_le hd (hcd ▸ hc)
    rw [hconv, h.blank d hd, if_neg hne, List.append_nil]
  · rw [hconv]
    by_cases hcv : c = v
    · rw [if_pos hcv, List.getLast?_concat]
      rfl
    · rw [if_neg hcv, List.append_nil]
      exact h.viewersTold v hv hs
  · rw [hconv]
    by_cases hcd : c = d
    · rw [if_pos hcd, List.getLast?_concat]
      exact .inr rfl
    · rw [if_neg hcd, List.append_nil]
      refine (h.ownerTold d hd hs).imp_left ?_
      rintro ⟨th, hm, hg⟩
      obtain ⟨j, hj⟩ := List.mem_iff_getElem?.mp hm
      have hlt := (List.getElem?_eq_some_iff.mp ht).1
      by_cases hjt : t = j
      · subst hjt
        cases ht.symm.trans hj
        refine ⟨{ thread with ops := ops }, List.mem_set hlt _, ?_⟩
        simpa [hops, Ne.symm hcd] using hg
      · exact ⟨th, List.mem_of_getElem? ((List.getElem?_set_ne hjt).trans hj), hg⟩

theorem Agreed.step (h : Agreed s) (hturn : InTurn Message.permission s e)
    (he : s.step e = some u) : Agreed u := by
  by_cases hs : s.Speaks e
  · cases e with
    | connectOwner token =>
        cases he
        exact h.connectOwner token
    | connectViewer token =>
        cases he
        exact h.connectViewer token
    | setInputEnabled userID b =>
        cases he
        exact h.setInputEnabled userID b
    | receiveOwner t m =>
        simp only [System.step, Option.bind_eq_bind, Option.bind_eq_some_iff] at he
        obtain ⟨thread, ht, he⟩ := he
        split at he
        · split at he
          · cases he
            exact h.handleOwnerPayload ht rfl m
          · cases he
        · cases he
    | op t =>
        obtain ⟨thread, c, ops, ht, hops⟩ := hs
        have hc := h.greets c ⟨thread, List.mem_of_getElem? ht, by simp [hops]⟩
        simp only [System.step, ht, Option.bind_eq_bind, Option.bind_some, hops] at he
        split at he
        · cases he
          exact h.greet ht hops hc
        · cases he
    | _ => exact hs.elim
  · exact h.quiet (quiet_step permission_relooks permission_neutral hs hturn he)

end

end Dolgate.SessionShare
