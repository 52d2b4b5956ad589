import Dolgate.ShareDelivery

set_option autoImplicit false

namespace Dolgate.SessionShare
open Transition Dolgate.SessionShare.System

inductive Effect where
  | reset (snapshot : String)
  | append (entries : List String)
deriving DecidableEq, Repr

def Message.effect : Message → Option Effect
  | .snapshotInit snapshot _ => some (.reset snapshot)
  | .snapshotResync snapshot _ => some (.reset snapshot)
  | .replay entries => some (.append entries)
  | .output data => some (.append [data])
  | _ => none

/-- Any terminal: `reset` starts again with a snapshot, `write` goes on with an output. -/
structure Terminal where
  Screen : Type
  reset : String → Screen
  write : Screen → String → Screen

structure Stream where
  snapshot : String
  outputs : List String
deriving DecidableEq, Repr

def Stream.next (stream : Stream) : OwnerMessage → Stream
  | .hello _ _ _ _ snapshot => ⟨snapshot, []⟩
  | .snapshot snapshot _ _ => ⟨snapshot, []⟩
  | .output data => ⟨stream.snapshot, stream.outputs ++ [data]⟩
  | _ => stream

/-- `first` is the snapshot that the share was created with. -/
def System.stream (first : String) (s : System) : Stream :=
  s.accepted.foldl Stream.next ⟨first, []⟩

/-- A message that puts another snapshot in the place of the stream and is not shown to viewers. -/
def OwnerMessage.silent : OwnerMessage → Bool
  | .hello _ _ _ _ text => text = ""
  | .snapshot _ _ snapshotKind => snapshotKind = "refresh"
  | _ => false

namespace Terminal
variable (T : Terminal)

def apply (screen : T.Screen) : Effect → T.Screen
  | .reset snapshot => T.reset snapshot
  | .append entries => entries.foldl T.write screen

def view (effects : List Effect) : T.Screen := effects.foldl T.apply (T.reset "")

def picture (stream : Stream) : T.Screen := stream.outputs.foldl T.write (T.reset stream.snapshot)

theorem view_append (effects more : List Effect) :
    T.view (effects ++ more) = more.foldl T.apply (T.view effects) :=
  List.foldl_append

end Terminal

def recorder : Terminal := ⟨Stream, fun snapshot => ⟨snapshot, []⟩,
  fun screen data => ⟨screen.snapshot, screen.outputs ++ [data]⟩⟩

def Untrimmed (first : String) (s : System) : Event → Prop
  | .connectViewer _ => s.share.replayLog = (s.stream first).outputs
  | _ => True

/-- What changes a viewer's screen is written in the order of the lock sections, and a snapshot that
is not shown to the viewers there are shows what they see. -/
structure InStep (T : Terminal) (first : String) (s : System) (e : Event) : Prop where
  turn : InTurn Message.effect s e
  faithful : ∀ t m, e = .receiveOwner t m → m.silent = true → s.share.viewers ≠ [] →
    T.picture ((s.stream first).next m) = T.picture (s.stream first)

structure Shown (T : Terminal) (first : String) (s : System) : Prop where
  nodup : s.share.viewers.Nodup
  viewers : ∀ v ∈ s.share.viewers, v < s.conns
  blank : ∀ c, s.conns ≤ c → s.conveyed Message.effect c = []
  snapshot : s.share.snapshot = (s.stream first).snapshot
  screens : ∀ v ∈ s.share.viewers, s.shut v = false →
    T.view (s.conveyed Message.effect v) = T.picture (s.stream first)

theorem effect_relooks : Relooks Message.effect := by
  intro m layout
  cases m <;> rfl

theorem effect_neutral : Neutral Message.effect := by
  constructor <;> intros <;> rfl

section
variable {T : Terminal} {first : String} {s u : System} {e : Event} {t : Nat}

theorem shown_init (T : Terminal) {share : Share} (hf : share.Fresh) :
    Shown T share.snapshot (.init share) := by
  constructor <;>
    simp [System.init, hf.viewers, conveyed, sent, unsent, stream, accepted]

theorem Shown.keep (h : Shown T first s) (hconns : s.conns ≤ u.conns)
    (hv : u.share.viewers.Sublist s.share.viewers) (hsnap : u.share.snapshot = s.share.snapshot)
    (hacc : u.stream first = s.stream first) (hshut : ∀ c, s.shut c = true → u.shut c = true)
    (hconv : ∀ c, u.shut c = false → u.conveyed Message.effect c = s.conveyed Message.effect c)
    (hblank : ∀ c, s.conveyed Message.effect c = [] → u.conveyed Message.effect c = []) :
    Shown T first u where
  nodup := h.nodup.sublist hv
  viewers := fun v hm => Nat.lt_of_lt_of_le (h.viewers v (hv.subset hm)) hconns
  blank := fun c hc => hblank c (h.blank c (Nat.le_trans hconns hc))
  snapshot := by rw [hsnap, hacc, h.snapshot]
  screens := by
    intro v hm ho
    have hs : s.shut v = false := by
      by_contra hs
      simp [hshut v (by simpa using hs)] at ho
    rw [hconv v ho, hacc]
    exact h.screens v (hv.subset hm) hs

theorem Shown.quiet (h : Shown T first s) (hq : Quiet Message.effect s u) : Shown T first u :=
  h.keep (Nat.le_of_eq hq.conns.symm) hq.viewers hq.snapshot
    (by simp only [stream, hq.accepted]) hq.shut hq.conveyed hq.blank

theorem Shown.refuse (h : Shown T first s) :
    Shown T first { s with conns := s.conns + 1, closed := s.conns :: s.closed } := by
  refine h.keep (Nat.le_succ _) (.refl _) rfl rfl (fun c hc => ?_) (fun _ _ => rfl) fun _ hc => hc
  simp only [shut, List.contains_cons, Bool.or_eq_true] at hc ⊢
  exact hc.imp .inr id

theorem Shown.connectOwner (h : Shown T first s) (token : String) :
    Shown T first (s.connectOwner token) := by
  unfold System.connectOwner
  simp only
  split
  · refine Shown.quiet (?_ : Shown T first _) (.enqueue (by simp [Action.on, Message.effect]))
    refine h.keep (Nat.le_succ _) (.refl _) rfl rfl (fun c hc => ?_) (fun _ _ => rfl)
      fun _ hc => hc
    simp only [shut, List.contains_eq_mem, List.mem_append, Bool.or_eq_true,
      decide_eq_true_eq] at hc ⊢
    exact hc.imp .inr id
  · exact h.refuse

theorem join_on (share : Share) (viewer c : Nat) :
    ((share.join viewer).2.filterMap (Action.on Message.effect c)) =
      if viewer = c then
        (if share.snapshot = "" then [] else [.reset share.snapshot]) ++
          if share.replayLog = [] then [] else [.append share.replayLog]
      else [] := by
  simp only [Share.join, Share.initMessage]
  by_cases hc : viewer = c
  · by_cases hs : share.snapshot = "" <;> by_cases hr : share.replayLog = [] <;>
      simp [Action.on, Message.effect, hc, hs, hr]
  · by_cases hs : share.snapshot = "" <;> by_cases hr : share.replayLog = [] <;>
      simp [Action.on, hc, hs, hr]

theorem view_join (T : Terminal) (snapshot : String) (replay : List String) :
    T.view ((if snapshot = "" then [] else [.reset snapshot]) ++
      if replay = [] then [] else [.append replay]) = T.picture ⟨snapshot, replay⟩ := by
  by_cases hs : snapshot = "" <;> by_cases hr : replay = [] <;>
    simp [Terminal.view, Terminal.picture, Terminal.apply, hs, hr]

theorem Shown.connectViewer (h : Shown T first s) (token : String)
    (hlog : s.share.replayLog = (s.stream first).outputs) :
    Shown T first (s.connectViewer token) := by
  unfold System.connectViewer
  simp only
  split
  · have hnew : s.conns ∉ s.share.viewers := fun hm => Nat.lt_irrefl _ (h.viewers _ hm)
    have hconv : ∀ (w : System) c, w.log = s.log → w.pending = s.pending →
        (w.enqueue s.threads.length (s.share.join s.conns).2).conveyed Message.effect c =
          s.conveyed Message.effect c ++
            (s.share.join s.conns).2.filterMap (Action.on Message.effect c) := by
      intro w c hw hp
      rw [conveyed_enqueue]
      simp only [conveyed, sent, unsent, hw, hp]
    refine ⟨?_, ?_, ?_, h.snapshot, ?_⟩
    · exact List.nodup_append.mpr ⟨h.nodup, by simp, fun v hv w hw hvw =>
        hnew (List.mem_singleton.mp hw ▸ hvw ▸ hv)⟩
    · intro v hv
      rcases List.mem_append.mp hv with hv | hv
      · exact Nat.lt_succ_of_lt (h.viewers v hv)
      · exact List.mem_singleton.mp hv ▸ Nat.lt_succ_self _
    · intro c hc
      have hlt : s.conns < c := hc
      refine (hconv _ c rfl rfl).trans ?_
      rw [h.blank c (Nat.le_of_lt hlt), join_on, if_neg (Nat.ne_of_lt hlt), List.nil_append]
    · intro v hv ho
      refine (congrArg T.view (hconv _ v rfl rfl)).trans ?_
      rw [join_on]
      rcases List.mem_append.mp hv with hv | hv
      · have hne : s.conns ≠ v := fun hvc => hnew (hvc ▸ hv)
        rw [if_neg hne, List.append_nil]
        exact h.screens v hv ho
      · obtain rfl := List.mem_singleton.mp hv
        rw [if_pos rfl, h.blank _ (Nat.le_refl _), List.nil_append, view_join, h.snapshot, hlog]
        rfl
  · exact h.refuse

theorem stream_changed (m : OwnerMessage) (r : Share × List Action) :
    (s.changed t m r).stream first = (s.stream first).next m := by
  simp [System.changed, stream, accepted]

theorem Shown.changed (h : Shown T first s) (m : OwnerMessage) {r : Share × List Action}
    (hv : r.1.viewers = s.share.viewers)
    (hsnap : r.1.snapshot = ((s.stream first).next m).snapshot)
    (hnone : ∀ c, c ∉ s.share.viewers → r.2.filterMap (Action.on Message.effect c) = [])
    (hsome : ∀ v ∈ s.share.viewers, s.shut v = false →
      (r.2.filterMap (Action.on Message.effect v)).foldl T.apply (T.picture (s.stream first)) =
        T.picture ((s.stream first).next m)) :
    Shown T first (s.changed t m r) := by
  have hconv : ∀ c, (s.changed t m r).conveyed Message.effect c =
      s.conveyed Message.effect c ++ r.2.filterMap (Action.on Message.effect c) := by
    intro c
    rw [System.changed, conveyed_record (by simp), conveyed_enqueue]
    rfl
  refine ⟨hv ▸ h.nodup, hv ▸ h.viewers, fun c hc => ?_, ?_, fun v hm ho => ?_⟩
  · have hout : c ∉ s.share.viewers := fun hm => Nat.not_lt_of_le hc (h.viewers c hm)
    rw [hconv, h.blank c hc, hnone c hout, List.append_nil]
  · rw [stream_changed]
    exact hsnap
  · have hm : v ∈ s.share.viewers := hv ▸ hm
    rw [hconv, Terminal.view_append, h.screens v hm ho, stream_changed]
    exact hsome v hm ho

theorem hello_on {share : Share} (title hostLabel transport : String) (layout : Layout)
    (snapshot : String) (hnd : share.viewers.Nodup) (c : Nat) :
    (share.updateHello title hostLabel transport layout snapshot).2.filterMap
        (Action.on Message.effect c) =
      if c ∈ share.viewers then (if snapshot = "" then [] else [.reset snapshot]) else [] := by
  refine flatMap_on (fun v => ?_) hnd
  by_cases hv : v = c <;> by_cases hs : snapshot = "" <;>
    simp [Share.initMessage, Action.on, Message.effect, hv, hs]

theorem output_on {share : Share} (data : String) (hnd : share.viewers.Nodup) (c : Nat) :
    (share.appendOutput data).2.filterMap (Action.on Message.effect c) =
      if c ∈ share.viewers then [.append [data]] else [] :=
  toViewers_on (b := some (Effect.append [data])) (fun _ _ => rfl) hnd

theorem snapshot_on {share : Share} (snapshot : String) (layout : Layout) (snapshotKind : String)
    (hnd : share.viewers.Nodup) (c : Nat) :
    (share.updateSnapshot snapshot layout snapshotKind).2.filterMap (Action.on Message.effect c) =
      if c ∈ share.viewers then (if snapshotKind = "refresh" then [] else [.reset snapshot])
      else [] := by
  simp only [Share.updateSnapshot]
  split
  · simp
  · exact toViewers_on (b := some (Effect.reset snapshot)) (fun _ _ => rfl) hnd

theorem Shown.handleOwnerPayload (h : Shown T first s) {thread : Thread}
    (ht : s.threads[t]? = some thread) (m : OwnerMessage)
    (hfaith : m.silent = true → s.share.viewers ≠ [] →
      T.picture ((s.stream first).next m) = T.picture (s.stream first)) :
    Shown T first (s.handleOwnerPayload t thread m) := by
  have hgone : Shown T first (s.leaveLoop t thread) := h.quiet (.leaveLoop ht)
  have hne : ∀ v ∈ s.share.viewers, s.share.viewers ≠ [] := fun v hv => List.ne_nil_of_mem hv
  cases m with
  | sessionEnded => exact h.quiet (.remove effect_neutral t _)
  | other => exact h
  | hello title hostLabel transport layout snapshot =>
      rw [System.handleOwnerPayload_hello]
      split
      · refine h.changed _ rfl rfl (fun c hc => ?_) fun v hv _ => ?_
        · rw [hello_on _ _ _ _ _ h.nodup, if_neg hc]
        · rw [hello_on _ _ _ _ _ h.nodup, if_pos hv]
          by_cases hs : snapshot = ""
          · rw [if_pos hs]
            exact (hfaith (by simp [OwnerMessage.silent, hs]) (hne v hv)).symm
          · rw [if_neg hs]
            rfl
      · exact hgone
  | output data =>
      rw [System.handleOwnerPayload_output]
      split
      · refine h.changed _ rfl h.snapshot (fun c hc => ?_) fun v hv _ => ?_
        · rw [output_on _ h.nodup, if_neg hc]
        · rw [output_on _ h.nodup, if_pos hv]
          simp [Terminal.apply, Terminal.picture, Stream.next]
      · exact hgone
  | resize layout =>
      rw [System.handleOwnerPayload_resize]
      split
      · have hon : ∀ c, (s.share.updateResize layout).2.filterMap (Action.on Message.effect c) =
            [] := fun c => on_eq_nil (toViewers_silent (by simp [Action.on, Message.effect]))
        exact h.changed _ rfl h.snapshot (fun c _ => hon c) fun v _ _ => by
          rw [hon]
          rfl
      · exact hgone
  | snapshot snapshot layout snapshotKind =>
      rw [System.handleOwnerPayload_snapshot]
      split
      · refine h.changed _ rfl rfl (fun c hc => ?_) fun v hv _ => ?_
        · rw [snapshot_on _ _ _ h.nodup, if_neg hc]
        · rw [snapshot_on _ _ _ h.nodup, if_pos hv]
          by_cases hk : snapshotKind = "refresh"
          · rw [if_pos hk]
            exact (hfaith (by simp [OwnerMessage.silent, hk]) (hne v hv)).symm
          · rw [if_neg hk]
            rfl
      · exact hgone
  | inputEnabled b =>
      rw [System.handleOwnerPayload_inputEnabled]
      split
      · have hthread : Shown T first (({ s with sets := s.sets + 1 } : System).setThread t
            { thread with ops := [.returned s.sets] }) :=
          ⟨h.nodup, h.viewers, h.blank, h.snapshot, h.screens⟩
        have hon : ∀ c, (s.share.setInputEnabledForOwnerMessage b).2.filterMap
            (Action.on Message.effect c) = [] := by
          intro c
          refine on_eq_nil (List.forall_mem_append.mpr ⟨?_, ?_⟩)
          · exact toViewers_silent (by simp [Action.on, Message.effect])
          · exact toOwner_silent (by simp [Action.on, Message.effect])
        refine Shown.quiet ?_ (.record (by simp) (by simp))
        exact hthread.changed _ rfl hthread.snapshot (fun c _ => hon c) fun v _ _ => by
          rw [hon]
          rfl
      · exact hgone

theorem Shown.setInputEnabled (h : Shown T first s) (userID : String) (b : Bool) :
    Shown T first (s.setInputEnabled userID b) := by
  simp only [System.setInputEnabled]
  split
  · have hset : Shown T first { s with
        share := (s.share.setInputEnabled b).1, sets := s.sets + 1
        threads := s.threads ++ [⟨.request, [.returned s.sets], false⟩] } :=
      ⟨h.nodup, h.viewers, h.blank, h.snapshot, h.screens⟩
    refine Shown.quiet (hset.quiet (.enqueue fun c => ?_)) (.record nofun nofun)
    refine List.forall_mem_append.mpr ⟨?_, ?_⟩
    · exact toOwner_silent (by simp [Action.on, Message.effect])
    · exact toViewers_silent (by simp [Action.on, Message.effect])
  · exact h

theorem Shown.step (h : Shown T first s) (hu : Untrimmed first s e) (hi : InStep T first s e)
    (he : s.step e = some u) : Shown T first u := by
  by_cases hs : s.Speaks e
  · cases e with
    | connectOwner token =>
        cases he
        exact h.connectOwner token
    | connectViewer token =>
        cases he
        exact h.connectViewer token hu
    | setInputEnabled userID b =>
        cases he
        exact h.setInputEnabled userID b
    | receiveOwner t m =>
        simp only [System.step, Option.bind_eq_bind, Option.bind_eq_some_iff] at he
        obtain ⟨thread, ht, he⟩ := he
        split at he
        · split at he
          · cases he
            exact h.handleOwnerPayload ht m (hi.faithful t m rfl)
          · cases he
        · cases he
    | op t =>
        obtain ⟨thread, c, ops, ht, hops⟩ := hs
        simp only [System.step, ht, Option.bind_eq_bind, Option.bind_some, hops] at he
        split at he
        · cases he
          have hthread : Shown T first (s.setThread t { thread with ops := ops }) :=
            ⟨h.nodup, h.viewers, h.blank, h.snapshot, h.screens⟩
          exact hthread.quiet (.enqueue (by simp [Action.on, Message.effect]))
        · cases he
    | _ => exact hs.elim
  · exact h.quiet (quiet_step effect_relooks effect_neutral hs hi.turn he)

theorem viewer_sees_stream (T : Terminal) {share : Share} (hf : share.Fresh) (es : List Event)
    (hu : Admissible (Untrimmed share.snapshot) System.step (.init share) es)
    (hi : Admissible (InStep T share.snapshot) System.step (.init share) es)
    (hr : run System.step (.init share) es = some s) (v : Nat) (hv : v ∈ s.share.viewers)
    (hopen : s.shut v = false) (hdone : s.unsent Message.effect v = []) :
    T.view (s.sent Message.effect v) = T.picture (s.stream share.snapshot) := by
  have h : Shown T share.snapshot s :=
    run_invariant_of_admissible (fun _ _ _ h ho he => h.step ho.1 ho.2 he) (shown_init T hf)
      (hu.and hi) hr
  have hs := h.screens v hv hopen
  rwa [conveyed, hdone, List.append_nil] at hs

theorem inStep_first : InStep T first s (.perform 0) :=
  ⟨fun _ _ _ _ _ _ hy => (nomatch hy), nofun⟩

theorem inStep_loud (hp : ∀ i, e ≠ .perform i)
    (hm : ∀ t m, e = .receiveOwner t m → m.silent = false) : InStep T first s e where
  turn := by
    cases e with
    | perform i => exact absurd rfl (hp i)
    | _ => trivial
  faithful := by
    intro t m he hs
    simp [hm t m he] at hs

end

def promptShell : Share :=
  .create "user" "viewer" "owner" "shell" "host" "ssh" ⟨80, 24, ⟨"mono", 12, 0, 0⟩, none⟩ "$ "

def watched : List Event :=
  [.connectOwner "owner", .perform 0, .op 0, .perform 0, .connectViewer "viewer", .perform 0,
    .perform 0, .receiveOwner 0 (.output "bHM="), .perform 0]

theorem viewer_sees_stream_watched :
    ∃ s, run System.step (.init promptShell) watched = some s ∧
      recorder.view (s.sent Message.effect 1) = ⟨"$ ", ["bHM="]⟩ := by
  have hfresh : promptShell.Fresh := Share.create_fresh ..
  refine ⟨_, rfl, ?_⟩
  refine viewer_sees_stream recorder hfresh watched ?_ ?_ rfl 1 (by decide) (by decide) (by decide)
  · refine ⟨trivial, fun u hu => ?_⟩
    cases hu
    refine ⟨trivial, fun u hu => ?_⟩
    cases hu
    refine ⟨trivial, fun u hu => ?_⟩
    cases hu
    refine ⟨trivial, fun u hu => ?_⟩
    cases hu
    refine ⟨rfl, fun u hu => ?_⟩
    exact admissible_of_mem (by simp [Untrimmed])
  · refine admissible_of_mem fun e he s => ?_
    simp only [watched, List.mem_cons, List.not_mem_nil, or_false] at he
    rcases he with rfl | rfl | rfl | rfl | rfl | rfl | rfl | rfl | rfl
    all_goals first
      | exact inStep_first
      | exact inStep_loud (by simp) (by simp [OwnerMessage.silent])

def overtaken : List Event :=
  [.connectOwner "owner", .perform 0, .op 0, .perform 0, .connectViewer "viewer",
    .receiveOwner 0 (.output "bHM="), .perform 2, .perform 0, .perform 0]

theorem overtaking_output_is_lost :
    ∃ s, run System.step (.init promptShell) overtaken = some s ∧
      1 ∈ s.share.viewers ∧ s.shut 1 = false ∧ s.pending = [] ∧
      Admissible (Untrimmed "$ ") System.step (.init promptShell) overtaken ∧
      recorder.picture (s.stream "$ ") = ⟨"$ ", ["bHM="]⟩ ∧
      recorder.view (s.sent Message.effect 1) = ⟨"$ ", []⟩ := by
  refine ⟨_, rfl, by decide, by decide, rfl, ?_, rfl, rfl⟩
  refine ⟨trivial, fun u hu => ?_⟩
  cases hu
  refine ⟨trivial, fun u hu => ?_⟩
  cases hu
  refine ⟨trivial, fun u hu => ?_⟩
  cases hu
  refine ⟨trivial, fun u hu => ?_⟩
  cases hu
  refine ⟨rfl, fun u hu => ?_⟩
  exact admissible_of_mem (by simp [Untrimmed])

end Dolgate.SessionShare
