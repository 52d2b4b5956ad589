import Dolgate.DataChannelOutbound

set_option autoImplicit false

/-! The order in which the messages of several writers come to the socket. -/

namespace Dolgate.Ssm.Outbound
open Transition GoBytes

/-- One turn of `firstsOf`. -/
def pushNew (seen : List Int) (n : Int) : List Int := if n ∈ seen then seen else seen ++ [n]

def firstsOf (numbers : List Int) : List Int := numbers.foldl pushNew []

def firstTransmissions (s : Outbound) : List Int := firstsOf (s.wire.filterMap Frame.stream)

def Underway (s : Outbound) (n : Int) : Prop :=
  (∃ f ∈ s.sending, f.stream = some n) ∨ ∃ w ∈ s.waiting, w.1.sequenceNumber = n

def NextInLine (s : Outbound) (f : Frame) : Prop :=
  ∀ n, f.stream = some n → n ∉ s.firstTransmissions →
    ∀ m, s.Underway m → m ∉ s.firstTransmissions → n ≤ m

def InLine (s : Outbound) : Event → Prop
  | .send writer => ∀ f, s.sending[writer]? = some f → s.NextInLine f
  | .sendAgain => ∀ f, s.resender = .marshalled f → s.NextInLine f
  | _ => True

def Resends (s : Outbound) (n : Int) : Prop :=
  (∃ e ∈ s.outMsgBuf.buf, e.value.sequenceNumber = n) ∨
    (∃ msg, s.resender = .chosen msg ∧ msg.sequenceNumber = n) ∨
    ∃ f, s.resender = .marshalled f ∧ f.stream = some n

/-- Numbers in use have been given out, and what may be sent again is on its way or was sent. -/
structure Placed (s : Outbound) : Prop where
  underway : ∀ n, s.Underway n → n < s.seqNum
  sent : ∀ n ∈ s.firstTransmissions, n < s.seqNum
  resends : ∀ n, s.Resends n → s.Underway n ∨ n ∈ s.firstTransmissions

structure Lined (s : Outbound) : Prop where
  sorted : s.firstTransmissions.Pairwise (· < ·)
  ahead : ∀ n ∈ s.firstTransmissions, ∀ m, s.Underway m → m ∉ s.firstTransmissions → n < m

variable {sha256 : Bytes → Bytes} {s t : Outbound} {n : Int} {f : Frame}

theorem firstsOf_concat (numbers : List Int) (n : Int) :
    firstsOf (numbers ++ [n]) = pushNew (firstsOf numbers) n := by
  rw [firstsOf, List.foldl_append]
  rfl

theorem firstTransmissions_snoc (hwire : t.wire = s.wire ++ [f]) :
    t.firstTransmissions =
      match f.stream with
      | none => s.firstTransmissions
      | some n => pushNew s.firstTransmissions n := by
  rw [firstTransmissions, hwire, List.filterMap_append]
  cases hf : f.stream with
  | none => simp [hf, firstTransmissions]
  | some n =>
      have hone : [f].filterMap Frame.stream = [n] := by simp [hf]
      rw [hone]
      exact firstsOf_concat _ n

theorem mem_pushNew {seen : List Int} {n m : Int} : m ∈ pushNew seen n ↔ m ∈ seen ∨ m = n := by
  rw [pushNew]
  split
  · next h =>
      constructor
      · exact .inl
      · rintro (hm | rfl)
        · exact hm
        · exact h
  · simp

/-- One step, as far as numbers go: a number is given out, a message becomes known to the
resender, a frame comes to the socket, or less is known than before. -/
structure Moves (s t : Outbound) : Prop where
  seqNum : s.seqNum ≤ t.seqNum
  underway : ∀ n, t.Underway n → s.Underway n ∨ n = s.seqNum ∧ n < t.seqNum
  kept : ∀ n, s.Underway n → t.Underway n ∨ n ∈ t.firstTransmissions
  resends : ∀ n, t.Resends n → s.Resends n ∨ t.Underway n ∨ n ∈ t.firstTransmissions

theorem Moves.refl (s : Outbound) : Moves s s where
  seqNum := le_rfl
  underway _ h := .inl h
  kept _ h := .inl h
  resends _ h := .inl h

theorem mem_buf_add {m m' : MessageBuffer} {msg : AgentMessage} (h : m.add msg = some m')
    {e : Element} (he : e ∈ m'.buf) : e ∈ m.buf ∨ e.value = msg := by
  unfold MessageBuffer.add at h
  split at h
  · cases h
    obtain ⟨x, hx, rfl⟩ := mem_setValue.mp he
    split
    · exact .inr rfl
    · exact .inl hx
  · split at h
    · cases h
    · cases h
      rcases List.mem_cons.mp ((insertOrdered_perm _ _).mem_iff.mp he) with rfl | he
      · exact .inr rfl
      · exact .inl he

theorem mem_buf_remove {m : MessageBuffer} {k : Int} {e : Element} (he : e ∈ (m.remove k).buf) :
    e ∈ m.buf := by
  unfold MessageBuffer.remove at he
  split at he
  · exact he
  · exact List.mem_of_mem_filter he

theorem addOutbound_underway (now : Int) (msg : AgentMessage) (data : Bytes) :
    (s.addOutbound now msg data).Underway n ↔ s.Underway n ∨ n = msg.sequenceNumber := by
  unfold addOutbound
  split <;> simp [Underway, or_and_right, exists_or, or_assoc, or_comm, or_left_comm, eq_comm]

theorem addOutbound_resends {now : Int} {msg : AgentMessage} {data : Bytes}
    (h : (s.addOutbound now msg data).Resends n) : s.Resends n ∨ n = msg.sequenceNumber := by
  unfold addOutbound at h
  split at h
  · next buf hadd =>
      rcases h with ⟨e, he, rfl⟩ | h | h
      · rcases mem_buf_add hadd he with he | he
        · exact .inl (.inl ⟨e, he, rfl⟩)
        · exact .inr (congrArg AgentMessage.sequenceNumber he)
      · exact .inl (.inr (.inl h))
      · exact .inl (.inr (.inr h))
  · exact .inl h

theorem addOutbound_fields (now : Int) (msg : AgentMessage) (data : Bytes) :
    (s.addOutbound now msg data).seqNum = s.seqNum ∧ (s.addOutbound now msg data).wire = s.wire := by
  unfold addOutbound
  split <;> exact ⟨rfl, rfl⟩

theorem writeMsg_moves (now : Int) (msg : AgentMessage) (env : Envelope) :
    Moves s (s.writeMsg sha256 now msg env) ∧ (s.writeMsg sha256 now msg env).wire = s.wire := by
  by_cases hack : msg.messageType = .acknowledge
  · simp only [writeMsg, if_pos hack]
    split
    · exact ⟨.refl s, rfl⟩
    · refine ⟨⟨le_rfl, ?_, ?_, ?_⟩, rfl⟩
      · rintro n (⟨f, hf, hn⟩ | hw)
        · rcases List.mem_append.mp hf with hf | hf
          · exact .inl (.inl ⟨f, hf, hn⟩)
          · cases List.mem_singleton.mp hf
            cases hn
        · exact .inl (.inr hw)
      · rintro n (⟨f, hf, hn⟩ | hw)
        · exact .inl (.inl ⟨f, List.mem_append_left _ hf, hn⟩)
        · exact .inl (.inr hw)
      · exact fun n h => .inl h
  · simp only [writeMsg, if_neg hack]
    split
    · refine ⟨⟨?_, fun n h => .inl h, fun n h => .inl h, fun n h => .inl h⟩, rfl⟩
      simp
    · obtain ⟨hseq, hwire⟩ := addOutbound_fields (s := { s with
          seqNum := s.seqNum + 1
          envelopes := Function.update s.envelopes s.seqNum env
          assigned := s.assigned ++ [s.seqNum] }) now
        { msg with payload := s.read env.payload, sequenceNumber := s.seqNum } ‹_›
      refine ⟨⟨?_, ?_, ?_, ?_⟩, hwire⟩
      · rw [hseq]
        simp
      · intro n h
        rcases (addOutbound_underway _ _ _).mp h with h | rfl
        · exact .inl h
        · exact .inr ⟨rfl, by rw [hseq]; simp⟩
      · intro n h
        exact .inl ((addOutbound_underway _ _ _).mpr (.inl h))
      · intro n h
        rcases addOutbound_resends h with h | rfl
        · exact .inl h
        · exact .inr (.inl ((addOutbound_underway _ _ _).mpr (.inr rfl)))

def Puts (s : Outbound) (e : Event) (f : Frame) : Prop :=
  (∃ writer, e = .send writer ∧ s.sending[writer]? = some f) ∨
    e = .sendAgain ∧ s.resender = .marshalled f

theorem mem_eraseIdx {α : Type} {items : List α} {i : Nat} {a b : α} (hi : items[i]? = some a)
    (hb : b ∈ items) : b ∈ items.eraseIdx i ∨ b = a := by
  obtain ⟨hlt, rfl⟩ := List.getElem?_eq_some_iff.mp hi
  rcases List.mem_cons.mp ((List.getElem_cons_eraseIdx_perm hlt).mem_iff.mpr hb) with rfl | hb
  · exact .inr rfl
  · exact .inl hb

theorem retry_moves {now : Int} {writer : Nat} (h : s.step sha256 (.retry now writer) = some t) :
    Moves s t ∧ t.wire = s.wire := by
  obtain ⟨⟨msg, data⟩, hw, rfl⟩ := Option.map_eq_some_iff.mp h
  obtain ⟨hseq, hwire⟩ := addOutbound_fields
    (s := { s with waiting := s.waiting.eraseIdx writer }) now msg data
  have hmem : (msg, data) ∈ s.waiting := List.mem_of_getElem? hw
  refine ⟨⟨hseq.ge, ?_, ?_, ?_⟩, hwire⟩
  · intro n hn
    rcases (addOutbound_underway _ _ _).mp hn with (hf | ⟨w, hw, hn⟩) | rfl
    · exact .inl (.inl hf)
    · exact .inl (.inr ⟨w, List.mem_of_mem_eraseIdx hw, hn⟩)
    · exact .inl (.inr ⟨_, hmem, rfl⟩)
  · rintro n (hf | ⟨w, hold, rfl⟩)
    · exact .inl ((addOutbound_underway _ _ _).mpr (.inl (.inl hf)))
    · rcases mem_eraseIdx hw hold with hold | rfl
      · exact .inl ((addOutbound_underway _ _ _).mpr (.inl (.inr ⟨w, hold, rfl⟩)))
      · exact .inl ((addOutbound_underway _ _ _).mpr (.inr rfl))
  · intro n hn
    rcases addOutbound_resends hn with hn | rfl
    · exact .inl hn
    · exact .inr (.inl ((addOutbound_underway _ _ _).mpr (.inr rfl)))

theorem send_moves {writer : Nat} (h : s.step sha256 (.send writer) = some t) :
    Moves s t ∧ ∃ f, s.sending[writer]? = some f ∧ t.wire = s.wire ++ [f] := by
  obtain ⟨f, hf, rfl⟩ := Option.map_eq_some_iff.mp h
  refine ⟨⟨le_rfl, ?_, ?_, ?_⟩, f, hf, rfl⟩
  · rintro n (⟨g, hg, hn⟩ | hw)
    · exact .inl (.inl ⟨g, List.mem_of_mem_eraseIdx hg, hn⟩)
    · exact .inl (.inr hw)
  · rintro n (⟨g, hg, hn⟩ | hw)
    · rcases mem_eraseIdx hf hg with hg | rfl
      · exact .inl (.inl ⟨g, hg, hn⟩)
      · refine .inr ?_
        rw [firstTransmissions_snoc (s := s) rfl, hn]
        exact mem_pushNew.mpr (.inr rfl)
    · exact .inl (.inr hw)
  · exact fun n hn => .inl hn

theorem tick_moves {now : Int} (h : s.step sha256 (.tick now) = some t) :
    Moves s t ∧ t.wire = s.wire := by
  simp only [step] at h
  split at h
  · next hticking =>
      cases h
      rcases processTick_cases s now with ht | ht | ⟨msg, sentAt, attempts, ho, ht⟩
      · rw [ht]
        exact ⟨.refl s, rfl⟩
      · rw [ht]
        refine ⟨⟨le_rfl, fun n hn => .inl hn, fun n hn => .inl hn, ?_⟩, rfl⟩
        rintro n (he | ⟨m, hm, -⟩ | ⟨f, hf, -⟩)
        · exact .inl (.inl he)
        · cases hm
        · cases hf
      · rw [ht]
        refine ⟨⟨le_rfl, fun n hn => .inl hn, fun n hn => .inl hn, ?_⟩, rfl⟩
        rintro n (he | ⟨m, hm, rfl⟩ | ⟨f, hf, -⟩)
        · exact .inl (.inl he)
        · cases hm
          obtain ⟨e, he, rfl⟩ := MessageBuffer.oldest_mem ho
          exact .inl (.inl ⟨e, he, rfl⟩)
        · cases hf
  · cases h

theorem resend_moves (h : s.step sha256 .resend = some t) : Moves s t ∧ t.wire = s.wire := by
  simp only [step] at h
  split at h
  · next msg hchosen =>
      cases h
      unfold resendMsg
      split
      · refine ⟨⟨le_rfl, fun n hn => .inl hn, fun n hn => .inl hn, ?_⟩, rfl⟩
        rintro n (he | ⟨m, hm, -⟩ | ⟨f, hf, -⟩)
        · exact .inl (.inl he)
        · cases hm
        · cases hf
      · refine ⟨⟨le_rfl, fun n hn => .inl hn, fun n hn => .inl hn, ?_⟩, rfl⟩
        rintro n (he | ⟨m, hm, -⟩ | ⟨f, hf, hn⟩)
        · exact .inl (.inl he)
        · cases hm
        · cases hf
          cases hn
          exact .inl (.inr (.inl ⟨msg, hchosen, rfl⟩))
  · cases h

theorem sendAgain_moves (h : s.step sha256 .sendAgain = some t) :
    Moves s t ∧ ∃ f, s.resender = .marshalled f ∧ t.wire = s.wire ++ [f] := by
  simp only [step] at h
  split at h
  · next f hmarshalled =>
      cases h
      refine ⟨⟨le_rfl, fun n hn => .inl hn, fun n hn => .inl hn, ?_⟩, f, hmarshalled, rfl⟩
      rintro n (he | ⟨m, hm, -⟩ | ⟨f, hf, -⟩)
      · exact .inl (.inl he)
      · cases hm
      · cases hf
  · cases h

theorem step_moves {e : Event} (h : s.step sha256 e = some t) :
    Moves s t ∧ (t.wire = s.wire ∨ ∃ f, s.Puts e f ∧ t.wire = s.wire ++ [f]) := by
  cases e with
  | writeMsg now msg env =>
      cases h
      obtain ⟨hmoves, hwire⟩ : Moves s (s.writeMsg sha256 now msg env) ∧
          (s.writeMsg sha256 now msg env).wire = s.wire := writeMsg_moves now msg env
      exact ⟨hmoves, .inl hwire⟩
  | retry now writer =>
      obtain ⟨hmoves, hwire⟩ := retry_moves h
      exact ⟨hmoves, .inl hwire⟩
  | send writer =>
      obtain ⟨hmoves, f, hf, hwire⟩ := send_moves h
      exact ⟨hmoves, .inr ⟨f, .inl ⟨writer, rfl, hf⟩, hwire⟩⟩
  | acknowledge seqNum =>
      cases h
      refine ⟨⟨le_rfl, fun n hn => .inl hn, fun n hn => .inl hn, ?_⟩, .inl rfl⟩
      rintro n (⟨e, he, hn⟩ | hr)
      · exact .inl (.inl ⟨e, mem_buf_remove he, hn⟩)
      · exact .inl (.inr hr)
  | tick now =>
      obtain ⟨hmoves, hwire⟩ := tick_moves h
      exact ⟨hmoves, .inl hwire⟩
  | resend =>
      obtain ⟨hmoves, hwire⟩ := resend_moves h
      exact ⟨hmoves, .inl hwire⟩
  | sendAgain =>
      obtain ⟨hmoves, f, hf, hwire⟩ := sendAgain_moves h
      exact ⟨hmoves, .inr ⟨f, .inr ⟨rfl, hf⟩, hwire⟩⟩
  | overwrite array bytes =>
      cases h
      exact ⟨⟨le_rfl, fun n hn => .inl hn, fun n hn => .inl hn, fun n hn => .inl hn⟩, .inl rfl⟩

theorem step_firstTransmissions {e : Event} (h : s.step sha256 e = some t) :
    t.firstTransmissions = s.firstTransmissions ∨
      ∃ f n, s.Puts e f ∧ f.stream = some n ∧ n ∉ s.firstTransmissions ∧
        t.firstTransmissions = s.firstTransmissions ++ [n] := by
  obtain ⟨-, hwire | ⟨f, hputs, hwire⟩⟩ := step_moves h
  · exact .inl (by rw [firstTransmissions, hwire, firstTransmissions])
  · have hfirsts := firstTransmissions_snoc hwire
    cases hf : f.stream with
    | none =>
        rw [hf] at hfirsts
        exact .inl hfirsts
    | some n =>
        rw [hf] at hfirsts
        by_cases hn : n ∈ s.firstTransmissions
        · exact .inl (hfirsts.trans (if_pos hn))
        · exact .inr ⟨f, n, hputs, hf, hn, hfirsts.trans (if_neg hn)⟩

theorem Puts.first {e : Event} (hputs : s.Puts e f) (h : s.step sha256 e = some t)
    (hf : f.stream = some n) (hn : n ∉ s.firstTransmissions) :
    t.firstTransmissions = s.firstTransmissions ++ [n] := by
  have hwire : t.wire = s.wire ++ [f] := by
    rcases hputs with ⟨writer, rfl, hw⟩ | ⟨rfl, hr⟩
    · obtain ⟨-, g, hg, hwire⟩ := send_moves h
      cases hw.symm.trans hg
      exact hwire
    · obtain ⟨-, g, hg, hwire⟩ := sendAgain_moves h
      cases hr.symm.trans hg
      exact hwire
  rw [firstTransmissions_snoc hwire, hf]
  exact if_neg hn

theorem Puts.underway {e : Event} (hs : s.Placed) (hputs : s.Puts e f) (hf : f.stream = some n)
    (hn : n ∉ s.firstTransmissions) : s.Underway n := by
  rcases hputs with ⟨writer, rfl, hw⟩ | ⟨rfl, hr⟩
  · exact .inl ⟨f, List.mem_of_getElem? hw, hf⟩
  · exact (hs.resends n (.inr (.inr ⟨f, hr, hf⟩))).resolve_right hn

theorem Puts.nextInLine {e : Event} (hputs : s.Puts e f) (hline : s.InLine e) :
    s.NextInLine f := by
  rcases hputs with ⟨writer, rfl, hw⟩ | ⟨rfl, hr⟩
  · exact hline f hw
  · exact hline f hr

theorem inLine_of_puts {e : Event} (h : ∀ f, s.Puts e f → s.NextInLine f) : s.InLine e := by
  cases e with
  | send writer =>
      intro f hf
      exact h f (.inl ⟨writer, rfl, hf⟩)
  | sendAgain =>
      intro f hf
      exact h f (.inr ⟨rfl, hf⟩)
  | _ => trivial

theorem step_sublist {e : Event} (h : s.step sha256 e = some t) :
    ∃ more, t.firstTransmissions = s.firstTransmissions ++ more := by
  rcases step_firstTransmissions h with hsame | ⟨f, n, -, -, -, hnew⟩
  · exact ⟨[], by rw [hsame, List.append_nil]⟩
  · exact ⟨[n], hnew⟩

theorem Placed.step (hs : s.Placed) {e : Event} (h : s.step sha256 e = some t) : t.Placed := by
  obtain ⟨hmoves, -⟩ := step_moves h
  obtain ⟨more, hmore⟩ := step_sublist h
  have hkept : ∀ n ∈ s.firstTransmissions, n ∈ t.firstTransmissions := by
    intro n hn
    rw [hmore]
    exact List.mem_append_left _ hn
  refine ⟨?_, ?_, ?_⟩
  · intro n hn
    rcases hmoves.underway n hn with hn | ⟨-, hlt⟩
    · exact (hs.underway n hn).trans_le hmoves.seqNum
    · exact hlt
  · intro n hn
    refine lt_of_lt_of_le ?_ hmoves.seqNum
    rcases step_firstTransmissions h with hsame | ⟨f, m, hputs, hf, hm, hnew⟩
    · exact hs.sent n (hsame ▸ hn)
    · rw [hnew] at hn
      rcases List.mem_append.mp hn with hn | hn
      · exact hs.sent n hn
      · cases List.mem_singleton.mp hn
        exact hs.underway n (hputs.underway hs hf hm)
  · intro n hn
    rcases hmoves.resends n hn with hn | hn
    · rcases hs.resends n hn with hn | hn
      · exact hmoves.kept n hn
      · exact .inr (hkept n hn)
    · exact hn

theorem Lined.step (hs : s.Placed) (hl : s.Lined) {e : Event} (hline : s.InLine e)
    (h : s.step sha256 e = some t) : t.Lined := by
  obtain ⟨hmoves, -⟩ := step_moves h
  have hnew : ∀ n, n ∈ s.firstTransmissions → ∀ m, t.Underway m → m ∉ s.firstTransmissions →
      n < m := by
    intro n hn m hm hnot
    rcases hmoves.underway m hm with hm | ⟨rfl, -⟩
    · exact hl.ahead n hn m hm hnot
    · exact hs.sent n hn
  rcases step_firstTransmissions h with hsame | ⟨f, k, hputs, hf, hk, hmore⟩
  · refine ⟨hsame ▸ hl.sorted, ?_⟩
    rw [hsame]
    exact hnew
  · have hunderway := hputs.underway hs hf hk
    have hnext := hputs.nextInLine hline k hf hk
    refine ⟨?_, ?_⟩
    · rw [hmore]
      refine List.pairwise_append.mpr ⟨hl.sorted, List.pairwise_singleton _ _, ?_⟩
      intro n hn m hm
      cases List.mem_singleton.mp hm
      exact hl.ahead n hn k hunderway hk
    · rw [hmore]
      intro n hn m hm hnot
      have hm' : m ∉ s.firstTransmissions := fun hmem => hnot (List.mem_append_left _ hmem)
      rcases List.mem_append.mp hn with hn | hn
      · exact hnew n hn m hm hm'
      · obtain rfl := List.mem_singleton.mp hn
        have hne : m ≠ n := by
          rintro rfl
          exact hnot (List.mem_append_right _ List.mem_cons_self)
        rcases hmoves.underway m hm with hm | ⟨rfl, -⟩
        · exact lt_of_le_of_ne (hnext m hm hm') hne.symm
        · exact hs.underway n hunderway

theorem run_kept {es : List Event} (h : run (step sha256) s es = some t) :
    (∃ more, t.firstTransmissions = s.firstTransmissions ++ more) ∧
      ∀ n, s.Underway n → t.Underway n ∨ n ∈ t.firstTransmissions := by
  induction es generalizing s with
  | nil =>
      cases h
      exact ⟨⟨[], (List.append_nil _).symm⟩, fun n hn => .inl hn⟩
  | cons e es ih =>
      obtain ⟨u, hu, h⟩ := run_cons.mp h
      obtain ⟨⟨more, hmore⟩, hkept⟩ := ih h
      obtain ⟨first, hfirst⟩ := step_sublist hu
      obtain ⟨hmoves, -⟩ := step_moves hu
      refine ⟨⟨first ++ more, by rw [hmore, hfirst, List.append_assoc]⟩, ?_⟩
      intro n hn
      rcases hmoves.kept n hn with hn | hn
      · exact hkept n hn
      · exact .inr (hmore ▸ List.mem_append_left _ hn)

theorem inLine_of_sorted {e : Event} {es : List Event} {u : Outbound}
    (he : s.step sha256 e = some t) (h : run (step sha256) t es = some u)
    (hdone : ∀ n, ¬ u.Underway n) (hsorted : u.firstTransmissions.Pairwise (· < ·)) :
    s.InLine e := by
  refine inLine_of_puts ?_
  intro f hputs n hf hn m hm hnot
  by_contra hlt
  have hnew := hputs.first he hf hn
  have hnot' : m ∉ t.firstTransmissions := by
    intro hmem
    rw [hnew] at hmem
    rcases List.mem_append.mp hmem with hmem | hmem
    · exact hnot hmem
    · exact hlt (List.mem_singleton.mp hmem).ge
  obtain ⟨⟨more, hmore⟩, hkept⟩ := run_kept h
  have hlate : m ∈ more := by
    have hm' := ((step_moves he).1.kept m hm).resolve_right hnot'
    have hsent := (hkept m hm').resolve_left (hdone m)
    rw [hmore] at hsent
    exact (List.mem_append.mp hsent).resolve_left hnot'
  rw [hmore, hnew] at hsorted
  have hcross := (List.pairwise_append.mp hsorted).2.2 n
    (List.mem_append_right _ List.mem_cons_self) m hlate
  exact hlt hcross.le

theorem placed_opened (size : Nat) (memory : Nat → Bytes) : (opened size memory).Placed := by
  refine ⟨?_, ?_, ?_⟩
  · rintro n (⟨f, hf, -⟩ | ⟨w, hw, -⟩)
    · cases hf
    · cases hw
  · intro n hn
    cases hn
  · rintro n (⟨e, he, -⟩ | ⟨m, hm, -⟩ | ⟨f, hf, -⟩)
    · cases he
    · cases hm
    · cases hf

theorem lined_opened (size : Nat) (memory : Nat → Bytes) : (opened size memory).Lined :=
  ⟨.nil, fun n hn => by cases hn⟩

/-- If the writers come to the socket in line, the numbers ascend there; and once no writer is on
its way, they ascend only then. -/
theorem first_transmissions_ascend_iff (sha256 : Bytes → Bytes) (size : Nat) (memory : Nat → Bytes)
    (es : List Event) (hrun : run (step sha256) (opened size memory) es = some s) :
    (Admissible InLine (step sha256) (opened size memory) es →
        s.firstTransmissions.Pairwise (· < ·)) ∧
      (s.sending = [] → s.waiting = [] →
        (s.firstTransmissions.Pairwise (· < ·) ↔
          Admissible InLine (step sha256) (opened size memory) es)) := by
  have hforth : Admissible InLine (step sha256) (opened size memory) es →
      s.firstTransmissions.Pairwise (· < ·) := by
    intro hline
    have hinv := run_invariant_of_admissible (I := fun s => s.Placed ∧ s.Lined)
      (fun u e v hu hline hv => ⟨hu.1.step hv, hu.2.step hu.1 hline hv⟩)
      ⟨placed_opened size memory, lined_opened size memory⟩ hline hrun
    exact hinv.2.sorted
  refine ⟨hforth, fun hsending hwaiting => ⟨fun hsorted => ?_, hforth⟩⟩
  have hdone : ∀ n, ¬ s.Underway n := by
    rintro n (⟨f, hf, -⟩ | ⟨w, hw, -⟩)
    · rw [hsending] at hf
      cases hf
    · rw [hwaiting] at hw
      cases hw
  clear hforth
  generalize opened size memory = u at hrun ⊢
  induction es generalizing u with
  | nil => trivial
  | cons e es ih =>
      obtain ⟨v, hv, hrest⟩ := run_cons.mp hrun
      refine ⟨inLine_of_sorted hv hrest hdone hsorted, fun w hw => ?_⟩
      cases hv.symm.trans hw
      exact ih v hrest

def overtakenWriter : List Event :=
  [.overwrite 0 (ascii "a"), .overwrite 1 (ascii "b"), inputWrite 0 1 0, inputWrite 1 2 1, .send 1,
    .send 0]

theorem overtaken_writer_is_late :
    ∃ t, run (step sampleSha256) (opened dataChannelBufferSize fun _ => []) overtakenWriter =
        some t ∧ ¬ t.firstTransmissions.Pairwise (· < ·) := by
  have hfirsts : (run (step sampleSha256) (opened dataChannelBufferSize fun _ => [])
      overtakenWriter).map firstTransmissions = some [1, 0] := by
    decide
  obtain ⟨t, ht, hfirsts⟩ := Option.map_eq_some_iff.mp hfirsts
  refine ⟨t, ht, ?_⟩
  rw [hfirsts]
  decide

def servedInLine : List Event :=
  [.overwrite 0 (ascii "a"), .overwrite 1 (ascii "b"), inputWrite 0 1 0, inputWrite 1 2 1, .send 0,
    .send 0]

theorem first_transmissions_ascend_iff_servedInLine :
    ∃ t, run (step sampleSha256) (opened dataChannelBufferSize fun _ => []) servedInLine =
        some t ∧ Admissible InLine (step sampleSha256) (opened dataChannelBufferSize fun _ => [])
          servedInLine := by
  have hend : (run (step sampleSha256) (opened dataChannelBufferSize fun _ => [])
      servedInLine).map (fun t => (t.firstTransmissions, t.sending, t.waiting)) =
        some ([0, 1], [], []) := by
    decide
  obtain ⟨t, ht, hend⟩ := Option.map_eq_some_iff.mp hend
  simp only [Prod.mk.injEq] at hend
  obtain ⟨hfirsts, hsending, hwaiting⟩ := hend
  refine ⟨t, ht, ((first_transmissions_ascend_iff sampleSha256 _ _ servedInLine ht).2 hsending
    hwaiting).mp ?_⟩
  rw [hfirsts]
  decide

end Dolgate.Ssm.Outbound
