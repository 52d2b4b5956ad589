import Mathlib.Data.Finset.Card
import Mathlib.Data.List.DropRight
import Mathlib.Logic.Function.Basic

set_option autoImplicit false

namespace Dolgate.Ssm

inductive MessageType where
  | acknowledge
  | channelClosed
  | outputStreamData
  | inputStreamData
  | pausePublication
  | startPublication
  | other (name : String)
deriving DecidableEq, Repr

inductive PayloadType where
  | undefined
  | output
  | error
  | size
  | parameter
  | handshakeRequest
  | handshakeResponse
  | handshakeComplete
  | encChallengeRequest
  | encChallengeResponse
  | flag
  | stdErr
  | exitCode
  | unknown (code : Nat)
deriving DecidableEq, Repr

structure AgentMessage where
  messageType : MessageType
  sequenceNumber : Int
  messageID : List UInt8
  payloadType : PayloadType
  payload : List UInt8
deriving DecidableEq, Repr

/-- A list element. `ref` stands for its address, which the map and the cursor hold. -/
structure Element where
  ref : Nat
  value : AgentMessage
deriving DecidableEq, Repr

structure MessageBuffer where
  size : Nat
  buf : List Element
  seqMap : Int → Option Nat
  cursor : Option Nat
  nextRef : Nat

def MessageBuffer.new (size : Nat) : MessageBuffer := ⟨size, [], fun _ => none, none, 0⟩

def insertOrdered (el : Element) (buf : List Element) : List Element :=
  let above := fun e : Element => decide (el.value.sequenceNumber < e.value.sequenceNumber)
  buf.rdropWhile above ++ el :: buf.rtakeWhile above

def setValue (ref : Nat) (msg : AgentMessage) (buf : List Element) : List Element :=
  buf.map fun e => if e.ref = ref then { e with value := msg } else e

/-- `none` is `ErrBufferFull`. -/
def MessageBuffer.add (m : MessageBuffer) (msg : AgentMessage) : Option MessageBuffer :=
  match m.seqMap msg.sequenceNumber with
  | some ref => some { m with buf := setValue ref msg m.buf }
  | none =>
      if m.buf.length = m.size then none
      else
        some
          { m with
            buf := insertOrdered ⟨m.nextRef, msg⟩ m.buf
            seqMap := Function.update m.seqMap msg.sequenceNumber (some m.nextRef)
            nextRef := m.nextRef + 1 }

/-- The element before the one at `ref`. -/
def prevRef (ref : Nat) : List Element → Option Nat
  | a :: b :: rest => if b.ref = ref then some a.ref else prevRef ref (b :: rest)
  | _ => none

def MessageBuffer.remove (m : MessageBuffer) (seqNum : Int) : MessageBuffer :=
  match m.seqMap seqNum with
  | none => m
  | some ref =>
      { m with
        cursor := if m.cursor = some ref then prevRef ref m.buf else m.cursor
        buf := m.buf.filter fun e => e.ref ≠ ref
        seqMap := Function.update m.seqMap seqNum none }

def MessageBuffer.get (m : MessageBuffer) (seqNum : Int) : Option AgentMessage :=
  match m.seqMap seqNum with
  | none => none
  | some ref => (m.buf.find? fun e => e.ref = ref).map Element.value

structure MessageBuffer.Valid (m : MessageBuffer) : Prop where
  refs : (m.buf.map Element.ref).Nodup
  fresh : ∀ e ∈ m.buf, e.ref < m.nextRef
  mapped : ∀ n ref, m.seqMap n = some ref ↔ ∃ e ∈ m.buf, e.ref = ref ∧ e.value.sequenceNumber = n

variable {m m' : MessageBuffer} {msg : AgentMessage} {n : Int}

theorem MessageBuffer.valid_new (size : Nat) : (MessageBuffer.new size).Valid where
  refs := List.nodup_nil
  fresh := nofun
  mapped := by simp [MessageBuffer.new]

theorem Element.eq_of_ref {buf : List Element} (h : (buf.map Element.ref).Nodup) {a b : Element}
    (ha : a ∈ buf) (hb : b ∈ buf) (hab : a.ref = b.ref) : a = b :=
  List.inj_on_of_nodup_map h ha hb hab

theorem MessageBuffer.Valid.get_eq (h : m.Valid) :
    m.get n = some msg ↔ ∃ e ∈ m.buf, e.value = msg ∧ msg.sequenceNumber = n := by
  unfold MessageBuffer.get
  constructor
  · intro hg
    split at hg
    · cases hg
    · rename_i ref hn
      obtain ⟨e, he, rfl⟩ := Option.map_eq_some_iff.mp hg
      obtain ⟨f, hf, hfr, hfn⟩ := (h.mapped n ref).mp hn
      have href : e.ref = ref := by simpa using List.find?_some he
      have hmem := List.mem_of_find?_eq_some he
      obtain rfl := Element.eq_of_ref h.refs hmem hf (href.trans hfr.symm)
      exact ⟨e, hmem, rfl, hfn⟩
  · rintro ⟨e, he, rfl, rfl⟩
    rw [(h.mapped _ e.ref).mpr ⟨e, he, rfl, rfl⟩]
    obtain ⟨f, hf⟩ : ∃ f, (m.buf.find? fun f => f.ref = e.ref) = some f :=
      Option.isSome_iff_exists.mp (List.find?_isSome.mpr ⟨e, he, by simp⟩)
    have href : f.ref = e.ref := by simpa using List.find?_some hf
    obtain rfl := Element.eq_of_ref h.refs (List.mem_of_find?_eq_some hf) he href
    simp [hf]

theorem MessageBuffer.Valid.get_none (h : m.Valid) : m.get n = none ↔ m.seqMap n = none := by
  constructor
  · intro hg
    cases hn : m.seqMap n with
    | none => rfl
    | some ref =>
        obtain ⟨e, he, -, hs⟩ := (h.mapped n ref).mp hn
        rw [h.get_eq.mpr ⟨e, he, rfl, hs⟩] at hg
        cases hg
  · intro hn
    simp [MessageBuffer.get, hn]

theorem insertOrdered_perm (el : Element) (buf : List Element) :
    (insertOrdered el buf).Perm (el :: buf) := by
  unfold insertOrdered
  refine List.perm_middle.trans (List.Perm.cons el ?_)
  rw [List.rdropWhile_append_rtakeWhile]

theorem setValue_refs (ref : Nat) (msg : AgentMessage) (buf : List Element) :
    (setValue ref msg buf).map Element.ref = buf.map Element.ref := by
  unfold setValue
  rw [List.map_map]
  refine List.map_congr_left fun e _ => ?_
  simp only [Function.comp_apply]
  split <;> rfl

theorem mem_setValue {ref : Nat} {buf : List Element} {e : Element} :
    e ∈ setValue ref msg buf ↔
      ∃ f ∈ buf, e = if f.ref = ref then { f with value := msg } else f := by
  simp only [setValue, List.mem_map, eq_comm]

theorem MessageBuffer.Valid.add (h : m.Valid) (ha : m.add msg = some m') : m'.Valid := by
  unfold MessageBuffer.add at ha
  split at ha
  · rename_i ref hn
    cases ha
    obtain ⟨f, hf, hfr, hfn⟩ := (h.mapped _ ref).mp hn
    refine ⟨?_, ?_, fun n r => ?_⟩
    · exact (setValue_refs ref msg m.buf) ▸ h.refs
    · intro e he
      obtain ⟨g, hg, rfl⟩ := mem_setValue.mp he
      have hlt := h.fresh g hg
      split <;> exact hlt
    · rw [h.mapped n r]
      constructor
      · rintro ⟨e, he, rfl, rfl⟩
        refine ⟨_, mem_setValue.mpr ⟨e, he, rfl⟩, ?_⟩
        split
        · rename_i hr
          rw [Element.eq_of_ref h.refs he hf (hr.trans hfr.symm)]
          exact ⟨rfl, hfn.symm⟩
        · exact ⟨rfl, rfl⟩
      · rintro ⟨e, he, rfl, rfl⟩
        obtain ⟨g, hg, rfl⟩ := mem_setValue.mp he
        split
        · rename_i hr
          rw [Element.eq_of_ref h.refs hg hf (hr.trans hfr.symm)]
          exact ⟨f, hf, rfl, hfn⟩
        · exact ⟨g, hg, rfl, rfl⟩
  · rename_i hn
    split at ha
    · cases ha
    · cases ha
      have hperm := insertOrdered_perm ⟨m.nextRef, msg⟩ m.buf
      refine ⟨?_, ?_, fun n r => ?_⟩
      · refine ((hperm.map Element.ref).nodup_iff).mpr ?_
        refine List.nodup_cons.mpr ⟨fun hmem => ?_, h.refs⟩
        obtain ⟨e, he, hr⟩ := List.mem_map.mp hmem
        have hlt := h.fresh e he
        rw [hr] at hlt
        exact absurd hlt (Nat.lt_irrefl _)
      · intro e he
        rcases List.mem_cons.mp (hperm.mem_iff.mp he) with rfl | he
        · exact Nat.lt_succ_self _
        · exact Nat.lt_succ_of_lt (h.fresh e he)
      · by_cases hk : n = msg.sequenceNumber
        · subst hk
          simp only [Function.update_self, Option.some.injEq, hperm.mem_iff, List.mem_cons]
          constructor
          · rintro rfl
            exact ⟨_, Or.inl rfl, rfl, rfl⟩
          · rintro ⟨e, rfl | he, hr, hs⟩
            · exact hr
            · rw [(h.mapped _ e.ref).mpr ⟨e, he, rfl, hs⟩] at hn
              cases hn
        · simp only [Function.update_of_ne hk, h.mapped n r, hperm.mem_iff, List.mem_cons]
          constructor
          · rintro ⟨e, he, hr, hs⟩
            exact ⟨e, Or.inr he, hr, hs⟩
          · rintro ⟨e, rfl | he, hr, hs⟩
            · exact absurd hs.symm hk
            · exact ⟨e, he, hr, hs⟩

theorem MessageBuffer.add_size (ha : m.add msg = some m') : m'.size = m.size := by
  unfold MessageBuffer.add at ha
  split at ha
  · cases ha
    rfl
  · split at ha
    · cases ha
    · cases ha
      rfl

theorem MessageBuffer.Valid.get_add (h : m.Valid) (ha : m.add msg = some m') :
    m'.get n = if n = msg.sequenceNumber then some msg else m.get n := by
  have h' := h.add ha
  apply Option.ext
  intro x
  rw [h'.get_eq]
  unfold MessageBuffer.add at ha
  split at ha
  · rename_i ref hn
    cases ha
    obtain ⟨f, hf, hfr, hfn⟩ := (h.mapped _ ref).mp hn
    constructor
    · rintro ⟨e, he, rfl, rfl⟩
      obtain ⟨g, hg, rfl⟩ := mem_setValue.mp he
      split
      · simp
      · rename_i hr
        have hne : g.value.sequenceNumber ≠ msg.sequenceNumber := by
          intro hs
          have hmap := (h.mapped _ g.ref).mpr ⟨g, hg, rfl, hs⟩
          rw [hn] at hmap
          exact hr (Option.some.inj hmap).symm
        rw [if_neg hne]
        exact h.get_eq.mpr ⟨g, hg, rfl, rfl⟩
    · intro hx
      split at hx
      · rename_i hs
        cases hx
        exact ⟨_, mem_setValue.mpr ⟨f, hf, rfl⟩, by simp [hfr], hs.symm⟩
      · rename_i hs
        obtain ⟨e, he, rfl, rfl⟩ := h.get_eq.mp hx
        refine ⟨e, mem_setValue.mpr ⟨e, he, ?_⟩, rfl, rfl⟩
        rw [if_neg]
        intro hr
        rw [Element.eq_of_ref h.refs he hf (hr.trans hfr.symm)] at hs
        exact hs hfn
  · rename_i hn
    split at ha
    · cases ha
    · cases ha
      have hperm := insertOrdered_perm ⟨m.nextRef, msg⟩ m.buf
      simp only [hperm.mem_iff, List.mem_cons]
      constructor
      · rintro ⟨e, rfl | he, rfl, rfl⟩
        · simp
        · rw [if_neg]
          · exact h.get_eq.mpr ⟨e, he, rfl, rfl⟩
          · intro hs
            rw [(h.mapped _ e.ref).mpr ⟨e, he, rfl, hs⟩] at hn
            cases hn
      · intro hx
        split at hx
        · rename_i hs
          cases hx
          exact ⟨_, Or.inl rfl, rfl, hs.symm⟩
        · obtain ⟨e, he, rfl, hs⟩ := h.get_eq.mp hx
          exact ⟨e, Or.inr he, rfl, hs⟩

theorem MessageBuffer.Valid.add_none (h : m.Valid) (ha : m.add msg = none) :
    m.get msg.sequenceNumber = none ∧ m.buf.length = m.size := by
  unfold MessageBuffer.add at ha
  split at ha
  · cases ha
  · rename_i hn
    split at ha
    · exact ⟨h.get_none.mpr hn, ‹_›⟩
    · cases ha

theorem MessageBuffer.Valid.remove (h : m.Valid) (n : Int) : (m.remove n).Valid := by
  unfold MessageBuffer.remove
  split
  · exact h
  · rename_i ref hn
    obtain ⟨f, hf, hfr, hfn⟩ := (h.mapped _ ref).mp hn
    refine ⟨?_, fun e he => h.fresh e (List.mem_of_mem_filter he), fun k r => ?_⟩
    · exact List.Nodup.sublist (List.filter_sublist.map _) h.refs
    · by_cases hk : k = n
      · subst hk
        simp only [Function.update_self, List.mem_filter, decide_eq_true_eq]
        refine ⟨(fun heq => by cases heq), ?_⟩
        rintro ⟨e, ⟨he, hne⟩, rfl, hs⟩
        have hmap := (h.mapped _ e.ref).mpr ⟨e, he, rfl, hs⟩
        rw [hn] at hmap
        exact absurd (Option.some.inj hmap).symm hne
      · simp only [Function.update_of_ne hk, h.mapped k r, List.mem_filter, decide_eq_true_eq]
        constructor
        · rintro ⟨e, he, rfl, rfl⟩
          refine ⟨e, ⟨he, fun hr => ?_⟩, rfl, rfl⟩
          rw [Element.eq_of_ref h.refs he hf (hr.trans hfr.symm)] at hk
          exact hk hfn
        · rintro ⟨e, ⟨he, -⟩, hr, hs⟩
          exact ⟨e, he, hr, hs⟩

theorem MessageBuffer.Valid.get_remove (h : m.Valid) (n k : Int) :
    (m.remove n).get k = if k = n then none else m.get k := by
  have h' := h.remove n
  by_cases hk : k = n
  · subst hk
    rw [if_pos rfl, h'.get_none]
    unfold MessageBuffer.remove
    split
    · assumption
    · simp
  · rw [if_neg hk]
    unfold MessageBuffer.remove
    split
    · rfl
    · rename_i ref hn
      simp only [MessageBuffer.get, Function.update_of_ne hk]
      cases hm : m.seqMap k with
      | none => rfl
      | some r =>
          obtain ⟨e, he, her, hes⟩ := (h.mapped k r).mp hm
          obtain ⟨f, hf, hfr, hfn⟩ := (h.mapped n ref).mp hn
          have hne : r ≠ ref := by
            rintro rfl
            rw [Element.eq_of_ref h.refs he hf (her.trans hfr.symm)] at hes
            exact hk (hes.symm.trans hfn)
          simp only [List.find?_filter]
          congr 2
          funext x
          by_cases hx : x.ref = r
          · simp [hx, hne]
          · simp [hx]

theorem MessageBuffer.Valid.remove_length (h : m.Valid) {x : AgentMessage} (hx : m.get n = some x) :
    (m.remove n).buf.length < m.buf.length := by
  have hne : m.seqMap n ≠ none := fun hn => by
    rw [h.get_none.mpr hn] at hx
    cases hx
  obtain ⟨ref, hn⟩ := Option.ne_none_iff_exists'.mp hne
  obtain ⟨f, hf, hfr, -⟩ := (h.mapped n ref).mp hn
  unfold MessageBuffer.remove
  rw [hn]
  exact List.length_filter_lt_length_iff_exists.mpr ⟨f, hf, by simp [hfr]⟩

theorem MessageBuffer.remove_size (n : Int) : (m.remove n).size = m.size := by
  unfold MessageBuffer.remove
  split <;> rfl

theorem MessageBuffer.Valid.length_le_card (h : m.Valid) {numbers : Finset Int}
    (hs : ∀ n, m.get n ≠ none → n ∈ numbers) : m.buf.length ≤ numbers.card := by
  have hnodup : (m.buf.map fun e => e.value.sequenceNumber).Nodup := by
    refine List.Nodup.map_on (fun a ha b hb hab => ?_) (List.Nodup.of_map _ h.refs)
    have hmap := (h.mapped _ a.ref).mpr ⟨a, ha, rfl, rfl⟩
    rw [hab, (h.mapped _ b.ref).mpr ⟨b, hb, rfl, rfl⟩] at hmap
    exact Element.eq_of_ref h.refs ha hb (Option.some.inj hmap).symm
  have hcard := List.toFinset_card_of_nodup hnodup
  rw [List.length_map] at hcard
  rw [← hcard]
  refine Finset.card_le_card fun n hn => ?_
  obtain ⟨e, he, rfl⟩ := List.mem_map.mp (List.mem_toFinset.mp hn)
  refine hs _ fun hnone => ?_
  rw [h.get_eq.mpr ⟨e, he, rfl, rfl⟩] at hnone
  cases hnone

def MessageBuffer.oldest (m : MessageBuffer) : Option AgentMessage := m.buf.head?.map Element.value

def MessageBuffer.Ordered (m : MessageBuffer) : Prop :=
  m.buf.Pairwise fun a b => a.value.sequenceNumber ≤ b.value.sequenceNumber

theorem insertOrdered_pairwise (el : Element) {buf : List Element}
    (h : buf.Pairwise fun a b => a.value.sequenceNumber ≤ b.value.sequenceNumber) :
    (insertOrdered el buf).Pairwise fun a b =>
      a.value.sequenceNumber ≤ b.value.sequenceNumber := by
  let above := fun e : Element => decide (el.value.sequenceNumber < e.value.sequenceNumber)
  have hsplit : buf.rdropWhile above ++ buf.rtakeWhile above = buf :=
    List.rdropWhile_append_rtakeWhile
  have hsorted := h
  rw [← hsplit, List.pairwise_append] at hsorted
  obtain ⟨hlow, hhigh, hcross⟩ := hsorted
  have habove : ∀ e ∈ buf.rtakeWhile above, el.value.sequenceNumber ≤ e.value.sequenceNumber := by
    intro e he
    have := List.mem_rtakeWhile_imp he
    simp only [above, decide_eq_true_eq] at this
    omega
  -- the last one that is kept in front is not above, and the others are below it
  have hbelow : ∀ e ∈ buf.rdropWhile above, e.value.sequenceNumber ≤ el.value.sequenceNumber := by
    intro e he
    have hne := List.ne_nil_of_mem he
    have hlast := List.rdropWhile_last_not above buf hne
    simp only [above, decide_eq_true_eq, not_lt] at hlast
    refine le_trans ?_ hlast
    rw [← List.dropLast_append_getLast hne, List.pairwise_append] at hlow
    rw [← List.dropLast_append_getLast hne, List.mem_append, List.mem_singleton] at he
    rcases he with he | rfl
    · exact hlow.2.2 e he _ (List.mem_singleton_self _)
    · exact le_rfl
  unfold insertOrdered
  refine List.pairwise_append.mpr ⟨hlow, List.pairwise_cons.mpr ⟨habove, hhigh⟩, ?_⟩
  intro a ha b hb
  rcases List.mem_cons.mp hb with rfl | hb
  · exact hbelow a ha
  · exact hcross a ha b hb

theorem MessageBuffer.Ordered.add_new (h : m.Ordered) (hn : m.seqMap msg.sequenceNumber = none)
    (ha : m.add msg = some m') : m'.Ordered := by
  unfold MessageBuffer.add at ha
  rw [hn] at ha
  simp only at ha
  split at ha
  · cases ha
  · cases ha
    exact insertOrdered_pairwise _ h

theorem MessageBuffer.Ordered.remove (h : m.Ordered) (n : Int) : (m.remove n).Ordered := by
  unfold MessageBuffer.remove
  split
  · exact h
  · exact List.Pairwise.filter _ h

theorem MessageBuffer.oldest_mem (h : m.oldest = some msg) : ∃ e ∈ m.buf, e.value = msg := by
  obtain ⟨e, he, rfl⟩ := Option.map_eq_some_iff.mp h
  exact ⟨e, List.mem_of_mem_head? he, rfl⟩

theorem MessageBuffer.Ordered.oldest_le (h : m.Ordered) (ho : m.oldest = some msg) {e : Element}
    (he : e ∈ m.buf) : msg.sequenceNumber ≤ e.value.sequenceNumber := by
  obtain ⟨front, hfront, rfl⟩ := Option.map_eq_some_iff.mp ho
  obtain ⟨rest, hbuf⟩ := List.head?_eq_some_iff.mp hfront
  unfold MessageBuffer.Ordered at h
  rw [hbuf] at h he
  rcases List.mem_cons.mp he with rfl | he
  · exact le_rfl
  · exact (List.pairwise_cons.mp h).1 e he

/-! ### Every sequence of calls -/

/-- The element behind the one at `ref`. -/
def nextElement (ref : Nat) : List Element → Option Element
  | a :: b :: rest => if a.ref = ref then some b else nextElement ref (b :: rest)
  | _ => none

def MessageBuffer.next (m : MessageBuffer) : MessageBuffer × Option AgentMessage :=
  let el := match m.cursor with
    | none => m.buf.head?
    | some ref => nextElement ref m.buf
  ({ m with cursor := el.map Element.ref }, el.map Element.value)

inductive Call where
  | add (msg : AgentMessage)
  | remove (seqNum : Int)
  | get (seqNum : Int)
  | oldest
  | next
deriving DecidableEq, Repr

/-- What a call leaves. An `add` that has no room changes nothing before it returns. -/
def MessageBuffer.call (m : MessageBuffer) : Call → MessageBuffer
  | .add msg => (m.add msg).getD m
  | .remove n => m.remove n
  | .get _ => m
  | .oldest => m
  | .next => m.next.1

structure MessageBuffer.Sound (m : MessageBuffer) : Prop where
  valid : m.Valid
  ascending : m.buf.Pairwise fun a b => a.value.sequenceNumber < b.value.sequenceNumber
  room : m.buf.length ≤ m.size
  cursor : ∀ ref, m.cursor = some ref → ref ∈ m.buf.map Element.ref

theorem MessageBuffer.Valid.eq_of_number (h : m.Valid) {a b : Element} (ha : a ∈ m.buf)
    (hb : b ∈ m.buf) (hab : a.value.sequenceNumber = b.value.sequenceNumber) : a = b := by
  have hmap := (h.mapped _ a.ref).mpr ⟨a, ha, rfl, rfl⟩
  rw [hab, (h.mapped _ b.ref).mpr ⟨b, hb, rfl, rfl⟩] at hmap
  exact Element.eq_of_ref h.refs ha hb (Option.some.inj hmap).symm

theorem MessageBuffer.Valid.add_again (h : m.Valid) (hn : m.seqMap msg.sequenceNumber ≠ none) :
    m.add msg = some { m with
      buf := m.buf.map fun e =>
        if e.value.sequenceNumber = msg.sequenceNumber then { e with value := msg } else e } := by
  obtain ⟨ref, href⟩ := Option.ne_none_iff_exists'.mp hn
  obtain ⟨f, hf, hfr, hfn⟩ := (h.mapped _ ref).mp href
  have hsame : setValue ref msg m.buf = m.buf.map fun e =>
      if e.value.sequenceNumber = msg.sequenceNumber then { e with value := msg } else e := by
    refine List.map_congr_left fun e he => ?_
    by_cases hr : e.ref = ref
    · rw [if_pos hr, if_pos]
      rw [Element.eq_of_ref h.refs he hf (hr.trans hfr.symm), hfn]
    · rw [if_neg hr, if_neg]
      intro heq
      rw [h.eq_of_number he hf (heq.trans hfn.symm)] at hr
      exact hr hfr
  rw [MessageBuffer.add, href, ← hsame]

theorem MessageBuffer.add_eq_none :
    m.add msg = none ↔ m.seqMap msg.sequenceNumber = none ∧ m.buf.length = m.size := by
  unfold MessageBuffer.add
  split
  · next ref hn =>
    refine ⟨fun h => (by cases h), fun h => ?_⟩
    rw [hn] at h
    cases h.1
  · next hn =>
    split
    · next hfull => exact ⟨fun _ => ⟨hn, hfull⟩, fun _ => rfl⟩
    · next hroom => exact ⟨fun h => (by cases h), fun h => absurd h.2 hroom⟩

theorem MessageBuffer.Valid.ascending (h : m.Valid) (ho : m.Ordered) :
    m.buf.Pairwise fun a b => a.value.sequenceNumber < b.value.sequenceNumber := by
  have hdistinct := List.pairwise_map.mp h.refs
  refine (ho.and hdistinct).imp_of_mem fun {a b} ha hb hab => ?_
  refine lt_of_le_of_ne hab.1 fun heq => hab.2 ?_
  rw [h.eq_of_number ha hb heq]

theorem MessageBuffer.Sound.ordered (h : m.Sound) : m.Ordered := h.ascending.imp le_of_lt

theorem MessageBuffer.Sound.add (h : m.Sound) (ha : m.add msg = some m') : m'.Sound := by
  have hvalid := h.valid.add ha
  by_cases hn : m.seqMap msg.sequenceNumber = none
  · have ho := h.ordered.add_new hn ha
    have hroom : m.buf.length ≠ m.size := fun hfull => by
      rw [MessageBuffer.add_eq_none.mpr ⟨hn, hfull⟩] at ha
      cases ha
    have hle := h.room
    unfold MessageBuffer.add at ha
    rw [hn] at ha
    dsimp only at ha
    rw [if_neg hroom] at ha
    obtain rfl := Option.some.inj ha
    have hperm := insertOrdered_perm ⟨m.nextRef, msg⟩ m.buf
    refine ⟨hvalid, hvalid.ascending ho, ?_, fun ref href => ?_⟩
    · rw [hperm.length_eq, List.length_cons]
      dsimp only
      omega
    · exact (hperm.map Element.ref).mem_iff.mpr (List.mem_cons_of_mem _ (h.cursor ref href))
  · rw [h.valid.add_again hn] at ha
    obtain rfl := Option.some.inj ha
    have hnumbers : ∀ e : Element, (if e.value.sequenceNumber = msg.sequenceNumber then
        { e with value := msg } else e).value.sequenceNumber = e.value.sequenceNumber := by
      intro e
      split
      · next heq => exact heq.symm
      · rfl
    have hrefs : ∀ e : Element, (if e.value.sequenceNumber = msg.sequenceNumber then
        { e with value := msg } else e).ref = e.ref := by
      intro e
      split
      · rfl
      · rfl
    refine ⟨hvalid, ?_, ?_, fun ref href => ?_⟩
    · refine List.pairwise_map.mpr (h.ascending.imp fun {a b} hab => ?_)
      rw [hnumbers, hnumbers]
      exact hab
    · rw [List.length_map]
      exact h.room
    · obtain ⟨e, he, rfl⟩ := List.mem_map.mp (h.cursor ref href)
      exact List.mem_map.mpr ⟨_, List.mem_map_of_mem he, hrefs e⟩

theorem mem_of_prevRef {ref prev : Nat} {buf : List Element} (hnodup : (buf.map Element.ref).Nodup)
    (h : prevRef ref buf = some prev) : prev ∈ buf.map Element.ref ∧ prev ≠ ref := by
  induction buf with
  | nil => cases h
  | cons a buf ih =>
    cases buf with
    | nil => cases h
    | cons b rest =>
      rw [prevRef] at h
      obtain ⟨hnot, htail⟩ := List.nodup_cons.mp hnodup
      split at h
      · next hb =>
        obtain rfl := Option.some.inj h
        refine ⟨List.mem_cons_self, fun heq => hnot ?_⟩
        rw [heq, ← hb]
        exact List.mem_cons_self
      · obtain ⟨hmem, hne⟩ := ih htail h
        exact ⟨List.mem_cons_of_mem _ hmem, hne⟩

theorem MessageBuffer.Sound.remove (h : m.Sound) (n : Int) : (m.remove n).Sound := by
  have hvalid := h.valid.remove n
  have hascending := hvalid.ascending (h.ordered.remove n)
  refine ⟨hvalid, hascending, ?_, fun ref href => ?_⟩
  · have hle := h.room
    unfold MessageBuffer.remove
    split
    · exact hle
    · exact (List.length_filter_le _ _).trans hle
  · unfold MessageBuffer.remove at href ⊢
    split at href
    · exact h.cursor ref href
    · next removed hremoved =>
      dsimp only at href ⊢
      -- the cursor goes to the element before, if its own is removed
      have hkept : ref ∈ m.buf.map Element.ref ∧ ref ≠ removed := by
        split at href
        · exact mem_of_prevRef h.valid.refs href
        · next hother => exact ⟨h.cursor ref href, fun heq => hother (heq ▸ href)⟩
      obtain ⟨hmem, hne⟩ := hkept
      obtain ⟨e, he, rfl⟩ := List.mem_map.mp hmem
      exact List.mem_map_of_mem (List.mem_filter.mpr ⟨he, decide_eq_true hne⟩)

theorem mem_of_nextElement {ref : Nat} {buf : List Element} {e : Element}
    (h : nextElement ref buf = some e) : e ∈ buf := by
  induction buf with
  | nil => cases h
  | cons a buf ih =>
    cases buf with
    | nil => cases h
    | cons b rest =>
      rw [nextElement] at h
      split at h
      · rw [← Option.some.inj h]
        exact List.mem_cons_of_mem a List.mem_cons_self
      · exact List.mem_cons_of_mem a (ih h)

theorem MessageBuffer.Sound.next (h : m.Sound) : m.next.1.Sound := by
  refine ⟨⟨h.valid.refs, h.valid.fresh, h.valid.mapped⟩, h.ascending, h.room, fun ref href => ?_⟩
  obtain ⟨e, he, rfl⟩ := Option.map_eq_some_iff.mp href
  refine List.mem_map_of_mem ?_
  split at he
  · exact List.mem_of_mem_head? he
  · exact mem_of_nextElement he

theorem MessageBuffer.Sound.call (h : m.Sound) (call : Call) : (m.call call).Sound := by
  cases call with
  | add msg =>
    rw [MessageBuffer.call]
    cases ha : m.add msg with
    | none => exact h
    | some m' => exact h.add ha
  | remove n => exact h.remove n
  | get n => exact h
  | oldest => exact h
  | next => exact h.next

theorem MessageBuffer.call_size (call : Call) : (m.call call).size = m.size := by
  cases call with
  | add msg =>
    rw [MessageBuffer.call]
    cases ha : m.add msg with
    | none => rfl
    | some m' => exact MessageBuffer.add_size ha
  | remove n => exact MessageBuffer.remove_size n
  | get n => rfl
  | oldest => rfl
  | next => rfl

theorem MessageBuffer.foldl_call_sound (calls : List Call) (h : m.Sound) :
    (calls.foldl MessageBuffer.call m).Sound ∧ (calls.foldl MessageBuffer.call m).size = m.size := by
  induction calls generalizing m with
  | nil => exact ⟨h, rfl⟩
  | cons call calls ih =>
    obtain ⟨hsound, hsize⟩ := ih (h.call call)
    exact ⟨hsound, hsize.trans (MessageBuffer.call_size call)⟩

theorem MessageBuffer.sound_new (size : Nat) : (MessageBuffer.new size).Sound :=
  ⟨MessageBuffer.valid_new size, .nil, Nat.zero_le size, fun _ h => (by cases h)⟩

theorem MessageBuffer.Ordered.oldest_eq_iff (h : m.Ordered) (hvalid : m.Valid) :
    m.oldest = some msg ↔
      (∃ e ∈ m.buf, e.value = msg) ∧ ∀ e ∈ m.buf, msg.sequenceNumber ≤ e.value.sequenceNumber := by
  constructor
  · exact fun ho => ⟨MessageBuffer.oldest_mem ho, fun e he => h.oldest_le ho he⟩
  · rintro ⟨⟨e, he, rfl⟩, hleast⟩
    obtain ⟨front, rest, hbuf⟩ := List.exists_cons_of_ne_nil (List.ne_nil_of_mem he)
    have hfront : front ∈ m.buf := hbuf ▸ List.mem_cons_self
    have ho : m.oldest = some front.value := by
      rw [MessageBuffer.oldest, hbuf]
      rfl
    have hsame := le_antisymm (h.oldest_le ho he) (hleast front hfront)
    rw [ho, hvalid.eq_of_number hfront he hsame]

/-- What holds behind any calls, and what an `add` then does: it is refused only for want of room,
and what has its number already is exchanged in its place. -/
theorem MessageBuffer.foldl_call_new (size : Nat) (calls : List Call) :
    let m := calls.foldl MessageBuffer.call (MessageBuffer.new size)
    (m.buf.Pairwise fun a b => a.value.sequenceNumber < b.value.sequenceNumber) ∧
    (∀ n msg, m.get n = some msg ↔ ∃ e ∈ m.buf, e.value = msg ∧ msg.sequenceNumber = n) ∧
    (∀ n ref, m.seqMap n = some ref ↔ ∃ e ∈ m.buf, e.ref = ref ∧ e.value.sequenceNumber = n) ∧
    m.buf.length ≤ size ∧
    (∀ msg, m.oldest = some msg ↔ (∃ e ∈ m.buf, e.value = msg) ∧
      ∀ e ∈ m.buf, msg.sequenceNumber ≤ e.value.sequenceNumber) ∧
    (∀ ref, m.cursor = some ref → ∃ e ∈ m.buf, e.ref = ref) ∧
    ∀ msg, (m.add msg = none ↔ m.get msg.sequenceNumber = none ∧ m.buf.length = size) ∧
      (m.add msg = none → m.call (.add msg) = m) ∧
      (m.get msg.sequenceNumber ≠ none → m.call (.add msg) = { m with
        buf := m.buf.map fun e =>
          if e.value.sequenceNumber = msg.sequenceNumber then { e with value := msg } else e }) := by
  intro m
  obtain ⟨h, hsize⟩ : m.Sound ∧ m.size = size :=
    MessageBuffer.foldl_call_sound calls (MessageBuffer.sound_new size)
  refine ⟨h.ascending, fun n msg => h.valid.get_eq, h.valid.mapped, hsize ▸ h.room,
    fun msg => h.ordered.oldest_eq_iff h.valid, fun ref href => List.mem_map.mp (h.cursor ref href),
    fun msg => ⟨?_, fun ha => ?_, fun hthere => ?_⟩⟩
  · rw [MessageBuffer.add_eq_none, h.valid.get_none, hsize]
  · rw [MessageBuffer.call, ha]
    rfl
  · rw [MessageBuffer.call, h.valid.add_again fun hn => hthere (h.valid.get_none.mpr hn)]
    rfl

/-- A message with the number of one that is there takes its place. -/
theorem MessageBuffer.add_duplicate_changes :
    let message : List UInt8 → AgentMessage := fun payload => ⟨.inputStreamData, 1, [], .output, payload⟩
    let m := [Call.add (message [0])].foldl MessageBuffer.call (MessageBuffer.new 4)
    m.get 1 = some (message [0]) ∧ (m.call (.add (message [7]))).get 1 = some (message [7]) ∧
      m.call (.add (message [7])) ≠ m := by
  intro message m
  have hbefore : m.get 1 = some (message [0]) := rfl
  have hafter : (m.call (.add (message [7]))).get 1 = some (message [7]) := rfl
  refine ⟨hbefore, hafter, fun h => ?_⟩
  rw [h, hbefore] at hafter
  exact absurd hafter (by decide)

end Dolgate.Ssm
