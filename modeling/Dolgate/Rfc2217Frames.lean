import Dolgate.Rfc2217Phases

set_option autoImplicit false

namespace Dolgate.Rfc2217

structure BareCommand where
  code : UInt8
  bare : code < telnetSB ∧ code ≠ telnetSE
deriving DecidableEq, Repr

structure Verb where
  code : UInt8
  verb : telnetWILL ≤ code ∧ code ≤ telnetDONT
deriving DecidableEq, Repr

inductive Item where
  | data (value : UInt8)
  | command (command : BareCommand)
  | negotiation (verb : Verb) (option : UInt8)
  | subnegotiation (content : List UInt8)
deriving DecidableEq, Repr

namespace Item

def wire : Item → List UInt8
  | .data value => escapeTelnetPayload [value]
  | .command bare => [telnetIAC, bare.code]
  | .negotiation verb option => [telnetIAC, verb.code, option]
  | .subnegotiation content =>
      [telnetIAC, telnetSB] ++ escapeTelnetPayload content ++ [telnetIAC, telnetSE]

def payload : Item → List UInt8
  | .data value => [value]
  | _ => []

def isBare : Item → Bool
  | .command _ => true
  | _ => false

end Item

def wire (items : List Item) : List UInt8 := items.flatMap Item.wire

def payload (items : List Item) : List UInt8 := items.flatMap Item.payload

/-- Successive calls of `Read`, with buffers of these sizes. -/
def Conn.reads : List Nat → Conn → List UInt8 × Conn
  | [], c => ([], c)
  | size :: sizes, c =>
      let first := c.read size
      let rest := Conn.reads sizes first.2
      (first.1.1 ++ rest.1, rest.2)

def Conn.Delivers (c : Conn) (data : List UInt8) : Prop :=
  ∀ sizes, (c.reads sizes).1 <+: data ∧
    ((∀ size ∈ sizes, 0 < size) → c.pending.length ≤ sizes.length → (c.reads sizes).1 = data)

def BareOnlyLast (items : List Item) : Prop := ∀ item ∈ items.dropLast, item.isBare = false

section

variable {size held : Nat} {p : Phase} {out : List UInt8} {b : UInt8} {c c₁ c₂ : Conn}
  {e : NetError}

theorem Phase.decode_of_emits (h : p.Emits b) (rest : List UInt8) :
    p.decode (b :: rest) = b :: (p.next b).decode rest :=
  if_pos h

theorem Phase.decode_of_not_emits (h : ¬ p.Emits b) (rest : List UInt8) :
    p.decode (b :: rest) = (p.next b).decode rest :=
  if_neg h

theorem Phase.decode_cons (p : Phase) (b : UInt8) (rest : List UInt8) :
    p.decode (b :: rest) = Conn.keep p [] b ++ (p.next b).decode rest := by
  by_cases h : p.Emits b
  · rw [Conn.keep_of_emits h, decode_of_emits h, List.nil_append, List.singleton_append]
  · rw [Conn.keep_of_not_emits h, decode_of_not_emits h, List.nil_append]

theorem Phase.decode_nil (p : Phase) : p.decode [] = [] := rfl

theorem Conn.reply_some (h : c.reply p b = (some e, c₁)) : ∃ command, p = .option command := by
  cases p with
  | option command => exact ⟨command, rfl⟩
  | _ => cases h

theorem Conn.scan_decode (size : Nat) (p : Phase) (out : List UInt8) (c : Conn) :
    ∃ more, (c.scan size p out).1.1 = out ++ more ∧
      p.decode c.pending = more ++ Phase.data.decode (c.scan size p out).2.pending := by
  fun_induction Conn.scan size p out c with
  | case1 p out c h => exact ⟨[], by simp, by rw [h.1]; rfl⟩
  | case2 p out c h e c₁ hv =>
      have hnone := readByte_error hv
      exact ⟨[], by simp [stopped], by rw [hnone.1, hnone.2]; rfl⟩
  | case3 p out c h b c₁ hv e c₂ hr =>
      obtain ⟨command, rfl⟩ := reply_some hr
      have hsame := reply_pending (.option command) b c₁
      rw [hr] at hsame
      refine ⟨[], by simp [stopped], ?_⟩
      rw [readByte_pending hv, Phase.decode_cons, keep_of_not_emits id, hsame]
      rfl
  | case4 p out c h b c₁ hv c₂ hr ih =>
      obtain ⟨more, hout, hdecode⟩ := ih
      have hsame := reply_pending p b c₁
      rw [hr] at hsame
      refine ⟨keep p [] b ++ more, ?_, ?_⟩
      · rw [hout, keep_eq, List.append_assoc]
      · rw [readByte_pending hv, Phase.decode_cons, ← hsame, hdecode, List.append_assoc]

theorem Conn.scan_pending (size : Nat) (p : Phase) (out : List UInt8) (c : Conn) :
    (c.scan size p out).2.pending.length ≤ c.pending.length := by
  fun_induction Conn.scan size p out c with
  | case1 p out c h => exact le_rfl
  | case2 p out c h e c₁ hv => simp [(readByte_error hv).2]
  | case3 p out c h b c₁ hv e c₂ hr => exact (reply_lt hv hr).le
  | case4 p out c h b c₁ hv c₂ hr ih => exact ih.trans (reply_lt hv hr).le

theorem Conn.read_pending_lt (hsize : 0 < size) (hc : c.pending ≠ []) :
    (c.read size).2.pending.length < c.pending.length := by
  have hopen : ¬ (Phase.data = .data ∧ size ≤ ([] : List UInt8).length) := by
    simp only [true_and, List.length_nil]
    omega
  rw [read_eq_scan]
  cases hv : c.readByte 0 with
  | mk result c₁ =>
      cases result with
      | error e => exact absurd (readByte_error hv).1 hc
      | ok b =>
          rw [scan_next _ hopen hv rfl]
          exact (scan_pending _ _ _ _).trans_lt (readByte_length hv)

theorem Conn.reads_decode (sizes : List Nat) (c : Conn) :
    Phase.data.decode c.pending =
      (c.reads sizes).1 ++ Phase.data.decode (c.reads sizes).2.pending := by
  induction sizes generalizing c with
  | nil => rfl
  | cons size sizes ih =>
      obtain ⟨more, hout, hdecode⟩ := scan_decode size .data [] c
      rw [← read_eq_scan] at hout hdecode
      simp only [reads]
      rw [hdecode, ih, hout, List.nil_append, List.append_assoc]

theorem Conn.reads_pending {sizes : List Nat} (hsizes : ∀ size ∈ sizes, 0 < size)
    (h : c.pending.length ≤ sizes.length) : (c.reads sizes).2.pending = [] := by
  induction sizes generalizing c with
  | nil => exact List.eq_nil_of_length_eq_zero (Nat.le_zero.mp h)
  | cons size sizes ih =>
      have hrest : ∀ n ∈ sizes, 0 < n := fun n hn => hsizes n (List.mem_cons_of_mem _ hn)
      by_cases hc : c.pending = []
      · have hle := scan_pending size .data [] c
        rw [← read_eq_scan, hc] at hle
        exact ih hrest (hle.trans (Nat.zero_le _))
      · have hlt := read_pending_lt (hsizes size List.mem_cons_self) hc
        rw [List.length_cons] at h
        exact ih hrest (by omega)

theorem Conn.delivers_iff (c : Conn) (data : List UInt8) :
    c.Delivers data ↔ Phase.data.decode c.pending = data := by
  constructor
  · intro h
    have hall := (h (List.replicate c.pending.length 1)).2 (by simp) (by simp)
    rw [reads_decode (List.replicate c.pending.length 1), hall, reads_pending (by simp) (by simp),
      Phase.decode_nil, List.append_nil]
  · rintro rfl sizes
    rw [reads_decode sizes]
    refine ⟨List.prefix_append _ _, fun hsizes hlen => ?_⟩
    rw [reads_pending hsizes hlen, Phase.decode_nil, List.append_nil]

end

def double (value : UInt8) : List UInt8 :=
  if value = telnetIAC then [value, telnetIAC] else [value]

theorem escape_eq (data : List UInt8) : escapeTelnetPayload data = data.flatMap double := by
  rw [escapeTelnetPayload]
  split
  · rename_i h
    have hsame : ∀ value ∈ data, double value = [value] := fun value hv => by
      rw [double, if_neg (by rintro rfl; exact h hv)]
    rw [List.flatMap_congr hsame, List.flatMap_singleton']
  · rfl

theorem decode_double (value : UInt8) (rest : List UInt8) :
    Phase.data.decode (double value ++ rest) = value :: Phase.data.decode rest := by
  rw [double]
  split
  · rename_i h
    subst h
    rfl
  · rename_i h
    rw [List.singleton_append, Phase.decode_of_emits (p := .data) h, Phase.next, if_neg h]

theorem decode_escape (data rest : List UInt8) :
    Phase.data.decode (escapeTelnetPayload data ++ rest) = data ++ Phase.data.decode rest := by
  rw [escape_eq]
  induction data with
  | nil => rfl
  | cons value data ih =>
      rw [List.flatMap_cons, List.append_assoc, decode_double, ih, List.cons_append]

theorem decode_sub_double (value : UInt8) (rest : List UInt8) :
    Phase.sub.decode (double value ++ rest) = Phase.sub.decode rest := by
  rw [double]
  split
  · rename_i h
    subst h
    rfl
  · rename_i h
    rw [List.singleton_append, Phase.decode_of_not_emits (p := .sub) id, Phase.next, if_neg h]

theorem decode_sub_escape (content rest : List UInt8) :
    Phase.sub.decode (escapeTelnetPayload content ++ [telnetIAC, telnetSE] ++ rest) =
      Phase.data.decode rest := by
  rw [escape_eq, List.append_assoc]
  induction content with
  | nil => rfl
  | cons value content ih => rw [List.flatMap_cons, List.append_assoc, decode_sub_double, ih]

theorem decode_command {code : UInt8} (hiac : code ≠ telnetIAC) (hsb : code ≠ telnetSB)
    (rest : List UInt8) :
    Phase.data.decode (telnetIAC :: code :: rest) = Phase.data.decode rest.tail := by
  rw [Phase.decode_of_not_emits (p := .data) (not_not.mpr rfl), Phase.next, if_pos rfl,
    Phase.decode_of_not_emits (p := .command) hiac, Phase.next, if_neg hiac, if_neg hsb]
  cases rest with
  | nil => rfl
  | cons b rest => exact Phase.decode_of_not_emits (p := .option code) id rest

theorem Verb.ne (verb : Verb) : verb.code ≠ telnetIAC ∧ verb.code ≠ telnetSB := by
  obtain ⟨code, hlow, hhigh⟩ := verb
  constructor <;> rintro rfl
  · exact absurd hhigh (by decide)
  · exact absurd hlow (by decide)

theorem BareCommand.ne (bare : BareCommand) : bare.code ≠ telnetIAC ∧ bare.code ≠ telnetSB := by
  obtain ⟨code, hlow, hse⟩ := bare
  constructor <;> rintro rfl <;> exact absurd hlow (by decide)

theorem decode_item {item : Item} (h : item.isBare = false) (rest : List UInt8) :
    Phase.data.decode (item.wire ++ rest) = item.payload ++ Phase.data.decode rest := by
  cases item with
  | data value => exact decode_escape [value] rest
  | command bare => cases h
  | negotiation verb option =>
      exact decode_command verb.ne.1 verb.ne.2 (option :: rest)
  | subnegotiation content =>
      have hsub := decode_sub_escape content rest
      rw [List.append_assoc] at hsub
      rw [Item.wire, List.append_assoc, List.append_assoc]
      exact hsub

theorem decode_bare (bare : BareCommand) (rest : List UInt8) :
    Phase.data.decode ((Item.command bare).wire ++ rest) = Phase.data.decode rest.tail :=
  decode_command bare.ne.1 bare.ne.2 rest

theorem BareOnlyLast.of_cons {item : Item} {items : List Item} (h : BareOnlyLast (item :: items)) :
    BareOnlyLast items := by
  cases items with
  | nil => simp [BareOnlyLast]
  | cons next items =>
      intro i hi
      exact h i (by rw [List.dropLast_cons_cons]; exact List.mem_cons_of_mem _ hi)

theorem BareOnlyLast.of_prefix {before items : List Item} (h : BareOnlyLast items)
    (hbefore : before <+: items) : BareOnlyLast before := by
  obtain ⟨after, rfl⟩ := hbefore
  intro item hitem
  cases after with
  | nil => exact h item (by simpa using hitem)
  | cons next after =>
      refine h item ?_
      rw [List.dropLast_append_of_ne_nil (by simp)]
      exact List.mem_append_left _ (List.mem_of_mem_dropLast hitem)

theorem decode_wire {items : List Item} (h : BareOnlyLast items) :
    Phase.data.decode (wire items) = payload items := by
  induction items with
  | nil => rfl
  | cons item items ih =>
      rw [wire, payload, List.flatMap_cons, List.flatMap_cons]
      by_cases hbare : item.isBare = false
      · rw [decode_item hbare]
        exact congrArg (item.payload ++ ·) (ih h.of_cons)
      · cases items with
        | nil =>
            cases item with
            | command bare => exact decode_bare bare []
            | _ => exact absurd rfl hbare
        | cons next items =>
            exact absurd (h item (by rw [List.dropLast_cons_cons]; exact List.mem_cons_self)) hbare

theorem decode_tail_ne (item : Item) : Phase.data.decode item.wire.tail ≠ item.payload := by
  cases item with
  | data value =>
      have hwire : (Item.data value).wire = double value := by
        rw [Item.wire, escape_eq, List.flatMap_cons, List.flatMap_nil, List.append_nil]
      rw [hwire, double]
      split <;> simp [Item.payload, Phase.decode, Phase.Emits]
  | command bare =>
      have hdata : Phase.data.Emits bare.code := bare.ne.1
      rw [Item.wire, List.tail_cons, Phase.decode_of_emits hdata]
      simp [Item.payload]
  | negotiation verb option =>
      have hdata : Phase.data.Emits verb.code := verb.ne.1
      rw [Item.wire, List.tail_cons, Phase.decode_of_emits hdata]
      simp [Item.payload]
  | subnegotiation content =>
      have hdata : Phase.data.Emits telnetSB := by decide
      rw [Item.wire, List.append_assoc, List.cons_append, List.tail_cons, List.cons_append,
        Phase.decode_of_emits hdata]
      simp [Item.payload]

theorem exists_swallowed {items : List Item} (h : ¬ BareOnlyLast items) :
    ∃ before, before <+: items ∧ Phase.data.decode (wire before) ≠ payload before := by
  induction items with
  | nil => exact absurd (by simp [BareOnlyLast]) h
  | cons item items ih =>
      by_cases hbare : item.isBare = false
      · have hrest : ¬ BareOnlyLast items := by
          intro hitems
          refine h fun i hi => ?_
          cases items with
          | nil => simp at hi
          | cons next items =>
              rw [List.dropLast_cons_cons] at hi
              rcases List.mem_cons.mp hi with rfl | hi
              · exact hbare
              · exact hitems i hi
        obtain ⟨before, hprefix, hne⟩ := ih hrest
        refine ⟨item :: before, (List.prefix_cons_inj item).mpr hprefix, ?_⟩
        rw [wire, payload, List.flatMap_cons, List.flatMap_cons, decode_item hbare]
        exact fun heq => hne (List.append_cancel_left heq)
      · cases items with
        | nil => exact absurd (by simp [BareOnlyLast]) h
        | cons next items =>
            refine ⟨[item, next], ⟨items, rfl⟩, ?_⟩
            cases item with
            | command bare =>
                have hswallowed := decode_bare bare next.wire
                simpa [wire, payload, Item.payload, hswallowed] using decode_tail_ne next
            | _ => exact absurd rfl hbare

theorem Conn.write_sent (data : List UInt8) (w : Conn) (h : (w.write data).1 = .ok data.length) :
    (w.write data).2.sent = w.sent ++ [escapeTelnetPayload data] := by
  unfold write writeAll at *
  split at h
  · cases h
  · rename_i hw
    split at hw <;> cases hw
    rfl

/-- Every part of the stream that has arrived is read as its data bytes exactly if no command
without an option stands before another item; what `Write` sends is always read back. -/
theorem framing_iff (items : List Item) :
    ((∀ before, before <+: items → ∀ c : Conn, c.pending = wire before →
      c.Delivers (payload before)) ↔ BareOnlyLast items) ∧
    ∀ (data : List UInt8) (w : Conn), (w.write data).1 = .ok data.length →
      ∃ bytes, (w.write data).2.sent = w.sent ++ [bytes] ∧
        ∀ c : Conn, c.pending = bytes → c.Delivers data := by
  refine ⟨⟨fun h => ?_, fun h before hbefore c hc => ?_⟩, fun data w hw => ?_⟩
  · by_contra hbare
    obtain ⟨before, hbefore, hne⟩ := exists_swallowed hbare
    have hread := h before hbefore ⟨wire before, [], .eof, [], [], []⟩ (List.append_nil _)
    rw [Conn.delivers_iff] at hread
    exact hne (by simpa [Conn.pending] using hread)
  · rw [Conn.delivers_iff, hc]
    exact decode_wire (h.of_prefix hbefore)
  · refine ⟨escapeTelnetPayload data, Conn.write_sent data w hw, fun c hc => ?_⟩
    have hdecode := decode_escape data []
    rw [List.append_nil, Phase.decode_nil, List.append_nil] at hdecode
    rw [Conn.delivers_iff, hc, hdecode]

/-- GA, then the byte of an `a`. -/
def afterGoAhead : List Item := [.command ⟨249, by decide⟩, .data 97]

/-- The `a` is taken for the option of GA. -/
theorem data_after_go_ahead_is_lost :
    payload afterGoAhead = [97] ∧
      ∃ c : Conn, c.pending = wire afterGoAhead ∧ (c.reads [1, 1, 1]).1 = [] ∧
        ¬ c.Delivers (payload afterGoAhead) := by
  let c : Conn := ⟨[], [⟨255, [249, 97]⟩], .eof, [], [], []⟩
  have hdecode : Phase.data.decode c.pending = [] := by decide
  refine ⟨rfl, c, by decide, ?_, ?_⟩
  · have hreads := Conn.reads_decode [1, 1, 1] c
    rw [hdecode] at hreads
    exact (List.append_eq_nil_iff.mp hreads.symm).1
  · rw [Conn.delivers_iff, hdecode]
    decide

end Dolgate.Rfc2217
