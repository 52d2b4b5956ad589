import Dolgate.Rfc2217Phases

set_option autoImplicit false

namespace Dolgate.Rfc2217

namespace Phase

def Replies (p : Phase) : Prop := p = .option telnetDO ∨ p = .option telnetWILL

instance (p : Phase) : Decidable p.Replies := inferInstanceAs (Decidable (_ ∨ _))

def after : Phase → List UInt8 → Phase
  | p, [] => p
  | p, b :: rest => (p.next b).after rest

def Refused : Phase → List (Option NetError) → List UInt8 → Prop
  | _, _, [] => False
  | p, answers, b :: rest =>
      if p.Replies then
        (∃ e, answers.head? = some (some e)) ∨ (p.next b).Refused answers.tail rest
      else (p.next b).Refused answers rest

instance (answers : List (Option NetError)) : Decidable (∃ e, answers.head? = some (some e)) :=
  decidable_of_iff (answers.head?.join.isSome = true) (by
    rw [Option.isSome_iff_exists]
    simp only [Option.join_eq_some_iff])

instance decidableRefused : (p : Phase) → (answers : List (Option NetError)) →
    (bytes : List UInt8) → Decidable (p.Refused answers bytes)
  | _, _, [] => inferInstanceAs (Decidable False)
  | p, answers, b :: rest =>
      let _ := decidableRefused (p.next b) answers.tail rest
      let _ := decidableRefused (p.next b) answers rest
      inferInstanceAs (Decidable (if p.Replies then _ else _))

def unanswered : Phase → List (Option NetError) → List UInt8 → List (Option NetError)
  | _, answers, [] => answers
  | p, answers, b :: rest =>
      (p.next b).unanswered (if p.Replies then answers.tail else answers) rest

/-- The first of the arrivals that completes a data byte has `size` of them, unless an answer fails
to be written before it is used up. -/
def FirstFills (size : Nat) : Phase → List (Option NetError) → List (List UInt8) → Prop
  | _, _, [] => True
  | p, answers, bytes :: more =>
      p.Refused answers bytes ∨
        if p.decode bytes = [] then
          FirstFills size (p.after bytes) (p.unanswered answers bytes) more
        else size ≤ (p.decode bytes).length

instance decidableFirstFills (size : Nat) : (p : Phase) → (answers : List (Option NetError)) →
    (arrivals : List (List UInt8)) → Decidable (p.FirstFills size answers arrivals)
  | _, _, [] => inferInstanceAs (Decidable True)
  | p, answers, bytes :: more =>
      let _ := decidableFirstFills size (p.after bytes) (p.unanswered answers bytes) more
      inferInstanceAs (Decidable (p.Refused answers bytes ∨
        if p.decode bytes = [] then
          FirstFills size (p.after bytes) (p.unanswered answers bytes) more
        else size ≤ (p.decode bytes).length))

end Phase

namespace Conn

def arrivals (c : Conn) : List (List UInt8) := c.buffered :: c.arriving.map SocketRead.bytes

def asked (c c' : Conn) : List Nat := c'.issued.drop c.issued.length

def Withholds (c : Conn) (size : Nat) : Prop := ∃ held ∈ c.asked (c.read size).2, held ≠ 0

variable {size held : Nat} {p : Phase} {out : List UInt8} {b : UInt8} {c c₁ c₂ : Conn}
  {e : NetError}

theorem writeAll_answers (bytes : List UInt8) (c : Conn) :
    (∀ e, (c.writeAll bytes).1 = some e ↔ c.answers.head? = some (some e)) ∧
      (c.writeAll bytes).2.answers = c.answers.tail ∧
      (c.writeAll bytes).2.buffered = c.buffered ∧ (c.writeAll bytes).2.arriving = c.arriving ∧
      (c.writeAll bytes).2.issued = c.issued := by
  unfold writeAll
  split
  · rename_i h
    simp [h]
  · rename_i h
    refine ⟨fun e => ?_, rfl, rfl, rfl, rfl⟩
    cases hanswers : c.answers with
    | nil => simp
    | cons answer answers =>
        cases answer with
        | none => simp
        | some e => exact absurd hanswers (h e answers)

theorem reply_of_replies (h : p.Replies) (b : UInt8) (c : Conn) :
    ∃ bytes, c.reply p b = c.writeAll bytes := by
  rcases h with rfl | rfl
  · simp only [reply, answerOption, sendNegotiation, if_true]
    split <;> exact ⟨_, rfl⟩
  · simp only [reply, answerOption, sendNegotiation, show telnetWILL ≠ telnetDO by decide,
      if_false, if_true]
    split <;> exact ⟨_, rfl⟩

theorem reply_of_not_replies (h : ¬ p.Replies) (b : UInt8) (c : Conn) :
    c.reply p b = (none, c) := by
  cases p with
  | option command =>
      rw [Phase.Replies, Phase.option.injEq, Phase.option.injEq, not_or] at h
      simp only [reply, answerOption, h.1, h.2, if_false]
  | _ => rfl

theorem reply_frame {err : Option NetError} (h : c.reply p b = (err, c₁)) :
    c₁.buffered = c.buffered ∧ c₁.arriving = c.arriving ∧ c₁.issued = c.issued := by
  by_cases hp : p.Replies
  · obtain ⟨bytes, hbytes⟩ := reply_of_replies hp b c
    have hwrite := (writeAll_answers bytes c).2.2
    rwa [← hbytes, h] at hwrite
  · rw [reply_of_not_replies hp] at h
    cases h
    exact ⟨rfl, rfl, rfl⟩

theorem refused_of_reply (h : c.reply p b = (some e, c₁)) (rest : List UInt8) :
    p.Refused c.answers (b :: rest) := by
  by_cases hp : p.Replies
  · obtain ⟨bytes, hbytes⟩ := reply_of_replies hp b c
    have hwrite := (writeAll_answers bytes c).1 e
    rw [← hbytes, h] at hwrite
    rw [Phase.Refused, if_pos hp]
    exact .inl ⟨e, hwrite.mp rfl⟩
  · rw [reply_of_not_replies hp] at h
    cases h

theorem answers_of_reply (h : c.reply p b = (none, c₁)) (rest : List UInt8) :
    (p.Refused c.answers (b :: rest) ↔ (p.next b).Refused c₁.answers rest) ∧
      p.unanswered c.answers (b :: rest) = (p.next b).unanswered c₁.answers rest := by
  rw [Phase.Refused, Phase.unanswered]
  by_cases hp : p.Replies
  · obtain ⟨bytes, hbytes⟩ := reply_of_replies hp b c
    have hwrite := writeAll_answers bytes c
    rw [← hbytes, h] at hwrite
    have hnone : ¬ ∃ e, c.answers.head? = some (some e) := by
      rintro ⟨e, he⟩
      cases (hwrite.1 e).mpr he
    rw [if_pos hp, if_pos hp, hwrite.2.1]
    exact ⟨or_iff_right hnone, rfl⟩
  · rw [reply_of_not_replies hp] at h
    cases h
    rw [if_neg hp, if_neg hp]
    exact ⟨Iff.rfl, rfl⟩

theorem readByte_cases (hv : c.readByte held = (.ok b, c₁)) :
    c₁.answers = c.answers ∧
      (c.buffered = b :: c₁.buffered ∧ c₁.arriving = c.arriving ∧ c₁.issued = c.issued ∨
        c.buffered = [] ∧ c.arriving = ⟨b, c₁.buffered⟩ :: c₁.arriving ∧
          c₁.issued = c.issued ++ [held]) := by
  unfold readByte at hv
  split at hv
  · cases hv
    exact ⟨rfl, .inl ⟨‹_›, rfl, rfl⟩⟩
  · split at hv <;> cases hv
    exact ⟨rfl, .inr ⟨‹_›, ‹_›, rfl⟩⟩

theorem readByte_exhausted (hv : c.readByte held = (.error e, c₁)) :
    c.buffered = [] ∧ c.arriving = [] ∧ c₁.issued = c.issued ++ [held] := by
  unfold readByte at hv
  split at hv
  · cases hv
  · split at hv <;> cases hv
    exact ⟨‹_›, ‹_›, rfl⟩

theorem scan_issued (size : Nat) (p : Phase) (out : List UInt8) (c : Conn) :
    c.issued <+: (c.scan size p out).2.issued := by
  fun_induction scan size p out c with
  | case1 p out c h => exact List.prefix_refl _
  | case2 p out c h e c₁ hv =>
      rw [(readByte_exhausted hv).2.2]
      exact List.prefix_append _ _
  | case3 p out c h b c₁ hv e c₂ hr =>
      rw [(reply_frame hr).2.2]
      rcases (readByte_cases hv).2 with ⟨-, -, hi⟩ | ⟨-, -, hi⟩
      · rw [hi]
      · rw [hi]
        exact List.prefix_append _ _
  | case4 p out c h b c₁ hv c₂ hr ih =>
      refine List.IsPrefix.trans ?_ ih
      rw [(reply_frame hr).2.2]
      rcases (readByte_cases hv).2 with ⟨-, -, hi⟩ | ⟨-, -, hi⟩
      · rw [hi]
      · rw [hi]
        exact List.prefix_append _ _

theorem asked_self (h : c₁.issued = c.issued) : c.asked c₁ = [] := by
  rw [asked, h, List.drop_length]

theorem asked_one (h : c₁.issued = c.issued ++ [held]) : c.asked c₁ = [held] := by
  rw [asked, h, List.drop_left]

theorem byte_cases {err : Option NetError} (hv : c.readByte held = (.ok b, c₁))
    (hr : c₁.reply p b = (err, c₂)) {c' : Conn} (hc' : c₂.issued <+: c'.issued) :
    c.buffered = b :: c₂.buffered ∧ c.arriving = c₂.arriving ∧ c.asked c' = c₂.asked c' ∨
      c.buffered = [] ∧ c.arriving = ⟨b, c₂.buffered⟩ :: c₂.arriving ∧
        c.asked c' = held :: c₂.asked c' := by
  obtain ⟨hbuf, harr, hiss⟩ := reply_frame hr
  rcases (readByte_cases hv).2 with ⟨hb, ha, hi⟩ | ⟨hb, ha, hi⟩
  · exact .inl ⟨by rw [hb, hbuf], by rw [← ha, harr], by rw [asked, asked, hiss, hi]⟩
  · refine .inr ⟨hb, by rw [ha, hbuf, harr], ?_⟩
    obtain ⟨more, hmore⟩ := hc'
    rw [asked, asked, ← hmore, hiss, hi, List.drop_left, List.append_assoc, List.drop_left,
      List.singleton_append]

theorem emits_next (h : p.Emits b) : p.next b = .data := by
  cases p with
  | data => exact if_neg h
  | command => exact if_pos h
  | _ => exact h.elim

theorem decode_length_cons (p : Phase) (out : List UInt8) (b : UInt8) (rest : List UInt8) :
    out.length + (p.decode (b :: rest)).length =
      (keep p out b).length + ((p.next b).decode rest).length := by
  by_cases h : p.Emits b
  · rw [keep_of_emits h, Phase.decode, if_pos h, List.length_append, List.length_cons,
      List.length_singleton]
    omega
  · rw [keep_of_not_emits h, Phase.decode, if_neg h]

def Suffices (size : Nat) (p : Phase) (out : List UInt8) (c : Conn) : Prop :=
  p.Refused c.answers c.buffered ∨ size ≤ out.length + (p.decode c.buffered).length

theorem not_suffices (hb : c.buffered = []) (hlt : out.length < size) :
    ¬ Suffices size p out c := by
  rw [Suffices, hb, Phase.Refused, Phase.decode, false_or, List.length_nil]
  omega

theorem room_of_open (hroom : out.length < size ∨ p = .data)
    (h : ¬ (p = .data ∧ size ≤ out.length)) : out.length < size := by
  rcases hroom with hlt | hp
  · exact hlt
  · exact not_le.mp fun hle => h ⟨hp, hle⟩

theorem keep_ne_nil (hout : out ≠ []) (p : Phase) (b : UInt8) : keep p out b ≠ [] := by
  rw [keep_eq]
  simp [hout]

theorem keep_room (hlt : out.length < size) (p : Phase) (b : UInt8) :
    (keep p out b).length < size ∨ p.next b = .data := by
  by_cases h : p.Emits b
  · exact .inr (emits_next h)
  · exact .inl (by rwa [keep_of_not_emits h])

theorem scan_holding (size : Nat) (p : Phase) (out : List UInt8) (c : Conn) (hout : out ≠ [])
    (hroom : out.length < size ∨ p = .data) :
    (∀ n ∈ c.asked (c.scan size p out).2, n = 0) ↔ Suffices size p out c := by
  fun_induction scan size p out c with
  | case1 p out c h =>
      simp only [asked_self rfl, List.not_mem_nil, false_implies, implies_true, true_iff]
      exact .inr (h.2.trans (Nat.le_add_right _ _))
  | case2 p out c h e c₁ hv =>
      obtain ⟨hb, -, hi⟩ := readByte_exhausted hv
      have hnot := not_suffices (p := p) hb (room_of_open hroom h)
      simp [asked_one hi, hnot, hout]
  | case3 p out c h b c₁ hv e c₂ hr =>
      rcases byte_cases hv hr (List.prefix_refl _) with ⟨hb, -, ha⟩ | ⟨hb, -, ha⟩
      · simp only [ha, asked_self rfl, List.not_mem_nil, false_implies, implies_true, true_iff]
        have hrefused := refused_of_reply hr c₂.buffered
        rw [(readByte_cases hv).1, ← hb] at hrefused
        exact .inl hrefused
      · have hnot := not_suffices (p := p) hb (room_of_open hroom h)
        simp [ha, hnot, hout]
  | case4 p out c h b c₁ hv c₂ hr ih =>
      have hlt := room_of_open hroom h
      rcases byte_cases hv hr (scan_issued _ _ _ _) with ⟨hb, -, ha⟩ | ⟨hb, -, ha⟩
      · rw [ha, ih (keep_ne_nil hout p b) (keep_room hlt p b), Suffices, Suffices, hb,
          ← (readByte_cases hv).1, (answers_of_reply hr c₂.buffered).1, decode_length_cons]
      · have hnot := not_suffices (p := p) hb hlt
        simp [ha, hnot, hout]

theorem firstFills_nil (size : Nat) (p : Phase) (answers : List (Option NetError))
    (more : List (List UInt8)) :
    p.FirstFills size answers ([] :: more) ↔ p.FirstFills size answers more := by
  rw [Phase.FirstFills, Phase.Refused, Phase.decode, if_pos rfl, false_or]
  rfl

theorem firstFills_zero (p : Phase) (answers : List (Option NetError))
    (more : List (List UInt8)) : p.FirstFills 0 answers more := by
  induction more generalizing p answers with
  | nil => trivial
  | cons bytes more ih =>
      rw [Phase.FirstFills]
      refine .inr ?_
      split
      · exact ih _ _
      · exact Nat.zero_le _

theorem firstFills_arrivals {answers : List (Option NetError)}
    (h : c.buffered = b :: c₂.buffered ∧ c.arriving = c₂.arriving ∨
      c.buffered = [] ∧ c.arriving = ⟨b, c₂.buffered⟩ :: c₂.arriving) :
    p.FirstFills size answers c.arrivals ↔
      p.FirstFills size answers
        ((b :: c₂.buffered) :: c₂.arriving.map SocketRead.bytes) := by
  rcases h with ⟨hb, ha⟩ | ⟨hb, ha⟩
  · rw [arrivals, hb, ha]
  · rw [arrivals, hb, ha, firstFills_nil, List.map_cons, SocketRead.bytes]

theorem asked_zero {c' : Conn} (h : c.asked c' = c₂.asked c' ∨ c.asked c' = 0 :: c₂.asked c') :
    (∀ n ∈ c.asked c', n = 0) ↔ ∀ n ∈ c₂.asked c', n = 0 := by
  rcases h with h | h <;> simp [h]

theorem firstFills_quiet (h : ¬ p.Emits b) (hr : c.reply p b = (none, c₂)) (rest : List UInt8)
    (more : List (List UInt8)) :
    p.FirstFills size c.answers ((b :: rest) :: more) ↔
      (p.next b).FirstFills size c₂.answers (rest :: more) := by
  have hanswers := answers_of_reply hr rest
  rw [Phase.FirstFills, Phase.FirstFills, hanswers.1, hanswers.2, Phase.decode, if_neg h]
  rfl

theorem firstFills_emits (h : p.Emits b) (hr : c.reply p b = (none, c₂))
    (more : List (List UInt8)) :
    p.FirstFills size c.answers ((b :: c₂.buffered) :: more) ↔
      Suffices size (p.next b) [b] c₂ := by
  have hne : p.decode (b :: c₂.buffered) ≠ [] := by
    rw [Phase.decode, if_pos h]
    exact List.cons_ne_nil _ _
  have hlen := decode_length_cons p [] b c₂.buffered
  rw [List.length_nil, Nat.zero_add, keep_of_emits h, List.nil_append] at hlen
  rw [Phase.FirstFills, if_neg hne, (answers_of_reply hr c₂.buffered).1, hlen, Suffices]

/-- A call without data in hand leaves it at that exactly if the first arrival with a data byte
has enough of them. -/
theorem scan_empty (size : Nat) (p : Phase) (c : Conn) (hroom : 0 < size ∨ p = .data) :
    (∀ n ∈ c.asked (c.scan size p []).2, n = 0) ↔ p.FirstFills size c.answers c.arrivals := by
  generalize hout : ([] : List UInt8) = out
  fun_induction scan size p out c with
  | case1 p out c h =>
      subst hout
      obtain rfl : size = 0 := Nat.le_zero.mp h.2
      simp [asked_self, firstFills_zero]
  | case2 p out c h e c₁ hv =>
      subst hout
      obtain ⟨hb, harr, hi⟩ := readByte_exhausted hv
      simp [asked_one hi, arrivals, hb, harr, firstFills_nil, Phase.FirstFills]
  | case3 p out c h b c₁ hv e c₂ hr =>
      subst hout
      have hbyte := byte_cases hv hr (List.prefix_refl _)
      have hrefused := refused_of_reply hr c₂.buffered
      rw [(readByte_cases hv).1] at hrefused
      rw [asked_zero (hbyte.imp (·.2.2) (·.2.2)),
        firstFills_arrivals (hbyte.imp (fun h => ⟨h.1, h.2.1⟩) fun h => ⟨h.1, h.2.1⟩),
        Phase.FirstFills]
      simp [asked_self, hrefused]
  | case4 p out c h b c₁ hv c₂ hr ih =>
      subst hout
      have hbyte := byte_cases hv hr (scan_issued size (p.next b) (keep p [] b) c₂)
      have hopen : ([] : List UInt8).length < size := room_of_open hroom h
      rw [asked_zero (hbyte.imp (·.2.2) (·.2.2)),
        firstFills_arrivals (hbyte.imp (fun h => ⟨h.1, h.2.1⟩) fun h => ⟨h.1, h.2.1⟩),
        ← (readByte_cases hv).1]
      by_cases hemits : p.Emits b
      · rw [firstFills_emits hemits hr, keep_of_emits hemits]
        exact scan_holding size (p.next b) [b] c₂ (List.cons_ne_nil _ _)
          (.inr (emits_next hemits))
      · rw [firstFills_quiet hemits hr]
        have hkeep : keep p [] b = [] := keep_of_not_emits hemits []
        exact ih (.inl hopen) hkeep.symm

end Conn

/-- A call never reads the socket with data in hand exactly if the first arrival that completes a
data byte has enough to fill the caller's buffer. -/
theorem withholds_iff (c : Conn) (size : Nat) :
    ¬ c.Withholds size ↔ Phase.data.FirstFills size c.answers c.arrivals := by
  rw [← Conn.scan_empty size .data c (.inr rfl), ← Conn.read_eq_scan, Conn.Withholds]
  simp

/-- A prompt comes in and then nothing: it is not returned before the socket is read again. -/
theorem prompt_is_withheld :
    Conn.Withholds ⟨[], [⟨36, [32]⟩], .eof, [], [], []⟩ 4096 := by
  by_contra h
  simp only [Conn.Withholds, not_exists, not_and, not_not, Conn.read_eq_scan,
    Conn.scan_empty 4096 .data _ (.inr rfl)] at h
  revert h
  decide

end Dolgate.Rfc2217
