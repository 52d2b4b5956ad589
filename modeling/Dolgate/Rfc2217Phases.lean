import Mathlib

set_option autoImplicit false

namespace Dolgate.Rfc2217

def telnetSE : UInt8 := 240
def telnetSB : UInt8 := 250
def telnetWILL : UInt8 := 251
def telnetWONT : UInt8 := 252
def telnetDO : UInt8 := 253
def telnetDONT : UInt8 := 254
def telnetIAC : UInt8 := 255

def telnetBinaryOption : UInt8 := 0
def comPortOption : UInt8 := 44

inductive NetError where
  | eof
  | timeout
  | failed
deriving DecidableEq, Repr

structure SocketRead where
  first : UInt8
  rest : List UInt8
deriving DecidableEq, Repr

def SocketRead.bytes (r : SocketRead) : List UInt8 := r.first :: r.rest

/-- `buffered` is what the `bufio.Reader` holds, `arriving` what the socket reads to come return and
`ending` what they return after that. `answers` tells how the writes to come end; all after them
succeed. `issued` has, for each read of the socket, the number of data bytes that the call held. -/
structure Conn where
  buffered : List UInt8
  arriving : List SocketRead
  ending : NetError
  answers : List (Option NetError)
  sent : List (List UInt8)
  issued : List Nat
deriving DecidableEq, Repr

namespace Conn

def pending (c : Conn) : List UInt8 := c.buffered ++ c.arriving.flatMap SocketRead.bytes

/-- `ReadByte` of the `bufio.Reader`. -/
def readByte (held : Nat) (c : Conn) : Except NetError UInt8 × Conn :=
  match c.buffered with
  | value :: rest => (.ok value, { c with buffered := rest })
  | [] =>
      match c.arriving with
      | [] => (.error c.ending, { c with issued := c.issued ++ [held] })
      | r :: more =>
          (.ok r.first,
            { c with buffered := r.rest, arriving := more, issued := c.issued ++ [held] })

def writeAll (bytes : List UInt8) (c : Conn) : Option NetError × Conn :=
  match c.answers with
  | some e :: answers => (some e, { c with answers := answers })
  | _ => (none, { c with answers := c.answers.tail, sent := c.sent ++ [bytes] })

def sendNegotiation (command option : UInt8) (c : Conn) : Option NetError × Conn :=
  c.writeAll [telnetIAC, command, option]

theorem readByte_pending {held : Nat} {c c' : Conn} {value : UInt8}
    (h : c.readByte held = (.ok value, c')) : c.pending = value :: c'.pending := by
  unfold readByte at h
  split at h
  · cases h
    simp [pending, *]
  · split at h <;> cases h
    simp [pending, SocketRead.bytes, *]

theorem readByte_length {held : Nat} {c c' : Conn} {value : UInt8}
    (h : c.readByte held = (.ok value, c')) : c'.pending.length < c.pending.length := by
  rw [readByte_pending h, List.length_cons]
  exact Nat.lt_succ_self _

def discardSubnegotiation (held : Nat) (c : Conn) : Option NetError × Conn :=
  match _ : c.readByte held with
  | (.error e, c₁) => (some e, c₁)
  | (.ok value, c₁) =>
      if value ≠ telnetIAC then discardSubnegotiation held c₁
      else
        match _ : c₁.readByte held with
        | (.error e, c₂) => (some e, c₂)
        | (.ok next, c₂) =>
            if next = telnetIAC then discardSubnegotiation held c₂
            else if next = telnetSE then (none, c₂)
            else discardSubnegotiation held c₂
termination_by c.pending.length
decreasing_by
  · exact readByte_length ‹c.readByte held = _›
  all_goals
    exact (readByte_length ‹c₁.readByte held = _›).trans (readByte_length ‹c.readByte held = _›)

/-- The switch of `readTelnetCommand`: what is answered to an option. -/
def answerOption (command option : UInt8) (c : Conn) : Option NetError × Conn :=
  if command = telnetDO then
    if option = comPortOption ∨ option = telnetBinaryOption then
      c.sendNegotiation telnetWILL option
    else c.sendNegotiation telnetWONT option
  else if command = telnetWILL then
    if option = comPortOption ∨ option = telnetBinaryOption then c.sendNegotiation telnetDO option
    else c.sendNegotiation telnetDONT option
  else (none, c)

/-- Takes what `IAC` escapes: a data byte, or a command that is dealt with. -/
def readTelnetCommand (held : Nat) (c : Conn) : Except NetError (Option UInt8) × Conn :=
  match c.readByte held with
  | (.error e, c₁) => (.error e, c₁)
  | (.ok command, c₁) =>
      if command = telnetIAC then (.ok (some telnetIAC), c₁)
      else if command = telnetSB then
        match c₁.discardSubnegotiation held with
        | (some e, c₂) => (.error e, c₂)
        | (none, c₂) => (.ok none, c₂)
      else
        match c₁.readByte held with
        | (.error e, c₂) => (.error e, c₂)
        | (.ok option, c₂) =>
            match c₂.answerOption command option with
            | (some e, c₃) => (.error e, c₃)
            | (none, c₃) => (.ok none, c₃)

def stopped (out : List UInt8) (e : NetError) : List UInt8 × Option NetError :=
  (out, if e = .timeout ∧ out ≠ [] then none else some e)

theorem writeAll_pending (bytes : List UInt8) (c : Conn) :
    (c.writeAll bytes).2.pending = c.pending := by
  unfold writeAll
  split <;> rfl

theorem answerOption_pending (command option : UInt8) (c : Conn) :
    (c.answerOption command option).2.pending = c.pending := by
  unfold answerOption
  split_ifs <;> first | exact writeAll_pending _ c | rfl

theorem readByte_error {held : Nat} {c c' : Conn} {e : NetError}
    (h : c.readByte held = (.error e, c')) : c.pending = [] ∧ c'.pending = [] := by
  unfold readByte at h
  split at h
  · cases h
  · split at h <;> cases h
    simp [pending, *]

theorem discardSubnegotiation_length (held : Nat) (c : Conn) :
    (c.discardSubnegotiation held).2.pending.length ≤ c.pending.length := by
  fun_induction discardSubnegotiation held c with
  | case1 c e c₁ hv => simp [(readByte_error hv).2]
  | case2 c value c₁ hv hne ih => exact ih.trans (readByte_length hv).le
  | case3 c value c₁ hv _ e c₂ hn => simp [(readByte_error hn).2]
  | case4 c value c₁ hv _ c₂ hn ih =>
      exact ih.trans ((readByte_length hn).trans (readByte_length hv)).le
  | case5 c value c₁ hv _ c₂ hn =>
      exact ((readByte_length hn).trans (readByte_length hv)).le
  | case6 c value c₁ hv _ next c₂ hn _ _ ih =>
      exact ih.trans ((readByte_length hn).trans (readByte_length hv)).le

theorem readTelnetCommand_length (held : Nat) (c : Conn) :
    (c.readTelnetCommand held).2.pending.length ≤ c.pending.length := by
  fun_cases readTelnetCommand held c with
  | case1 e c₁ hv => simp [(readByte_error hv).2]
  | case2 c₁ hv => exact (readByte_length hv).le
  | case3 c₁ e c₂ hd hv =>
      have hlen := discardSubnegotiation_length held c₁
      rw [hd] at hlen
      exact hlen.trans (readByte_length hv).le
  | case4 c₁ c₂ hd hv =>
      have hlen := discardSubnegotiation_length held c₁
      rw [hd] at hlen
      exact hlen.trans (readByte_length hv).le
  | case5 command c₁ hv _ _ e c₂ ho => simp [(readByte_error ho).2]
  | case6 command c₁ hv _ _ option c₂ ho e c₃ ha =>
      have hanswer := answerOption_pending command option c₂
      rw [ha] at hanswer
      exact hanswer ▸ ((readByte_length ho).trans (readByte_length hv)).le
  | case7 command c₁ hv _ _ option c₂ ho c₃ ha =>
      have hanswer := answerOption_pending command option c₂
      rw [ha] at hanswer
      exact hanswer ▸ ((readByte_length ho).trans (readByte_length hv)).le

theorem readTelnetCommand_lt {held : Nat} {c c₁ c₂ : Conn} {value : UInt8}
    {data : Except NetError (Option UInt8)} (hv : c.readByte held = (.ok value, c₁))
    (hd : c₁.readTelnetCommand held = (data, c₂)) : c₂.pending.length < c.pending.length := by
  have hlen := readTelnetCommand_length held c₁
  rw [hd] at hlen
  exact lt_of_le_of_lt hlen (readByte_length hv)

/-- The loop of `Read`, with the bytes stored in the buffer so far. -/
def readLoop (size : Nat) (out : List UInt8) (c : Conn) :
    (List UInt8 × Option NetError) × Conn :=
  if out.length < size then
    match _ : c.readByte out.length with
    | (.error e, c₁) => (stopped out e, c₁)
    | (.ok value, c₁) =>
        if value ≠ telnetIAC then readLoop size (out ++ [value]) c₁
        else
          match _ : c₁.readTelnetCommand out.length with
          | (.error e, c₂) => (stopped out e, c₂)
          | (.ok (some dataValue), c₂) => readLoop size (out ++ [dataValue]) c₂
          | (.ok none, c₂) => readLoop size out c₂
  else ((out, none), c)
termination_by c.pending.length
decreasing_by
  · exact readByte_length ‹c.readByte _ = _›
  all_goals
    exact readTelnetCommand_lt ‹c.readByte _ = _› ‹c₁.readTelnetCommand _ = _›

def read (size : Nat) (c : Conn) : (List UInt8 × Option NetError) × Conn :=
  if size = 0 then (([], none), c) else c.readLoop size []

end Conn

def escapeTelnetPayload (data : List UInt8) : List UInt8 :=
  if telnetIAC ∉ data then data
  else data.flatMap fun value => if value = telnetIAC then [value, telnetIAC] else [value]

/-- `Write`: the number of bytes taken. -/
def Conn.write (data : List UInt8) (c : Conn) : Except NetError Nat × Conn :=
  match c.writeAll (escapeTelnetPayload data) with
  | (some e, c) => (.error e, c)
  | (none, c) => (.ok data.length, c)

end Dolgate.Rfc2217

namespace Dolgate.Rfc2217

inductive Phase where
  | data
  | command
  | option (command : UInt8)
  | sub
  | subCommand
deriving DecidableEq, Repr

namespace Phase

def next : Phase → UInt8 → Phase
  | .data, b => if b = telnetIAC then .command else .data
  | .command, b =>
      if b = telnetIAC then .data else if b = telnetSB then .sub else .option b
  | .option _, _ => .data
  | .sub, b => if b = telnetIAC then .subCommand else .sub
  | .subCommand, b => if b = telnetSE then .data else .sub

def Emits : Phase → UInt8 → Prop
  | .data, b => b ≠ telnetIAC
  | .command, b => b = telnetIAC
  | _, _ => False

instance : (p : Phase) → (b : UInt8) → Decidable (p.Emits b)
  | .data, b => inferInstanceAs (Decidable (b ≠ telnetIAC))
  | .command, b => inferInstanceAs (Decidable (b = telnetIAC))
  | .option _, _ | .sub, _ | .subCommand, _ => inferInstanceAs (Decidable False)

def decode : Phase → List UInt8 → List UInt8
  | _, [] => []
  | p, b :: rest => if p.Emits b then b :: decode (p.next b) rest else decode (p.next b) rest

end Phase

namespace Conn

def reply : Phase → UInt8 → Conn → Option NetError × Conn
  | .option command, b, c => c.answerOption command b
  | _, _, c => (none, c)

def keep (p : Phase) (out : List UInt8) (b : UInt8) : List UInt8 :=
  if p.Emits b then out ++ [b] else out

theorem keep_of_emits {p : Phase} {b : UInt8} (h : p.Emits b) (out : List UInt8) :
    keep p out b = out ++ [b] :=
  if_pos h

theorem keep_of_not_emits {p : Phase} {b : UInt8} (h : ¬ p.Emits b) (out : List UInt8) :
    keep p out b = out :=
  if_neg h

theorem keep_eq (p : Phase) (out : List UInt8) (b : UInt8) :
    keep p out b = out ++ keep p [] b := by
  by_cases h : p.Emits b
  · rw [keep_of_emits h, keep_of_emits h, List.nil_append]
  · rw [keep_of_not_emits h, keep_of_not_emits h, List.append_nil]

theorem reply_pending (p : Phase) (b : UInt8) (c : Conn) : (c.reply p b).2.pending = c.pending := by
  cases p with
  | option command => exact answerOption_pending command b c
  | _ => rfl

theorem reply_lt {held : Nat} {p : Phase} {b : UInt8} {c c₁ c₂ : Conn} {err : Option NetError}
    (hv : c.readByte held = (.ok b, c₁)) (hr : reply p b c₁ = (err, c₂)) :
    c₂.pending.length < c.pending.length := by
  have hsame := reply_pending p b c₁
  rw [hr] at hsame
  rw [hsame]
  exact readByte_length hv

/-- `Read`, one byte at a time. -/
def scan (size : Nat) (p : Phase) (out : List UInt8) (c : Conn) :
    (List UInt8 × Option NetError) × Conn :=
  if p = .data ∧ size ≤ out.length then ((out, none), c)
  else
    match _ : c.readByte out.length with
    | (.error e, c₁) => (stopped out e, c₁)
    | (.ok b, c₁) =>
        match _ : c₁.reply p b with
        | (some e, c₂) => (stopped out e, c₂)
        | (none, c₂) => scan size (p.next b) (keep p out b) c₂
termination_by c.pending.length
decreasing_by exact reply_lt ‹c.readByte _ = _› ‹reply p b c₁ = _›

variable {size held : Nat} {p : Phase} {out : List UInt8} {b : UInt8} {c c₁ c₂ : Conn}
  {e : NetError}

variable (size) in
theorem scan_error (hp : ¬ (p = .data ∧ size ≤ out.length))
    (hv : c.readByte out.length = (.error e, c₁)) : c.scan size p out = (stopped out e, c₁) := by
  rw [scan, if_neg hp]
  split
  · rename_i h
    cases hv.symm.trans h
    rfl
  · rename_i h
    cases hv.symm.trans h

variable (size) in
theorem scan_refused (hp : ¬ (p = .data ∧ size ≤ out.length))
    (hv : c.readByte out.length = (.ok b, c₁)) (hr : c₁.reply p b = (some e, c₂)) :
    c.scan size p out = (stopped out e, c₂) := by
  rw [scan, if_neg hp]
  split
  · rename_i h
    cases hv.symm.trans h
  · rename_i h
    cases hv.symm.trans h
    split
    · rename_i h
      cases hr.symm.trans h
      rfl
    · rename_i h
      cases hr.symm.trans h

variable (size) in
theorem scan_next (hp : ¬ (p = .data ∧ size ≤ out.length))
    (hv : c.readByte out.length = (.ok b, c₁)) (hr : c₁.reply p b = (none, c₂)) :
    c.scan size p out = c₂.scan size (p.next b) (keep p out b) := by
  rw [scan, if_neg hp]
  split
  · rename_i h
    cases hv.symm.trans h
  · rename_i h
    cases hv.symm.trans h
    split
    · rename_i h
      cases hr.symm.trans h
    · rename_i h
      cases hr.symm.trans h
      rfl

theorem not_full_of_ne (hp : p ≠ .data) : ¬ (p = .data ∧ size ≤ out.length) := fun h => hp h.1

variable (size) in
theorem scan_sub_next (hv : c.readByte out.length = (.ok b, c₁)) :
    c.scan size .sub out = c₁.scan size (Phase.sub.next b) out :=
  scan_next size (not_full_of_ne (by simp)) hv rfl

theorem scan_subCommand_next (hv : c.readByte out.length = (.ok b, c₁)) :
    c.scan size .subCommand out = c₁.scan size (Phase.subCommand.next b) out :=
  scan_next size (not_full_of_ne (by simp)) hv rfl

theorem scan_sub (size : Nat) (out : List UInt8) (c : Conn) :
    (∀ c', c.discardSubnegotiation out.length = (none, c') →
      c.scan size .sub out = c'.scan size .data out) ∧
    ∀ e c', c.discardSubnegotiation out.length = (some e, c') →
      c.scan size .sub out = (stopped out e, c') := by
  fun_induction discardSubnegotiation out.length c with
  | case1 c e c₁ hv =>
      have hscan := scan_error size (not_full_of_ne (p := .sub) (by simp)) hv
      simp [hscan]
  | case2 c value c₁ hv hne ih =>
      have hscan := scan_sub_next size hv
      rw [Phase.next, if_neg hne] at hscan
      rwa [hscan]
  | case3 c value c₁ hv hiac e c₂ hn =>
      cases not_not.mp hiac
      have hscan := scan_sub_next size hv
      have hstop := scan_error size (not_full_of_ne (p := .subCommand) (by simp)) hn
      rw [Phase.next, if_pos rfl, hstop] at hscan
      simp [hscan]
  | case4 c value c₁ hv hiac c₂ hn ih =>
      cases not_not.mp hiac
      have hscan := scan_sub_next size hv
      rw [Phase.next, if_pos rfl, scan_subCommand_next hn, Phase.next, if_neg (by decide)] at hscan
      rwa [hscan]
  | case5 c value c₁ hv hiac c₂ hn =>
      cases not_not.mp hiac
      have hscan := scan_sub_next size hv
      rw [Phase.next, if_pos rfl, scan_subCommand_next hn, Phase.next, if_pos rfl] at hscan
      simp [hscan]
  | case6 c value c₁ hv hiac next c₂ hn _ hse ih =>
      cases not_not.mp hiac
      have hscan := scan_sub_next size hv
      rw [Phase.next, if_pos rfl, scan_subCommand_next hn, Phase.next, if_neg hse] at hscan
      rwa [hscan]

theorem scan_command (size : Nat) (out : List UInt8) (c : Conn) :
    (∀ c', c.readTelnetCommand out.length = (.ok none, c') →
      c.scan size .command out = c'.scan size .data out) ∧
    (∀ v c', c.readTelnetCommand out.length = (.ok (some v), c') →
      c.scan size .command out = c'.scan size .data (out ++ [v])) ∧
    ∀ e c', c.readTelnetCommand out.length = (.error e, c') →
      c.scan size .command out = (stopped out e, c') := by
  have hopen : ¬ (Phase.command = .data ∧ size ≤ out.length) := not_full_of_ne (by simp)
  fun_cases readTelnetCommand out.length c with
  | case1 e c₁ hv =>
      have hscan := scan_error size hopen hv
      simp [hscan]
  | case2 c₁ hv =>
      have hscan := scan_next size hopen hv rfl
      rw [Phase.next, if_pos rfl, keep_of_emits (p := .command) rfl] at hscan
      simp [hscan]
  | case3 c₁ e c₂ hd hv hne =>
      have hscan := scan_next size hopen hv rfl
      rw [Phase.next, if_neg hne, if_pos rfl, keep_of_not_emits (p := .command) hne] at hscan
      have hstop := (scan_sub size out c₁).2 e c₂ hd
      simp [hscan, hstop]
  | case4 c₁ c₂ hd hv hne =>
      have hscan := scan_next size hopen hv rfl
      rw [Phase.next, if_neg hne, if_pos rfl, keep_of_not_emits (p := .command) hne] at hscan
      have hgo := (scan_sub size out c₁).1 c₂ hd
      simp [hscan, hgo]
  | case5 command c₁ hv hne hsb e c₂ ho =>
      have hscan := scan_next size hopen hv rfl
      rw [Phase.next, if_neg hne, if_neg hsb, keep_of_not_emits (p := .command) hne] at hscan
      have hstop := scan_error size (not_full_of_ne (p := .option command) (by simp)) ho
      simp [hscan, hstop]
  | case6 command c₁ hv hne hsb option c₂ ho e c₃ ha =>
      have hscan := scan_next size hopen hv rfl
      rw [Phase.next, if_neg hne, if_neg hsb, keep_of_not_emits (p := .command) hne] at hscan
      have hstop := scan_refused size (not_full_of_ne (p := .option command) (by simp))
        ho ha
      simp [hscan, hstop]
  | case7 command c₁ hv hne hsb option c₂ ho c₃ ha =>
      have hscan := scan_next size hopen hv rfl
      rw [Phase.next, if_neg hne, if_neg hsb, keep_of_not_emits (p := .command) hne] at hscan
      have hgo := scan_next size (not_full_of_ne (p := .option command) (by simp)) ho ha
      rw [Phase.next, keep_of_not_emits id] at hgo
      simp [hscan, hgo]

theorem readLoop_eq_scan (size : Nat) (out : List UInt8) (c : Conn) :
    c.readLoop size out = c.scan size .data out := by
  fun_induction readLoop size out c with
  | case1 out c hlt e c₁ hv => exact (scan_error size (by simpa using hlt) hv).symm
  | case2 out c hlt value c₁ hv hne ih =>
      rw [ih, scan_next size (by simpa using hlt) hv rfl, Phase.next, if_neg hne,
        keep_of_emits (p := .data) hne]
  | case3 out c hlt value c₁ hv hiac e c₂ hd =>
      cases not_not.mp hiac
      rw [scan_next size (by simpa using hlt) hv rfl, Phase.next, if_pos rfl,
        keep_of_not_emits (p := .data) hiac]
      exact ((scan_command size out c₁).2.2 e c₂ hd).symm
  | case4 out c hlt value c₁ hv hiac v c₂ hd ih =>
      cases not_not.mp hiac
      rw [ih, scan_next size (by simpa using hlt) hv rfl, Phase.next, if_pos rfl,
        keep_of_not_emits (p := .data) hiac]
      exact ((scan_command size out c₁).2.1 v c₂ hd).symm
  | case5 out c hlt value c₁ hv hiac c₂ hd ih =>
      cases not_not.mp hiac
      rw [ih, scan_next size (by simpa using hlt) hv rfl, Phase.next, if_pos rfl,
        keep_of_not_emits (p := .data) hiac]
      exact ((scan_command size out c₁).1 c₂ hd).symm
  | case6 out c hge => rw [scan, if_pos ⟨rfl, not_lt.mp hge⟩]

theorem read_eq_scan (size : Nat) (c : Conn) : c.read size = c.scan size .data [] := by
  rw [read]
  split
  · rename_i h
    rw [scan, if_pos (by simp [h])]
  · exact readLoop_eq_scan size [] c

end Conn

end Dolgate.Rfc2217
