import Dolgate.HeaderFilter

set_option autoImplicit false

/-! The filter removes startup headers and nothing else. -/

namespace Dolgate.HeaderFilter

variable {bytes more : Bytes} {shown : List Nat}

theorem validFrom_append (index : Nat) (l l' : Bytes) :
    validFrom index (l ++ l') = (validFrom index l && validFrom (index + l.length) l') := by
  induction l generalizing index with
  | nil => simp [validFrom]
  | cons b l ih =>
    simp only [List.cons_append, validFrom, ih, List.length_cons, Bool.and_assoc]
    rw [Nat.add_assoc, Nat.add_comm 1]

theorem valid_of_append {l l' : Bytes} (h : valid (l ++ l') = true) : valid l = true := by
  rw [valid, validFrom_append, Bool.and_eq_true] at h
  exact h.1

theorem validFrom_digits {index : Nat} (hlow : 4 ≤ index) (hhigh : index + bytes.length ≤ 18) :
    validFrom index bytes = true ↔ ∀ b ∈ bytes, hexDigit b := by
  induction bytes generalizing index with
  | nil => simp [validFrom]
  | cons b bytes ih =>
    rw [List.length_cons] at hhigh
    have hnot : ¬ index < 4 := by omega
    have hdigit : index < 18 := by omega
    simp [validFrom, validAt, hnot, hdigit, @ih (index + 1) (by omega) (by omega),
      hexDigit]

theorem header_parts (h : bytes.length = 20) :
    ∃ (a b c d type₀ type₁ x y : UInt8) (digits : Bytes), digits.length = 12 ∧
      bytes = [a, b, c, d, type₀, type₁] ++ (digits ++ [x, y]) := by
  have hstart : (bytes.take 4).length = 4 := by rw [List.length_take]; omega
  have htype : ((bytes.drop 4).take 2).length = 2 := by
    rw [List.length_take, List.length_drop]
    omega
  have hend : (bytes.drop 18).length = 2 := by rw [List.length_drop]; omega
  obtain ⟨a, b, c, d, hstart⟩ := List.length_eq_four.mp hstart
  obtain ⟨type₀, type₁, htype⟩ := List.length_eq_two.mp htype
  obtain ⟨x, y, hend⟩ := List.length_eq_two.mp hend
  refine ⟨a, b, c, d, type₀, type₁, x, y, (bytes.drop 6).take 12, ?_, ?_⟩
  · rw [List.length_take, List.length_drop]
    omega
  · have hmiddle : bytes.drop 4 = (bytes.drop 4).take 2 ++ bytes.drop 6 := by
      conv_lhs => rw [← List.take_append_drop 2 (bytes.drop 4), List.drop_drop]
    have htail : bytes.drop 6 = (bytes.drop 6).take 12 ++ bytes.drop 18 := by
      conv_lhs => rw [← List.take_append_drop 12 (bytes.drop 6), List.drop_drop]
    calc bytes = bytes.take 4 ++ bytes.drop 4 := (List.take_append_drop 4 bytes).symm
      _ = [a, b, c, d] ++ ([type₀, type₁] ++ bytes.drop 6) := by rw [hmiddle, hstart, htype]
      _ = [a, b, c, d, type₀, type₁] ++ ((bytes.drop 6).take 12 ++ [x, y]) := by
        rw [← hend, ← htail]
        rfl

theorem hexDigit.ne_star {b : UInt8} (h : hexDigit b) : b ≠ 42 := by
  rintro rfl
  revert h
  decide

section Parts

variable {a b c d type₀ type₁ x y : UInt8} {digits : Bytes}

theorem valid_parts (h : digits.length = 12) :
    valid ([a, b, c, d, type₀, type₁] ++ (digits ++ [x, y])) = true ↔
      ([a, b, c, d] = [42, 42, 24, 66] ∧ hexDigit type₀ ∧ hexDigit type₁) ∧
        (∀ b ∈ digits, hexDigit b) ∧ ([x, y] = [13, 10] ∨ [x, y] = [13, 138]) := by
  have hstart : validFrom 0 [a, b, c, d, type₀, type₁] = true ↔
      [a, b, c, d] = [42, 42, 24, 66] ∧ hexDigit type₀ ∧ hexDigit type₁ := by
    simp [validFrom, validAt, headerPrefix, hexDigit, and_assoc]
  have hmiddle : validFrom 6 digits = true ↔ ∀ b ∈ digits, hexDigit b :=
    validFrom_digits (by omega) (by omega)
  have hend : validFrom 18 [x, y] = true ↔ [x, y] = [13, 10] ∨ [x, y] = [13, 138] := by
    simp [validFrom, validAt, and_or_left]
  rw [valid, validFrom_append, validFrom_append, Bool.and_eq_true, Bool.and_eq_true, h]
  exact and_congr hstart (and_congr hmiddle hend)

theorem startupHeader_parts (h : digits.length = 12) :
    StartupHeader ([a, b, c, d, type₀, type₁] ++ (digits ++ [x, y])) ↔
      [a, b, c, d] = [42, 42, 24, 66] ∧
        ([type₀, type₁] = [48, 48] ∨ [type₀, type₁] = [48, 49]) ∧
        (∀ b ∈ digits, hexDigit b) ∧ ([x, y] = [13, 10] ∨ [x, y] = [13, 138]) := by
  simp [StartupHeader, h]

end Parts

theorem startupHeader_iff (h : bytes.length = 20) :
    StartupHeader bytes ↔ valid bytes = true ∧ startup bytes = true := by
  obtain ⟨a, b, c, d, type₀, type₁, x, y, digits, hdigits, rfl⟩ := header_parts h
  have htype : ([type₀, type₁] = [48, 48] ∨ [type₀, type₁] = [48, 49]) →
      hexDigit type₀ ∧ hexDigit type₁ := by
    rintro (htype | htype)
    all_goals
      cases htype
      decide
  have hstartup : startup ([a, b, c, d, type₀, type₁] ++ (digits ++ [x, y])) = true ↔
      [type₀, type₁] = [48, 48] ∨ [type₀, type₁] = [48, 49] := by
    simp [startup, and_or_left]
  rw [startupHeader_parts hdigits, valid_parts hdigits, hstartup]
  constructor
  · rintro ⟨hfour, hstartupType, hdigit, hlast⟩
    exact ⟨⟨⟨hfour, htype hstartupType⟩, hdigit, hlast⟩, hstartupType⟩
  · rintro ⟨⟨⟨hfour, -⟩, hdigit, hlast⟩, hstartupType⟩
    exact ⟨hfour, hstartupType, hdigit, hlast⟩

theorem StartupHeader.length (h : StartupHeader bytes) : bytes.length = 20 := h.1

theorem StartupHeader.valid (h : StartupHeader bytes) : valid bytes = true :=
  ((startupHeader_iff h.length).mp h).1

/-! What is stripped -/

@[simp] theorem strip_nil (shown : List Nat) : strip shown [] = [] := by
  rw [strip]

theorem strip_text {byte : UInt8} (h : ¬ StartupHeader ((byte :: bytes).take 20)) :
    strip shown (byte :: bytes) = byte :: strip shown bytes := by
  rw [strip, if_neg h]

theorem strip_header {header : Bytes} (h : StartupHeader header) :
    strip shown (header ++ more) =
      header.take (shown.headD 0) ++ strip shown.tail (withoutXon more) := by
  have htake : (header ++ more).take 20 = header := List.take_left' h.length
  have hdrop : (header ++ more).drop 20 = more := List.drop_left' h.length
  cases header with
  | nil => cases h.length
  | cons b header =>
    rw [List.cons_append] at htake hdrop ⊢
    rw [strip, htake, if_pos h]
    rw [List.drop_succ_cons] at hdrop
    rw [hdrop]

theorem header_start (h : StartupHeader (bytes.take 20)) : bytes.take 4 = [42, 42, 24, 66] := by
  have hstart := h.2.1
  rwa [List.take_take] at hstart

theorem strip_not_star {byte : UInt8} (h : byte ≠ 42) :
    strip shown (byte :: bytes) = byte :: strip shown bytes := by
  refine strip_text fun hheader => h ?_
  have hstart := header_start hheader
  rw [List.take_succ_cons] at hstart
  exact (List.cons.inj hstart).1

theorem strip_plain (h : 42 ∉ bytes) : strip shown (bytes ++ more) = bytes ++ strip shown more := by
  induction bytes with
  | nil => rfl
  | cons b bytes ih =>
    rw [List.mem_cons, not_or] at h
    rw [List.cons_append, strip_not_star (Ne.symm h.1), ih h.2, List.cons_append]

theorem strip_short (h : bytes.length < 20) : strip shown bytes = bytes := by
  induction bytes with
  | nil => simp
  | cons b bytes ih =>
    rw [List.length_cons] at h
    rw [strip_text, ih (by omega)]
    intro hheader
    have hlength := hheader.length
    rw [List.length_take, List.length_cons] at hlength
    omega

theorem strip_invalid {byte : UInt8} (h : valid (byte :: bytes) = false)
    (hlength : bytes.length < 20) :
    strip shown (byte :: bytes ++ more) = byte :: strip shown (bytes ++ more) := by
  refine strip_text fun hheader => ?_
  have hvalid := hheader.valid
  have htake : (byte :: (bytes ++ more)).take 20 =
      (byte :: bytes) ++ more.take (20 - (byte :: bytes).length) := by
    rw [← List.cons_append, List.take_append, List.take_of_length_le]
    rw [List.length_cons]
    omega
  rw [List.append_eq, htake] at hvalid
  rw [valid_of_append hvalid] at h
  cases h

theorem strip_other (hvalid : valid bytes = true) (hlength : bytes.length = 20)
    (hother : startup bytes = false) :
    strip shown (bytes ++ more) = bytes ++ strip shown more := by
  have hnot : ¬ StartupHeader bytes := by
    rw [startupHeader_iff hlength, hother]
    simp
  have hstays : ¬ StartupHeader ((bytes ++ more).take 20) := by
    rwa [List.take_left' hlength]
  obtain ⟨a, b, c, d, type₀, type₁, x, y, digits, hdigits, rfl⟩ := header_parts hlength
  obtain ⟨⟨hfour, htype₀, htype₁⟩, hdigit, hlast⟩ := (valid_parts hdigits).mp hvalid
  cases hfour
  have hplain : 42 ∉ [24, 66, type₀, type₁] ++ (digits ++ [x, y]) := by
    simp only [List.cons_append, List.nil_append, List.mem_cons, List.mem_append, not_or]
    refine ⟨by decide, by decide, htype₀.ne_star.symm, htype₁.ne_star.symm, ?_, ?_⟩
    · exact fun hmem => (hdigit 42 hmem).ne_star rfl
    · rcases hlast with hlast | hlast
      all_goals
        cases hlast
        decide
  have hfirst : ¬ StartupHeader ((42 :: 42 :: ([24, 66, type₀, type₁] ++ (digits ++ [x, y]) ++
      more)).take 20) := hstays
  have hsecond : ¬ StartupHeader ((42 :: ([24, 66, type₀, type₁] ++ (digits ++ [x, y]) ++
      more)).take 20) := by
    intro hheader
    have hstart := header_start hheader
    simp at hstart
  calc strip shown (42 :: 42 :: ([24, 66, type₀, type₁] ++ (digits ++ [x, y]) ++ more))
      = 42 :: 42 :: strip shown ([24, 66, type₀, type₁] ++ (digits ++ [x, y]) ++ more) := by
        rw [strip_text hfirst, strip_text hsecond]
    _ = _ := by
        rw [strip_plain hplain]
        rfl

/-! What the matcher keeps account of -/

def Matcher.resume (m : Matcher) (more : Bytes) : Bytes :=
  if m.optionalXon then withoutXon more else m.pending ++ more

/-- The stream was stripped to `out` so far, and `written` is `out` with what is shown of the pending
bytes. -/
structure Accounts (written stream out : Bytes) (shown : List Nat) (m : Matcher) : Prop where
  written : written = out ++ m.pending.take m.displayedPrefix
  within : m.displayedPrefix ≤ m.pending.length
  stripped : ∀ (later : List Nat) (more : Bytes),
    strip (shown ++ later) (stream ++ more) = out ++ strip later (m.resume more)

def partly (shown : List Nat) (m : Matcher) : Nat :=
  shown.countP (0 < ·) + if 0 < m.displayedPrefix then 1 else 0

/-- In every run. The timer has fired `fired` times. -/
def Kept (written stream : Bytes) (fired : Nat) (m : Matcher) : Prop :=
  m.displayedPrefix ≤ 2 ∧ ∃ out shown, Accounts written stream out shown m ∧
    (∀ n ∈ shown, n ≤ 2) ∧ partly shown m ≤ fired

structure Matcher.Settled (m : Matcher) : Prop where
  valid : valid m.pending = true
  short : m.pending.length < 20
  xon : m.optionalXon = true → m.pending = []

variable {written stream : Bytes} {fired : Nat}

theorem settle_settled (pending : Bytes) (displayedPrefix : Nat) (h : pending.length ≤ 20) :
    (settle displayedPrefix pending).1.Settled := by
  induction pending generalizing displayedPrefix with
  | nil => exact ⟨rfl, Nat.succ_pos _, fun _ => rfl⟩
  | cons first rest ih =>
    have hrest : rest.length ≤ 20 := by
      rw [List.length_cons] at h
      omega
    rw [settle]
    split
    · split
      · exact ih _ hrest
      · exact ih _ hrest
    · next hvalid =>
      split
      · split
        · exact ⟨rfl, Nat.succ_pos _, fun _ => rfl⟩
        · exact ⟨rfl, Nat.succ_pos _, fun _ => rfl⟩
      · next hlength =>
        have hshort : (first :: rest).length < 20 := Nat.lt_of_le_of_ne h hlength
        exact ⟨by simpa using hvalid, hshort, fun hxon => by cases hxon⟩

section Settling

variable {first : UInt8} {rest out : Bytes} {displayedPrefix : Nat}

theorem Accounts.strip_first
    (h : Accounts written stream out shown { pending := first :: rest, displayedPrefix })
    (hinvalid : HeaderFilter.valid (first :: rest) = false) (hlength : rest.length < 20)
    (later : List Nat) (more : Bytes) :
    strip (shown ++ later) (stream ++ more) =
      (out ++ [first]) ++ strip later (({ pending := rest } : Matcher).resume more) := by
  rw [h.stripped, Matcher.resume, if_neg Bool.false_ne_true, strip_invalid hinvalid hlength]
  simp [Matcher.resume]

theorem Kept.drop_shown
    (h : Kept written stream fired { pending := first :: rest, displayedPrefix })
    (hinvalid : HeaderFilter.valid (first :: rest) = false) (hlength : rest.length < 20)
    (hdisplayed : displayedPrefix ≠ 0) :
    Kept written stream fired { pending := rest, displayedPrefix := displayedPrefix - 1 } := by
  obtain ⟨htwo, out, shown, haccounts, hshown, hpartly⟩ := h
  obtain ⟨n, rfl⟩ := Nat.exists_eq_succ_of_ne_zero hdisplayed
  refine ⟨Nat.le_of_succ_le htwo, out ++ [first], shown, ⟨?_, ?_, ?_⟩, hshown, ?_⟩
  · simp [haccounts.written]
  · have hwithin := haccounts.within
    simpa using hwithin
  · exact haccounts.strip_first hinvalid hlength
  · rw [partly, if_pos (Nat.succ_pos n)] at hpartly
    rw [partly]
    split <;> omega

theorem Kept.put_out (h : Kept written stream fired { pending := first :: rest })
    (hinvalid : HeaderFilter.valid (first :: rest) = false) (hlength : rest.length < 20) :
    Kept (written ++ [first]) stream fired { pending := rest } := by
  obtain ⟨htwo, out, shown, haccounts, hshown, hpartly⟩ := h
  refine ⟨htwo, out ++ [first], shown, ⟨?_, Nat.zero_le _, ?_⟩, hshown, hpartly⟩
  · simp [haccounts.written]
  · exact haccounts.strip_first hinvalid hlength

theorem Kept.delete {header : Bytes}
    (h : Kept written stream fired { pending := header, displayedPrefix })
    (hheader : StartupHeader header) : Kept written stream fired { optionalXon := true } := by
  obtain ⟨htwo, out, shown, haccounts, hshown, hpartly⟩ := h
  refine ⟨Nat.zero_le _, out ++ header.take displayedPrefix, shown ++ [displayedPrefix],
    ⟨?_, Nat.le_refl _, ?_⟩, ?_, ?_⟩
  · simp [haccounts.written]
  · intro later more
    rw [List.append_assoc, haccounts.stripped, Matcher.resume, if_neg Bool.false_ne_true,
      strip_header hheader]
    simp [Matcher.resume]
  · intro n hn
    rcases List.mem_append.mp hn with hn | hn
    · exact hshown n hn
    · rwa [List.mem_singleton.mp hn]
  · simpa [partly, List.countP_append, List.countP_singleton] using hpartly

theorem Kept.pass {header : Bytes}
    (h : Kept written stream fired { pending := header, displayedPrefix })
    (hvalid : HeaderFilter.valid header = true) (hlength : header.length = 20)
    (hother : startup header = false) :
    Kept (written ++ header.drop displayedPrefix) stream fired {} := by
  obtain ⟨htwo, out, shown, haccounts, hshown, hpartly⟩ := h
  refine ⟨Nat.zero_le _, out ++ header, shown, ⟨?_, Nat.le_refl _, ?_⟩, hshown, ?_⟩
  · simp [haccounts.written]
  · intro later more
    rw [haccounts.stripped, Matcher.resume, if_neg Bool.false_ne_true,
      strip_other hvalid hlength hother]
    simp [Matcher.resume]
  · exact Nat.le_trans (Nat.le_add_right _ _) hpartly

end Settling

theorem settle_kept (pending : Bytes) (displayedPrefix : Nat) (hlength : pending.length ≤ 20)
    (h : Kept written stream fired { pending, displayedPrefix }) :
    Kept (written ++ (settle displayedPrefix pending).2) stream fired
      (settle displayedPrefix pending).1 := by
  induction pending generalizing displayedPrefix written with
  | nil => simpa [settle] using h
  | cons first rest ih =>
    have hrest : rest.length < 20 := hlength
    rw [settle]
    split
    · next hinvalid =>
      split
      · next hdisplayed =>
        exact ih _ (Nat.le_of_lt hrest) (h.drop_shown hinvalid hrest hdisplayed)
      · next hdisplayed =>
        obtain rfl := not_not.mp hdisplayed
        have hrun := ih 0 (Nat.le_of_lt hrest) (h.put_out hinvalid hrest)
        rwa [List.append_assoc] at hrun
    · next hvalid =>
      rw [Bool.not_eq_false] at hvalid
      split
      · next htwenty =>
        split
        · next hstartup =>
          rw [List.append_nil]
          exact h.delete ((startupHeader_iff htwenty).mpr ⟨hvalid, hstartup⟩)
        · next hother => exact h.pass hvalid htwenty (by simpa using hother)
      · rwa [List.append_nil]

theorem scanByte_kept {m : Matcher} (byte : UInt8) (hsettled : m.Settled)
    (h : Kept written stream fired m) :
    Kept (written ++ (scanByte m byte).2) (stream ++ [byte]) fired (scanByte m byte).1 ∧
      (scanByte m byte).1.Settled := by
  obtain ⟨htwo, out, shown, ⟨hwritten, hwithin, hstripped⟩, hshown, hpartly⟩ := h
  rw [scanByte]
  split
  · next hxon =>
    have hpending := hsettled.xon hxon.1
    refine ⟨⟨htwo, out, shown, ⟨by simpa using hwritten, hwithin, ?_⟩, hshown, hpartly⟩,
      ⟨hsettled.valid, hsettled.short, by simp⟩⟩
    intro later more
    rw [List.append_assoc, hstripped]
    simp [Matcher.resume, hxon, withoutXon, hpending]
  · next hxon =>
    have hlength : (m.pending ++ [byte]).length ≤ 20 := by
      have := hsettled.short
      simp
      omega
    refine ⟨settle_kept _ _ hlength ⟨htwo, out, shown, ⟨?_, ?_, ?_⟩, hshown, hpartly⟩,
      settle_settled _ _ hlength⟩
    · rw [List.take_append_of_le_length hwithin]
      exact hwritten
    · simp
      omega
    · intro later more
      rw [List.append_assoc, hstripped, Matcher.resume, Matcher.resume]
      split
      · next hopt =>
        have hbyte : byte ≠ 17 := fun hbyte => hxon ⟨hopt, hbyte⟩
        simp [withoutXon, hbyte, hsettled.xon hopt]
      · simp

theorem scan_kept {m : Matcher} (input : Bytes) (hsettled : m.Settled)
    (h : Kept written stream fired m) :
    Kept (written ++ (scan m input).2) (stream ++ input) fired (scan m input).1 ∧
      (scan m input).1.Settled := by
  induction input generalizing m written stream with
  | nil => simpa [scan] using ⟨h, hsettled⟩
  | cons byte input ih =>
    obtain ⟨hbyte, hnext⟩ := scanByte_kept byte hsettled h
    have hrun := ih hnext hbyte
    rwa [List.append_assoc, List.append_assoc, List.singleton_append] at hrun

/-! Runs of the filter -/

structure Filter.Sound (f : Filter) (stream : Bytes) (fired : Nat) : Prop where
  kept : Kept f.writes.flatten stream fired f.toMatcher
  settled : f.Settled

variable {f : Filter}

@[simp] theorem write_toMatcher (f : Filter) (bytes : Bytes) :
    (f.write bytes).toMatcher = f.toMatcher := by
  unfold Filter.write
  split <;> rfl

@[simp] theorem write_writes (f : Filter) (bytes : Bytes) :
    (f.write bytes).writes.flatten = f.writes.flatten ++ bytes := by
  unfold Filter.write
  split
  · next hnil => simp [hnil]
  · simp

theorem Filter.Sound.scanAll (h : f.Sound stream fired) (input : Bytes) :
    (f.scanAll input).Sound (stream ++ input) fired := by
  obtain ⟨hkept, hsettled⟩ := scan_kept input h.settled h.kept
  constructor
  · simpa [Filter.scanAll] using hkept
  · simpa [Filter.scanAll] using hsettled

theorem Filter.Sound.plain (h : f.Sound stream fired) (hpending : f.pending = [])
    (hxon : f.optionalXon = false) {input : Bytes} (hplain : 42 ∉ input) :
    (f.write input).Sound (stream ++ input) fired := by
  obtain ⟨⟨htwo, out, shown, ⟨hwritten, hwithin, hstripped⟩, hshown, hpartly⟩, hsettled⟩ := h
  constructor
  · rw [write_writes, write_toMatcher]
    refine ⟨htwo, out ++ input, shown, ⟨?_, hwithin, ?_⟩, hshown, hpartly⟩
    · rw [hwritten, hpending]
      simp
    · intro later more
      rw [List.append_assoc, hstripped]
      simp [Matcher.resume, hxon, hpending, strip_plain hplain]
  · rwa [write_toMatcher]

theorem star_not_before {input : Bytes} {star : Nat}
    (h : input.findIdx? (· == 42) = some star) : 42 ∉ input.take star := by
  intro hmem
  obtain ⟨_, -, hbefore⟩ := List.findIdx?_eq_some_iff_getElem.mp h
  obtain ⟨i, hi, heq⟩ := List.getElem_of_mem hmem
  rw [List.length_take] at hi
  rw [List.getElem_take] at heq
  have hnot := hbefore i (by omega)
  simp [heq] at hnot

theorem Filter.Sound.consume (h : f.Sound stream fired) (input : Bytes) :
    (f.consume input).Sound (stream ++ input) fired := by
  have hcleared : ({ f with timer := false } : Filter).Sound stream fired := ⟨h.kept, h.settled⟩
  unfold Filter.consume
  dsimp only
  by_cases hempty : f.pending = [] ∧ f.optionalXon = false
  · rw [if_pos hempty]
    cases hfind : input.findIdx? (· == 42) with
    | none =>
      refine hcleared.plain hempty.1 hempty.2 ?_
      exact fun hmem => by simpa using List.findIdx?_eq_none_iff.mp hfind 42 hmem
    | some star =>
      have hrun := (hcleared.plain hempty.1 hempty.2 (star_not_before hfind)).scanAll
        (input.drop star)
      rwa [List.append_assoc, List.take_append_drop] at hrun
  · rw [if_neg hempty]
    exact hcleared.scanAll input

theorem Filter.Sound.flush (h : f.Sound stream fired) : f.flush.Sound stream (fired + 1) := by
  obtain ⟨⟨htwo, out, shown, ⟨hwritten, hwithin, hstripped⟩, hshown, hpartly⟩, hsettled⟩ := h
  unfold Filter.flush
  split
  · next hshort =>
    refine ⟨⟨Nat.le_of_lt_succ hshort.1, out, shown, ⟨?_, Nat.le_refl _, hstripped⟩, hshown, ?_⟩,
      ⟨hsettled.valid, hsettled.short, hsettled.xon⟩⟩
    · simp [hwritten]
    · unfold partly at hpartly ⊢
      split <;> omega
  · exact ⟨⟨htwo, out, shown, ⟨hwritten, hwithin, hstripped⟩, hshown,
      Nat.le_succ_of_le hpartly⟩, hsettled⟩

theorem Filter.Sound.later (h : f.Sound stream fired) : f.Sound stream (fired + 1) := by
  obtain ⟨⟨htwo, out, shown, haccounts, hshown, hpartly⟩, hsettled⟩ := h
  exact ⟨⟨htwo, out, shown, haccounts, hshown, Nat.le_succ_of_le hpartly⟩, hsettled⟩

theorem Filter.Sound.step (h : f.Sound stream fired) (e : Event) :
    (f.step e).Sound (stream ++ received [e]) (fired + firings [e]) := by
  cases e with
  | consume input =>
    have hconsume : (f.step (.consume input)).Sound (stream ++ input) fired := h.consume input
    simpa [received, firings] using hconsume
  | timer =>
    have hcleared : ({ f with timer := false } : Filter).Sound stream fired := ⟨h.kept, h.settled⟩
    have hstep : (f.step .timer).Sound stream (fired + 1) := by
      rw [Filter.step]
      split
      · exact hcleared.flush
      · exact h.later
    simpa [received, firings] using hstep

def filtered (es : List Event) : Filter := es.foldl Filter.step {}

theorem sound_foldl (es : List Event) (h : f.Sound stream fired) :
    (es.foldl Filter.step f).Sound (stream ++ received es) (fired + firings es) := by
  induction es generalizing f stream fired with
  | nil => simpa [received, firings] using h
  | cons e es ih =>
    have hrun := ih (h.step e)
    have hreceived : received (e :: es) = received [e] ++ received es := by simp [received]
    have hfirings : firings (e :: es) = firings [e] + firings es := by
      rw [firings, firings, firings, ← List.countP_append, List.singleton_append]
    rwa [List.append_assoc, Nat.add_assoc, ← hreceived, ← hfirings] at hrun

theorem filtered_sound (es : List Event) : (filtered es).Sound (received es) (firings es) := by
  have hstart : ({} : Filter).Sound [] 0 := by
    refine ⟨⟨Nat.zero_le _, [], [], ⟨rfl, Nat.le_refl _, ?_⟩, ?_, Nat.le_refl _⟩,
      rfl, Nat.succ_pos _, fun _ => rfl⟩
    · exact fun _ _ => rfl
    · simp
  have hrun := sound_foldl es hstart
  rwa [List.nil_append, Nat.zero_add] at hrun

/-- What was written, and after it what is held back, is the stream without its startup headers.
Of a header at most two bytes stay, where a timer fired that has shown them. -/
theorem filter_removes_headers (es : List Event) :
    (∃ shown, (∀ n ∈ shown, n ≤ 2) ∧ shown.countP (0 < ·) ≤ firings es ∧
      (filtered es).writes.flatten ++ (filtered es).held = strip shown (received es)) ∧
      ((filtered es).isIdle = true → (filtered es).held = []) := by
  obtain ⟨⟨-, out, shown, haccounts, hshown, hpartly⟩, hsettled⟩ := filtered_sound es
  constructor
  · refine ⟨shown, hshown, Nat.le_trans (Nat.le_add_right _ _) hpartly, ?_⟩
    have hresume : (filtered es).resume [] = (filtered es).pending := by
      unfold Matcher.resume
      split
      · next hxon => exact (hsettled.xon hxon).symm
      · exact List.append_nil _
    have hstrip := haccounts.stripped [] []
    rw [List.append_nil, List.append_nil, hresume, strip_short hsettled.short] at hstrip
    rw [hstrip, haccounts.written, Filter.held, List.append_assoc, List.take_append_drop]
  · intro hidle
    simp only [Filter.isIdle, Bool.and_eq_true, decide_eq_true_eq] at hidle
    simp [Filter.held, hidle.1]

end Dolgate.HeaderFilter
