import Mathlib
import Dolgate.Utf8

set_option autoImplicit false

/-! Text that comes in pieces of bytes. What belongs to no character is read as one mark for as many
bytes as could have begun one. -/

namespace Dolgate.Utf8

def begins : Bytes → Bool
  | [a] => 0xC2 ≤ a && a ≤ 0xF4
  | [a, b] => 0xE0 ≤ a && a ≤ 0xF4 && accepts a b
  | [a, b, c] => 0xF0 ≤ a && a ≤ 0xF4 && accepts a b && continuation c
  | _ => false

def start (b : UInt8) : Text × Bytes :=
  if begins [b] then ([], [b])
  else if b < 0x80 then ([Char.ofNat b.toNat], [])
  else ([runeError], [])

def push (held : Bytes) (b : UInt8) : Text × Bytes :=
  if held = [] then start b
  else if begins (held ++ [b]) then ([], held ++ [b])
  else if runeSize (held ++ [b]) = (held ++ [b]).length then
    ([(decodeRune (held ++ [b])).getD runeError], [])
  else (runeError :: (start b).1, (start b).2)

def write : Bytes → Bytes → Text × Bytes
  | held, [] => ([], held)
  | held, b :: s => ((push held b).1 ++ (write (push held b).2 s).1, (write (push held b).2 s).2)

def finish (held : Bytes) : Text := if held = [] then [] else [runeError]

/-- `toString("utf8")` -/
def toText (s : Bytes) : Text := (write [] s).1 ++ finish (write [] s).2

def pieces : Bytes → List Bytes → List Text
  | held, [] => [finish held]
  | held, chunk :: chunks => (write held chunk).1 :: pieces (write held chunk).2 chunks

variable {held s t : Bytes} {a b : UInt8} {c : Char} {text : Text}

theorem write_append (held s t : Bytes) : write held (s ++ t) =
    ((write held s).1 ++ (write (write held s).2 t).1, (write (write held s).2 t).2) := by
  induction s generalizing held with
  | nil => rfl
  | cons b s ih => rw [List.cons_append, write, write, ih, List.append_assoc]

theorem pieces_flatten (held : Bytes) (chunks : List Bytes) :
    (pieces held chunks).flatten =
      (write held chunks.flatten).1 ++ finish (write held chunks.flatten).2 := by
  induction chunks generalizing held with
  | nil => exact List.flatten_singleton
  | cons chunk chunks ih =>
    rw [pieces, List.flatten_cons, ih, List.flatten_cons, write_append, List.append_assoc]

/-! ### Lines -/

theorem accepts_newline (a : UInt8) : accepts a 10 = false := by
  unfold accepts
  split_ifs <;> decide

theorem begins_newline (hheld : held ≠ []) : begins (held ++ [10]) = false := by
  obtain _ | ⟨a, _ | ⟨b, _ | ⟨c, held⟩⟩⟩ := held
  · exact absurd rfl hheld
  · change (_ && accepts a 10) = false
    rw [accepts_newline, Bool.and_false]
  · exact Bool.and_false _
  · cases held <;> rfl

theorem runeSize_newline (hheld : held ≠ []) :
    runeSize (held ++ [10]) ≠ (held ++ [10]).length := by
  obtain _ | ⟨a, _ | ⟨b, _ | ⟨c, held⟩⟩⟩ := held
  · exact absurd rfl hheld
  · unfold runeSize
    dsimp only [List.cons_append]
    split_ifs <;> simp_all [accepts_newline]
  · unfold runeSize
    dsimp only [List.cons_append]
    split_ifs <;> simp_all [continuation]
  · unfold runeSize
    dsimp only [List.cons_append]
    cases held with
    | nil => split_ifs <;> simp_all [continuation]
    | cons d held => split_ifs <;> simp

theorem push_newline (held : Bytes) : push held 10 = (finish held ++ ['\n'], []) := by
  unfold push finish
  by_cases hheld : held = []
  · rw [if_pos hheld, if_pos hheld]
    rfl
  · rw [if_neg hheld, if_neg hheld, begins_newline hheld, if_neg Bool.false_ne_true,
      if_neg (runeSize_newline hheld)]
    rfl

theorem toText_newline (s t : Bytes) : toText (s ++ 10 :: t) = toText s ++ '\n' :: toText t := by
  unfold toText
  rw [write_append, write, push_newline]
  simp

theorem start_no_newline (hb : b ≠ 10) : '\n' ∉ (start b).1 := by
  unfold start
  split
  · exact List.not_mem_nil
  · split
    · next hsmall =>
      intro hmem
      have heq : '\n' = Char.ofNat b.toNat := List.mem_singleton.mp hmem
      have hvalid : b.toNat.isValidChar := .inl (by have := b.toNat_lt; omega)
      have hnat : (10 : Nat) = (Char.ofNat b.toNat).toNat := congrArg Char.toNat heq
      rw [Char.toNat_ofNat b.toNat, if_pos hvalid] at hnat
      exact hb (UInt8.toNat_inj.mp hnat.symm)
    · decide

theorem push_no_newline (hb : b ≠ 10) : '\n' ∉ (push held b).1 := by
  unfold push
  split
  · exact start_no_newline hb
  · next hheld =>
    split
    · exact List.not_mem_nil
    · split
      · next hsize =>
        intro hmem
        have heq : '\n' = (decodeRune (held ++ [b])).getD runeError := List.mem_singleton.mp hmem
        cases hrune : decodeRune (held ++ [b]) with
        | none =>
          rw [hrune] at heq
          exact absurd heq (by decide)
        | some c =>
          rw [hrune, Option.getD_some] at heq
          obtain ⟨rest, hrest⟩ := eq_of_decodeRune hrune
          rw [hrest, ← heq] at hsize
          have hlength := congrArg List.length hrest
          rw [← heq] at hlength
          have hpos := List.length_pos_iff.mpr hheld
          change runeSize (10 :: rest) = (10 :: rest).length at hsize
          change (held ++ [b]).length = (10 :: rest).length at hlength
          rw [runeSize, if_pos (by decide)] at hsize
          rw [List.length_append, List.length_singleton, ← hsize] at hlength
          omega
      · intro hmem
        obtain heq | hmem := List.mem_cons.mp hmem
        · exact absurd heq (by decide)
        · exact start_no_newline hb hmem

theorem write_no_newline (hs : 10 ∉ s) : '\n' ∉ (write held s).1 := by
  induction s generalizing held with
  | nil => exact List.not_mem_nil
  | cons b s ih =>
    obtain ⟨hb, hs⟩ := not_or.mp (fun h => hs (List.mem_cons.mpr h))
    rw [write]
    intro hmem
    obtain hmem | hmem := List.mem_append.mp hmem
    · exact push_no_newline (Ne.symm hb) hmem
    · exact ih hs hmem

theorem toText_no_newline (hs : 10 ∉ s) : '\n' ∉ toText s := by
  intro hmem
  obtain hmem | hmem := List.mem_append.mp hmem
  · exact write_no_newline hs hmem
  · unfold finish at hmem
    split at hmem
    · cases hmem
    · exact absurd hmem (by decide)

theorem splitOn_toText (s : Bytes) :
    (toText s).splitOn '\n' = (s.splitOn 10).map toText := by
  induction hlength : s.length using Nat.strongRecOn generalizing s with
  | _ length ih =>
    by_cases h : 10 ∈ s
    · obtain ⟨line, rest, rfl, hline⟩ := List.eq_append_cons_of_mem h
      have hshorter : rest.length < length := by
        rw [← hlength, List.length_append, List.length_cons]
        omega
      rw [toText_newline, List.splitOn_append_cons_self, List.splitOn_append_cons_self,
        List.map_append, ih _ hshorter rest rfl,
        List.splitOn_eq_singleton hline, List.splitOn_eq_singleton (toText_no_newline hline)]
      rfl
    · rw [List.splitOn_eq_singleton h, List.splitOn_eq_singleton (toText_no_newline h)]
      rfl

/-! ### Whole characters -/

theorem accepts_iff : accepts a b = true ↔ (128 ≤ b.toNat ∧ b.toNat ≤ 191) ∧
    (a.toNat = 224 → 160 ≤ b.toNat) ∧ (a.toNat = 237 → b.toNat ≤ 159) ∧
      (a.toNat = 240 → 144 ≤ b.toNat) ∧ (a.toNat = 244 → b.toNat ≤ 143) := by
  unfold accepts continuation
  split_ifs with h1 h2 h3 h4
  all_goals
    simp only [← UInt8.toNat_inj, UInt8.reduceToNat] at *
    simp only [Bool.and_eq_true, decide_eq_true_eq, UInt8.le_iff_toNat_le, UInt8.reduceToNat]
    omega

theorem continuation_iff : continuation b = true ↔ 128 ≤ b.toNat ∧ b.toNat ≤ 191 := by
  simp only [continuation, Bool.and_eq_true, decide_eq_true_eq, UInt8.le_iff_toNat_le,
    UInt8.reduceToNat]

theorem begins_one : begins [a] = true ↔ 0xC2 ≤ a.toNat ∧ a.toNat ≤ 0xF4 := by
  simp only [begins, Bool.and_eq_true, decide_eq_true_eq, UInt8.le_iff_toNat_le, UInt8.reduceToNat]

theorem begins_two : begins [a, b] = true ↔
    (0xE0 ≤ a.toNat ∧ a.toNat ≤ 0xF4) ∧ accepts a b = true := by
  simp only [begins, Bool.and_eq_true, decide_eq_true_eq, UInt8.le_iff_toNat_le, UInt8.reduceToNat]

theorem begins_three {d : UInt8} : begins [a, b, d] = true ↔
    ((0xF0 ≤ a.toNat ∧ a.toNat ≤ 0xF4) ∧ accepts a b = true) ∧ continuation d = true := by
  simp only [begins, Bool.and_eq_true, decide_eq_true_eq, UInt8.le_iff_toNat_le, UInt8.reduceToNat]

theorem not_small (ha : 0xC2 ≤ a.toNat) : ¬ a < 0x80 ∧ ¬ a < 0xC2 := by
  simp only [UInt8.lt_iff_toNat_lt, UInt8.reduceToNat]
  omega

theorem push_held (hheld : held ≠ []) (h : begins (held ++ [b]) = true) :
    push held b = ([], held ++ [b]) := by
  rw [push, if_neg hheld, if_pos h]

theorem push_first (h : begins [b] = true) : push [] b = ([], [b]) := by
  rw [push, if_pos rfl, start, if_pos h]

theorem push_last (hheld : held ≠ []) (hbegins : ¬ begins (held ++ [b]) = true)
    (hsize : runeSize (held ++ [b]) = (held ++ [b]).length)
    (hbytes : String.utf8EncodeChar c = held ++ [b]) : push held b = ([c], []) := by
  have hrune := decodeRune_encode c []
  rw [List.append_nil, hbytes] at hrune
  rw [push, if_neg hheld, if_neg hbegins, if_pos hsize, hrune, Option.getD_some]

theorem write_one (ha : b.toNat < 128) (hbytes : String.utf8EncodeChar c = [b]) (s : Bytes) :
    write [] (b :: s) = (c :: (write [] s).1, (write [] s).2) := by
  have hc : c.toNat = b.toNat := (mem_encodeChar ha).mp (hbytes ▸ List.mem_singleton_self b)
  have hbegins : ¬ begins [b] = true := by
    rw [begins_one]
    omega
  have hpush : push [] b = ([c], []) := by
    rw [push, if_pos rfl, start, if_neg hbegins, if_pos (UInt8.lt_iff_toNat_lt.mpr ha), ← hc,
      Char.ofNat_toNat]
  rw [write, hpush]
  rfl

theorem write_two (ha : 0xC2 ≤ a.toNat ∧ a.toNat < 0xE0) (hb : 128 ≤ b.toNat ∧ b.toNat ≤ 191)
    (hbytes : String.utf8EncodeChar c = [a, b]) (s : Bytes) :
    write [] (a :: b :: s) = (c :: (write [] s).1, (write [] s).2) := by
  have hfirst : push [] a = ([], [a]) := push_first (begins_one.mpr (by omega))
  have haccepts : accepts a b = true := accepts_iff.mpr (by omega)
  have hsize : runeSize [a, b] = 2 := by
    have hlead : a < 0xE0 := by
      rw [UInt8.lt_iff_toNat_lt]
      exact ha.2
    rw [runeSize, if_neg (not_small ha.1).1, if_neg (not_small ha.1).2]
    change (if accepts a b = false then 0 else _) = 2
    rw [haccepts, if_neg (by decide), if_pos hlead]
  have hlast : push [a] b = ([c], []) := by
    refine push_last (List.cons_ne_nil a []) ?_ hsize hbytes
    change ¬ begins [a, b] = true
    rw [begins_two]
    omega
  rw [write, hfirst, write, hlast]
  rfl

theorem write_three {d : UInt8} (ha : 0xE0 ≤ a.toNat ∧ a.toNat < 0xF0)
    (haccepts : accepts a b = true) (hd : continuation d = true)
    (hbytes : String.utf8EncodeChar c = [a, b, d]) (s : Bytes) :
    write [] (a :: b :: d :: s) = (c :: (write [] s).1, (write [] s).2) := by
  have hfirst : push [] a = ([], [a]) := push_first (begins_one.mpr (by omega))
  have hsecond : push [a] b = ([], [a, b]) :=
    push_held (List.cons_ne_nil a []) (begins_two.mpr ⟨by omega, haccepts⟩)
  have hsize : runeSize [a, b, d] = 3 := by
    have hlead : ¬ a < 0xE0 ∧ a < 0xF0 := by
      simp only [UInt8.lt_iff_toNat_lt, UInt8.reduceToNat]
      omega
    rw [runeSize, if_neg (not_small (by omega)).1, if_neg (not_small (by omega)).2]
    change (if accepts a b = false then 0 else if a < 0xE0 then 2 else
      if continuation d = false then 0 else _) = 3
    rw [haccepts, hd, if_neg (by decide), if_neg hlead.1,
      if_neg (by decide), if_pos hlead.2]
  have hlast : push [a, b] d = ([c], []) := by
    refine push_last (List.cons_ne_nil a [b]) ?_ hsize hbytes
    change ¬ begins [a, b, d] = true
    rw [begins_three]
    omega
  rw [write, hfirst, write, hsecond, write, hlast]
  rfl

theorem write_four {d e : UInt8} (ha : 0xF0 ≤ a.toNat ∧ a.toNat ≤ 0xF4)
    (haccepts : accepts a b = true) (hd : continuation d = true) (he : continuation e = true)
    (hbytes : String.utf8EncodeChar c = [a, b, d, e]) (s : Bytes) :
    write [] (a :: b :: d :: e :: s) = (c :: (write [] s).1, (write [] s).2) := by
  have hfirst : push [] a = ([], [a]) := push_first (begins_one.mpr (by omega))
  have hsecond : push [a] b = ([], [a, b]) :=
    push_held (List.cons_ne_nil a []) (begins_two.mpr ⟨by omega, haccepts⟩)
  have hthird : push [a, b] d = ([], [a, b, d]) :=
    push_held (List.cons_ne_nil a [b]) (begins_three.mpr ⟨⟨ha, haccepts⟩, hd⟩)
  have hsize : runeSize [a, b, d, e] = 4 := by
    have hlead : ¬ a < 0xE0 ∧ ¬ a < 0xF0 ∧ a < 0xF5 := by
      simp only [UInt8.lt_iff_toNat_lt, UInt8.reduceToNat]
      omega
    rw [runeSize, if_neg (not_small (by omega)).1, if_neg (not_small (by omega)).2]
    change (if accepts a b = false then 0 else if a < 0xE0 then 2 else
      if continuation d = false then 0 else if a < 0xF0 then 3 else
        if a < 0xF5 ∧ continuation e = true then 4 else 0) = 4
    rw [haccepts, hd, he, if_neg (by decide), if_neg hlead.1,
      if_neg (by decide), if_neg hlead.2.1, if_pos ⟨hlead.2.2, rfl⟩]
  have hlast : push [a, b, d] e = ([c], []) := push_last (List.cons_ne_nil a [b, d])
    (fun h => Bool.false_ne_true h) hsize hbytes
  rw [write, hfirst, write, hsecond, write, hthird, write, hlast]
  rfl

theorem write_char (c : Char) (s : Bytes) :
    write [] (String.utf8EncodeChar c ++ s) = (c :: (write [] s).1, (write [] s).2) := by
  have hvalid : c.val.toNat < 0xD800 ∨ (0xDFFF < c.val.toNat ∧ c.val.toNat < 0x110000) := c.valid
  have hbytes : String.utf8EncodeChar c = String.utf8EncodeChar c := rfl
  conv at hbytes => rhs; unfold String.utf8EncodeChar
  dsimp only at hbytes
  generalize c.val.toNat = v at hbytes hvalid
  have hofNat : ∀ n, n < 256 → (UInt8.ofNat n).toNat = n := fun n hn =>
    UInt8.toNat_ofNat_of_lt' hn
  split_ifs at hbytes with h1 h2 h3
  · rw [hbytes]
    refine write_one ?_ hbytes s
    rw [hofNat _ (by omega)]
    omega
  · rw [hbytes]
    refine write_two ?_ ?_ hbytes s <;> rw [hofNat _ (by omega)] <;> omega
  · rw [hbytes]
    refine write_three ?_ ?_ ?_ hbytes s
    · rw [hofNat _ (by omega)]
      omega
    · rw [accepts_iff, hofNat _ (by omega), hofNat _ (by omega)]
      omega
    · rw [continuation_iff, hofNat _ (by omega)]
      omega
  · rw [hbytes]
    refine write_four ?_ ?_ ?_ ?_ hbytes s
    · rw [hofNat _ (by omega)]
      omega
    · rw [accepts_iff, hofNat _ (by omega), hofNat _ (by omega)]
      omega
    · rw [continuation_iff, hofNat _ (by omega)]
      omega
    · rw [continuation_iff, hofNat _ (by omega)]
      omega

theorem toText_encode (text : Text) : toText (encode text) = text := by
  have hwrite : write [] (encode text) = (text, []) := by
    induction text with
    | nil => rfl
    | cons c text ih => rw [encode_cons, write_char, ih]
  rw [toText, hwrite]
  exact List.append_nil text

end Dolgate.Utf8
