import Dolgate.GoTime

set_option autoImplicit false

/-! `Time.Format` of Go at a layout of milliseconds, and that `parseRFC3339` reads what it
writes. -/

namespace Dolgate.GoTime

def digitChar (n : Nat) : Char := Char.ofNat (48 + n % 10)

def twoDigits (n : Nat) : List Char := [digitChar (n / 10), digitChar n]

def threeDigits (n : Nat) : List Char := [digitChar (n / 100), digitChar (n / 10), digitChar n]

def appendYear (year : Int) : List Char :=
  let n := year.natAbs
  let digits := (if n < 10000 then [] else (n / 10000).repr.toList) ++
    [digitChar (n / 1000), digitChar (n / 100), digitChar (n / 10), digitChar n]
  if year < 0 then '-' :: digits else digits

def yearStart (year : Int) : Int :=
  365 * year + (year + 3) / 4 - (year + 99) / 100 + (year + 399) / 400 - 719528

/-- The year of a day that is counted from 1 January 1970, by cycles that begin with year 1. -/
def yearOf (days : Int) : Int :=
  let d := days + 719162
  let n400 := d / 146097
  let d := d - 146097 * n400
  let n100 := min (d / 36524) 3
  let d := d - 36524 * n100
  let n4 := d / 1461
  let d := d - 1461 * n4
  1 + 400 * n400 + 100 * n100 + 4 * n4 + min (d / 365) 3

/-- The month, of those left, and the day of a day that is counted from the first of them. -/
def monthDay (leap : Bool) : List Nat → Nat → Nat × Nat
  | [], yday => (13, yday + 1)
  | month :: rest, yday =>
      let days := daysIn month (if leap then 4 else 1)
      if yday < days then (month, yday + 1) else monthDay leap rest (yday - days)

/-- Layout `2006-01-02T15:04:05.000Z07:00`, in UTC. -/
def formatMillis (t : Int) : String :=
  let seconds := t / 1000000000
  let millis := (t % 1000000000 / 1000000).toNat
  let days := seconds / 86400
  let clock := (seconds % 86400).toNat
  let year := yearOf days
  let date := monthDay (isLeap (year % 400).toNat) (List.range' 1 12) (days - yearStart year).toNat
  String.ofList (appendYear year ++ '-' :: twoDigits date.1 ++ '-' :: twoDigits date.2 ++ 'T' ::
    twoDigits (clock / 3600) ++ ':' :: twoDigits (clock / 60 % 60) ++ ':' ::
    twoDigits (clock % 60) ++ '.' :: threeDigits millis ++ ['Z'])

theorem yearStart_cycles {a b c e : Int} (hb : 0 ≤ b ∧ b ≤ 3) (hc : 0 ≤ c ∧ c ≤ 24)
    (he : 0 ≤ e ∧ e ≤ 3) :
    yearStart (1 + 400 * a + 100 * b + 4 * c + e) =
      146097 * a + 36524 * b + 1461 * c + 365 * e - 719162 := by
  have hfour : (1 + 400 * a + 100 * b + 4 * c + e + 3) / 4 = 100 * a + 25 * b + c + 1 := by omega
  have hcentury : (1 + 400 * a + 100 * b + 4 * c + e + 99) / 100 = 4 * a + b + 1 := by omega
  have hcycle : (1 + 400 * a + 100 * b + 4 * c + e + 399) / 400 = a + 1 := by omega
  rw [yearStart, hfour, hcentury, hcycle]
  omega

theorem yearStart_succ_cycles {a b c e : Int} (hb : 0 ≤ b ∧ b ≤ 3) (hc : 0 ≤ c ∧ c ≤ 24)
    (he : 0 ≤ e ∧ e ≤ 3) :
    yearStart (1 + 400 * a + 100 * b + 4 * c + e + 1) =
      yearStart (1 + 400 * a + 100 * b + 4 * c + e) +
        if e = 3 ∧ (c ≠ 24 ∨ b = 3) then 366 else 365 := by
  rw [yearStart_cycles hb hc he, yearStart]
  split_ifs <;> omega

theorem yearStart_yearOf (days : Int) :
    yearStart (yearOf days) ≤ days ∧ days < yearStart (yearOf days + 1) := by
  obtain ⟨a, ha⟩ : ∃ a, (days + 719162) / 146097 = a := ⟨_, rfl⟩
  obtain ⟨b, hb⟩ : ∃ b, min ((days + 719162 - 146097 * a) / 36524) 3 = b := ⟨_, rfl⟩
  obtain ⟨c, hc⟩ : ∃ c, (days + 719162 - 146097 * a - 36524 * b) / 1461 = c := ⟨_, rfl⟩
  obtain ⟨e, he⟩ : ∃ e,
    min ((days + 719162 - 146097 * a - 36524 * b - 1461 * c) / 365) 3 = e := ⟨_, rfl⟩
  have hyear : yearOf days = 1 + 400 * a + 100 * b + 4 * c + e := by
    simp only [yearOf, ha, hb, hc, he]
  have hb' : 0 ≤ b ∧ b ≤ 3 := by omega
  have hc' : 0 ≤ c ∧ c ≤ 24 := by omega
  have he' : 0 ≤ e ∧ e ≤ 3 := by omega
  rw [hyear, yearStart_succ_cycles hb' hc' he', yearStart_cycles hb' hc' he']
  split_ifs <;> omega

theorem literal_self (c : Char) (rest : List Char) : literal c (c :: rest) = some rest := if_pos rfl

theorem digitChar_toNat (n : Nat) : (digitChar n).toNat = 48 + n % 10 := by
  have hvalid : (48 + n % 10).isValidChar := by
    unfold Nat.isValidChar
    omega
  rw [digitChar, Char.toNat_ofNat, if_pos hvalid]

theorem digit_digitChar (n : Nat) : digit (digitChar n) = some (n % 10) := by
  rw [digit, digitChar_toNat, if_pos (by omega), Nat.add_sub_cancel_left]

theorem getnum_twoDigits (fixed : Bool) {n : Nat} (h : n < 100) (rest : List Char) :
    getnum fixed (twoDigits n ++ rest) = some (n, rest) := by
  have hn : n / 10 % 10 * 10 + n % 10 = n := by omega
  simp [twoDigits, getnum, digit_digitChar, hn]

theorem getyear_appendYear {year : Nat} (h : year < 10000) (rest : List Char) :
    getyear (appendYear year ++ rest) = some (year, rest) := by
  have hdigits : appendYear year = [digitChar (year / 1000), digitChar (year / 100),
      digitChar (year / 10), digitChar year] := by
    simp [appendYear, h]
  have hyear : year / 1000 % 10 * 1000 + year / 100 % 10 * 100 + year / 10 % 10 * 10 + year % 10 =
      year := by omega
  simp [hdigits, getyear, digit_digitChar, hyear]

theorem getfraction_threeDigits {n : Nat} (h : n < 1000) :
    getfraction ('.' :: threeDigits n ++ ['Z']) = (n * 1000000, ['Z']) := by
  have hz : digit 'Z' = none := by decide
  have hn : (n / 100 % 10 * 10 + n / 10 % 10) * 10 + n % 10 = n := by omega
  simp [getfraction, threeDigits, digit_digitChar, List.takeWhile, List.dropWhile, hz,
    parseNanoseconds, digitChar_toNat, hn]

theorem isLeap_mod (year : Nat) : isLeap (year % 400) = isLeap year := by
  have hfour : year % 400 % 4 = year % 4 := by omega
  have hcentury : year % 400 % 100 = year % 100 := by omega
  rw [isLeap, isLeap, hfour, hcentury, Nat.mod_mod]

theorem daysIn_leap (month year : Nat) :
    daysIn month year = daysIn month (if isLeap year then 4 else 1) := by
  cases hleap : isLeap year <;> simp [daysIn, hleap] <;> rfl

theorem yearStart_natCast (year : Nat) : yearStart year = (daysBeforeYear year : Int) - 719528 := by
  rw [yearStart, daysBeforeYear]
  omega

theorem yearStart_succ (year : Nat) :
    yearStart (year + 1) = yearStart year + if isLeap year then 366 else 365 := by
  have hleap : isLeap year ↔ year % 4 = 0 ∧ (year % 100 ≠ 0 ∨ year % 400 = 0) := by
    simp [isLeap]
  rw [yearStart, yearStart]
  by_cases h : isLeap year
  · rw [if_pos h]
    rw [hleap] at h
    omega
  · rw [if_neg h]
    rw [hleap] at h
    omega

theorem monthDay_spec : ∀ leap : Bool, ∀ yday < 366, yday < (if leap then 366 else 365) →
    1 ≤ (monthDay leap (List.range' 1 12) yday).1 ∧ (monthDay leap (List.range' 1 12) yday).1 ≤ 12 ∧
      1 ≤ (monthDay leap (List.range' 1 12) yday).2 ∧ (monthDay leap (List.range' 1 12) yday).2 ≤
        daysIn (monthDay leap (List.range' 1 12) yday).1 (if leap then 4 else 1) ∧
      daysBeforeMonth (monthDay leap (List.range' 1 12) yday).1 (if leap then 4 else 1) +
        ((monthDay leap (List.range' 1 12) yday).2 - 1) = yday := by
  decide +kernel

theorem yearOf_nonneg_iff {days : Int} : 0 ≤ yearOf days ↔ -719528 ≤ days := by
  have h := yearStart_yearOf days
  simp only [yearStart] at h
  omega

theorem yearOf_lt_iff {days : Int} : yearOf days < 10000 ↔ days < 2932897 := by
  have h := yearStart_yearOf days
  simp only [yearStart] at h
  omega

def Printable (t : Int) : Prop := -62167219200000000000 ≤ t ∧ t < 253402300800000000000

instance (t : Int) : Decidable (Printable t) := inferInstanceAs (Decidable (_ ∧ _))

theorem printable_iff {t : Int} :
    Printable t ↔ 0 ≤ yearOf (t / 1000000000 / 86400) ∧ yearOf (t / 1000000000 / 86400) < 10000 := by
  rw [yearOf_nonneg_iff, yearOf_lt_iff, Printable]
  omega

theorem unixDays_date {days : Int} {year : Nat} (h : yearOf days = year) :
    ∃ month day, monthDay (isLeap (yearOf days % 400).toNat) (List.range' 1 12)
        (days - yearStart (yearOf days)).toNat = (month, day) ∧
      1 ≤ month ∧ month ≤ 12 ∧ 1 ≤ day ∧ day ≤ daysIn month year ∧
      unixDays year month day = days := by
  have hstart := yearStart_yearOf days
  rw [h, yearStart_succ] at hstart
  obtain ⟨yday, hyday⟩ := Int.eq_ofNat_of_zero_le (Int.sub_nonneg.mpr hstart.1)
  have hleap : isLeap (yearOf days % 400).toNat = isLeap year := by
    have hmod : ((year : Int) % 400).toNat = year % 400 := by omega
    rw [h, hmod, isLeap_mod]
  have hlt : yday < if isLeap year then 366 else 365 := by
    split_ifs at hstart ⊢ <;> omega
  have hspec := monthDay_spec (isLeap year) yday (hlt.trans_le (by split_ifs <;> decide)) hlt
  obtain ⟨⟨month, day⟩, hdate⟩ : ∃ date, monthDay (isLeap year) (List.range' 1 12) yday = date :=
    ⟨_, rfl⟩
  have hmonth : daysBeforeMonth month (if isLeap year then 4 else 1) =
      daysBeforeMonth month year := by
    simp only [daysBeforeMonth, ← daysIn_leap]
  rw [hdate, ← daysIn_leap, hmonth] at hspec
  obtain ⟨hlow, hhigh, hday, hdays, hsum⟩ := hspec
  refine ⟨month, day, ?_, hlow, hhigh, hday, hdays, ?_⟩
  · rw [hleap, h, hyday, Int.toNat_natCast, hdate]
  · have hyear := yearStart_natCast year
    rw [unixDays]
    omega

theorem parseRFC3339_digits {year month day hour minute second millis : Nat}
    (hyear : year < 10000) (hmonth : 1 ≤ month ∧ month ≤ 12)
    (hday : 1 ≤ day ∧ day ≤ daysIn month year) (hhour : hour < 24) (hminute : minute < 60)
    (hsecond : second < 60) (hmillis : millis < 1000) :
    parseRFC3339 (String.ofList (appendYear year ++ '-' :: (twoDigits month ++ '-' ::
        (twoDigits day ++ 'T' :: (twoDigits hour ++ ':' :: (twoDigits minute ++ ':' ::
          (twoDigits second ++ '.' :: (threeDigits millis ++ ['Z'])))))))) =
      some ((unixDays year month day * 86400 + hour * 3600 + minute * 60 + second) * 1000000000 +
        millis * 1000000) := by
  have hdays : day < 100 := by
    have hmost := (by decide : ∀ m < 13, ∀ y < 5, daysIn m y < 100) month (by omega)
      (if isLeap year then 4 else 1) (by split_ifs <;> decide)
    rw [← daysIn_leap] at hmost
    omega
  have hfraction := getfraction_threeDigits hmillis
  rw [List.cons_append] at hfraction
  rw [parseRFC3339, String.toList_ofList]
  simp only [getyear_appendYear hyear, bind, Option.bind_some, literal_self,
    getnum_twoDigits _ (by omega : month < 100), getnum_twoDigits _ hdays,
    getnum_twoDigits _ (by omega : hour < 100), getnum_twoDigits _ (by omega : minute < 100),
    getnum_twoDigits _ (by omega : second < 100)]
  rw [if_neg (by omega), if_neg (by omega), if_neg (by omega), if_neg (by omega), hfraction]
  simp only [getzone, Option.bind_some]
  rw [if_neg (by simp), if_neg (by omega), Int.sub_zero]
  exact congrArg some (by push_cast; rfl)

theorem parseRFC3339_formatMillis {t : Int} (h : Printable t) :
    parseRFC3339 (formatMillis t) = some (t / 1000000 * 1000000) := by
  obtain ⟨hlow, hhigh⟩ := printable_iff.mp h
  obtain ⟨year, hyear⟩ := Int.eq_ofNat_of_zero_le hlow
  obtain ⟨month, day, hdate, hmonth, hmonths, hday, hdays, hsum⟩ := unixDays_date hyear
  have hread := parseRFC3339_digits (by omega : year < 10000) ⟨hmonth, hmonths⟩ ⟨hday, hdays⟩
    (by omega : (t / 1000000000 % 86400).toNat / 3600 < 24)
    (by omega : (t / 1000000000 % 86400).toNat / 60 % 60 < 60)
    (by omega : (t / 1000000000 % 86400).toNat % 60 < 60)
    (by omega : (t % 1000000000 / 1000000).toNat < 1000)
  rw [← hyear] at hread
  simp only [formatMillis, hdate, List.append_assoc, List.cons_append]
  rw [hread, hsum]
  refine congrArg some ?_
  omega

theorem getyear_dash (text : List Char) : getyear ('-' :: text) = none := by
  have hdash : digit '-' = none := by decide
  rcases text with _ | ⟨b, _ | ⟨c, _ | ⟨d, rest⟩⟩⟩
  · rfl
  · rfl
  · rfl
  · simp [getyear, hdash]

theorem digitChar_ne_dash (n : Nat) : digitChar n ≠ '-' := by
  intro h
  have hchar := digitChar_toNat n
  rw [h] at hchar
  have hdash : '-'.toNat = 45 := by decide
  omega

theorem mem_repr_ne_dash {n : Nat} {c : Char} (h : c ∈ n.repr.toList) : c ≠ '-' := by
  rintro rfl
  rw [Nat.repr_eq_ofList_toDigits, String.toList_ofList] at h
  have hdigit := Nat.isDigit_of_mem_toDigits (by decide) (by decide) h
  exact absurd hdigit (by decide)

theorem getyear_long {digits rest : List Char} (hlen : 5 ≤ digits.length)
    (h : ∀ c ∈ digits, c ≠ '-') :
    ((getyear (digits ++ rest)).bind fun r => literal '-' r.2) = none := by
  rcases digits with _ | ⟨a, _ | ⟨b, _ | ⟨c, _ | ⟨d, _ | ⟨e, more⟩⟩⟩⟩⟩ <;>
    simp only [List.length_cons, List.length_nil] at hlen
  · omega
  · omega
  · omega
  · omega
  · omega
  · have hne : '-' ≠ e := fun heq => h e (by simp) heq.symm
    cases ha : digit a <;> cases hb : digit b <;> cases hc : digit c <;> cases hd : digit d <;>
      simp [getyear, ha, hb, hc, hd, literal, hne]

theorem year_not_read {year : Int} (h : year < 0 ∨ 10000 ≤ year) (rest : List Char) :
    ((getyear (appendYear year ++ rest)).bind fun r => literal '-' r.2) = none := by
  by_cases hneg : year < 0
  · rw [appendYear, if_pos hneg, List.cons_append, getyear_dash]
    rfl
  · have hlong : ¬ year.natAbs < 10000 := by omega
    rw [appendYear, if_neg hneg, if_neg hlong]
    refine getyear_long ?_ fun c hc => ?_
    · have hpos : (year.natAbs / 10000).repr.toList ≠ [] := by
        simp [Nat.toDigits_ne_nil]
      have := List.length_pos_iff.mpr hpos
      simp only [List.length_append, List.length_cons, List.length_nil]
      omega
    · rcases List.mem_append.mp hc with hc | hc
      · exact mem_repr_ne_dash hc
      · simp only [List.mem_cons, List.not_mem_nil, or_false] at hc
        rcases hc with rfl | rfl | rfl | rfl <;> exact digitChar_ne_dash _

theorem parseRFC3339_formatMillis_none {t : Int} (h : ¬ Printable t) :
    parseRFC3339 (formatMillis t) = none := by
  rw [printable_iff] at h
  have hread : ∀ rest, ((getyear (appendYear (yearOf (t / 1000000000 / 86400)) ++ rest)).bind
      fun r => literal '-' r.2) = none := year_not_read (by omega)
  rw [parseRFC3339]
  simp only [formatMillis, String.toList_ofList, List.append_assoc]
  refine Option.bind_eq_none_iff.mpr fun r hr => ?_
  rw [Option.bind_eq_none_iff.mp (hread _) r hr]
  rfl

end Dolgate.GoTime
