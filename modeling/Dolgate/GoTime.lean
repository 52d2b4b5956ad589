import Mathlib

set_option autoImplicit false

/-! `time.Parse` of Go at the layout `time.RFC3339`, read into nanoseconds since the Unix epoch. -/

namespace Dolgate.GoTime

def digit (c : Char) : Option Nat :=
  if 48 ≤ c.toNat ∧ c.toNat ≤ 57 then some (c.toNat - 48) else none

def literal (c : Char) : List Char → Option (List Char)
  | d :: rest => if c = d then some rest else none
  | [] => none

def getnum (fixed : Bool) : List Char → Option (Nat × List Char)
  | [] => none
  | a :: rest => do
      let x ← digit a
      match rest with
      | b :: rest' =>
          match digit b with
          | some y => return (x * 10 + y, rest')
          | none => if fixed then none else return (x, rest)
      | [] => if fixed then none else return (x, rest)

def getyear : List Char → Option (Nat × List Char)
  | a :: b :: c :: d :: rest => do
      return ((← digit a) * 1000 + (← digit b) * 100 + (← digit c) * 10 + (← digit d), rest)
  | _ => none

def parseNanoseconds (digits : List Char) : Nat :=
  let kept := digits.take 9
  kept.foldl (fun n c => n * 10 + (c.toNat - 48)) 0 * 10 ^ (9 - kept.length)

def getfraction : List Char → Nat × List Char
  | sep :: first :: rest =>
      if (sep = '.' ∨ sep = ',') ∧ (digit first).isSome then
        let digits := first :: rest.takeWhile fun c => (digit c).isSome
        (parseNanoseconds digits, rest.dropWhile fun c => (digit c).isSome)
      else (0, sep :: first :: rest)
  | text => (0, text)

def getzone : List Char → Option (Int × List Char)
  | 'Z' :: rest => some (0, rest)
  | sign :: h₁ :: h₂ :: ':' :: m₁ :: m₂ :: rest => do
      let (hour, _) ← getnum true [h₁, h₂]
      let (minute, _) ← getnum true [m₁, m₂]
      if hour > 24 ∨ minute > 60 then none
      else
        let offset : Int := (hour * 60 + minute) * 60
        if sign = '+' then return (offset, rest)
        else if sign = '-' then return (-offset, rest)
        else none
  | _ => none

def isLeap (year : Nat) : Bool := year % 4 == 0 && (year % 100 != 0 || year % 400 == 0)

def daysIn (month year : Nat) : Nat :=
  if month = 2 then (if isLeap year then 29 else 28)
  else if month = 4 ∨ month = 6 ∨ month = 9 ∨ month = 11 then 30
  else 31

def daysBeforeYear (year : Nat) : Nat :=
  year * 365 + (year + 3) / 4 - (year + 99) / 100 + (year + 399) / 400

def daysBeforeMonth (month year : Nat) : Nat :=
  ((List.range (month - 1)).map fun m => daysIn (m + 1) year).sum

def unixDays (year month day : Nat) : Int :=
  (daysBeforeYear year + daysBeforeMonth month year + (day - 1) : Nat) - 719528

def parseRFC3339 (value : String) : Option Int := do
  let (year, rest) ← getyear value.toList
  let rest ← literal '-' rest
  let (month, rest) ← getnum true rest
  if month < 1 ∨ 12 < month then none
  else
    let rest ← literal '-' rest
    let (day, rest) ← getnum true rest
    let rest ← literal 'T' rest
    let (hour, rest) ← getnum false rest
    if 24 ≤ hour then none
    else
      let rest ← literal ':' rest
      let (minute, rest) ← getnum true rest
      if 60 ≤ minute then none
      else
        let rest ← literal ':' rest
        let (second, rest) ← getnum true rest
        if 60 ≤ second then none
        else
          let (nanos, rest) := getfraction rest
          let (offset, rest) ← getzone rest
          if rest ≠ [] then none
          else if day < 1 ∨ daysIn month year < day then none
          else
            let seconds := unixDays year month day * 86400 + hour * 3600 + minute * 60 + second
            return (seconds - offset) * 1000000000 + nanos

example : parseRFC3339 "2024-02-29T09:30:00.25+09:00" = some 1709166600250000000 := by decide

example : parseRFC3339 "2023-02-29T00:00:00Z" = none := by decide

end Dolgate.GoTime
