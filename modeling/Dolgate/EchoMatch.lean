import Dolgate.GoBytes

set_option autoImplicit false

/-! How the echo of an injected command is found among what a terminal redraws it with. Positions
in a byte string are given by what stands before or after them. -/

namespace Dolgate.Autocomplete

def afterOsc : List UInt8 → List UInt8
  | [] => []
  | b :: rest =>
      if b = 7 then rest
      else if b = 27 ∧ rest.head? = some 92 then rest.tail
      else afterOsc rest

def afterCsi : List UInt8 → List UInt8
  | [] => []
  | b :: rest => if 0x40 ≤ b ∧ b ≤ 0x7e then rest else afterCsi rest

/-- What follows the escape sequence whose escape byte stands before. A sequence that is not
finished takes all there is. -/
def skipEscapeSequence : List UInt8 → List UInt8
  | [] => []
  | b :: rest => if b = 93 then afterOsc rest else if b = 91 then afterCsi rest else rest

def skipEchoNoise : List UInt8 → Option (List UInt8)
  | [] => none
  | b :: rest =>
      if b = 27 then some (skipEscapeSequence rest)
      else if b = 13 then some rest
      else if b = 32 ∧ rest.head? = some 13 then some rest.tail
      else none

theorem afterOsc_length (s : List UInt8) : (afterOsc s).length ≤ s.length := by
  fun_induction afterOsc s with
  | case1 => simp
  | case2 => simp
  | case3 => simp; omega
  | case4 b rest h h' ih => simp; omega

theorem afterCsi_length (s : List UInt8) : (afterCsi s).length ≤ s.length := by
  fun_induction afterCsi s with
  | case1 => simp
  | case2 => simp
  | case3 b rest h ih => simp; omega

theorem skipEscapeSequence_length (s : List UInt8) : (skipEscapeSequence s).length ≤ s.length := by
  cases s with
  | nil => simp [skipEscapeSequence]
  | cons b rest =>
      have hosc := afterOsc_length rest
      have hcsi := afterCsi_length rest
      simp only [skipEscapeSequence, List.length_cons]
      split
      · omega
      · split <;> omega

theorem skipEchoNoise_length {s rest : List UInt8} (h : skipEchoNoise s = some rest) :
    rest.length < s.length := by
  cases s with
  | nil => cases h
  | cons b s =>
      have hesc := skipEscapeSequence_length s
      simp only [skipEchoNoise] at h
      split at h
      · cases h
        rw [List.length_cons]
        omega
      · split at h
        · cases h
          rw [List.length_cons]
          omega
        · split at h
          · cases h
            rw [List.length_cons, List.length_tail]
            omega
          · cases h

/-- What follows the echo that `data` begins with, through the noise between its bytes. -/
def matchEcho (data echo : List UInt8) : Option (List UInt8) :=
  match echo, data with
  | [], data => some data
  | _ :: _, [] => none
  | e :: echo, d :: data =>
      if d = e then matchEcho data echo
      else
        match _ : skipEchoNoise (d :: data) with
        | none => none
        | some rest => matchEcho rest (e :: echo)
termination_by data.length
decreasing_by
  · simp
  · rename_i hskip
    exact skipEchoNoise_length hskip

/-- From the `m` of a colour back over at most sixteen bytes to its escape. All is read backwards,
and `next` is the byte after. -/
def sgrStart : Nat → UInt8 → List UInt8 → Option (List UInt8)
  | 0, _, _ => none
  | _, _, [] => none
  | n + 1, next, b :: before =>
      if b = 27 then if next = 91 then some before else none
      else if b = 91 ∨ b = 59 ∨ (48 ≤ b ∧ b ≤ 57) then sgrStart n b before
      else none

theorem sgrStart_length {n : Nat} {next : UInt8} {s before : List UInt8}
    (h : sgrStart n next s = some before) : before.length < s.length := by
  induction n generalizing next s with
  | zero => cases h
  | succ n ih =>
      cases s with
      | nil => cases h
      | cons b s =>
          simp only [sgrStart] at h
          split at h
          · split at h
            · cases h
              simp
            · cases h
          · split at h
            · have := ih h
              simp
              omega
            · cases h

def expandLeadingSGR (before : List UInt8) : List UInt8 :=
  match before with
  | [] => []
  | b :: rest =>
      if b = 109 then
        match _ : sgrStart 16 b rest with
        | none => b :: rest
        | some rest' => expandLeadingSGR rest'
      else b :: rest
termination_by before.length
decreasing_by
  rename_i hstart
  have := sgrStart_length hstart
  simp
  omega

/-- The first place where the echo is matched: the text before it, backwards, and that after it.
There are never fewer bytes left than the echo has. -/
def findEchoFrom (echo : List UInt8) : List UInt8 → List UInt8 → Option (List UInt8 × List UInt8)
  | _, [] => none
  | before, b :: rest =>
      if some b = echo.head? then
        match matchEcho (b :: rest) echo with
        | some after => some (before, after)
        | none => findEchoFrom echo (b :: before) rest
      else findEchoFrom echo (b :: before) rest

def findWrappedEcho (data echo : List UInt8) : Option (List UInt8 × List UInt8) :=
  if echo = [] then none
  else (findEchoFrom echo [] data).map fun (before, after) =>
    ((expandLeadingSGR before).reverse, after)

def dropNoise (data : List UInt8) : List UInt8 :=
  match _ : skipEchoNoise data with
  | none => data
  | some rest => dropNoise rest
termination_by data.length
decreasing_by
  rename_i hskip
  exact skipEchoNoise_length hskip

/-- What is left of the echo when all of `tail` has been matched with it. -/
def matchTail (tail echo : List UInt8) : Option (List UInt8) :=
  match tail with
  | [] => some echo
  | b :: rest =>
      if echo.head? = some b then matchTail rest echo.tail
      else
        match _ : skipEchoNoise (b :: rest) with
        | none => none
        | some rest' => matchTail rest' echo
termination_by tail.length
decreasing_by
  · simp
  · rename_i hskip
    exact skipEchoNoise_length hskip

def isTolerantPrefix (tail echo : List UInt8) : Bool :=
  match matchTail tail echo with
  | none => false
  | some left => left.length < echo.length && 0 < left.length

def maxEchoInflation : Nat := 4

/-- The first byte behind the noise is that of the echo, and the rest goes on with it. -/
def beginsEcho (echo tail : List UInt8) : Bool :=
  (dropNoise tail).head?.isSome && (dropNoise tail).head? == echo.head? &&
    isTolerantPrefix tail echo

/-- How much of the end of `data` may be the beginning of an echo. -/
def prefixOverlap (data echo : List UInt8) : Nat :=
  let limit := min (echo.length * maxEchoInflation) data.length
  (((data.drop (data.length - limit)).tails.find? (beginsEcho echo)).map List.length).getD 0

/-- A part of the text that decides how far a function skips: what it leaves of the part is left
of the whole, or it runs on past the part. -/
def SkipsWithin (skip : List UInt8 → List UInt8) (a b : List UInt8) : Prop :=
  skip (a ++ b) = skip a ++ b ∨ (skip a = [] ∧ (skip (a ++ b)).length < b.length)

theorem afterOsc_append (a b : List UInt8) : SkipsWithin afterOsc a b := by
  induction a with
  | nil =>
      cases b with
      | nil => exact .inl rfl
      | cons c b =>
          have := afterOsc_length b
          refine .inr ⟨rfl, ?_⟩
          simp only [List.nil_append, afterOsc, List.length_cons]
          split
          · omega
          · split
            · rw [List.length_tail]
              omega
            · omega
  | cons x a ih =>
      unfold SkipsWithin
      simp only [List.cons_append, afterOsc]
      by_cases hx : x = 7
      · simp [hx]
      · simp only [hx, if_false]
        cases a with
        | nil =>
            by_cases hst : x = 27 ∧ b.head? = some 92
            · refine .inr ⟨by simp [afterOsc], ?_⟩
              obtain ⟨c, rest, rfl⟩ := List.exists_cons_of_ne_nil (l := b)
                (fun hb => by simp [hb] at hst)
              simp [hst]
            · rw [if_neg (by simpa using hst), if_neg (by simp)]
              exact ih
        | cons c a =>
            by_cases hst : x = 27 ∧ c = 92
            · simp [hst]
            · rw [if_neg (by simpa using hst), if_neg (by simpa using hst)]
              exact ih

theorem afterCsi_append (a b : List UInt8) : SkipsWithin afterCsi a b := by
  induction a with
  | nil =>
      cases b with
      | nil => exact .inl rfl
      | cons c b =>
          have := afterCsi_length b
          refine .inr ⟨rfl, ?_⟩
          simp only [List.nil_append, afterCsi, List.length_cons]
          split <;> omega
  | cons x a ih =>
      unfold SkipsWithin
      simp only [List.cons_append, afterCsi]
      split
      · exact .inl rfl
      · exact ih

theorem skipEscapeSequence_append (a b : List UInt8) : SkipsWithin skipEscapeSequence a b := by
  cases a with
  | nil =>
      cases b with
      | nil => exact .inl rfl
      | cons c b =>
          have hosc := afterOsc_length b
          have hcsi := afterCsi_length b
          refine .inr ⟨rfl, ?_⟩
          simp only [List.nil_append, skipEscapeSequence, List.length_cons]
          split
          · omega
          · split <;> omega
  | cons x a =>
      unfold SkipsWithin
      simp only [List.cons_append, skipEscapeSequence]
      split
      · exact afterOsc_append a b
      · split
        · exact afterCsi_append a b
        · exact .inl rfl

theorem skipEchoNoise_append {a : List UInt8} (ha : a ≠ []) (b : List UInt8) :
    skipEchoNoise (a ++ b) = (skipEchoNoise a).map (fun rest => rest ++ b) ∨
      ((∀ rest, skipEchoNoise a = some rest → rest = []) ∧
        ∃ rest, skipEchoNoise (a ++ b) = some rest ∧ rest.length < b.length) := by
  obtain ⟨x, a, rfl⟩ := List.exists_cons_of_ne_nil ha
  simp only [List.cons_append, skipEchoNoise]
  by_cases hesc : x = 27
  · simp only [hesc, if_true]
    rcases skipEscapeSequence_append a b with h | ⟨h, hlen⟩
    · exact .inl (by rw [h]; rfl)
    · exact .inr ⟨fun rest hr => by simpa [h] using hr.symm, _, rfl, hlen⟩
  · simp only [hesc, if_false]
    by_cases hcr : x = 13
    · simp [hcr]
    · simp only [hcr, if_false]
      cases a with
      | nil =>
          by_cases hblank : x = 32 ∧ b.head? = some 13
          · refine .inr ⟨by simp, b.tail, by simp [hblank], ?_⟩
            obtain ⟨c, rest, rfl⟩ := List.exists_cons_of_ne_nil (l := b)
              (fun hb => by simp [hb] at hblank)
            simp
          · refine .inl ?_
            rw [if_neg (by simpa using hblank), if_neg (by simp)]
            rfl
      | cons c a =>
          refine .inl ?_
          by_cases hblank : x = 32 ∧ c = 13
          · simp [hblank]
          · rw [if_neg (by simpa using hblank), if_neg (by simpa using hblank)]
            rfl

theorem matchEcho_nil (data : List UInt8) : matchEcho data [] = some data := by
  rw [matchEcho]

theorem matchEcho_nil_cons (e : UInt8) (echo : List UInt8) : matchEcho [] (e :: echo) = none := by
  rw [matchEcho]

theorem matchEcho_cons {d e : UInt8} {data echo : List UInt8} :
    matchEcho (d :: data) (e :: echo) =
      if d = e then matchEcho data echo
      else (skipEchoNoise (d :: data)).bind fun rest => matchEcho rest (e :: echo) := by
  rw [matchEcho]
  split
  · rfl
  · split <;> simp_all

theorem matchEcho_length {data echo rest : List UInt8} (h : matchEcho data echo = some rest) :
    echo.length + rest.length ≤ data.length := by
  induction hn : data.length using Nat.strongRecOn generalizing data echo with
  | _ n ih =>
      cases echo with
      | nil =>
          rw [matchEcho_nil] at h
          cases h
          simp [hn]
      | cons e echo =>
          cases data with
          | nil =>
              rw [matchEcho_nil_cons] at h
              cases h
          | cons d data =>
              simp only [List.length_cons] at hn ⊢
              rw [matchEcho_cons] at h
              split at h
              · have := ih data.length (by omega) h rfl
                omega
              · obtain ⟨more, hskip, h⟩ := Option.bind_eq_some_iff.mp h
                have hlt := skipEchoNoise_length hskip
                simp only [List.length_cons] at hlt
                have := ih more.length (by omega) h rfl
                simp only [List.length_cons] at this
                omega

theorem matchEcho_append {a echo rest : List UInt8} (h : matchEcho a echo = some rest)
    (b : List UInt8) : matchEcho (a ++ b) echo = some (rest ++ b) := by
  induction hn : a.length using Nat.strongRecOn generalizing a echo with
  | _ n ih =>
      cases echo with
      | nil =>
          rw [matchEcho_nil] at h ⊢
          cases h
          rfl
      | cons e echo =>
          cases a with
          | nil =>
              rw [matchEcho_nil_cons] at h
              cases h
          | cons d a =>
              simp only [List.length_cons] at hn
              rw [matchEcho_cons] at h
              rw [List.cons_append, matchEcho_cons]
              split at h
              · rename_i hde
                rw [if_pos hde]
                exact ih a.length (by omega) h rfl
              · rename_i hde
                rw [if_neg hde]
                obtain ⟨more, hskip, h⟩ := Option.bind_eq_some_iff.mp h
                have hlt := skipEchoNoise_length hskip
                have hmore : more ≠ [] := by
                  rintro rfl
                  rw [matchEcho_nil_cons] at h
                  cases h
                rcases skipEchoNoise_append (List.cons_ne_nil d a) b with hs | ⟨hs, -⟩
                · rw [← List.cons_append, hs, hskip]
                  simp only [List.length_cons] at hlt
                  exact ih more.length (by omega) h rfl
                · exact absurd (hs more hskip) hmore

theorem matchEcho_of_append {a b echo rest : List UInt8}
    (h : matchEcho (a ++ b) echo = some rest) (hlen : b.length ≤ rest.length) :
    ∃ left, matchEcho a echo = some left ∧ rest = left ++ b := by
  induction hn : a.length using Nat.strongRecOn generalizing a echo with
  | _ n ih =>
      cases echo with
      | nil =>
          rw [matchEcho_nil] at h
          cases h
          exact ⟨a, matchEcho_nil a, rfl⟩
      | cons e echo =>
          cases a with
          | nil =>
              have := matchEcho_length h
              simp only [List.nil_append, List.length_cons] at this
              omega
          | cons d a =>
              simp only [List.length_cons] at hn
              rw [List.cons_append, matchEcho_cons] at h
              simp only [matchEcho_cons]
              split at h
              · rename_i hde
                rw [if_pos hde]
                exact ih a.length (by omega) h rfl
              · rename_i hde
                rw [if_neg hde]
                obtain ⟨more, hskip, h⟩ := Option.bind_eq_some_iff.mp h
                have hmore := matchEcho_length h
                rcases skipEchoNoise_append (List.cons_ne_nil d a) b with hs | ⟨-, r, hs, hlt⟩
                · rw [← List.cons_append, hs] at hskip
                  obtain ⟨more', hskip', rfl⟩ := Option.map_eq_some_iff.mp hskip
                  have hlt := skipEchoNoise_length hskip'
                  simp only [List.length_cons] at hlt
                  rw [hskip']
                  exact ih more'.length (by omega) h rfl
                · rw [← List.cons_append, hs] at hskip
                  cases hskip
                  simp only [List.length_cons] at hmore
                  omega

theorem sgrStart_append {n : Nat} {next : UInt8} {a rest : List UInt8}
    (h : sgrStart n next a = some rest) (b : List UInt8) :
    sgrStart n next (a ++ b) = some (rest ++ b) := by
  induction n generalizing next a with
  | zero => cases h
  | succ n ih =>
      cases a with
      | nil => cases h
      | cons x a =>
          simp only [List.cons_append, sgrStart] at h ⊢
          split at h
          · rename_i hx
            rw [if_pos hx]
            split at h
            · rename_i hnext
              cases h
              rw [if_pos hnext]
            · cases h
          · rename_i hx
            rw [if_neg hx]
            split at h
            · rename_i hdigit
              rw [if_pos hdigit]
              exact ih h
            · cases h

theorem sgrStart_of_append {n : Nat} {next : UInt8} {a b rest : List UInt8}
    (h : sgrStart n next (a ++ b) = some rest) (hlen : b.length ≤ rest.length) :
    ∃ left, sgrStart n next a = some left ∧ rest = left ++ b := by
  induction n generalizing next a with
  | zero => cases h
  | succ n ih =>
      cases a with
      | nil =>
          have := sgrStart_length h
          simp only [List.nil_append] at this
          omega
      | cons x a =>
          simp only [List.cons_append, sgrStart] at h ⊢
          split at h
          · rename_i hx
            rw [if_pos hx]
            split at h
            · rename_i hnext
              cases h
              exact ⟨a, if_pos hnext, rfl⟩
            · cases h
          · rename_i hx
            rw [if_neg hx]
            split at h
            · rename_i hdigit
              rw [if_pos hdigit]
              exact ih h
            · cases h

theorem expandLeadingSGR_cons (b : UInt8) (rest : List UInt8) :
    expandLeadingSGR (b :: rest) =
      if b = 109 then (sgrStart 16 b rest).elim (b :: rest) expandLeadingSGR else b :: rest := by
  rw [expandLeadingSGR]
  split
  · split <;> simp_all
  · rfl

theorem sgrStart_suffix {n : Nat} {next : UInt8} {s before : List UInt8}
    (h : sgrStart n next s = some before) : before <:+ s := by
  induction n generalizing next s with
  | zero => cases h
  | succ n ih =>
      cases s with
      | nil => cases h
      | cons b s =>
          simp only [sgrStart] at h
          split at h
          · split at h
            · cases h
              exact List.suffix_cons _ _
            · cases h
          · split at h
            · exact (ih h).trans (List.suffix_cons b s)
            · cases h

theorem expandLeadingSGR_suffix (s : List UInt8) : expandLeadingSGR s <:+ s := by
  induction hn : s.length using Nat.strongRecOn generalizing s with
  | _ n ih =>
      cases s with
      | nil => rw [expandLeadingSGR]
      | cons b rest =>
          rw [expandLeadingSGR_cons]
          split
          · cases hstart : sgrStart 16 b rest with
            | none => exact List.suffix_rfl
            | some before =>
                have hlt := sgrStart_length hstart
                simp only [List.length_cons] at hn
                have hsuffix := ih before.length (by omega) before rfl
                exact (hsuffix.trans (sgrStart_suffix hstart)).trans (List.suffix_cons b rest)
          · exact List.suffix_rfl

theorem expandLeadingSGR_of_append {g b c : List UInt8}
    (h : expandLeadingSGR (g ++ (b ++ c)) = b ++ c) : expandLeadingSGR (g ++ b) = b := by
  induction hn : g.length using Nat.strongRecOn generalizing g with
  | _ n ih =>
      cases g with
      | nil =>
          cases b with
          | nil => rw [List.nil_append, expandLeadingSGR]
          | cons x b =>
              simp only [List.nil_append, List.cons_append, expandLeadingSGR_cons] at h ⊢
              split at h
              · rename_i hx
                rw [if_pos hx]
                cases hstart : sgrStart 16 x b with
                | none => rfl
                | some before =>
                    rw [sgrStart_append hstart c] at h
                    have hlt := sgrStart_length hstart
                    have hle := (expandLeadingSGR_suffix (before ++ c)).length_le
                    rw [Option.elim_some] at h
                    rw [h] at hle
                    simp at hle
                    omega
              · rename_i hx
                rw [if_neg hx]
      | cons x g =>
          simp only [List.length_cons] at hn
          simp only [List.cons_append, expandLeadingSGR_cons] at h ⊢
          have hlen : ∀ t : List UInt8, x :: (g ++ t) ≠ t := fun t ht => by
            have := congrArg List.length ht
            simp at this
            omega
          split at h
          · rename_i hx
            rw [if_pos hx]
            cases hstart : sgrStart 16 x (g ++ (b ++ c)) with
            | none =>
                rw [hstart] at h
                exact absurd h (hlen _)
            | some before =>
                rw [hstart, Option.elim_some] at h
                have hle := (expandLeadingSGR_suffix before).length_le
                rw [h] at hle
                obtain ⟨left, hleft, rfl⟩ := sgrStart_of_append hstart hle
                have hlt := sgrStart_length hleft
                rw [sgrStart_append hleft b, Option.elim_some]
                exact ih left.length (by omega) h rfl
          · exact absurd h (hlen _)

def Starts (echo s : List UInt8) : Prop :=
  s ≠ [] ∧ s.head? = echo.head? ∧ (matchEcho s echo).isSome

instance (echo s : List UInt8) : Decidable (Starts echo s) :=
  inferInstanceAs (Decidable (s ≠ [] ∧ s.head? = echo.head? ∧ (matchEcho s echo).isSome))

theorem Starts.append {echo s : List UInt8} (h : Starts echo s) (t : List UInt8) :
    Starts echo (s ++ t) := by
  obtain ⟨hne, hhead, hmatch⟩ := h
  obtain ⟨rest, hrest⟩ := Option.isSome_iff_exists.mp hmatch
  refine ⟨by simp [hne], ?_, by rw [matchEcho_append hrest]; rfl⟩
  rw [List.head?_append_of_ne_nil s hne]
  exact hhead

theorem findEchoFrom_starts {echo before after : List UInt8} {b : UInt8} {rest : List UInt8}
    (h : Starts echo (b :: rest)) (hm : matchEcho (b :: rest) echo = some after) :
    findEchoFrom echo before (b :: rest) = some (before, after) := by
  rw [findEchoFrom, if_pos (by simpa using h.2.1), hm]

theorem findEchoFrom_not_starts {echo before : List UInt8} {b : UInt8} {rest : List UInt8}
    (h : ¬ Starts echo (b :: rest)) :
    findEchoFrom echo before (b :: rest) = findEchoFrom echo (b :: before) rest := by
  rw [findEchoFrom]
  split
  · rename_i hhead
    cases hm : matchEcho (b :: rest) echo with
    | none => rfl
    | some after => exact absurd ⟨by simp, by simpa using hhead, by simp [hm]⟩ h
  · rfl

theorem findEchoFrom_none {echo before data : List UInt8}
    (h : findEchoFrom echo before data = none) : ∀ z s, data = z ++ s → ¬ Starts echo s := by
  induction data generalizing before with
  | nil =>
      intro z s hdata hs
      obtain ⟨-, rfl⟩ := List.append_eq_nil_iff.mp hdata.symm
      exact hs.1 rfl
  | cons b rest ih =>
      have hno : ¬ Starts echo (b :: rest) := fun hs => by
        obtain ⟨after, ha⟩ := Option.isSome_iff_exists.mp hs.2.2
        rw [findEchoFrom_starts hs ha] at h
        cases h
      rw [findEchoFrom_not_starts hno] at h
      intro z s hdata hs
      cases z with
      | nil =>
          rw [hdata] at hno
          exact hno hs
      | cons c z =>
          obtain ⟨-, hrest⟩ := List.cons.inj hdata
          exact ih h z s hrest hs

theorem findEchoFrom_some {echo before data b' after : List UInt8}
    (h : findEchoFrom echo before data = some (b', after)) :
    ∃ z s, data = z ++ s ∧ b' = z.reverse ++ before ∧ Starts echo s ∧
      matchEcho s echo = some after ∧
      ∀ z₁ z₂, z = z₁ ++ z₂ → z₂ ≠ [] → ¬ Starts echo (z₂ ++ s) := by
  induction data generalizing before with
  | nil => cases h
  | cons b rest ih =>
      by_cases hs : Starts echo (b :: rest)
      · obtain ⟨after', ha⟩ := Option.isSome_iff_exists.mp hs.2.2
        rw [findEchoFrom_starts hs ha] at h
        cases h
        refine ⟨[], b :: rest, rfl, rfl, hs, ha, fun z₁ z₂ hz hne => ?_⟩
        exact absurd (List.append_eq_nil_iff.mp hz.symm).2 hne
      · rw [findEchoFrom_not_starts hs] at h
        obtain ⟨z, s, rfl, rfl, hstarts, ha, hfirst⟩ := ih h
        refine ⟨b :: z, s, rfl, by simp, hstarts, ha, fun z₁ z₂ hz hne => ?_⟩
        cases z₁ with
        | nil =>
            rw [List.nil_append] at hz
            subst hz
            exact hs
        | cons c z₁ => exact hfirst z₁ z₂ (List.cons.inj hz).2 hne

theorem findEchoFrom_eq {echo z s after : List UInt8} (before : List UInt8) (hs : Starts echo s)
    (hm : matchEcho s echo = some after)
    (hfirst : ∀ z₁ z₂, z = z₁ ++ z₂ → z₂ ≠ [] → ¬ Starts echo (z₂ ++ s)) :
    findEchoFrom echo before (z ++ s) = some (z.reverse ++ before, after) := by
  induction z generalizing before with
  | nil =>
      obtain ⟨b, rest, rfl⟩ := List.exists_cons_of_ne_nil hs.1
      exact findEchoFrom_starts hs hm
  | cons b z ih =>
      have hno : ¬ Starts echo (b :: (z ++ s)) := hfirst [] (b :: z) rfl (by simp)
      rw [List.cons_append, findEchoFrom_not_starts hno,
        ih (b :: before) fun z₁ z₂ hz => hfirst (b :: z₁) z₂ (by rw [hz]; rfl)]
      simp

theorem not_starts_nil (s : List UInt8) : ¬ Starts [] s := by
  rintro ⟨hne, hhead, -⟩
  obtain ⟨b, rest, rfl⟩ := List.exists_cons_of_ne_nil hne
  cases hhead

/-- Where an echo is found: `g` are the colours that lead to it. -/
structure FoundAt (echo x g s y : List UInt8) : Prop where
  starts : Starts echo s
  matched : matchEcho s echo = some y
  colours : expandLeadingSGR (x ++ g).reverse = x.reverse
  first : ∀ z₁ z₂, x ++ g = z₁ ++ z₂ → z₂ ≠ [] → ¬ Starts echo (z₂ ++ s)

theorem findWrappedEcho_some {data echo x y : List UInt8} :
    findWrappedEcho data echo = some (x, y) ↔ ∃ g s, data = x ++ g ++ s ∧ FoundAt echo x g s y := by
  unfold findWrappedEcho
  split
  · rename_i hecho
    subst hecho
    constructor
    · intro h
      cases h
    · rintro ⟨g, s, -, h⟩
      exact absurd h.starts (not_starts_nil s)
  · constructor
    · intro h
      obtain ⟨⟨before, after⟩, hfind, hxy⟩ := Option.map_eq_some_iff.mp h
      simp only [Prod.mk.injEq] at hxy
      obtain ⟨hx, rfl⟩ := hxy
      obtain ⟨z, s, rfl, rfl, hs, hm, hfirst⟩ := findEchoFrom_some hfind
      rw [List.append_nil] at hx
      obtain ⟨g', hg⟩ := expandLeadingSGR_suffix z.reverse
      have hz : z = x ++ g'.reverse := by
        rw [← hx, ← List.reverse_append, hg, List.reverse_reverse]
      subst hz
      exact ⟨g'.reverse, s, rfl, hs, hm, List.reverse_eq_iff.mp hx, hfirst⟩
    · rintro ⟨g, s, rfl, h⟩
      rw [findEchoFrom_eq [] h.starts h.matched h.first]
      simp only [Option.map_some, List.append_nil, h.colours, List.reverse_reverse]

theorem findWrappedEcho_none {data echo : List UInt8} :
    findWrappedEcho data echo = none ↔ ∀ z s, data = z ++ s → ¬ Starts echo s := by
  constructor
  · intro h
    unfold findWrappedEcho at h
    split at h
    · rename_i hecho
      subst hecho
      exact fun _ s _ => not_starts_nil s
    · exact findEchoFrom_none (Option.map_eq_none_iff.mp h)
  · intro h
    cases hfind : findWrappedEcho data echo with
    | none => rfl
    | some p =>
        obtain ⟨g, s, hdata, hat⟩ := findWrappedEcho_some.mp hfind
        exact absurd hat.starts (h (p.1 ++ g) s hdata)

theorem findWrappedEcho_none_part {echo a b c : List UInt8}
    (h : findWrappedEcho (a ++ b ++ c) echo = none) : findWrappedEcho b echo = none := by
  rw [findWrappedEcho_none] at h ⊢
  intro z s hb hs
  refine h (a ++ z) (s ++ c) ?_ (hs.append c)
  simp [hb]

theorem findWrappedEcho_part {echo x₁ x₂ w y₁ y₂ : List UInt8}
    (h : findWrappedEcho (x₁ ++ x₂ ++ w ++ (y₁ ++ y₂)) echo = some (x₁ ++ x₂, y₁ ++ y₂)) :
    findWrappedEcho (x₂ ++ w ++ y₁) echo = some (x₂, y₁) := by
  obtain ⟨g, s, hdata, hat⟩ := findWrappedEcho_some.mp h
  have hws : w ++ (y₁ ++ y₂) = g ++ s := by
    rw [List.append_assoc, List.append_assoc (x₁ ++ x₂)] at hdata
    exact List.append_cancel_left hdata
  have hlen := matchEcho_length hat.matched
  have hecho : echo ≠ [] := fun he => not_starts_nil s (he ▸ hat.starts)
  have hpos := List.length_pos_iff.mpr hecho
  obtain ⟨v, rfl, rfl⟩ : ∃ v, w = g ++ v ∧ s = v ++ (y₁ ++ y₂) := by
    rcases List.append_eq_append_iff.mp hws with ⟨a, -, hy⟩ | hv
    · rw [hy, List.length_append] at hlen
      omega
    · exact hv
  have hmatch := hat.matched
  rw [← List.append_assoc] at hmatch
  obtain ⟨left, hleft, hy⟩ := matchEcho_of_append hmatch (by simp)
  obtain rfl := List.append_cancel_right hy
  have hne : v ++ y₁ ≠ [] := fun hnil => by
    have := matchEcho_length hleft
    rw [hnil, List.length_nil] at this
    omega
  refine findWrappedEcho_some.mpr ⟨g, v ++ y₁, by simp, ⟨hne, ?_, by simp [hleft]⟩, hleft, ?_, ?_⟩
  · have hhead := hat.starts.2.1
    rw [← List.append_assoc, List.head?_append_of_ne_nil _ hne] at hhead
    exact hhead
  · have hcolours := hat.colours
    simp only [List.reverse_append] at hcolours ⊢
    exact expandLeadingSGR_of_append hcolours
  · intro z₁ z₂ hz hz₂ hs
    refine hat.first (x₁ ++ z₁) z₂ (by simp [hz]) hz₂ ?_
    have := hs.append y₂
    simpa using this

/-- The echo stands in the text at `w` and nowhere else, and is gone when it is taken out. -/
structure Once (echo x w y : List UInt8) : Prop where
  found : findWrappedEcho (x ++ w ++ y) echo = some (x, y)
  unique : ∀ z s z' s', x ++ w ++ y = z ++ s → Starts echo s → x ++ w ++ y = z' ++ s' →
    Starts echo s' → s = s'
  gone : findWrappedEcho (x ++ y) echo = none

theorem Once.found_part {echo x w y a p t before after : List UInt8} (h : Once echo x w y)
    (hdata : x ++ w ++ y = a ++ p ++ t) (hfound : findWrappedEcho p echo = some (before, after)) :
    y = after ++ t := by
  obtain ⟨g, s, hs, hat⟩ := findWrappedEcho_some.mp h.found
  obtain ⟨g', s', rfl, hat'⟩ := findWrappedEcho_some.mp hfound
  have hsplit : x ++ w ++ y = (a ++ (before ++ g')) ++ (s' ++ t) := by rw [hdata]; simp
  have heq := h.unique _ _ _ _ hs hat.starts hsplit (hat'.starts.append t)
  have hmatch := hat.matched
  rw [heq, matchEcho_append hat'.matched, Option.some.injEq] at hmatch
  exact hmatch.symm

theorem starts_unique {echo data t : List UInt8}
    (h : data.tails.filter (fun s => decide (Starts echo s)) = [t]) :
    ∀ z s z' s', data = z ++ s → Starts echo s → data = z' ++ s' → Starts echo s' → s = s' := by
  have hall : ∀ z s, data = z ++ s → Starts echo s → s = t := fun z s hdata hs => by
    have hmem : s ∈ data.tails.filter (fun s => decide (Starts echo s)) := by
      rw [List.mem_filter, List.mem_tails]
      exact ⟨⟨z, hdata.symm⟩, decide_eq_true hs⟩
    rwa [h, List.mem_singleton] at hmem
  intro z s z' s' hdata hs hdata' hs'
  rw [hall z s hdata hs, hall z' s' hdata' hs']

theorem Once.none_of_cut {echo x w y a p t : List UInt8} (h : Once echo x w y)
    (hdata : x ++ w ++ y = a ++ p ++ t) (hlen : y.length < t.length) :
    findWrappedEcho p echo = none := by
  cases hfound : findWrappedEcho p echo with
  | none => rfl
  | some found =>
      rw [h.found_part hdata hfound, List.length_append] at hlen
      omega

theorem Once.drop {echo x₁ x₂ w y : List UInt8} (h : Once echo (x₁ ++ x₂) w y) :
    Once echo x₂ w y where
  found := by
    have hfound := h.found
    rw [← List.append_nil y] at hfound
    exact findWrappedEcho_part hfound
  unique z s z' s' hz hs hz' hs' := by
    refine h.unique (x₁ ++ z) s (x₁ ++ z') s' ?_ hs ?_ hs'
    · rw [List.append_assoc x₁ z, ← hz]
      simp
    · rw [List.append_assoc x₁ z', ← hz']
      simp
  gone := by
    have := h.gone
    rw [List.append_assoc] at this
    exact findWrappedEcho_none_part (a := x₁) (c := []) (by simpa using this)

theorem find_tails_length {p : List UInt8 → Bool} {l t : List UInt8}
    (h : t <:+ l) (ht : p t = true) :
    ∃ found, l.tails.find? p = some found ∧ t.length ≤ found.length := by
  induction l with
  | nil =>
      obtain rfl := List.suffix_nil.mp h
      exact ⟨[], by simp [ht], le_rfl⟩
  | cons b l ih =>
      rw [List.tails_cons, List.find?_cons]
      cases hp : p (b :: l) with
      | true => exact ⟨b :: l, rfl, h.length_le⟩
      | false =>
          rcases List.suffix_cons_iff.mp h with rfl | h
          · rw [hp] at ht
            cases ht
          · exact ih h

theorem prefixOverlap_le (data echo : List UInt8) : prefixOverlap data echo ≤ data.length := by
  unfold prefixOverlap
  simp only
  cases hfind : List.find? _ _ with
  | none => simp
  | some found =>
      have hmem := List.mem_of_find?_eq_some hfind
      have hlen := ((List.mem_tails _ _).mp hmem).length_le
      simp only [List.length_drop] at hlen
      simp
      omega

theorem beginsEcho_of_prefixOverlap {data echo : List UInt8} (h : prefixOverlap data echo ≠ 0) :
    beginsEcho echo (data.drop (data.length - prefixOverlap data echo)) = true ∧
      prefixOverlap data echo ≤ echo.length * maxEchoInflation := by
  unfold prefixOverlap at h ⊢
  simp only at h ⊢
  cases hfind : List.find? _ _ with
  | none =>
      rw [hfind] at h
      simp at h
  | some found =>
      simp only [Option.map_some, Option.getD_some]
      have hsuffix := (List.mem_tails _ _).mp (List.mem_of_find?_eq_some hfind)
      have hlimit := hsuffix.length_le
      simp only [List.length_drop] at hlimit
      have hfound := List.suffix_iff_eq_drop.mp (hsuffix.trans (List.drop_suffix _ _))
      rw [← hfound]
      exact ⟨List.find?_some hfind, by omega⟩

theorem le_prefixOverlap {data echo t : List UInt8} (h : t <:+ data)
    (hbegins : beginsEcho echo t = true) (hlimit : t.length ≤ echo.length * maxEchoInflation) :
    t.length ≤ prefixOverlap data echo := by
  have hle := h.length_le
  have hin : t <:+ data.drop (data.length - min (echo.length * maxEchoInflation) data.length) := by
    refine List.suffix_of_suffix_length_le h (List.drop_suffix _ _) ?_
    simp only [List.length_drop]
    omega
  obtain ⟨longer, hlonger, hle⟩ := find_tails_length hin hbegins
  simp only [prefixOverlap, hlonger]
  exact hle

end Dolgate.Autocomplete
