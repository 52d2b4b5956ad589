import Mathlib
import Dolgate.Base64

set_option autoImplicit false

/-! The rate limiter of the authentication routes: an attempt counts for each of its keys. -/

namespace Dolgate.AuthRateLimit

structure RateLimitRuleConfig where
  limit : Int
  windowSeconds : Int

structure Entry where
  count : Nat
  resetAt : Int
  deriving DecidableEq, Repr

structure Limiter where
  limit : Nat
  window : Int
  entries : List Char → Option Entry := fun _ => none

def newAuthRateLimiter (config : RateLimitRuleConfig) : Option Limiter :=
  if config.limit ≤ 0 ∨ config.windowSeconds ≤ 0 then none
  else some { limit := config.limit.toNat, window := config.windowSeconds * 10 ^ 9 }

def uniqueRateLimitKeys (keys : List (List Char)) : List (List Char) :=
  keys.foldl (fun result key =>
    let trimmed := Base64.trimSpace key
    if trimmed = [] ∨ trimmed ∈ result then result else result ++ [trimmed]) []

/-- A call of `Allow`: the time it has read before it takes the lock, and its keys. -/
structure Call where
  now : Int
  keys : List (List Char)

namespace Limiter

def sweep (limiter : Limiter) (now : Int) : Limiter :=
  { limiter with entries := fun key => (limiter.entries key).filter (now < ·.resetAt) }

def full (limiter : Limiter) (now : Int) (key : List Char) : Bool :=
  (limiter.entries key).any fun entry => now < entry.resetAt ∧ limiter.limit ≤ entry.count

def count (limiter : Limiter) (now : Int) (key : List Char) : Limiter :=
  let entry : Entry :=
    match (limiter.entries key).filter (now < ·.resetAt) with
    | none => { count := 1, resetAt := now + limiter.window }
    | some entry => { entry with count := entry.count + 1 }
  { limiter with entries := Function.update limiter.entries key (some entry) }

def allow (limiter : Limiter) (call : Call) : Bool × Limiter :=
  let keys := uniqueRateLimitKeys call.keys
  if keys = [] then (true, limiter)
  else
    let swept := limiter.sweep call.now
    if keys.any (swept.full call.now) then (false, swept)
    else (true, keys.foldl (fun limiter key => limiter.count call.now key) swept)

def answers (limiter : Limiter) : List Call → List (Call × Bool)
  | [] => []
  | call :: rest =>
    let (allowed, limiter) := limiter.allow call
    (call, allowed) :: limiter.answers rest

end Limiter

/-- How many attempts for the key have been let through from `start` on and before `stop`. -/
def passed (key : List Char) (start stop : Int) (log : List (Call × Bool)) : Nat :=
  log.countP fun e => e.2 ∧ key ∈ uniqueRateLimitKeys e.1.keys ∧ start ≤ e.1.now ∧ e.1.now < stop

/-- No call has read the clock more than `lag` before one that has had the lock earlier. -/
def Timely (lag : Int) (calls : List Call) : Prop :=
  calls.Pairwise fun earlier later => earlier.now - lag ≤ later.now

theorem nodup_uniqueRateLimitKeys (keys : List (List Char)) : (uniqueRateLimitKeys keys).Nodup := by
  suffices h : ∀ result : List (List Char), result.Nodup → (keys.foldl (fun result key =>
      let trimmed := Base64.trimSpace key
      if trimmed = [] ∨ trimmed ∈ result then result else result ++ [trimmed]) result).Nodup from
    h [] List.nodup_nil
  induction keys with
  | nil => exact fun _ h => h
  | cons key rest ih =>
    intro result hresult
    refine ih _ ?_
    dsimp only
    split
    · exact hresult
    · next hnew =>
      have hnew := (not_or.mp hnew).2
      exact List.nodup_append.mpr ⟨hresult, List.nodup_singleton _, fun a ha b hb heq =>
        hnew (List.mem_singleton.mp hb ▸ heq ▸ ha)⟩

theorem foldl_count (limiter : Limiter) (now : Int) (key : List Char) {keys : List (List Char)}
    (hnodup : keys.Nodup) :
    (keys.foldl (fun limiter key => limiter.count now key) limiter).limit = limiter.limit ∧
    (keys.foldl (fun limiter key => limiter.count now key) limiter).window = limiter.window ∧
    (keys.foldl (fun limiter key => limiter.count now key) limiter).entries key =
      if key ∈ keys then (limiter.count now key).entries key else limiter.entries key := by
  induction keys generalizing limiter with
  | nil => exact ⟨rfl, rfl, rfl⟩
  | cons first rest ih =>
    obtain ⟨hfirst, hrest⟩ := List.nodup_cons.mp hnodup
    obtain ⟨hlimit, hwindow, hentries⟩ := ih (limiter.count now first) hrest
    refine ⟨hlimit, hwindow, hentries.trans ?_⟩
    by_cases hkey : key = first
    · subst hkey
      rw [if_neg hfirst, if_pos List.mem_cons_self]
    · have hother : (limiter.count now first).entries key = limiter.entries key :=
        Function.update_of_ne hkey _ _
      simp only [List.mem_cons, hkey, false_or]
      split
      · simp only [Limiter.count, Function.update_self, Function.update_of_ne hkey]
      · exact hother

/-- What a call can do to a key: it does not count, or it begins or extends an entry of the key. -/
theorem allow_cases (limiter : Limiter) (call : Call) (key : List Char) :
    let before := (limiter.entries key).filter (call.now < ·.resetAt)
    let after := (limiter.allow call).2
    (after.limit = limiter.limit ∧ after.window = limiter.window) ∧
    (¬ ((limiter.allow call).1 = true ∧ key ∈ uniqueRateLimitKeys call.keys) ∧
        (after.entries key = before ∨ after.entries key = limiter.entries key) ∨
      before = none ∧ after.entries key = some ⟨1, call.now + limiter.window⟩ ∨
      ∃ entry, before = some entry ∧ entry.count < limiter.limit ∧
        after.entries key = some { entry with count := entry.count + 1 }) := by
  intro before after
  simp only [after, Limiter.allow]
  split
  · next hnil =>
    refine ⟨⟨rfl, rfl⟩, .inl ⟨fun h => ?_, .inr rfl⟩⟩
    rw [hnil] at h
    cases h.2
  · split
    · exact ⟨⟨rfl, rfl⟩, .inl ⟨fun h => absurd h.1 Bool.false_ne_true, .inl rfl⟩⟩
    · next hfull =>
      obtain ⟨hlimit, hwindow, hentries⟩ := foldl_count (limiter.sweep call.now) call.now key
        (nodup_uniqueRateLimitKeys call.keys)
      refine ⟨⟨hlimit, hwindow⟩, ?_⟩
      rw [hentries]
      split
      · next hkey =>
        right
        have hroom : ¬ (limiter.sweep call.now).full call.now key = true := fun h =>
          hfull (List.any_eq_true.mpr ⟨key, hkey, h⟩)
        have hswept : (limiter.sweep call.now).entries key = before := rfl
        have htwice : before.filter (call.now < ·.resetAt) = before := by
          simp only [before, Option.filter_filter, Bool.and_self]
        simp only [Limiter.count, Function.update_self, hswept, htwice]
        cases hbefore : before with
        | none => exact .inl ⟨rfl, rfl⟩
        | some entry =>
          refine .inr ⟨entry, rfl, Nat.lt_of_not_le fun hle => hroom ?_, rfl⟩
          have halive := (Option.filter_eq_some_iff.mp hbefore).2
          rw [Limiter.full, hswept, hbefore, Option.any_some]
          exact decide_eq_true ⟨of_decide_eq_true halive, hle⟩
      · next hkey => exact .inl ⟨fun h => hkey h.2, .inl rfl⟩

/-- What `n` attempts since `start` have left of a key, the latest clock being `latest`: they are
those of its entry, or of an entry that is over, or of that one and the next, or both are over. -/
def Accounts (limit : Nat) (window start lag : Int) (stored? : Option Entry) (latest : Int)
    (n : Nat) : Prop :=
  n = 0 ∨ start ≤ latest ∧
    ((∃ entry, stored? = some entry ∧ n ≤ entry.count) ∨ (stored? = none ∧ n ≤ limit) ∨
      (∃ entry, stored? = some entry ∧ n ≤ limit + entry.count ∧
        start - lag + window ≤ entry.resetAt) ∨
      n ≤ 2 * limit ∧ start + window - lag ≤ latest)

section

variable {limit n i : Nat} {window start lag latest now : Int} {stored? : Option Entry}
  {entry : Entry}

theorem Accounts.le (h : Accounts limit window start lag stored? latest n)
    (hcount : ∀ entry, stored? = some entry → entry.count ≤ limit) : n ≤ 2 * limit := by
  obtain rfl | ⟨_, ⟨e, he, hn⟩ | ⟨_, hn⟩ | ⟨e, he, hn, _⟩ | ⟨hn, _⟩⟩ := h
  · omega
  · have := hcount e he
    omega
  · omega
  · have := hcount e he
    omega
  · exact hn

theorem Accounts.later (h : Accounts limit window start lag stored? latest n) (now : Int) :
    Accounts limit window start lag stored? (max latest now) n := by
  refine h.imp_right fun ⟨hstart, h⟩ => ⟨by omega, ?_⟩
  exact h.imp_right (Or.imp_right (Or.imp_right fun h => ⟨h.1, by omega⟩))

theorem Accounts.swept (now : Int) (h : Accounts limit window start lag stored? latest n)
    (hcount : ∀ entry, stored? = some entry → entry.count ≤ limit) :
    Accounts limit window start lag (stored?.filter (now < ·.resetAt)) (max latest now) n := by
  cases stored? with
  | none => exact h.later now
  | some entry =>
    by_cases halive : now < entry.resetAt
    · rw [Option.filter_some, if_pos (decide_eq_true halive)]
      exact h.later now
    · rw [Option.filter_some, if_neg (by simpa using halive)]
      have hle := hcount entry rfl
      obtain rfl | ⟨hstart, ⟨e, he, hn⟩ | ⟨he, _⟩ | ⟨e, he, hn, hreset⟩ | ⟨hn, hover⟩⟩ := h
      · exact .inl rfl
      · cases he
        exact .inr ⟨by omega, .inr (.inl ⟨rfl, by omega⟩)⟩
      · cases he
      · cases he
        exact .inr ⟨by omega, .inr (.inr (.inr ⟨by omega, by omega⟩))⟩
      · exact .inr ⟨by omega, .inr (.inr (.inr ⟨hn, by omega⟩))⟩

theorem Accounts.begin (h : Accounts limit window start lag none latest n) (hnow : now ≤ latest)
    (hlag : latest - lag ≤ now) (hi : i ≤ 1)
    (hspan : 0 < i → start ≤ now ∧ now < start + window - 2 * lag) :
    Accounts limit window start lag (some ⟨1, now + window⟩) latest (n + i) := by
  by_cases hzero : i = 0 ∧ n = 0
  · exact .inl (by omega)
  obtain rfl | ⟨hstart, ⟨e, he, _⟩ | ⟨_, hn⟩ | ⟨e, he, _⟩ | ⟨hn, hover⟩⟩ := h
  · exact .inr ⟨by omega, .inl ⟨_, rfl, by dsimp only; omega⟩⟩
  · cases he
  · exact .inr ⟨hstart, .inr (.inr (.inl ⟨_, rfl, by dsimp only; omega, by dsimp only; omega⟩))⟩
  · cases he
  · exact .inr ⟨hstart, .inr (.inr (.inr ⟨by omega, hover⟩))⟩

theorem Accounts.extend (h : Accounts limit window start lag (some entry) latest n)
    (hnow : now ≤ latest) (hlag : latest - lag ≤ now) (hi : i ≤ 1)
    (hspan : 0 < i → start ≤ now ∧ now < start + window - 2 * lag) :
    Accounts limit window start lag (some { entry with count := entry.count + 1 }) latest
      (n + i) := by
  by_cases hzero : i = 0 ∧ n = 0
  · exact .inl (by omega)
  obtain rfl | ⟨hstart, ⟨e, he, hn⟩ | ⟨he, _⟩ | ⟨e, he, hn, hreset⟩ | ⟨hn, hover⟩⟩ := h
  · exact .inr ⟨by omega, .inl ⟨_, rfl, by dsimp only; omega⟩⟩
  · cases he
    exact .inr ⟨hstart, .inl ⟨_, rfl, by dsimp only; omega⟩⟩
  · cases he
  · cases he
    exact .inr ⟨hstart, .inr (.inr (.inl ⟨_, rfl, by dsimp only; omega, hreset⟩))⟩
  · exact .inr ⟨hstart, .inr (.inr (.inr ⟨by omega, hover⟩))⟩

end

theorem passed_answers (key : List Char) (start : Int) {lag : Int} {calls : List Call}
    {limiter : Limiter} {latest : Int} {n : Nat}
    (hcount : ∀ entry, limiter.entries key = some entry → entry.count ≤ limiter.limit)
    (hpos : 0 < limiter.limit)
    (h : Accounts limiter.limit limiter.window start lag (limiter.entries key) latest n)
    (htimely : Timely lag calls) (hlate : ∀ call ∈ calls, latest - lag ≤ call.now)
    (hlag : 0 ≤ lag) :
    n + passed key start (start + limiter.window - 2 * lag) (limiter.answers calls) ≤
      2 * limiter.limit := by
  induction calls generalizing limiter latest n with
  | nil => exact h.le hcount
  | cons call rest ih =>
    obtain ⟨hfirst, hrest⟩ := List.pairwise_cons.mp htimely
    have hnow := hlate call List.mem_cons_self
    have hlate' : ∀ c ∈ rest, max latest call.now - lag ≤ c.now := by
      intro c hc
      have := hfirst c hc
      have := hlate c (List.mem_cons_of_mem _ hc)
      omega
    let i : Nat := if (limiter.allow call).1 = true ∧ key ∈ uniqueRateLimitKeys call.keys ∧
      start ≤ call.now ∧ call.now < start + limiter.window - 2 * lag then 1 else 0
    have hi : i ≤ 1 := by
      dsimp only [i]
      split <;> omega
    have hspan : 0 < i → start ≤ call.now ∧ call.now < start + limiter.window - 2 * lag := by
      dsimp only [i]
      split
      · next h => exact fun _ => h.2.2
      · exact fun h => absurd h (Nat.lt_irrefl 0)
    have hpassed : n + passed key start (start + limiter.window - 2 * lag)
        (limiter.answers (call :: rest)) =
        n + i + passed key start (start + limiter.window - 2 * lag)
          ((limiter.allow call).2.answers rest) := by
      rw [Limiter.answers, passed, List.countP_cons, ← passed, Nat.add_assoc, Nat.add_comm i]
      simp only [decide_eq_true_eq, i]
    rw [hpassed]
    obtain ⟨⟨hlimit, hwindow⟩, hcases⟩ := allow_cases limiter call key
    have hswept := h.swept call.now hcount
    have hkept : ∀ e, (limiter.allow call).2.entries key = some e →
        e.count ≤ (limiter.allow call).2.limit := by
      intro e he
      rw [hlimit]
      obtain ⟨_, hsame | hsame⟩ | ⟨_, hnew⟩ | ⟨entry, _, hroom, hnew⟩ := hcases
      · exact hcount e (Option.eq_some_of_filter_eq_some (hsame.symm.trans he))
      · exact hcount e (hsame.symm.trans he)
      · cases hnew.symm.trans he
        exact hpos
      · cases hnew.symm.trans he
        exact hroom
    rw [← hlimit, ← hwindow]
    refine ih hkept (hlimit ▸ hpos) ?_ hrest hlate'
    rw [hlimit, hwindow]
    obtain ⟨hnot, hsame | hsame⟩ | ⟨hnone, hnew⟩ | ⟨entry, hsome, _, hnew⟩ := hcases
    · have hzero : i = 0 := if_neg fun h => hnot ⟨h.1, h.2.1⟩
      rw [hsame, hzero]
      exact hswept
    · have hzero : i = 0 := if_neg fun h => hnot ⟨h.1, h.2.1⟩
      rw [hsame, hzero]
      exact h.later call.now
    · rw [hnone] at hswept
      rw [hnew]
      exact hswept.begin (by omega) (by omega) hi hspan
    · rw [hsome] at hswept
      rw [hnew]
      exact hswept.extend (by omega) (by omega) hi hspan

end Dolgate.AuthRateLimit
