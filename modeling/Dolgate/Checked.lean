import Mathlib

set_option autoImplicit false

/-! Programs whose arithmetic and indexing are checked. What is out of range panics. What the
program has written to its state before it stops remains written. -/

namespace Dolgate.Checked

inductive Stop (ε : Type) where
  | error (e : ε)
  | panic
  deriving DecidableEq, Repr

/-- A program over the state `σ` that fails with an `ε`. -/
def Comp (σ ε α : Type) : Type := σ → Except (Stop ε) α × σ

variable {σ ε α β : Type}

namespace Comp

def bind (m : Comp σ ε α) (f : α → Comp σ ε β) : Comp σ ε β := fun s =>
  match m s with
  | (.ok a, s') => f a s'
  | (.error stop, s') => (.error stop, s')

end Comp

instance : Monad (Comp σ ε) where
  pure a := fun s => (.ok a, s)
  bind := Comp.bind

def state : Comp σ ε σ := fun s => (.ok s, s)

def put (s : σ) : Comp σ ε Unit := fun _ => (.ok (), s)

def fail (e : ε) : Comp σ ε α := fun s => (.error (.error e), s)

def crash : Comp σ ε α := fun s => (.error .panic, s)

def orFail (o : Option α) (e : ε) : Comp σ ε α :=
  match o with
  | some a => pure a
  | none => fail e

/-- The result of `m`, if it does not fail. -/
def attempt (m : Comp σ ε α) : Comp σ ε (Option α) := fun s =>
  match m s with
  | (.ok a, s') => (.ok (some a), s')
  | (.error (.error _), s') => (.ok none, s')
  | (.error .panic, s') => (.error .panic, s')

/-- A number that has to be less than `bound`. -/
def below (bound n : Nat) : Comp σ ε Nat := if n < bound then pure n else crash

def u16 (n : Nat) : Comp σ ε Nat := below (2 ^ 16) n

def u32 (n : Nat) : Comp σ ε Nat := below (2 ^ 32) n

def usize (n : Nat) : Comp σ ε Nat := below (2 ^ 64) n

def i32 (n : Int) : Comp σ ε Int := if -2 ^ 31 ≤ n ∧ n < 2 ^ 31 then pure n else crash

def sub (m n : Nat) : Comp σ ε Nat := if n ≤ m then pure (m - n) else crash

def checkedAdd (m n : Nat) : Option Nat := if m + n < 2 ^ 64 then some (m + n) else none

def checkedMul (m n : Nat) : Option Nat := if m * n < 2 ^ 64 then some (m * n) else none

def index (xs : List α) (i : Nat) : Comp σ ε α :=
  match xs[i]? with
  | some x => pure x
  | none => crash

def store (xs : List α) (i : Nat) (x : α) : Comp σ ε (List α) :=
  if i < xs.length then pure (xs.set i x) else crash

/-- `xs[start..stop]` -/
def slice (xs : List α) (start stop : Nat) : Comp σ ε (List α) :=
  if start ≤ stop ∧ stop ≤ xs.length then pure ((xs.take stop).drop start) else crash

/-- `ys` in the place of as many elements of `xs`. -/
def splice (xs : List α) (start : Nat) (ys : List α) : List α :=
  xs.take start ++ ys ++ xs.drop (start + ys.length)

/-- `xs[start..stop].copy_from_slice(ys)` -/
def copyInto (xs : List α) (start stop : Nat) (ys : List α) : Comp σ ε (List α) :=
  if start ≤ stop ∧ stop ≤ xs.length ∧ ys.length = stop - start then pure (splice xs start ys)
  else crash

/-- The whole chunks of `n` elements. -/
def chunks (n : Nat) (xs : List α) : List (List α) :=
  (List.range (xs.length / n)).map fun i => (xs.drop (i * n)).take n

def chunksExact (n : Nat) (xs : List α) : Comp σ ε (List (List α)) :=
  if 0 < n then pure (chunks n xs) else crash

/-- `for i in from..from + n`, with what the iterations pass on. -/
def forFrom (body : Nat → α → Comp σ ε α) : Nat → Nat → α → Comp σ ε α
  | _, 0, a => pure a
  | i, n + 1, a => do forFrom body (i + 1) n (← body i a)

def forRange (n : Nat) (body : Nat → α → Comp σ ε α) (a : α) : Comp σ ε α := forFrom body 0 n a

/-- `for (i, x) in xs.iter().enumerate()` -/
def forEach (xs : List β) (body : Nat → β → α → Comp σ ε α) (a : α) : Comp σ ε α :=
  forRange xs.length (fun i a => do body i (← index xs i) a) a

/-- `while cond`, for less than `fuel` iterations. One more panics. -/
def whileLoop (cond : α → Bool) (body : α → Comp σ ε α) : Nat → α → Comp σ ε α
  | 0, _ => crash
  | fuel + 1, a => if cond a then do whileLoop cond body fuel (← body a) else pure a

/-- From `s` the program does not panic. It returns with `Q`, or fails and leaves `E`. -/
def wp (m : Comp σ ε α) (Q : α → σ → Prop) (E : σ → Prop) (s : σ) : Prop :=
  match m s with
  | (.ok a, s') => Q a s'
  | (.error (.error _), s') => E s'
  | (.error .panic, _) => False

variable {Q : α → σ → Prop} {E : σ → Prop} {s : σ}

theorem wp_iff {m : Comp σ ε α} : wp m Q E s ↔
    (∃ a s', m s = (.ok a, s') ∧ Q a s') ∨ ∃ e s', m s = (.error (.error e), s') ∧ E s' := by
  unfold wp
  rcases m s with ⟨⟨e | _⟩ | a, s'⟩
  · simp
  · simp
  · simp

theorem wp_returned {m : Comp σ ε α} {a : α} {s' : σ} (h : wp m Q E s)
    (hm : m s = (.ok a, s')) : Q a s' := by
  unfold wp at h
  rwa [hm] at h

/-- What can only return does so. -/
theorem wp_total {m : Comp σ ε α} (h : wp m Q (fun _ => False) s) :
    ∃ a s', m s = (.ok a, s') ∧ Q a s' := by
  rcases wp_iff.mp h with h | ⟨_, _, _, h⟩
  · exact h
  · exact h.elim

theorem wp_pure {a : α} : wp (pure a : Comp σ ε α) Q E s ↔ Q a s := Iff.rfl

theorem wp_state {Q : σ → σ → Prop} : wp (state : Comp σ ε σ) Q E s ↔ Q s s := Iff.rfl

theorem wp_put {s' : σ} {Q : Unit → σ → Prop} : wp (put s' : Comp σ ε Unit) Q E s ↔ Q () s' :=
  Iff.rfl

theorem wp_fail {e : ε} : wp (fail e : Comp σ ε α) Q E s ↔ E s := Iff.rfl

theorem wp_bind {m : Comp σ ε α} {f : α → Comp σ ε β} {Q : β → σ → Prop} :
    wp (m >>= f) Q E s ↔ wp m (fun a s => wp (f a) Q E s) E s := by
  simp only [wp, Bind.bind, Comp.bind]
  rcases m s with ⟨⟨_ | _⟩ | _, s'⟩ <;> rfl

theorem wp_mono {m : Comp σ ε α} {Q' : α → σ → Prop} {E' : σ → Prop}
    (h : wp m Q E s) (hQ : ∀ a s, Q a s → Q' a s) (hE : ∀ s, E s → E' s) : wp m Q' E' s := by
  unfold wp at h ⊢
  rcases h' : m s with ⟨⟨_ | _⟩ | _, s'⟩ <;> simp only [h'] at h ⊢
  · exact hE s' h
  · exact hQ _ s' h

/-- The rule for a sequence: what the first program returns with is enough for the second. -/
theorem wp_seq {m : Comp σ ε α} {f : α → Comp σ ε β} {Q' : β → σ → Prop}
    (hm : wp m Q E s) (hf : ∀ a s, Q a s → wp (f a) Q' E s) : wp (m >>= f) Q' E s :=
  wp_bind.mpr (wp_mono hm hf fun _ h => h)

theorem wp_ite {c : Prop} [Decidable c] {m m' : Comp σ ε α} (h : c → wp m Q E s)
    (h' : ¬ c → wp m' Q E s) : wp (if c then m else m') Q E s := by
  split
  · exact h ‹_›
  · exact h' ‹_›

theorem wp_below {bound n : Nat} {Q : Nat → σ → Prop} (h : n < bound) (hQ : Q n s) :
    wp (below bound n : Comp σ ε Nat) Q E s := by
  rw [below, if_pos h]
  exact hQ

theorem wp_u16 {n : Nat} {Q : Nat → σ → Prop} (h : n < 2 ^ 16) (hQ : Q n s) :
    wp (u16 n : Comp σ ε Nat) Q E s := wp_below h hQ

theorem wp_usize {n : Nat} {Q : Nat → σ → Prop} (h : n < 2 ^ 64) (hQ : Q n s) :
    wp (usize n : Comp σ ε Nat) Q E s := wp_below h hQ

theorem wp_i32 {n : Int} {Q : Int → σ → Prop} (h : -2 ^ 31 ≤ n ∧ n < 2 ^ 31) (hQ : Q n s) :
    wp (i32 n : Comp σ ε Int) Q E s := by
  rw [i32, if_pos h]
  exact hQ

theorem wp_sub {m n : Nat} {Q : Nat → σ → Prop} (h : n ≤ m) (hQ : Q (m - n) s) :
    wp (sub m n : Comp σ ε Nat) Q E s := by
  rw [sub, if_pos h]
  exact hQ

theorem wp_index {xs : List α} {i : Nat} (h : i < xs.length) (hQ : Q xs[i] s) :
    wp (index xs i : Comp σ ε α) Q E s := by
  rw [index, List.getElem?_eq_getElem h]
  exact hQ

theorem wp_index_some {xs : List α} {i : Nat} {x : α} (h : xs[i]? = some x) (hQ : Q x s) :
    wp (index xs i : Comp σ ε α) Q E s := by
  rw [index, h]
  exact hQ

theorem wp_orFail {o : Option α} {e : ε} (hQ : ∀ a, o = some a → Q a s) (hE : E s) :
    wp (orFail o e : Comp σ ε α) Q E s := by
  cases o with
  | some a => exact hQ a rfl
  | none => exact hE

theorem wp_orFail_some {o : Option α} {a : α} {e : ε} (h : o = some a) (hQ : Q a s) :
    wp (orFail o e : Comp σ ε α) Q E s := by
  rw [h]
  exact hQ

theorem wp_attempt {m : Comp σ ε α} {Q : Option α → σ → Prop}
    (h : wp m (fun a s => Q (some a) s) (fun s => Q none s) s) : wp (attempt m) Q E s := by
  unfold wp attempt at *
  rcases h' : m s with ⟨⟨_ | _⟩ | _, s'⟩ <;> simp only [h'] at h ⊢
  · exact h
  · exact h

theorem wp_store {xs : List α} {i : Nat} {x : α} {Q : List α → σ → Prop} (h : i < xs.length)
    (hQ : Q (xs.set i x) s) : wp (store xs i x : Comp σ ε (List α)) Q E s := by
  rw [store, if_pos h]
  exact hQ

theorem wp_slice {xs : List α} {start stop : Nat} {Q : List α → σ → Prop} (h : start ≤ stop)
    (h' : stop ≤ xs.length) (hQ : ∀ ys, ys.length = stop - start → Q ys s) :
    wp (slice xs start stop : Comp σ ε (List α)) Q E s := by
  rw [slice, if_pos ⟨h, h'⟩]
  exact hQ _ (by simp only [List.length_drop, List.length_take]; omega)

theorem wp_slice_eq {xs : List α} {start stop : Nat} {Q : List α → σ → Prop} (h : start ≤ stop)
    (h' : stop ≤ xs.length) (hQ : Q ((xs.take stop).drop start) s) :
    wp (slice xs start stop : Comp σ ε (List α)) Q E s := by
  rw [slice, if_pos ⟨h, h'⟩]
  exact hQ

theorem length_splice {xs ys : List α} {start : Nat} (h : start + ys.length ≤ xs.length) :
    (splice xs start ys).length = xs.length := by
  simp only [splice, List.length_append, List.length_take, List.length_drop]
  omega

/-- A splice leaves the elements outside of it as they are. -/
theorem getElem?_splice {xs ys : List α} {start i : Nat} (h : start + ys.length ≤ xs.length)
    (hi : i < start ∨ start + ys.length ≤ i) : (splice xs start ys)[i]? = xs[i]? := by
  have hstart : (xs.take start).length = start := by rw [List.length_take]; omega
  rw [splice, List.append_assoc]
  rcases hi with hi | hi
  · rw [List.getElem?_append_left (by omega), List.getElem?_take_of_lt hi]
  · rw [List.getElem?_append_right (by omega), List.getElem?_append_right (by omega),
      List.getElem?_drop]
    congr 1
    omega

theorem getElem?_splice_inside {xs ys : List α} {start i : Nat}
    (h : start + ys.length ≤ xs.length) (hi : i < ys.length) :
    (splice xs start ys)[start + i]? = ys[i]? := by
  have hstart : (xs.take start).length = start := by rw [List.length_take]; omega
  rw [splice, List.append_assoc, List.getElem?_append_right (by omega), hstart,
    Nat.add_sub_cancel_left, List.getElem?_append_left hi]

theorem wp_copyInto {xs ys : List α} {start stop : Nat} {Q : List α → σ → Prop} (h : start ≤ stop)
    (h' : stop ≤ xs.length) (hlen : ys.length = stop - start) (hQ : Q (splice xs start ys) s) :
    wp (copyInto xs start stop ys : Comp σ ε (List α)) Q E s := by
  rw [copyInto, if_pos ⟨h, h', hlen⟩]
  exact hQ

theorem length_of_mem_chunks {n : Nat} {xs chunk : List α} (h : chunk ∈ chunks n xs) :
    chunk.length = n := by
  obtain ⟨i, hi, rfl⟩ := List.mem_map.mp h
  have hi : i < xs.length / n := List.mem_range.mp hi
  have hstop : (i + 1) * n ≤ xs.length :=
    (Nat.mul_le_mul_right n hi).trans (Nat.div_mul_le_self xs.length n)
  rw [Nat.add_mul, Nat.one_mul] at hstop
  simp only [List.length_take, List.length_drop]
  omega

theorem wp_chunksExact {n : Nat} {xs : List α} {Q : List (List α) → σ → Prop} (h : 0 < n)
    (hQ : Q (chunks n xs) s) : wp (chunksExact n xs : Comp σ ε (List (List α))) Q E s := by
  rw [chunksExact, if_pos h]
  exact hQ

/-- The rule for a loop over a range: `I i` holds before iteration `i`. -/
theorem wp_forRange {n : Nat} {body : Nat → α → Comp σ ε α} {a : α} (I : Nat → α → σ → Prop)
    (h : I 0 a s) (hstep : ∀ i a s, i < n → I i a s → wp (body i a) (I (i + 1)) E s)
    (hQ : ∀ a s, I n a s → Q a s) : wp (forRange n body a) Q E s := by
  suffices hfrom : ∀ k i a s, i + k = n → I i a s → wp (forFrom body i k a) Q E s from
    hfrom n 0 a s (Nat.zero_add n) h
  intro k
  induction k with
  | zero =>
    intro i a s hi h
    obtain rfl : i = n := by omega
    exact hQ a s h
  | succ k ih =>
    intro i a s hi h
    refine wp_seq (hstep i a s (by omega) h) ?_
    intro a s h
    exact ih (i + 1) a s (by omega) h

theorem wp_forEach {xs : List β} {body : Nat → β → α → Comp σ ε α} {a : α}
    (I : Nat → α → σ → Prop) (h : I 0 a s)
    (hstep : ∀ i a s (hi : i < xs.length), I i a s → wp (body i xs[i] a) (I (i + 1)) E s)
    (hQ : ∀ a s, I xs.length a s → Q a s) : wp (forEach xs body a) Q E s := by
  refine wp_forRange I h ?_ hQ
  intro i a s hi hI
  exact wp_bind.mpr (wp_index hi (hstep i a s hi hI))

/-- The rule for a `while` loop, each iteration of which brings the measure down. -/
theorem wp_while {cond : α → Bool} {body : α → Comp σ ε α} {fuel : Nat} {a : α}
    (I : α → σ → Prop) (measure : α → Nat) (h : I a s) (hfuel : measure a < fuel)
    (hstep : ∀ a s, I a s → cond a = true →
      wp (body a) (fun a' s' => I a' s' ∧ measure a' < measure a) E s)
    (hQ : ∀ a s, I a s → cond a = false → Q a s) : wp (whileLoop cond body fuel a) Q E s := by
  induction fuel generalizing a s with
  | zero => exact absurd hfuel (Nat.not_lt_zero _)
  | succ fuel ih =>
    refine wp_ite (fun hcond => ?_) fun hcond => hQ a s h (Bool.not_eq_true _ ▸ hcond)
    refine wp_seq (hstep a s h hcond) ?_
    intro a' s' h'
    exact ih h'.1 (by omega)

/-- Whatever way it ends, the program leaves a state with `P` when it begins in one. -/
def Keeps (P : σ → Prop) (m : Comp σ ε α) : Prop := ∀ s, P s → P (m s).2

variable {P : σ → Prop}

theorem Keeps.of_same {m : Comp σ ε α} (h : ∀ s, (m s).2 = s) : Keeps P m :=
  fun s hs => (h s).symm ▸ hs

theorem Keeps.bind {m : Comp σ ε α} {f : α → Comp σ ε β} (hm : Keeps P m)
    (hf : ∀ a, Keeps P (f a)) : Keeps P (m >>= f) := by
  intro s hs
  have h := hm s hs
  simp only [Bind.bind, Comp.bind]
  split
  · next a s' heq =>
      rw [heq] at h
      exact hf a s' h
  · next stop s' heq =>
      rw [heq] at h
      exact h

theorem Keeps.below {bound n : Nat} : Keeps P (below bound n : Comp σ ε Nat) :=
  .of_same fun s => by rw [Checked.below]; split <;> rfl

theorem Keeps.sub {m n : Nat} : Keeps P (sub m n : Comp σ ε Nat) :=
  .of_same fun s => by rw [Checked.sub]; split <;> rfl

theorem Keeps.forRange {n : Nat} {body : Nat → α → Comp σ ε α} {a : α}
    (h : ∀ i a, Keeps P (body i a)) : Keeps P (forRange n body a) := by
  suffices hfrom : ∀ k i a, Keeps P (forFrom body i k a) from hfrom n 0 a
  intro k
  induction k with
  | zero => exact fun _ _ => .of_same fun _ => rfl
  | succ k ih => exact fun i a => (h i a).bind fun a => ih (i + 1) a

end Dolgate.Checked
