import Mathlib.Data.List.Basic

set_option autoImplicit false

namespace Dolgate.Transaction

variable {σ ε α β : Type}

/-- Statements of a transaction. A statement that fails keeps the writes made before it; only
`transaction` takes them back. -/
def Tx (σ ε α : Type) : Type := σ → Except ε α × σ

instance : Monad (Tx σ ε) where
  pure a := fun s => (.ok a, s)
  bind x f := fun s =>
    match x s with
    | (.ok a, t) => f a t
    | (.error e, t) => (.error e, t)

def fail (e : ε) : Tx σ ε α := fun s => (.error e, s)

def read (f : σ → α) : Tx σ ε α := fun s => (.ok (f s), s)

def write (f : σ → σ) : Tx σ ε Unit := fun s => (.ok (), f s)

def require (c : Prop) [Decidable c] (e : ε) : Tx σ ε Unit := if c then pure () else fail e

def take (f : σ → Option α) (e : ε) : Tx σ ε α := fun s =>
  match f s with
  | some a => (.ok a, s)
  | none => (.error e, s)

def transaction (body : Tx σ ε α) : Tx σ ε α := fun s =>
  match body s with
  | (.ok a, t) => (.ok a, t)
  | (.error e, _) => (.error e, s)

variable {x : Tx σ ε α} {f : α → Tx σ ε β} {s t : σ} {a : α} {b : β} {e : ε}

theorem pure_ok {c : α} : (pure a : Tx σ ε α) s = (.ok c, t) ↔ a = c ∧ s = t := by
  simp [pure]

theorem bind_ok : (x >>= f) s = (.ok b, t) ↔
    ∃ a u, x s = (.ok a, u) ∧ f a u = (.ok b, t) := by
  constructor
  · intro h
    simp only [bind] at h
    split at h
    · rename_i a u hx
      exact ⟨a, u, hx, h⟩
    · cases h
  · rintro ⟨a, u, hx, hf⟩
    simp [bind, hx, hf]

theorem not_fail_ok : ¬ (fail e : Tx σ ε α) s = (.ok a, t) := by
  simp [fail]

theorem read_ok {g : σ → α} : (read g : Tx σ ε α) s = (.ok a, t) ↔ g s = a ∧ s = t := by
  simp [read]

theorem write_ok {g : σ → σ} {u : Unit} : (write g : Tx σ ε Unit) s = (.ok u, t) ↔ g s = t := by
  simp [write]

theorem require_ok {c : Prop} [Decidable c] {u : Unit} :
    (require c e : Tx σ ε Unit) s = (.ok u, t) ↔ c ∧ s = t := by
  unfold require
  split <;> simp_all [pure, fail]

theorem take_ok {g : σ → Option α} : take g e s = (.ok a, t) ↔ g s = some a ∧ s = t := by
  unfold take
  split <;> simp_all

theorem transaction_ok : transaction x s = (.ok a, t) ↔ x s = (.ok a, t) := by
  unfold transaction
  split <;> simp_all

/-- A transaction that fails leaves the state it found. -/
theorem transaction_error (h : transaction x s = (.error e, t)) : t = s := by
  unfold transaction at h
  split at h
  · cases h
  · cases h
    rfl

end Dolgate.Transaction
