import Mathlib.Data.List.Basic

set_option autoImplicit false

namespace Dolgate.Chunking

variable {σ α β : Type*}

def feedAll (feed : σ → List α → σ × List β) : σ → List (List α) → σ × List β
  | s, [] => (s, [])
  | s, chunk :: chunks =>
      let (t, out) := feed s chunk
      let (u, rest) := feedAll feed t chunks
      (u, out ++ rest)

structure Divisible (feed : σ → List α → σ × List β) : Prop where
  nil : ∀ s, feed s [] = (s, [])
  append : ∀ s a b, feed s (a ++ b) =
    ((feed (feed s a).1 b).1, (feed s a).2 ++ (feed (feed s a).1 b).2)

variable {feed : σ → List α → σ × List β}

theorem Divisible.feedAll_eq (h : Divisible feed) (s : σ) (chunks : List (List α)) :
    feedAll feed s chunks = feed s chunks.flatten := by
  induction chunks generalizing s with
  | nil => exact (h.nil s).symm
  | cons chunk chunks ih =>
      rw [List.flatten_cons, h.append]
      simp only [feedAll, ih]

end Dolgate.Chunking
