import Mathlib

set_option autoImplicit false

/-! Maps that keep, per key, the version with the greatest stamp. -/

namespace Dolgate.LastWriter

variable {K V T : Type*} [LinearOrder T] (stamp : V → T)

/-- From `s` to `t` some of the `new` versions have been merged in: each entry of `t` is old or new,
and none of the old and new versions is later than the entry of its key. -/
structure Merges (new : K → V → Prop) (s t : K → Option V) : Prop where
  origin : ∀ k v, t k = some v → s k = some v ∨ new k v
  raised : ∀ k v, s k = some v ∨ new k v → ∃ w, t k = some w ∧ stamp v ≤ stamp w

structure Latest (versions : K → V → Prop) (t : K → Option V) : Prop where
  among : ∀ k v, t k = some v → versions k v
  top : ∀ k v, versions k v → ∃ w, t k = some w ∧ stamp v ≤ stamp w

def Distinct (versions : K → V → Prop) : Prop :=
  ∀ k v w, versions k v → versions k w → stamp v = stamp w → v = w

variable {stamp} {new new' versions : K → V → Prop} {s t u : K → Option V}

theorem Merges.refl (h : ∀ k v, ¬ new k v) : Merges stamp new s s :=
  ⟨fun _ _ hv => .inl hv, fun k v hv => ⟨v, hv.resolve_right (h k v), le_rfl⟩⟩

theorem Merges.trans (h : Merges stamp new s t) (h' : Merges stamp new' t u) :
    Merges stamp (fun k v => new k v ∨ new' k v) s u := by
  constructor
  · intro k v hv
    rcases h'.origin k v hv with hv | hv
    · exact (h.origin k v hv).imp_right .inl
    · exact .inr (.inr hv)
  · intro k v hv
    have hold : s k = some v ∨ new k v → ∃ w, u k = some w ∧ stamp v ≤ stamp w := by
      intro hv
      obtain ⟨w, hw, hle⟩ := h.raised k v hv
      obtain ⟨x, hx, hle'⟩ := h'.raised k w (.inl hw)
      exact ⟨x, hx, hle.trans hle'⟩
    rcases hv with hv | hv | hv
    · exact hold (.inl hv)
    · exact hold (.inr hv)
    · exact h'.raised k v (.inr hv)

theorem Merges.congr (h : Merges stamp new s t) (hn : ∀ k v, new k v ↔ new' k v) :
    Merges stamp new' s t := by
  have heq : new = new' := funext fun k => funext fun v => propext (hn k v)
  rwa [← heq]

/-- A key without new versions keeps its entry. -/
theorem Merges.eq_of_not_new (h : Merges stamp new s t) {k : K} (hk : ∀ v, ¬ new k v) :
    t k = s k := by
  refine Option.ext fun v => ⟨fun hv => (h.origin k v hv).resolve_right (hk v), fun hv => ?_⟩
  obtain ⟨w, hw, -⟩ := h.raised k v (.inl hv)
  cases hv.symm.trans ((h.origin k w hw).resolve_right (hk w))
  exact hw

theorem Merges.latest (h : Merges stamp new s t) :
    Latest stamp (fun k v => s k = some v ∨ new k v) t :=
  ⟨h.origin, h.raised⟩

/-- What holds the latest of the versions is determined by them. -/
theorem Latest.unique (hd : Distinct stamp versions) (ht : Latest stamp versions t)
    (hu : Latest stamp versions u) : t = u := by
  have hsub : ∀ {t u : K → Option V}, Latest stamp versions t → Latest stamp versions u →
      ∀ k v, t k = some v → u k = some v := by
    intro t u ht hu k v hv
    obtain ⟨w, hw, hvw⟩ := hu.top k v (ht.among k v hv)
    obtain ⟨x, hx, hwx⟩ := ht.top k w (hu.among k w hw)
    cases hv.symm.trans hx
    rw [hd k v w (ht.among k v hv) (hu.among k w hw) (le_antisymm hvw hwx)]
    exact hw
  refine funext fun k => Option.ext fun v => ?_
  exact ⟨hsub ht hu k v, hsub hu ht k v⟩

/-- Merging in again what is among the versions changes nothing. -/
theorem Latest.merges (hd : Distinct stamp versions) (ht : Latest stamp versions t)
    (h : Merges stamp new t u) (hn : ∀ k v, new k v → versions k v) : u = t := by
  refine Latest.unique hd ⟨fun k v hv => ?_, fun k v hv => ?_⟩ ht
  · exact (h.origin k v hv).elim (ht.among k v) (hn k v)
  · obtain ⟨w, hw, hle⟩ := ht.top k v hv
    obtain ⟨x, hx, hle'⟩ := h.raised k w (.inl hw)
    exact ⟨x, hx, hle.trans hle'⟩

end Dolgate.LastWriter
