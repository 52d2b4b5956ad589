import Mathlib.Data.List.AList

set_option autoImplicit false

namespace Dolgate

abbrev Table (κ α : Type) := AList fun _ : κ => α

namespace Table

variable {κ α β : Type} [DecidableEq κ]

def filterMapEntries (f : κ → α → Option β) (l : List (Σ _ : κ, α)) : List (Σ _ : κ, β) :=
  l.filterMap fun e => (f e.1 e.2).map fun b => ⟨e.1, b⟩

def filterMap (f : κ → α → Option β) (t : Table κ α) : Table κ β :=
  (filterMapEntries f t.entries).toAList

omit [DecidableEq κ] in
theorem keys_filterMapEntries {f : κ → α → Option β} {l : List (Σ _ : κ, α)} {k : κ}
    (h : k ∈ (filterMapEntries f l).keys) : k ∈ l.keys := by
  obtain ⟨b, hb⟩ := List.mem_keys.mp h
  obtain ⟨e, he, hf⟩ := List.mem_filterMap.mp hb
  obtain ⟨_, -, heq⟩ := Option.map_eq_some_iff.mp hf
  cases heq
  exact List.mem_keys_of_mem he

theorem dlookup_filterMapEntries (f : κ → α → Option β) {l : List (Σ _ : κ, α)}
    (nd : l.NodupKeys) (k : κ) :
    (filterMapEntries f l).dlookup k = (l.dlookup k).bind (f k) := by
  induction l with
  | nil => rfl
  | cons e rest ih =>
      obtain ⟨a, x⟩ := e
      obtain ⟨hk, hrest⟩ := List.nodupKeys_cons.mp nd
      have hcons : filterMapEntries f (⟨a, x⟩ :: rest) =
          (f a x).toList.map (fun b => (⟨a, b⟩ : Σ _ : κ, β)) ++ filterMapEntries f rest := by
        cases h : f a x <;> simp [filterMapEntries, h]
      rw [hcons]
      by_cases hka : k = a
      · subst hka
        cases h : f k x with
        | none =>
            have : k ∉ (filterMapEntries f rest).keys := fun hmem => hk (keys_filterMapEntries hmem)
            simp [h, List.dlookup_eq_none.mpr this]
        | some b => simp [h]
      · have hne (y : β) : (⟨a, y⟩ :: filterMapEntries f rest).dlookup k =
            (filterMapEntries f rest).dlookup k :=
          List.dlookup_cons_ne (filterMapEntries f rest) ⟨a, y⟩ hka
        rw [List.dlookup_cons_ne rest ⟨a, x⟩ hka, ← ih hrest]
        cases f a x <;> simp [hne]

@[simp] theorem lookup_filterMap (f : κ → α → Option β) (t : Table κ α) (k : κ) :
    (filterMap f t).lookup k = (t.lookup k).bind (f k) := by
  rw [filterMap, AList.lookup_to_alist, dlookup_filterMapEntries f t.nodupKeys]
  rfl

theorem mem_entries {t : Table κ α} {k : κ} {a : α} :
    (⟨k, a⟩ : Σ _ : κ, α) ∈ t.entries ↔ t.lookup k = some a :=
  AList.mem_lookup_iff.symm

theorem entries_eq_nil {t : Table κ α} : t.entries = [] ↔ ∀ k, t.lookup k = none := by
  constructor
  · intro h k
    rw [AList.lookup, h, List.dlookup_nil]
  · intro h
    refine List.eq_nil_iff_forall_not_mem.mpr fun e he => ?_
    have := mem_entries.mp he
    rw [h] at this
    cases this

def insertAll (t : Table κ α) (l : List (κ × α)) : Table κ α :=
  l.foldl (fun t e => t.insert e.1 e.2) t

theorem lookup_insertAll_of_notMem {l : List (κ × α)} {t : Table κ α} {k : κ}
    (h : ∀ e ∈ l, e.1 ≠ k) : (insertAll t l).lookup k = t.lookup k := by
  induction l generalizing t with
  | nil => rfl
  | cons e rest ih =>
      obtain ⟨he, hrest⟩ := List.forall_mem_cons.mp h
      exact (ih hrest).trans (AList.lookup_insert_ne he.symm)

theorem lookup_insertAll_isSome {l : List (κ × α)} {t : Table κ α} {k : κ}
    (h : (t.lookup k).isSome) : ((insertAll t l).lookup k).isSome := by
  induction l generalizing t with
  | nil => exact h
  | cons e rest ih =>
      refine ih ?_
      by_cases hk : k = e.1
      · subst hk
        simp
      · rw [AList.lookup_insert_ne hk]
        exact h

end Table

end Dolgate
