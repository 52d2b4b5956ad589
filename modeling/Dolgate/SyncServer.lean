import Dolgate.Table

set_option autoImplicit false

namespace Dolgate.SyncServer

variable {κ π : Type} [DecidableEq κ] [DecidableEq π]

structure Row (π : Type) where
  encryptedPayload : π
  updatedAt : Int
  deletedAt : Option Int
deriving DecidableEq, Repr

def keepsCurrent (current : Option (Row π)) (row : Row π) : Bool :=
  match current with
  | none => false
  | some current =>
      decide (row.updatedAt < current.updatedAt) ||
        (current.updatedAt == row.updatedAt && current.encryptedPayload == row.encryptedPayload &&
          current.deletedAt == row.deletedAt)

def upsertSyncRecord (rows : Table κ (Row π)) (e : Σ _ : κ, Row π) : Table κ (Row π) × Nat :=
  if keepsCurrent (rows.lookup e.1) e.2 then (rows, 0) else (rows.insert e.1 e.2, 1)

def upsertSyncRecords : Table κ (Row π) → List (Σ _ : κ, Row π) → Table κ (Row π) × Nat
  | rows, [] => (rows, 0)
  | rows, e :: rest =>
      let one := upsertSyncRecord rows e
      let more := upsertSyncRecords one.1 rest
      (more.1, one.2 + more.2)

/-- The rows of one account and their revision. A full reply to `GET /sync` is such a pair too. -/
structure Server (κ π : Type) where
  rows : Table κ (Row π)
  revision : Nat

/-- A push whose records all lose leaves the revision alone. The reply is the revision. -/
def applyPushRecords (s : Server κ π) (payload : List (Σ _ : κ, Row π)) : Server κ π :=
  let pushed := upsertSyncRecords s.rows payload
  ⟨pushed.1, if pushed.2 = 0 then s.revision else s.revision + 1⟩

/-- `GET /sync`: nothing (304) when the caller names the present revision. -/
def getSync (s : Server κ π) (ifNoneMatch : Option Nat) : Option (Server κ π) :=
  if ifNoneMatch = some s.revision then none else some s

/-- What the upsert leaves at a key: the later row, and of two equally late ones the new one. -/
def lastWriter (current : Option (Row π)) (row : Row π) : Row π :=
  match current with
  | none => row
  | some current => if row.updatedAt < current.updatedAt then current else row

theorem keepsCurrent_lastWriter {current : Option (Row π)} {row : Row π}
    (h : keepsCurrent current row) : current = some (lastWriter current row) := by
  cases current with
  | none => simp [keepsCurrent] at h
  | some c =>
      obtain ⟨payload, updatedAt, deletedAt⟩ := c
      obtain ⟨payload', updatedAt', deletedAt'⟩ := row
      simp only [keepsCurrent, lastWriter, Bool.or_eq_true, decide_eq_true_eq, Bool.and_eq_true,
        beq_iff_eq] at h ⊢
      rcases h with h | ⟨⟨rfl, rfl⟩, rfl⟩
      · simp [h]
      · simp

theorem lastWriter_of_not_keepsCurrent {current : Option (Row π)} {row : Row π}
    (h : keepsCurrent current row = false) : lastWriter current row = row := by
  cases current with
  | none => rfl
  | some c =>
      simp only [keepsCurrent, Bool.or_eq_false_iff, decide_eq_false_iff_not] at h
      simp [lastWriter, h.1]

omit [DecidableEq π] in
theorem lastWriter_eq_or (current : Option (Row π)) (row : Row π) :
    lastWriter current row = row ∨
      ∃ c, current = some c ∧ lastWriter current row = c ∧ row.updatedAt < c.updatedAt := by
  cases current with
  | none => exact .inl rfl
  | some c =>
      by_cases h : row.updatedAt < c.updatedAt
      · exact .inr ⟨c, rfl, by simp [lastWriter, h], h⟩
      · exact .inl (by simp [lastWriter, h])

omit [DecidableEq π] in
theorem lastWriter_of_not_older {current : Option (Row π)} {row : Row π}
    (h : ∀ c, current = some c → c.updatedAt ≤ row.updatedAt) : lastWriter current row = row := by
  rcases lastWriter_eq_or current row with heq | ⟨c, hc, -, hlt⟩
  · exact heq
  · have := h c hc
    omega

theorem upsertSyncRecord_lookup (rows : Table κ (Row π)) (k : κ) (row : Row π) :
    (upsertSyncRecord rows ⟨k, row⟩).1.lookup k = some (lastWriter (rows.lookup k) row) := by
  by_cases h : keepsCurrent (rows.lookup k) row
  · simpa [upsertSyncRecord, h] using keepsCurrent_lastWriter h
  · have hfalse : keepsCurrent (rows.lookup k) row = false := by simpa using h
    simp [upsertSyncRecord, hfalse, lastWriter_of_not_keepsCurrent hfalse]

theorem upsertSyncRecord_lookup_ne {rows : Table κ (Row π)} {e : Σ _ : κ, Row π} {k : κ}
    (h : k ≠ e.1) : (upsertSyncRecord rows e).1.lookup k = rows.lookup k := by
  unfold upsertSyncRecord
  split
  · rfl
  · exact AList.lookup_insert_ne h

theorem upsertSyncRecords_append (rows : Table κ (Row π)) (l m : List (Σ _ : κ, Row π)) :
    (upsertSyncRecords rows (l ++ m)).1 =
      (upsertSyncRecords (upsertSyncRecords rows l).1 m).1 := by
  induction l generalizing rows with
  | nil => rfl
  | cons e rest ih => exact ih (upsertSyncRecord rows e).1

theorem upsertSyncRecords_lookup_of_notMem {l : List (Σ _ : κ, Row π)} {rows : Table κ (Row π)}
    {k : κ} (h : k ∉ l.keys) : (upsertSyncRecords rows l).1.lookup k = rows.lookup k := by
  induction l generalizing rows with
  | nil => rfl
  | cons e rest ih =>
      have hne : k ≠ e.1 ∧ k ∉ rest.keys := by simpa using h
      exact (ih hne.2).trans (upsertSyncRecord_lookup_ne hne.1)

theorem upsertSyncRecords_lookup_of_mem {l : List (Σ _ : κ, Row π)} (nd : l.NodupKeys)
    {rows : Table κ (Row π)} {k : κ} {row : Row π} (h : ⟨k, row⟩ ∈ l) :
    (upsertSyncRecords rows l).1.lookup k = some (lastWriter (rows.lookup k) row) := by
  induction l generalizing rows with
  | nil => cases h
  | cons e rest ih =>
      obtain ⟨hk, nd⟩ := List.nodupKeys_cons.mp nd
      rcases List.mem_cons.mp h with rfl | h
      · exact (upsertSyncRecords_lookup_of_notMem hk).trans (upsertSyncRecord_lookup rows k row)
      · have hne : k ≠ e.1 := by
          rintro rfl
          exact hk (List.mem_keys.mpr ⟨row, h⟩)
        refine (ih nd h).trans ?_
        rw [upsertSyncRecord_lookup_ne hne]

theorem upsertSyncRecords_lookup_cases {l : List (Σ _ : κ, Row π)} {rows : Table κ (Row π)} {k : κ}
    {row : Row π} (h : (upsertSyncRecords rows l).1.lookup k = some row) :
    rows.lookup k = some row ∨ ⟨k, row⟩ ∈ l := by
  induction l generalizing rows with
  | nil => exact .inl h
  | cons e rest ih =>
      rcases ih h with h | h
      · by_cases hk : k = e.1
        · subst hk
          rw [upsertSyncRecord_lookup rows e.1 e.2] at h
          rcases lastWriter_eq_or (rows.lookup e.1) e.2 with heq | ⟨c, hc, heq, -⟩
          · rw [heq] at h
            cases h
            exact .inr (by simp)
          · rw [heq] at h
            exact .inl (hc.trans h)
        · rw [upsertSyncRecord_lookup_ne hk] at h
          exact .inl h
      · exact .inr (List.mem_cons_of_mem _ h)

theorem upsertSyncRecords_lookup_of_older {l : List (Σ _ : κ, Row π)} {rows : Table κ (Row π)} {k : κ}
    {row : Row π} (h : rows.lookup k = some row)
    (hold : ∀ older, ⟨k, older⟩ ∈ l → older.updatedAt < row.updatedAt) :
    (upsertSyncRecords rows l).1.lookup k = some row := by
  induction l generalizing rows with
  | nil => exact h
  | cons e rest ih =>
      refine ih ?_ fun older hmem => hold older (List.mem_cons_of_mem _ hmem)
      by_cases hk : k = e.1
      · subst hk
        have hlt := hold e.2 (by simp)
        rw [upsertSyncRecord_lookup rows e.1 e.2, h]
        simp [lastWriter, hlt]
      · rw [upsertSyncRecord_lookup_ne hk, h]

theorem upsertSyncRecord_written {rows : Table κ (Row π)} {e : Σ _ : κ, Row π} :
    (upsertSyncRecord rows e).2 = 0 ↔ keepsCurrent (rows.lookup e.1) e.2 := by
  unfold upsertSyncRecord
  split <;> simp_all

theorem upsertSyncRecord_of_kept {rows : Table κ (Row π)} {e : Σ _ : κ, Row π}
    (h : keepsCurrent (rows.lookup e.1) e.2) : (upsertSyncRecord rows e).1 = rows := by
  simp [upsertSyncRecord, h]

theorem upsertSyncRecords_written {l : List (Σ _ : κ, Row π)} {rows : Table κ (Row π)} :
    (upsertSyncRecords rows l).2 = 0 ↔ ∀ e ∈ l, keepsCurrent (rows.lookup e.1) e.2 := by
  induction l generalizing rows with
  | nil => simp [upsertSyncRecords]
  | cons e rest ih =>
      simp only [upsertSyncRecords, Nat.add_eq_zero_iff, upsertSyncRecord_written,
        List.forall_mem_cons]
      constructor
      · rintro ⟨he, hrest⟩
        rw [upsertSyncRecord_of_kept he] at hrest
        exact ⟨he, ih.mp hrest⟩
      · rintro ⟨he, hrest⟩
        rw [upsertSyncRecord_of_kept he]
        exact ⟨he, ih.mpr hrest⟩

theorem upsertSyncRecords_of_kept {l : List (Σ _ : κ, Row π)} {rows : Table κ (Row π)}
    (h : ∀ e ∈ l, keepsCurrent (rows.lookup e.1) e.2) : (upsertSyncRecords rows l).1 = rows := by
  induction l generalizing rows with
  | nil => rfl
  | cons e rest ih =>
      obtain ⟨he, hrest⟩ := List.forall_mem_cons.mp h
      have := ih hrest
      rw [← upsertSyncRecord_of_kept he] at this ⊢
      simpa [upsertSyncRecords, upsertSyncRecord_of_kept he] using this

theorem applyPushRecords_cases (s : Server κ π) (payload : List (Σ _ : κ, Row π)) :
    (applyPushRecords s payload = s ∧ ∀ e ∈ payload, keepsCurrent (s.rows.lookup e.1) e.2) ∨
      ((applyPushRecords s payload).revision = s.revision + 1 ∧
        ∃ e ∈ payload, keepsCurrent (s.rows.lookup e.1) e.2 = false) := by
  by_cases h : ∀ e ∈ payload, keepsCurrent (s.rows.lookup e.1) e.2
  · refine .inl ⟨?_, h⟩
    simp [applyPushRecords, upsertSyncRecords_of_kept h, upsertSyncRecords_written.mpr h]
  · refine .inr ⟨?_, by simpa using h⟩
    have hw := mt upsertSyncRecords_written.mp h
    simp [applyPushRecords, hw]

theorem revision_le_applyPushRecords (s : Server κ π) (payload : List (Σ _ : κ, Row π)) :
    s.revision ≤ (applyPushRecords s payload).revision := by
  rcases applyPushRecords_cases s payload with ⟨h, -⟩ | ⟨h, -⟩
  · rw [h]
  · omega

end Dolgate.SyncServer
