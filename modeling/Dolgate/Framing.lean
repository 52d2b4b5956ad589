import Mathlib.Data.List.Basic

set_option autoImplicit false

namespace Dolgate.Framing

variable {α β ε : Type*}

inductive Next (α β ε : Type*) where
  | more
  | item (x : β) (rest : List α)
  | bad (e : ε)

/-- A decoder that takes one item at a time off the front of what has arrived. What arrives later
changes neither an item nor an error. -/
structure Decoder (α β ε : Type*) where
  next : List α → Next α β ε
  next_nil : next [] = .more
  item_append : ∀ {bs x rest}, next bs = .item x rest →
    ∃ used, used ≠ [] ∧ bs = used ++ rest ∧ ∀ tail, next (used ++ tail) = .item x tail
  bad_append : ∀ {bs e}, next bs = .bad e → ∀ tail, next (bs ++ tail) = .bad e

variable (d : Decoder α β ε)

theorem Decoder.shorter {bs rest : List α} {x : β} (h : d.next bs = .item x rest) :
    rest.length < bs.length := by
  obtain ⟨used, hne, rfl, -⟩ := d.item_append h
  have := List.length_pos_iff.mpr hne
  simp only [List.length_append]
  omega

def scan (bs : List α) : List β × List α × Option ε :=
  match h : d.next bs with
  | .more => ([], bs, none)
  | .item x rest =>
      have := d.shorter h
      (x :: (scan rest).1, (scan rest).2)
  | .bad e => ([], bs, some e)
termination_by bs.length

/-- A consumer of chunks that keeps what is unfinished, and that gives out nothing of the call in
which it fails, nor afterwards. -/
def deliver : List α → List (List α) → List β × Option ε
  | _, [] => ([], none)
  | pending, chunk :: chunks =>
      match scan d (pending ++ chunk) with
      | (xs, rest, none) => (xs ++ (deliver rest chunks).1, (deliver rest chunks).2)
      | (_, _, some e) => ([], some e)

variable {d} {bs rest tail pending : List α} {x : β} {xs : List β} {e : ε}

theorem scan_more (h : d.next bs = .more) : scan d bs = ([], bs, none) := by
  rw [scan]
  split <;> simp_all

theorem scan_item (h : d.next bs = .item x rest) :
    scan d bs = (x :: (scan d rest).1, (scan d rest).2) := by
  rw [scan]
  split <;> simp_all

theorem scan_bad (h : d.next bs = .bad e) : scan d bs = ([], bs, some e) := by
  rw [scan]
  split <;> simp_all

theorem scan_cases {motive : List α → Prop}
    (more : ∀ bs, d.next bs = .more → motive bs)
    (item : ∀ bs x rest, d.next bs = .item x rest → motive rest → motive bs)
    (bad : ∀ bs e, d.next bs = .bad e → motive bs) (bs : List α) : motive bs := by
  induction h : bs.length using Nat.strongRecOn generalizing bs with
  | ind n ih =>
      cases hn : d.next bs with
      | more => exact more bs hn
      | bad e => exact bad bs e hn
      | item x rest => exact item bs x rest hn (ih _ (h ▸ d.shorter hn) rest rfl)

theorem scan_append (h : (scan d bs).2.2 = none) (tail : List α) :
    scan d (bs ++ tail) = ((scan d bs).1 ++ (scan d ((scan d bs).2.1 ++ tail)).1,
      (scan d ((scan d bs).2.1 ++ tail)).2) := by
  induction bs using scan_cases (d := d) with
  | more bs hn => simp [scan_more hn]
  | bad bs e hn => simp [scan_bad hn] at h
  | item bs x rest hn ih =>
      obtain ⟨used, -, rfl, happ⟩ := d.item_append hn
      rw [scan_item hn] at h ⊢
      rw [List.append_assoc, scan_item (happ (rest ++ tail)), ih h]
      rfl

theorem scan_append_bad (h : (scan d bs).2.2 = some e) (tail : List α) :
    scan d (bs ++ tail) = ((scan d bs).1, (scan d bs).2.1 ++ tail, some e) := by
  induction bs using scan_cases (d := d) with
  | more bs hn => simp [scan_more hn] at h
  | bad bs e' hn =>
      rw [scan_bad hn] at h ⊢
      cases h
      exact scan_bad (d.bad_append hn tail)
  | item bs x rest hn ih =>
      obtain ⟨used, -, rfl, happ⟩ := d.item_append hn
      rw [scan_item hn] at h ⊢
      rw [List.append_assoc, scan_item (happ (rest ++ tail)), ih h]

theorem scan_rest (h : (scan d bs).2.2 = none) : d.next (scan d bs).2.1 = .more := by
  induction bs using scan_cases (d := d) with
  | more bs hn => simpa [scan_more hn] using hn
  | bad bs e hn => simp [scan_bad hn] at h
  | item bs x rest hn ih =>
      rw [scan_item hn] at h ⊢
      exact ih h

theorem scan_stuck (h : (scan d bs).2.2 = some e) : d.next (scan d bs).2.1 = .bad e := by
  induction bs using scan_cases (d := d) with
  | more bs hn => simp [scan_more hn] at h
  | bad bs e' hn =>
      rw [scan_bad hn] at h ⊢
      cases h
      exact hn
  | item bs x rest hn ih =>
      rw [scan_item hn] at h ⊢
      exact ih h

theorem scan_used (d : Decoder α β ε) (bs : List α) :
    ∃ used, bs = used ++ (scan d bs).2.1 ∧ scan d used = ((scan d bs).1, [], none) := by
  induction bs using scan_cases (d := d) with
  | more bs hn => exact ⟨[], by simp [scan_more hn], by simp [scan_more hn, scan_more d.next_nil]⟩
  | bad bs e hn => exact ⟨[], by simp [scan_bad hn], by simp [scan_bad hn, scan_more d.next_nil]⟩
  | item bs x rest hn ih =>
      obtain ⟨front, -, rfl, happ⟩ := d.item_append hn
      obtain ⟨used, hrest, hused⟩ := ih
      rw [scan_item hn]
      refine ⟨front ++ used, ?_, ?_⟩
      · rw [List.append_assoc, ← hrest]
      · rw [scan_item (happ used), hused]

theorem deliver_clean (hp : d.next pending = .more) (chunks : List (List α))
    (h : (scan d (pending ++ chunks.flatten)).2.2 = none) :
    deliver d pending chunks = ((scan d (pending ++ chunks.flatten)).1, none) := by
  induction chunks generalizing pending with
  | nil => simp [deliver, scan_more hp]
  | cons chunk chunks ih =>
      rw [List.flatten_cons, ← List.append_assoc] at h ⊢
      cases hc : (scan d (pending ++ chunk)).2.2 with
      | some e =>
          rw [scan_append_bad hc] at h
          cases h
      | none =>
          have happ := scan_append hc chunks.flatten
          rw [happ] at h ⊢
          have hrest := ih (scan_rest hc) h
          simp only [deliver]
          split
          · next xs rest hs => simp_all
          · next hs => simp [hs] at hc

theorem deliver_bad (hp : d.next pending = .more) (chunks : List (List α))
    (h : scan d (pending ++ chunks.flatten) = ([], rest, some e)) :
    (deliver d pending chunks).1 = [] := by
  induction chunks generalizing pending with
  | nil => rfl
  | cons chunk chunks ih =>
      rw [List.flatten_cons, ← List.append_assoc] at h
      simp only [deliver]
      split
      · next xs left hs =>
          have hc : (scan d (pending ++ chunk)).2.2 = none := by rw [hs]
          have happ := scan_append hc chunks.flatten
          rw [h, hs] at happ
          obtain ⟨hnil, htail⟩ := Prod.mk.injEq .. ▸ happ
          obtain ⟨rfl, hscan⟩ := List.append_eq_nil_iff.mp hnil.symm
          have hleft := scan_rest hc
          rw [hs] at hleft
          exact ih hleft (Prod.ext hscan htail.symm)
      · rfl

theorem deliver_independent (d : Decoder α β ε) (bs : List α) :
    (∀ chunks chunks' : List (List α), chunks.flatten = bs → chunks'.flatten = bs →
        (deliver d [] chunks).1 = (deliver d [] chunks').1) ↔
      ((scan d bs).2.2 = none ∨ (scan d bs).1 = []) := by
  constructor
  · intro h
    cases he : (scan d bs).2.2 with
    | none => exact .inl rfl
    | some e =>
        right
        -- the items in a chunk of their own against everything in one chunk
        obtain ⟨used, hbs, hused⟩ := scan_used d bs
        have hcut := h [bs] [used, (scan d bs).2.1] (by simp) (by simpa using hbs.symm)
        have hone : (deliver d [] [bs]).1 = [] := by
          simp only [deliver, List.nil_append]
          split
          · next hs => simp [hs] at he
          · rfl
        rw [hone, deliver, List.nil_append, hused] at hcut
        exact (List.append_eq_nil_iff.mp hcut.symm).1
  · intro h chunks chunks' hc hc'
    cases he : (scan d bs).2.2 with
    | none =>
        rw [deliver_clean d.next_nil chunks (by rw [List.nil_append, hc, he]),
          deliver_clean d.next_nil chunks' (by rw [List.nil_append, hc', he]), hc, hc']
    | some e =>
        have hnil := h.resolve_left (by simp [he])
        have hs : scan d bs = ([], (scan d bs).2.1, some e) := Prod.ext hnil (Prod.ext rfl he)
        rw [deliver_bad d.next_nil chunks (by rw [List.nil_append, hc, hs]),
          deliver_bad d.next_nil chunks' (by rw [List.nil_append, hc', hs])]

end Dolgate.Framing
