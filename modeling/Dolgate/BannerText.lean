import Dolgate.Banner

set_option autoImplicit false

/-! Banners do no harm where they have no C1 controls. -/

namespace Dolgate.Banner
open Segments (join join_cons join_singleton sep_not_mem_of_mem_splitOn splitOn_join)

variable {raw rest rest' : Bytes} {b : UInt8} {n : Nat}

theorem deleteEscapes_skip (skip : Nat) (s : Bytes) :
    deleteEscapes skip s = deleteEscapes 0 (s.drop skip) := by
  induction s generalizing skip with
  | nil => simp [deleteEscapes]
  | cons b s ih =>
    cases skip with
    | zero => rfl
    | succ skip =>
      rw [deleteEscapes, if_pos (Nat.succ_ne_zero skip), List.drop_succ_cons]
      exact ih skip

theorem escape_pos (h : escape raw = some n) : 2 ≤ n := by
  unfold escape at h
  split at h
  · next escapeByte b rest =>
    split at h
    · cases h
    · split at h
      · obtain ⟨m, -, rfl⟩ := Option.map_eq_some_iff.mp h
        exact Nat.le_add_left 2 m
      · split at h
        · obtain rfl := Option.some.inj h
          cases osc rest with
          | none => exact Nat.le_refl 2
          | some m => exact Nat.le_add_left 2 m
        · split at h
          · obtain rfl := Option.some.inj h
            exact Nat.le_refl 2
          · cases h
  · cases h

@[simp] theorem cleaned_nil : cleaned [] = [] := rfl

theorem cleaned_escape (h : escape raw = some n) : cleaned raw = cleaned (raw.drop n) := by
  have htwo := escape_pos h
  cases raw with
  | nil => cases h
  | cons b rest =>
    obtain ⟨m, rfl⟩ : ∃ m, n = m + 1 := ⟨n - 1, by omega⟩
    rw [cleaned, deleteEscapes, if_neg (not_not.mpr rfl), h]
    rw [cleaned, List.drop_succ_cons, ← deleteEscapes_skip]
    rfl

theorem cleaned_control (h : escape (b :: rest) = none) (hcontrol : control b = true) :
    cleaned (b :: rest) = cleaned rest := by
  rw [cleaned, deleteEscapes, if_neg (not_not.mpr rfl), h]
  exact List.filter_cons_of_neg (by simp [hcontrol])

theorem cleaned_kept (h : escape (b :: rest) = none) (hcontrol : control b = false) :
    cleaned (b :: rest) = b :: cleaned rest := by
  rw [cleaned, deleteEscapes, if_neg (not_not.mpr rfl), h]
  exact List.filter_cons_of_pos (by simp [hcontrol])

theorem cleaned_high (h : 0x80 ≤ b) : cleaned (b :: rest) = b :: cleaned rest := by
  have hlow : ∀ c : UInt8, c < 0x80 → b ≠ c := by
    intro c hc heq
    rw [heq] at h
    exact absurd hc (UInt8.not_lt.mpr h)
  refine cleaned_kept ?_ ?_
  · cases rest with
    | nil => rfl
    | cons c rest => rw [escape, if_pos (hlow 0x1B (by decide))]
  · have h₁ : ¬ b ≤ 0x08 := fun hle => absurd (UInt8.le_trans h hle) (by decide)
    have h₂ : ¬ b ≤ 0x1F := fun hle => absurd (UInt8.le_trans h hle) (by decide)
    simp [control, h₁, h₂, hlow 0x7F (by decide)]

theorem cleaned_induction {P : Bytes → Prop} (nil : P [])
    (sequence : ∀ raw n, escape raw = some n → P (raw.drop n) → P raw)
    (deleted : ∀ b rest, escape (b :: rest) = none → control b = true → P rest → P (b :: rest))
    (kept : ∀ b rest, escape (b :: rest) = none → control b = false → P rest → P (b :: rest))
    (raw : Bytes) : P raw := by
  induction hlength : raw.length using Nat.strong_induction_on generalizing raw with
  | _ length ih =>
    cases hescape : escape raw with
    | some n =>
      refine sequence raw n hescape (ih (raw.drop n).length ?_ _ rfl)
      have htwo := escape_pos hescape
      cases raw with
      | nil => cases hescape
      | cons b rest =>
        rw [List.length_drop, ← hlength, List.length_cons]
        omega
    | none =>
      cases raw with
      | nil => exact nil
      | cons b rest =>
        have hrest : P rest := ih rest.length (by rw [← hlength]; exact Nat.lt_succ_self _) rest rfl
        cases hcontrol : control b with
        | true => exact deleted b rest hescape hcontrol hrest
        | false => exact kept b rest hescape hcontrol hrest

/-! C1 controls: U+0080 to U+009F, in UTF-8. -/

def HasC1 (text : Bytes) : Prop := ∃ c : UInt8, 0x80 ≤ c ∧ c ≤ 0x9F ∧ [0xC2, c] <:+: text

/-- The patterns come to stand before `rest`. -/
inductive Scans (raw : Bytes) : Bytes → Prop where
  | start : Scans raw raw
  | past {rest : Bytes} {n : Nat} (h : Scans raw rest) (hescape : escape rest = some n) :
      Scans raw (rest.drop n)
  | next {b : UInt8} {rest : Bytes} (h : Scans raw (b :: rest))
      (hescape : escape (b :: rest) = none) : Scans raw rest

inductive Deletes : Bytes → Bytes → Prop where
  | nothing (rest : Bytes) : Deletes rest rest
  | sequence {rest rest' : Bytes} {n : Nat} (hescape : escape rest = some n)
      (h : Deletes (rest.drop n) rest') : Deletes rest rest'
  | control {b : UInt8} {rest rest' : Bytes} (hescape : escape (b :: rest) = none)
      (hcontrol : control b = true) (h : Deletes rest rest') : Deletes (b :: rest) rest'

/-- The two bytes of a C1 control, outside of the sequences and with nothing between them that is
not deleted. -/
def Meets (raw : Bytes) : Prop :=
  ∃ (c : UInt8) (rest rest' : Bytes), 0x80 ≤ c ∧ c ≤ 0x9F ∧ Scans raw (0xC2 :: rest) ∧
    Deletes rest (c :: rest')

theorem Scans.trans {mid : Bytes} (h : Scans raw mid) (h' : Scans mid rest) : Scans raw rest := by
  induction h' with
  | start => exact h
  | past _ hescape ih => exact ih.past hescape
  | next _ hescape ih => exact ih.next hescape

theorem Meets.of_scans (hscans : Scans raw rest) (h : Meets rest) : Meets raw := by
  obtain ⟨c, r, r', hlow, hhigh, hpair, hdeletes⟩ := h
  exact ⟨c, r, r', hlow, hhigh, hscans.trans hpair, hdeletes⟩

theorem Scans.cleaned_suffix (h : Scans raw rest) : cleaned rest <:+ cleaned raw := by
  induction h with
  | start => exact List.suffix_rfl
  | past _ hescape ih => rwa [← cleaned_escape hescape]
  | @next b rest _ hescape ih =>
    cases hcontrol : control b with
    | true => rwa [cleaned_control hescape hcontrol] at ih
    | false =>
      rw [cleaned_kept hescape hcontrol] at ih
      exact (List.suffix_cons b _).trans ih

theorem Deletes.cleaned_eq (h : Deletes rest rest') : cleaned rest = cleaned rest' := by
  induction h with
  | nothing rest => rfl
  | sequence hescape _ ih => rw [cleaned_escape hescape, ih]
  | control hescape hcontrol _ ih => rw [cleaned_control hescape hcontrol, ih]

theorem deletes_of_cleaned (raw : Bytes) {c : UInt8} {left : Bytes} (h : cleaned raw = c :: left) :
    ∃ rest, Deletes raw (c :: rest) := by
  induction raw using cleaned_induction with
  | nil => cases h
  | sequence raw n hescape ih =>
    rw [cleaned_escape hescape] at h
    obtain ⟨rest, hrest⟩ := ih h
    exact ⟨rest, .sequence hescape hrest⟩
  | deleted b rest hescape hcontrol ih =>
    rw [cleaned_control hescape hcontrol] at h
    obtain ⟨rest', hrest⟩ := ih h
    exact ⟨rest', .control hescape hcontrol hrest⟩
  | kept b rest hescape hcontrol ih =>
    rw [cleaned_kept hescape hcontrol] at h
    obtain ⟨rfl, -⟩ := List.cons.inj h
    exact ⟨rest, .nothing _⟩

theorem pair_cons {x y c : UInt8} {l : Bytes} :
    [x, y] <:+: c :: l ↔ (x = c ∧ l.head? = some y) ∨ [x, y] <:+: l := by
  rw [List.infix_cons_iff, List.cons_prefix_cons, List.singleton_prefix_iff_head?_eq_some]

theorem meets_of_hasC1 (raw : Bytes) (h : HasC1 (cleaned raw)) : Meets raw := by
  induction raw using cleaned_induction with
  | nil =>
    obtain ⟨c, -, -, hpair⟩ := h
    cases List.eq_nil_of_infix_nil hpair
  | sequence raw n hescape ih =>
    rw [cleaned_escape hescape] at h
    exact (ih h).of_scans (.past .start hescape)
  | deleted b rest hescape hcontrol ih =>
    rw [cleaned_control hescape hcontrol] at h
    exact (ih h).of_scans (.next .start hescape)
  | kept b rest hescape hcontrol ih =>
    rw [cleaned_kept hescape hcontrol] at h
    obtain ⟨c, hlow, hhigh, hpair⟩ := h
    rcases pair_cons.mp hpair with ⟨rfl, hhead⟩ | hpair
    · obtain ⟨left, hleft⟩ := List.head?_eq_some_iff.mp hhead
      obtain ⟨rest', hrest⟩ := deletes_of_cleaned rest hleft
      exact ⟨c, rest, rest', hlow, hhigh, .start, hrest⟩
    · exact (ih ⟨c, hlow, hhigh, hpair⟩).of_scans (.next .start hescape)

theorem hasC1_cleaned : HasC1 (cleaned raw) ↔ Meets raw := by
  constructor
  · exact meets_of_hasC1 raw
  · rintro ⟨c, rest, rest', hlow, hhigh, hscans, hdeletes⟩
    have hsuffix := hscans.cleaned_suffix
    rw [cleaned_high (by decide), hdeletes.cleaned_eq, cleaned_high hlow] at hsuffix
    exact ⟨c, hlow, hhigh, List.IsInfix.trans ⟨[], cleaned rest', rfl⟩ hsuffix.isInfix⟩

/-! What the lines of a text are made to keep its pairs. -/

section Pairs

variable {x y : UInt8} {l r : Bytes} {ls : List Bytes} {α : Type} {p : α → Bool}

theorem pair_append_sep (hx : x ≠ 10) (hy : y ≠ 10) :
    [x, y] <:+: l ++ 10 :: r ↔ [x, y] <:+: l ∨ [x, y] <:+: r := by
  induction l with
  | nil => simp [pair_cons, hx]
  | cons c l ih =>
    rw [List.cons_append, pair_cons, pair_cons, ih]
    cases l with
    | nil => simp [Ne.symm hy]
    | cons d l => simp [or_assoc]

theorem pair_join (hx : x ≠ 10) (hy : y ≠ 10) :
    [x, y] <:+: join 10 ls ↔ ∃ l ∈ ls, [x, y] <:+: l := by
  induction ls with
  | nil => simp [join]
  | cons l ls ih =>
    cases ls with
    | nil => simp [join_singleton]
    | cons l' ls =>
      rw [join_cons (List.cons_ne_nil _ _), pair_append_sep hx hy, ih]
      simp

theorem pair_splitOn (hx : x ≠ 10) (hy : y ≠ 10) :
    [x, y] <:+: l ↔ ∃ line ∈ l.splitOn 10, [x, y] <:+: line := by
  rw [← pair_join hx hy, join, List.intercalate_splitOn]

theorem pair_map {f : UInt8 → UInt8} (hx : ∀ b, f b = x ↔ b = x) (hy : ∀ b, f b = y ↔ b = y) :
    [x, y] <:+: l.map f ↔ [x, y] <:+: l := by
  induction l with
  | nil => simp
  | cons c l ih =>
    rw [List.map_cons, pair_cons, pair_cons, ih, eq_comm, hx, eq_comm, List.head?_map,
      Option.map_eq_some_iff]
    simp [hy]

theorem prefix_rdropWhile {m s : List α} (h : m <+: s) (hlast : ∀ a ∈ m.getLast?, p a = false) :
    m <+: s.rdropWhile p := by
  induction s using List.reverseRecOn with
  | nil => simpa using h
  | append_singleton s a ih =>
    cases hp : p a with
    | true =>
      rw [List.rdropWhile_concat_pos _ _ _ hp]
      rcases List.prefix_concat_iff.mp h with rfl | h
      · have hnot := hlast a (by simp)
        rw [hp] at hnot
        cases hnot
      · exact ih h
    | false =>
      rw [List.rdropWhile_concat_neg _ _ _ (by simp [hp])]
      exact h

theorem pair_rdropWhile {p : UInt8 → Bool} (hy : p y = false) :
    [x, y] <:+: l.rdropWhile p ↔ [x, y] <:+: l := by
  constructor
  · exact fun h => h.trans (List.rdropWhile_prefix p l).isInfix
  · rintro ⟨s, t, rfl⟩
    have hstart : s ++ [x, y] <+: (s ++ [x, y] ++ t).rdropWhile p :=
      prefix_rdropWhile (List.prefix_append _ _) (by simp [hy])
    exact List.IsInfix.trans ⟨s, [], by simp⟩ hstart.isInfix

theorem mem_dropWhile {a : α} {s : List α} (ha : p a = false) : a ∈ s.dropWhile p ↔ a ∈ s := by
  constructor
  · exact fun h => (List.dropWhile_suffix p).mem h
  · intro h
    rw [← List.takeWhile_append_dropWhile (p := p) (l := s), List.mem_append] at h
    rcases h with h | h
    · rw [List.mem_takeWhile_imp h] at ha
      cases ha
    · exact h

theorem mem_rdropWhile {a : α} {s : List α} (ha : p a = false) :
    a ∈ s.rdropWhile p ↔ a ∈ s := by
  rw [List.rdropWhile, List.mem_reverse, mem_dropWhile ha, List.mem_reverse]

theorem pair_cleanLine (hx : x ≠ 0x09 ∧ x ≠ 0x20) (hy : y ≠ 0x09 ∧ y ≠ 0x20) :
    [x, y] <:+: cleanLine l ↔ [x, y] <:+: l := by
  rw [cleanLine, pair_rdropWhile (by simp [hy.2]), pair_map]
  all_goals
    intro b
    split
    · next htab => simp [htab, Ne.symm hx.1, Ne.symm hx.2, Ne.symm hy.1, Ne.symm hy.2]
    · rfl

end Pairs

theorem hasC1_sanitizeBanner : HasC1 (sanitizeBanner raw) ↔ Meets raw := by
  rw [← hasC1_cleaned]
  refine exists_congr fun c => and_congr_right fun hlow => and_congr_right fun _ => ?_
  have hne : ∀ d : UInt8, d < 0x80 → c ≠ d := by
    intro d hd heq
    rw [heq] at hlow
    exact absurd hd (UInt8.not_lt.mpr hlow)
  have hten := hne 10 (by decide)
  rw [sanitizeBanner, pair_join (by decide) hten, pair_splitOn (by decide) hten]
  have hline : ∀ l : Bytes, [0xC2, c] <:+: cleanLine l ↔ [0xC2, c] <:+: l := fun l =>
    pair_cleanLine (by decide) ⟨hne 0x09 (by decide), hne 0x20 (by decide)⟩
  have hkept : ∀ (l : Bytes) (ls : List Bytes), [0xC2, c] <:+: l →
      (l ∈ (ls.dropWhile fun l => l = []).rdropWhile (fun l => l = []) ↔ l ∈ ls) := by
    intro l ls hpair
    have hnil : l ≠ [] := by
      rintro rfl
      simp at hpair
    rw [mem_rdropWhile (by simpa using hnil), mem_dropWhile (by simpa using hnil)]
  constructor
  · rintro ⟨l, hmem, hpair⟩
    rw [hkept l _ hpair, List.mem_map] at hmem
    obtain ⟨line, hmem, rfl⟩ := hmem
    exact ⟨line, hmem, (hline line).mp hpair⟩
  · rintro ⟨line, hmem, hpair⟩
    have hclean := (hline line).mpr hpair
    exact ⟨cleanLine line, (hkept _ _ hclean).mpr (List.mem_map_of_mem hmem), hclean⟩

/-! The limits -/

def Plain (text : Bytes) : Prop := ∀ b ∈ text, b = 10 ∨ (0x20 ≤ b ∧ b ≠ 0x7F)

theorem mem_cleaned (h : b ∈ cleaned raw) : b = 9 ∨ b = 10 ∨ (0x20 ≤ b ∧ b ≠ 0x7F) := by
  have hcontrol : control b = false := by simpa using (List.mem_filter.mp h).2
  simp only [control, Bool.or_eq_false_iff, Bool.and_eq_false_iff, decide_eq_false_iff_not,
    beq_eq_false_iff_ne, UInt8.le_iff_toNat_le, UInt8.toNat_ofNat,
    ← UInt8.toNat_inj, ne_eq] at hcontrol ⊢
  omega

theorem mem_join {ls : List Bytes} (h : b ∈ join 10 ls) : b = 10 ∨ ∃ l ∈ ls, b ∈ l := by
  induction ls with
  | nil => simp [join] at h
  | cons l ls ih =>
    cases ls with
    | nil =>
      rw [join_singleton] at h
      exact .inr ⟨l, List.mem_cons_self, h⟩
    | cons l' ls =>
      rw [join_cons (List.cons_ne_nil _ _), List.mem_append, List.mem_cons] at h
      rcases h with h | rfl | h
      · exact .inr ⟨l, List.mem_cons_self, h⟩
      · exact .inl rfl
      · rcases ih h with h | ⟨m, hm, hb⟩
        · exact .inl h
        · exact .inr ⟨m, List.mem_cons_of_mem l hm, hb⟩

theorem mem_of_mem_join {l : Bytes} {ls : List Bytes} (hl : l ∈ ls) (hb : b ∈ l) :
    b ∈ join 10 ls := by
  induction ls with
  | nil => cases hl
  | cons l' ls ih =>
    cases ls with
    | nil =>
      rw [List.mem_singleton.mp hl] at hb
      rwa [join_singleton]
    | cons l'' ls =>
      rw [join_cons (List.cons_ne_nil _ _), List.mem_append, List.mem_cons]
      rcases List.mem_cons.mp hl with rfl | hl
      · exact .inl hb
      · exact .inr (.inr (ih hl))

theorem plain_sanitizeBanner (raw : Bytes) : Plain (sanitizeBanner raw) := by
  intro b hb
  rcases mem_join hb with hten | ⟨l, hl, hb⟩
  · exact .inl hten
  · have hmem := (List.dropWhile_suffix _).mem ((List.rdropWhile_prefix _ _).mem hl)
    obtain ⟨line, hline, rfl⟩ := List.mem_map.mp hmem
    obtain ⟨c, hc, rfl⟩ := List.mem_map.mp ((List.rdropWhile_prefix _ _).mem hb)
    have hcleaned : c ∈ cleaned raw := by
      have hjoin := mem_of_mem_join hline hc
      rwa [join, List.intercalate_splitOn] at hjoin
    split
    · exact .inr (by decide)
    · next htab =>
      rcases mem_cleaned hcleaned with rfl | hten | hplain
      · exact absurd rfl htab
      · exact .inl hten
      · exact .inr hplain

theorem length_splitOn (s : Bytes) : (s.splitOn 10).length = s.count 10 + 1 := by
  induction s with
  | nil => rfl
  | cons b s ih =>
    rw [List.splitOn_cons_eq_if_modifyHead, List.count_cons]
    split
    · rw [List.length_cons, ih]
    · rw [List.length_modifyHead, ih, Nat.add_zero]

theorem join_take_start (ls : List Bytes) (n : Nat) : join 10 (ls.take n) <+: join 10 ls := by
  induction ls generalizing n with
  | nil => simp
  | cons l ls ih =>
    cases n with
    | zero => simp [join]
    | succ n =>
      cases ls with
      | nil => simp
      | cons l' ls =>
        rw [List.take_succ_cons, join_cons (List.cons_ne_nil _ _)]
        cases n with
        | zero =>
          rw [List.take_zero, join_singleton]
          exact List.prefix_append _ _
        | succ n =>
          rw [join_cons (by simp)]
          exact (List.prefix_append_right_inj _).mpr (List.cons_prefix_cons.mpr ⟨rfl, ih (n + 1)⟩)

theorem cutCharacter_start (s : Bytes) : cutCharacter s <+: s := by
  fun_induction cutCharacter s with
  | case1 s h => exact List.prefix_rfl
  | case2 s h ih => exact ih.trans (List.dropLast_prefix s)

structure Shown (text shown : Bytes) : Prop where
  start : shown <+: text
  bytes : shown.length ≤ maxBannerBytes
  lines : (shown.splitOn 10).length ≤ maxBannerLines

theorem Shown.of_start {s shown shown' : Bytes} (h : Shown s shown) (hstart : shown' <+: shown) :
    Shown s shown' := by
  refine ⟨hstart.trans h.start, hstart.length_le.trans h.bytes, ?_⟩
  have hlines := h.lines
  rw [length_splitOn] at hlines ⊢
  have hcount := hstart.sublist.count_le 10
  omega

theorem firstLines_shown (s : Bytes) :
    join 10 ((s.splitOn 10).take maxBannerLines) <+: s ∧
      ((join 10 ((s.splitOn 10).take maxBannerLines)).splitOn 10).length ≤ maxBannerLines := by
  constructor
  · have hstart := join_take_start (s.splitOn 10) maxBannerLines
    rwa [join, join, List.intercalate_splitOn] at hstart
  · rw [splitOn_join (fun l hl => sep_not_mem_of_mem_splitOn (List.mem_of_mem_take hl))]
    · exact List.length_take_le _ _
    · simp [maxBannerLines, List.splitOn_ne_nil]

theorem keptLines_eq (s : Bytes) :
    (if maxBannerLines < (s.splitOn 10).length then (s.splitOn 10).take maxBannerLines
      else s.splitOn 10) = (s.splitOn 10).take maxBannerLines := by
  split
  · rfl
  · next hfew => exact (List.take_of_length_le (Nat.le_of_not_lt hfew)).symm

theorem truncateBanner_shown (s : Bytes) : ∃ shown, Shown s shown ∧
    (truncateBanner s = shown ∧ shown = s ∨ truncateBanner s = shown ++ ellipsis) := by
  by_cases hnil : s = []
  · subst hnil
    exact ⟨[], ⟨List.prefix_rfl, by decide, by decide⟩, .inl ⟨rfl, rfl⟩⟩
  · obtain ⟨hstart, hlines⟩ := firstLines_shown s
    rw [truncateBanner, if_neg hnil]
    dsimp only
    rw [keptLines_eq]
    by_cases hbytes : maxBannerBytes < (join 10 ((s.splitOn 10).take maxBannerLines)).length
    · rw [if_pos hbytes, if_pos (.inr hbytes)]
      have htake := List.take_prefix maxBannerBytes (join 10 ((s.splitOn 10).take maxBannerLines))
      have hshown : Shown s ((join 10 ((s.splitOn 10).take maxBannerLines)).take maxBannerBytes) :=
        ⟨htake.trans hstart, List.length_take_le _ _, by
          rw [length_splitOn] at hlines ⊢
          have hcount := htake.sublist.count_le 10
          omega⟩
      exact ⟨_, (hshown.of_start (cutCharacter_start _)).of_start ( List.rdropWhile_prefix _ _),
        .inr rfl⟩
    · have hshown : Shown s (join 10 ((s.splitOn 10).take maxBannerLines)) :=
        ⟨hstart, Nat.le_of_not_lt hbytes, hlines⟩
      rw [if_neg hbytes]
      by_cases hmany : maxBannerLines < (s.splitOn 10).length
      · rw [if_pos (.inl hmany)]
        exact ⟨_, hshown.of_start ( List.rdropWhile_prefix _ _), .inr rfl⟩
      · rw [if_neg (not_or.mpr ⟨hmany, hbytes⟩)]
        refine ⟨_, hshown, .inl ⟨rfl, ?_⟩⟩
        rw [List.take_of_length_le (Nat.le_of_not_lt hmany), join, List.intercalate_splitOn]

theorem hasC1_ellipsis {shown : Bytes} (h : HasC1 (shown ++ ellipsis)) : HasC1 shown := by
  obtain ⟨c, hlow, hhigh, hpair⟩ := h
  have hten : c ≠ 10 := by
    rintro rfl
    exact absurd hlow (by decide)
  rcases (pair_append_sep (by decide) hten).mp hpair with hpair | hpair
  · exact ⟨c, hlow, hhigh, hpair⟩
  · exact absurd (hpair.mem (by simp : (0xC2 : UInt8) ∈ [0xC2, c])) (by decide)

theorem HasC1.mono {s s' : Bytes} (h : HasC1 s) (hpart : s <:+: s') : HasC1 s' := by
  obtain ⟨c, hlow, hhigh, hpair⟩ := h
  exact ⟨c, hlow, hhigh, hpair.trans hpart⟩

theorem bannerDetail_url (before text url : Bytes) : url <:+: bannerDetail before text url := by
  rw [bannerDetail]
  by_cases hlink : url ≠ [] ∧ ¬ url <:+: text
  · rw [if_pos hlink]
    exact ((List.suffix_append _ _).trans (List.suffix_append _ _)).isInfix
  · rw [if_neg hlink, List.append_nil]
    by_cases hurl : url = []
    · rw [hurl]
      exact List.nil_infix
    · have hcontained : url <:+: text := by
        by_contra hnot
        exact hlink ⟨hurl, hnot⟩
      exact hcontained.trans (List.suffix_append _ _).isInfix

theorem truncateBanner_ne_nil {s : Bytes} (h : s ≠ []) : truncateBanner s ≠ [] := by
  obtain ⟨shown, -, ⟨heq, hsame⟩ | heq⟩ := truncateBanner_shown s
  · rwa [heq, hsame]
  · simp [heq, ellipsis]

theorem annotated_link (err : HandshakeError) (parts : List Bytes) (hostKeyChecked : Bool)
    (h : url parts ≠ []) : ∃ message,
      annotateHandshakeFailure (some err) (some parts) hostKeyChecked = some message ∧
        url parts <:+: message := by
  have htext : text parts ≠ [] := by
    refine truncateBanner_ne_nil fun hnil => h ?_
    rw [url, hnil, firstLink]
  simp only [annotateHandshakeFailure, Option.map_some, Option.getD_some]
  rw [if_pos (⟨htext, .inl h⟩ : text parts ≠ [] ∧ (url parts ≠ [] ∨ _))]
  refine ⟨_, rfl, ?_⟩
  have hdetail := bannerDetail_url
    (if (err.deadline || err.timeout.getD false) = true then stageText hostKeyChecked else [])
    (text parts) (url parts)
  rw [if_neg]
  · exact (hdetail.trans (List.suffix_append _ _).isInfix).trans (List.suffix_append _ _).isInfix
  · intro hnil
    have hempty := (List.append_eq_nil_iff.mp hnil).2
    rw [hempty] at hdetail
    exact h (List.eq_nil_of_infix_nil hdetail)

structure Limited (parts : List Bytes) : Prop where
  plain : Plain (text parts)
  shown : ∃ shown, Shown (sanitized parts) shown ∧
    (text parts = shown ∧ shown = sanitized parts ∨ text parts = shown ++ ellipsis)
  nonempty : sanitized parts ≠ [] → text parts ≠ []
  linked : ∀ (err : HandshakeError) (hostKeyChecked : Bool), url parts ≠ [] → ∃ message,
    annotateHandshakeFailure (some err) (some parts) hostKeyChecked = some message ∧
      url parts <:+: message

theorem limited (parts : List Bytes) : Limited parts := by
  obtain ⟨shown, hshown, htext⟩ := truncateBanner_shown (sanitized parts)
  refine ⟨?_, ⟨shown, hshown, htext⟩, truncateBanner_ne_nil, fun err hostKeyChecked h =>
    annotated_link err parts hostKeyChecked h⟩
  have hplain := plain_sanitizeBanner (join 10 parts)
  rcases htext with ⟨heq, hsame⟩ | heq
  · rwa [text, heq, hsame]
  · intro b hb
    rw [text, heq, List.mem_append] at hb
    rcases hb with hb | hb
    · exact hplain b (hshown.start.mem hb)
    · revert b
      decide +kernel

/-- The banners are limited and free of C0 controls in any case. C1 controls are shown only where the
two bytes of one meet in them, and then the sanitised text has one. -/
theorem banner_harmless (parts : List Bytes) :
    Limited parts ∧ (¬ Meets (join 10 parts) → ¬ HasC1 (text parts)) ∧
      (Meets (join 10 parts) ↔ HasC1 (sanitized parts)) := by
  refine ⟨limited parts, fun hmeets hc1 => hmeets ?_, hasC1_sanitizeBanner.symm⟩
  rw [← hasC1_sanitizeBanner]
  obtain ⟨shown, hshown, ⟨heq, hsame⟩ | heq⟩ := truncateBanner_shown (sanitized parts)
  · rwa [text, heq, hsame] at hc1
  · rw [text, heq] at hc1
    exact (hasC1_ellipsis hc1).mono hshown.start.isInfix

/-- U+009B begins a control sequence as `ESC [` does. -/
theorem c1_is_shown : ¬ ∀ parts : List Bytes, Limited parts ∧ ¬ HasC1 (text parts) := by
  intro h
  have htext : text [[0xC2, 0x9B, 0x32, 0x4A]] = [0xC2, 0x9B, 0x32, 0x4A] := by decide
  refine (h [[0xC2, 0x9B, 0x32, 0x4A]]).2 ⟨0x9B, by decide, by decide, ?_⟩
  rw [htext]
  exact ⟨[], [0x32, 0x4A], rfl⟩

end Dolgate.Banner
