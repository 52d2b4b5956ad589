import Mathlib.Data.List.Sort
import Mathlib.Tactic.Common
import Dolgate.ReplayPlayer

set_option autoImplicit false

/-! Seeking in a recording shows the same as playing it from the start. -/

namespace Dolgate.ReplayPlayer

open Transition

inductive Mark where
  | byte (b : UInt8)
  | resize (cols rows : Nat)
  deriving DecidableEq, Repr

def Op.marks : Op → List Mark
  | .write data => data.map .byte
  | .screen _ => []
  | .resize cols rows => [.resize cols rows]

/-- What the terminal was given. A picture at the front stands for what `restores` says. -/
def denote (restores : Nat → Nat → String → List Mark) : List Op → List Mark
  | .resize cols rows :: .screen data :: rest => restores cols rows data ++ rest.flatMap Op.marks
  | ops => ops.flatMap Op.marks

section Recording

variable {τ : Type}

def Segment.marks (segment : Segment τ) (index : Nat) : List Mark :=
  if segment.cols.getD index 0 = 0 then
    (subarray segment.data (segment.runEnd index) (segment.dataEnd.getD index 0)).map .byte
  else [.resize (segment.cols.getD index 0) (segment.rows.getD index 0)]

def Segment.entries (segment : Segment τ) : List (τ × List Mark) :=
  segment.atMs.zipIdx.map fun p => (p.1, segment.marks p.2)

def Source.entries (source : Source τ) : List (τ × List Mark) :=
  source.recorded.flatMap (·.entries)

/-- The entries before the one at `entry` of `segment`. -/
def Source.before (source : Source τ) (segment entry : Nat) : List (τ × List Mark) :=
  (source.recorded.take segment).flatMap (·.entries) ++
    (((source.recorded[segment]?).map (·.entries)).getD []).take entry

def Source.after (source : Source τ) (segment entry : Nat) : List (τ × List Mark) :=
  (((source.recorded[segment]?).map (·.entries)).getD []).drop entry ++
    (source.recorded.drop (segment + 1)).flatMap (·.entries)

/-- The output of an entry lies behind that of the entry before, and a resize has none. -/
structure Segment.Readable (segment : Segment τ) : Prop where
  runEnd_le : ∀ index, index < segment.atMs.length →
    segment.runEnd index ≤ segment.dataEnd.getD index 0
  resize : ∀ index, index < segment.atMs.length → segment.cols.getD index 0 ≠ 0 →
    segment.dataEnd.getD index 0 = segment.runEnd index

structure Source.Recorded [LinearOrder τ] (source : Source τ) : Prop where
  readable : ∀ segment ∈ source.recorded, segment.Readable
  starts : source.segments.map (some ·.startAtMs) = source.recorded.map (·.atMs.head?)
  sorted : (source.entries.map (·.1)).Pairwise (· ≤ ·)

def Source.shown [LinearOrder τ] (source : Source τ) (targetMs : τ) : List Mark :=
  (source.entries.filter (·.1 ≤ targetMs)).flatMap (·.2)

/-- The snapshot is a picture of the terminal after all the entries before its segment. -/
structure Stands (source : Source τ) (restores : Nat → Nat → String → List Mark)
    (snapshot : Snapshot τ) : Prop where
  restores : restores snapshot.cols snapshot.rows snapshot.data =
    (source.before snapshot.segment 0).flatMap (·.2)
  last : ((source.before snapshot.segment 0).map (·.1)).getLast? = some snapshot.atMs

end Recording

/-! The terminal. -/

section Denotation

variable {restores : Nat → Nat → String → List Mark}

theorem denote_concat {op : Op} (h : ∀ data, op ≠ .screen data) (log : List Op) :
    denote restores (log ++ [op]) = denote restores log ++ op.marks := by
  match log with
  | [] => cases op <;> simp [denote]
  | [first] =>
      cases first <;> cases op with
      | screen data => exact absurd rfl (h data)
      | _ => simp [denote]
  | first :: second :: rest =>
      cases first <;> cases second <;> simp [denote]

theorem denote_writeRun (t : Terminal) (data : List UInt8) (runStart runEnd : Nat) :
    denote restores (t.writeRun data runStart runEnd).log =
      denote restores t.log ++ (subarray data runStart runEnd).map .byte := by
  unfold Terminal.writeRun
  split
  · exact denote_concat (by simp) t.log
  · have hnil : subarray data runStart runEnd = [] := by
      simp [subarray]
      omega
    simp [hnil]

theorem resizedOver_writeRun (t : Terminal) (data : List UInt8) (runStart runEnd : Nat) :
    (t.writeRun data runStart runEnd).resizedOver = t.resizedOver := by
  unfold Terminal.writeRun
  split <;> rfl

theorem subarray_append (data : List UInt8) {a b c : Nat} (hab : a ≤ b) (hbc : b ≤ c) :
    subarray data a b ++ subarray data b c = subarray data a c := by
  have hb : data.take b = (data.take c).take b := by rw [List.take_take, Nat.min_eq_left hbc]
  have hdrop : (data.take c).drop b = ((data.take c).drop a).drop (b - a) := by
    rw [List.drop_drop, Nat.add_sub_cancel' hab]
  rw [subarray, subarray, subarray, hb, List.drop_take, hdrop, List.take_append_drop]

theorem subarray_self (data : List UInt8) (a : Nat) : subarray data a a = [] := by
  simp [subarray]

end Denotation

/-! A pass over a segment. -/

section Pass

variable {τ : Type} {restores : Nat → Nat → String → List Mark} {segment : Segment τ}
  {base : List Mark} {p : Pass}

theorem runEnd_succ (segment : Segment τ) (index : Nat) :
    segment.runEnd (index + 1) = segment.dataEnd.getD index 0 := by
  simp [Segment.runEnd]

theorem entries_getElem? (segment : Segment τ) (index : Nat) :
    segment.entries[index]? =
      (segment.atMs[index]?).map fun atMs => (atMs, segment.marks index) := by
  simp [Segment.entries, List.getElem?_zipIdx, Function.comp_def]

@[simp] theorem length_entries (segment : Segment τ) :
    segment.entries.length = segment.atMs.length := by
  simp [Segment.entries]

theorem entries_take_succ {index : Nat} {atMs : τ} (h : segment.atMs[index]? = some atMs) :
    (segment.entries.take (index + 1)).flatMap (·.2) =
      (segment.entries.take index).flatMap (·.2) ++ segment.marks index := by
  rw [List.take_add_one, entries_getElem?, h]
  simp

/-- With the output it still holds back, the pass has handed over what lies before its index. -/
structure Pass.Good (restores : Nat → Nat → String → List Mark) (segment : Segment τ)
    (base : List Mark) (p : Pass) : Prop where
  shown : denote restores p.terminal.log ++
      (subarray segment.data p.runStart (segment.runEnd p.index)).map .byte =
    base ++ (segment.entries.take p.index).flatMap (·.2)
  runStart_le : p.runStart ≤ segment.runEnd p.index
  still : ∀ queued ∈ p.terminal.resizedOver, queued = 0

theorem Pass.Good.output (h : p.Good restores segment base) (hseg : segment.Readable) {atMs : τ}
    (hat : segment.atMs[p.index]? = some atMs) (hcols : segment.cols.getD p.index 0 = 0) :
    Pass.Good restores segment base { p with index := p.index + 1 } := by
  have hlt := (List.getElem?_eq_some_iff.mp hat).1
  have hle := hseg.runEnd_le p.index hlt
  constructor
  · dsimp only
    rw [entries_take_succ hat, runEnd_succ, ← subarray_append _ h.runStart_le hle, List.map_append,
      ← List.append_assoc, h.shown, Segment.marks, if_pos hcols, List.append_assoc]
  · dsimp only
    rw [runEnd_succ]
    exact h.runStart_le.trans hle
  · exact h.still

theorem Pass.Good.flush (h : p.Good restores segment base) :
    Pass.Good restores segment base
      { p with
        terminal :=
          p.terminal.writeRun segment.data p.runStart (segment.runEnd p.index)
        runStart := segment.runEnd p.index } := by
  constructor
  · dsimp only
    rw [denote_writeRun, subarray_self, List.map_nil, List.append_nil]
    exact h.shown
  · exact Nat.le_refl _
  · dsimp only
    rw [resizedOver_writeRun]
    exact h.still

theorem Pass.Good.resize (h : p.Good restores segment base) {atMs : τ}
    (hat : segment.atMs[p.index]? = some atMs) (hcols : segment.cols.getD p.index 0 ≠ 0)
    (hstart : p.runStart = segment.runEnd p.index) (hqueued : p.terminal.queued = 0)
    (viewport : Option (Nat × Nat)) :
    Pass.Good restores segment base
      { terminal := p.terminal.resize (segment.cols.getD p.index 0) (segment.rows.getD p.index 0)
        index := p.index + 1
        runStart := segment.dataEnd.getD p.index 0
        viewport := viewport } := by
  have hshown := h.shown
  rw [hstart, subarray_self, List.map_nil, List.append_nil] at hshown
  constructor
  · dsimp only [Terminal.resize]
    rw [runEnd_succ, subarray_self, List.map_nil, List.append_nil, entries_take_succ hat,
      denote_concat (by simp), hshown, Segment.marks, if_neg hcols, List.append_assoc]
    rfl
  · dsimp only
    rw [runEnd_succ]
  · intro queued hmem
    obtain hmem | hmem := List.mem_append.mp hmem
    · exact h.still queued hmem
    · rw [List.mem_singleton.mp hmem, hqueued]

variable [LinearOrder τ] {targetMs : τ}

/-- A pass that began at `index`, with `n` entries to look at, ends as `p`. -/
structure Pass.Ends (restores : Nat → Nat → String → List Mark) (segment : Segment τ)
    (base : List Mark) (targetMs : τ) (index n : Nat) (p : Pass) : Prop where
  good : p.Good restores segment base
  within : ∀ i, index ≤ i → i < p.index → ∃ atMs, segment.atMs[i]? = some atMs ∧ atMs ≤ targetMs
  flushed : p.waitingForWrites = true → p.runStart = segment.runEnd p.index
  later : p.waitingForWrites = false → segment.atMs.length ≤ index + n →
    ∀ atMs, segment.atMs[p.index]? = some atMs → targetMs < atMs

theorem Pass.Ends.cons {index n : Nat} {atMs : τ}
    (h : p.Ends restores segment base targetMs (index + 1) n)
    (hat : segment.atMs[index]? = some atMs) (hle : atMs ≤ targetMs) :
    p.Ends restores segment base targetMs index (n + 1) where
  good := h.good
  within := by
    intro i hi hlt
    by_cases heq : i = index
    · subst heq
      exact ⟨atMs, hat, hle⟩
    · exact h.within i (by omega) hlt
  flushed := h.flushed
  later := by
    intro hwaiting hlen
    exact h.later hwaiting (by omega)

theorem drawEntries_spec (targetMs : τ) (hseg : segment.Readable) (n : Nat)
    (h : p.Good restores segment base) (hwaiting : p.waitingForWrites = false) :
    (drawEntries segment targetMs n p).Ends restores segment base targetMs p.index n := by
  induction n generalizing p with
  | zero =>
      constructor
      · exact h
      · intro i hi hlt
        have hlt : i < p.index := hlt
        omega
      · intro hw
        have hw : p.waitingForWrites = true := hw
        simp [hwaiting] at hw
      · intro _ hlen atMs hat
        have hlt : p.index < segment.atMs.length := (List.getElem?_eq_some_iff.mp hat).1
        omega
  | succ n ih =>
      unfold drawEntries
      cases hat : segment.atMs[p.index]? with
      | none =>
          dsimp only
          refine ⟨h, fun i hi hlt => by omega, fun hw => ?_, fun _ _ atMs hsome => ?_⟩
          · simp [hwaiting] at hw
          · simp [hat] at hsome
      | some atMs =>
          dsimp only
          by_cases hlate : targetMs < atMs
          · rw [if_pos hlate]
            refine ⟨h, fun i hi hlt => by omega, fun hw => ?_, fun _ _ atMs' hsome => ?_⟩
            · simp [hwaiting] at hw
            · rw [hat] at hsome
              cases hsome
              exact hlate
          · rw [if_neg hlate]
            have hle : atMs ≤ targetMs := not_lt.mp hlate
            by_cases hcols : segment.cols.getD p.index 0 = 0
            · rw [if_pos hcols]
              exact (ih (h.output hseg hat hcols) hwaiting).cons hat hle
            · rw [if_neg hcols]
              have hstart : (if p.runStart < segment.runEnd p.index then segment.runEnd p.index
                  else p.runStart) = segment.runEnd p.index := by
                have := h.runStart_le
                split <;> omega
              rw [hstart]
              by_cases hqueued : 0 < (p.terminal.writeRun segment.data p.runStart
                  (segment.runEnd p.index)).queued
              · rw [if_pos hqueued]
                have hflush := h.flush
                refine ⟨⟨hflush.shown, hflush.runStart_le, hflush.still⟩,
                  fun i hi hlt => ?_, fun _ => rfl, fun hw => ?_⟩
                · have hlt : i < p.index := hlt
                  omega
                · cases hw
              · rw [if_neg hqueued]
                have hzero : (p.terminal.writeRun segment.data p.runStart
                    (segment.runEnd p.index)).queued = 0 := by omega
                exact (ih (h.flush.resize hat hcols rfl hzero _) rfl).cons hat hle

/-- A pass over the segment hands over just what lies before the index at which it ends. -/
structure Pass.Done (restores : Nat → Nat → String → List Mark) (segment : Segment τ)
    (base : List Mark) (targetMs : τ) (index : Nat) (p : Pass) : Prop where
  shown : denote restores p.terminal.log = base ++ (segment.entries.take p.index).flatMap (·.2)
  still : ∀ queued ∈ p.terminal.resizedOver, queued = 0
  within : ∀ i, index ≤ i → i < p.index → ∃ atMs, segment.atMs[i]? = some atMs ∧ atMs ≤ targetMs
  later : p.waitingForWrites = false →
    ∀ atMs, segment.atMs[p.index]? = some atMs → targetMs < atMs

theorem drawSegment_spec (targetMs : τ) {s : State τ} (hseg : segment.Readable)
    (hshown : denote restores s.terminal.log =
      base ++ (segment.entries.take s.entry).flatMap (·.2))
    (hstill : ∀ queued ∈ s.terminal.resizedOver, queued = 0) (viewport : Option (Nat × Nat)) :
    (drawSegment segment targetMs s viewport).Done restores segment base targetMs s.entry := by
  have hgood : Pass.Good restores segment base
      { terminal := s.terminal
        index := s.entry
        runStart := segment.runEnd s.entry
        viewport := viewport } := by
    constructor
    · dsimp only
      rw [subarray_self, List.map_nil, List.append_nil, hshown]
    · exact Nat.le_refl _
    · exact hstill
  have hends := drawEntries_spec targetMs hseg (segment.atMs.length - s.entry) hgood rfl
  unfold drawSegment
  dsimp only
  split
  · next hwaiting =>
    have hshown' := hends.good.shown
    rw [hends.flushed hwaiting, subarray_self, List.map_nil, List.append_nil] at hshown'
    refine ⟨hshown', hends.good.still, hends.within, fun hw => ?_⟩
    rw [hwaiting] at hw
    cases hw
  · next hwaiting =>
    have hflush := hends.good.flush
    have hshown' := hflush.shown
    dsimp only at hshown'
    rw [subarray_self, List.map_nil, List.append_nil] at hshown'
    refine ⟨hshown', hflush.still, hends.within, fun _ atMs hat => ?_⟩
    exact hends.later (by simpa using hwaiting) (by simp only; omega) atMs hat

end Pass

/-! Where the player is in the recording. -/

section Position

variable {τ : Type} {source : Source τ} {segment : Segment τ} {k entry : Nat}

theorem entries_eq (source : Source τ) (k entry : Nat) :
    source.entries = source.before k entry ++ source.after k entry := by
  have hsplit : source.recorded = source.recorded.take k ++ source.recorded.drop k :=
    (List.take_append_drop k source.recorded).symm
  unfold Source.before Source.after Source.entries
  cases hk : source.recorded[k]? with
  | none =>
      have hlen : source.recorded.length ≤ k := List.getElem?_eq_none_iff.mp hk
      simp [List.take_of_length_le hlen, List.drop_of_length_le (hlen.trans (Nat.le_succ k))]
  | some segment =>
      have hdrop : source.recorded.drop k = segment :: source.recorded.drop (k + 1) := by
        obtain ⟨hlt, rfl⟩ := List.getElem?_eq_some_iff.mp hk
        exact List.drop_eq_getElem_cons hlt
      conv_lhs => rw [hsplit, hdrop, List.flatMap_append, List.flatMap_cons]
      simp only [Option.map_some, Option.getD_some, List.append_assoc]
      rw [← List.append_assoc (segment.entries.take entry), List.take_append_drop]

theorem before_next (hk : source.recorded[k]? = some segment)
    (hentry : segment.atMs.length ≤ entry) : source.before k entry = source.before (k + 1) 0 := by
  unfold Source.before
  rw [hk, List.take_add_one, hk, List.flatMap_append]
  simp [List.take_of_length_le, hentry]

theorem before_marks (hk : source.recorded[k]? = some segment) :
    (source.before k entry).flatMap (·.2) =
      (source.before k 0).flatMap (·.2) ++ (segment.entries.take entry).flatMap (·.2) := by
  unfold Source.before
  rw [hk]
  simp

theorem mem_before (entry : Nat) (hk : source.recorded[k]? = some segment) {x : τ × List Mark}
    {entry' : Nat} (hx : x ∈ source.before k entry') :
    x ∈ source.before k entry ∨ ∃ i, entry ≤ i ∧ i < entry' ∧ segment.atMs[i]? = some x.1 := by
  unfold Source.before at hx ⊢
  rw [hk] at hx ⊢
  simp only [Option.map_some, Option.getD_some] at hx ⊢
  obtain hx | hx := List.mem_append.mp hx
  · exact .inl (List.mem_append_left _ hx)
  · obtain ⟨i, hi⟩ := List.mem_iff_getElem?.mp hx
    rw [List.getElem?_take] at hi
    split at hi
    · next hlt =>
      by_cases hentry : i < entry
      · refine .inl (List.mem_append_right _ (List.mem_iff_getElem?.mpr ⟨i, ?_⟩))
        rw [List.getElem?_take, if_pos hentry, hi]
      · refine .inr ⟨i, by omega, hlt, ?_⟩
        rw [entries_getElem?] at hi
        obtain ⟨atMs, hat, rfl⟩ := Option.map_eq_some_iff.mp hi
        exact hat
    · cases hi

theorem before_last {atMs : τ} (hk : source.recorded[k]? = some segment)
    (hat : segment.atMs[entry]? = some atMs) :
    ((source.before k (entry + 1)).map (·.1)).getLast? = some atMs := by
  unfold Source.before
  rw [hk, Option.map_some, Option.getD_some, List.take_add_one, entries_getElem?, hat]
  simp

variable [LinearOrder τ] {targetMs : τ}

theorem after_later (hsource : source.Recorded)
    (hfirst : ∀ x, (source.after k entry).head? = some x → targetMs < x.1) :
    ∀ x ∈ source.after k entry, targetMs < x.1 := by
  have hsorted := hsource.sorted
  rw [entries_eq source k entry, List.map_append, List.pairwise_append] at hsorted
  cases hafter : source.after k entry with
  | nil => simp
  | cons first rest =>
      have hlt : targetMs < first.1 := hfirst first (by rw [hafter]; rfl)
      have hrest := hsorted.2.1
      rw [hafter, List.map_cons, List.pairwise_cons] at hrest
      intro x hx
      obtain rfl | hx := List.mem_cons.mp hx
      · exact hlt
      · exact hlt.trans_le (hrest.1 x.1 (List.mem_map_of_mem hx))

theorem shown_eq (hbefore : ∀ x ∈ source.before k entry, x.1 ≤ targetMs)
    (hafter : ∀ x ∈ source.after k entry, targetMs < x.1) :
    source.shown targetMs = (source.before k entry).flatMap (·.2) := by
  have hall : (source.before k entry).filter (·.1 ≤ targetMs) = source.before k entry := by
    rw [List.filter_eq_self]
    intro x hx
    simpa using hbefore x hx
  have hnone : (source.after k entry).filter (·.1 ≤ targetMs) = [] := by
    rw [List.filter_eq_nil_iff]
    intro x hx
    simpa using hafter x hx
  rw [Source.shown, entries_eq source k entry, List.filter_append, hall, hnone, List.append_nil]

theorem before_le_last (hsource : source.Recorded) {last : τ}
    (hlast : ((source.before k entry).map (·.1)).getLast? = some last) :
    ∀ x ∈ source.before k entry, x.1 ≤ last := by
  have hsorted := hsource.sorted
  rw [entries_eq source k entry, List.map_append, List.pairwise_append] at hsorted
  obtain ⟨front, hfront⟩ := List.getLast?_eq_some_iff.mp hlast
  have hfirst := hsorted.1
  rw [hfront, List.pairwise_append] at hfirst
  intro x hx
  have hx : x.1 ∈ front ++ [last] := hfront ▸ List.mem_map_of_mem hx
  obtain hx | hx := List.mem_append.mp hx
  · exact hfirst.2.2 x.1 hx _ (List.mem_singleton_self _)
  · rw [List.mem_singleton.mp hx]

end Position

/-! A run of the player. -/

section Run

variable {τ : Type} {source : Source τ} {s : State τ}

theorem mem_of_mem_everySecond {α : Type} {l : List α} {x : α} (h : x ∈ everySecond l) : x ∈ l := by
  fun_induction everySecond l with
  | case1 first kept rest ih =>
      obtain rfl | h := List.mem_cons.mp h
      · simp
      · simp [ih h]
  | case2 l _ => cases h

theorem mem_of_mem_thin {store : SnapshotStore τ} {snapshot : Snapshot τ}
    (h : snapshot ∈ store.thin.snapshots) : snapshot ∈ store.snapshots := by
  fun_induction SnapshotStore.thin store with
  | case1 store hover kept ih =>
      have hmem := ih h
      dsimp only at hmem
      unfold kept at hmem
      split at hmem
      · cases hmem
      · exact mem_of_mem_everySecond hmem
  | case2 store _ => exact h

theorem request_frame (source : Source τ) (s : State τ) (i : Nat) :
    (s.request source i).terminal = s.terminal ∧ (s.request source i).goal = s.goal := by
  unfold State.request
  split <;> exact ⟨rfl, rfl⟩

theorem prefetch_induction {P : State τ → Prop} (h : P s)
    (hrequest : ∀ s i, P s → P (s.request source i)) : P (s.prefetch source) := by
  have hfold : ∀ (is : List Nat) (k : Nat) (s' : State τ), P s' →
      P (is.foldl (fun s' i => s'.request source (k + i)) s') := by
    intro is k
    induction is with
    | nil => exact fun s' hs => hs
    | cons i is ih => exact fun s' hs => ih _ (hrequest _ _ hs)
  exact hfold _ _ s h

theorem prefetch_terminal (source : Source τ) (s : State τ) :
    (s.prefetch source).terminal = s.terminal :=
  prefetch_induction (P := fun s' => s'.terminal = s.terminal) rfl
    fun s' i hs => (request_frame source s' i).1.trans hs

variable [LinearOrder τ] {restores : Nat → Nat → String → List Mark} {bound : WithBot τ}
  {targetMs : τ}

structure Held (source : Source τ) (restores : Nat → Nat → String → List Mark)
    (bound : WithBot τ) (s : State τ) : Prop where
  cached : ∀ i segment, s.cache i = some segment → source.recorded[i]? = some segment
  stands : ∀ snapshot ∈ s.snapshots.snapshots, Stands source restores snapshot
  drawn : ∀ x ∈ source.before s.segment s.entry, (x.1 : WithBot τ) ≤ s.drawnAtMs
  due : s.drawnAtMs ≤ bound
  shown : s.restartPoint = none →
    denote restores s.terminal.log = (source.before s.segment s.entry).flatMap (·.2)
  restarts : ∀ point, s.restartPoint = some point → s.segment = point.segment ∧ s.entry = 0 ∧
    ∀ snapshot, point = .snapshot snapshot → Stands source restores snapshot
  still : ∀ queued ∈ s.terminal.resizedOver, queued = 0
  open' : s.disposed = false

theorem Held.mono (h : Held source restores bound s) (hle : bound ≤ targetMs) :
    Held source restores targetMs s :=
  { h with due := h.due.trans hle }

theorem Held.request (h : Held source restores bound s) (i : Nat) :
    Held source restores bound (s.request source i) := by
  unfold State.request
  split
  · exact h
  · exact { h with }

theorem Held.prefetch (h : Held source restores bound s) :
    Held source restores bound (s.prefetch source) :=
  prefetch_induction h fun _ i hs => hs.request i

theorem Held.evict (h : Held source restores bound s) :
    Held source restores bound s.evict := by
  refine { h with cached := fun i segment hi => ?_ }
  unfold State.evict at hi
  dsimp only at hi
  split at hi
  · exact h.cached i segment hi
  · cases hi

theorem Held.scheduleRestart (h : Held source restores bound s) (hsource : source.Recorded)
    {point : RestartPoint τ} {bound' : WithBot τ} (hdue : point.atMs ≤ bound')
    (hpoint : ∀ snapshot, point = .snapshot snapshot → Stands source restores snapshot) :
    Held source restores bound' (s.scheduleRestart source point) := by
  refine Held.prefetch (Held.evict ?_)
  refine { h with
    drawn := ?_
    due := hdue
    shown := fun hnone => nomatch hnone
    restarts := ?_ }
  · cases point with
    | start => simp [RestartPoint.segment, Source.before]
    | snapshot snapshot =>
        intro x hx
        exact WithBot.coe_le_coe.mpr (before_le_last hsource (hpoint snapshot rfl).last x hx)
  · intro point' heq
    cases heq
    exact ⟨rfl, rfl, hpoint⟩

theorem latest_spec {store : SnapshotStore τ} {snapshot : Snapshot τ}
    (h : store.latest targetMs = some snapshot) :
    snapshot ∈ store.snapshots ∧ snapshot.atMs ≤ targetMs := by
  unfold SnapshotStore.latest at h
  exact ⟨List.mem_reverse.mp (List.mem_of_find?_eq_some h), by simpa using List.find?_some h⟩

theorem Held.seek (h : Held source restores bound s) (hsource : source.Recorded)
    (targetMs : τ) : Held source restores targetMs (s.seek source targetMs) := by
  unfold State.seek
  rw [if_neg (by simp [h.open'])]
  dsimp only
  by_cases hback : (targetMs : WithBot τ) < s.drawnAtMs
  · rw [if_pos hback]
    cases hlatest : s.snapshots.latest targetMs with
    | none => exact h.scheduleRestart hsource bot_le (fun _ heq => nomatch heq)
    | some snapshot =>
        obtain ⟨hmem, hle⟩ := latest_spec hlatest
        refine h.scheduleRestart hsource (WithBot.coe_le_coe.mpr hle) ?_
        intro snapshot' heq
        cases heq
        exact h.stands snapshot hmem
  · rw [if_neg hback]
    have hstays : Held source restores targetMs s := { h with due := not_lt.mp hback }
    cases hlatest : s.snapshots.latest targetMs with
    | none => exact hstays
    | some snapshot =>
        obtain ⟨hmem, hle⟩ := latest_spec hlatest
        dsimp only
        split
        · refine h.scheduleRestart hsource (WithBot.coe_le_coe.mpr hle) ?_
          intro snapshot' heq
          cases heq
          exact h.stands snapshot hmem
        · exact hstays

theorem Held.caughtUp (h : Held source restores targetMs s) (hnone : s.restartPoint = none)
    (hafter : ∀ x ∈ source.after s.segment s.entry, targetMs < x.1) :
    denote restores s.terminal.log = source.shown targetMs := by
  rw [h.shown hnone]
  refine (shown_eq (fun x hx => ?_) hafter).symm
  exact WithBot.coe_le_coe.mp ((h.drawn x hx).trans h.due)

theorem Held.passed (h : Held source restores targetMs s) (hsource : source.Recorded)
    (hnone : s.restartPoint = none) {segment : Segment τ} {p : Pass}
    (hk : source.recorded[s.segment]? = some segment)
    (hdone : p.Done restores segment ((source.before s.segment 0).flatMap (·.2)) targetMs s.entry) :
    Held source restores targetMs (s.passed segment p) where
  cached := h.cached
  stands := h.stands
  drawn := by
    intro x hx
    unfold State.passed
    dsimp only
    split
    · next hlt =>
      obtain ⟨atMs, hat, -⟩ := hdone.within (p.index - 1) (by omega) (by omega)
      rw [hat]
      have hlast := before_last hk hat
      rw [Nat.sub_add_cancel (by omega)] at hlast
      exact WithBot.coe_le_coe.mpr (before_le_last hsource hlast x hx)
    · next hlt =>
      obtain hx | ⟨i, hi, hi', -⟩ := mem_before s.entry hk hx
      · exact h.drawn x hx
      · have hi' : i < p.index := hi'
        omega
  due := by
    unfold State.passed
    dsimp only
    split
    · next hlt =>
      obtain ⟨atMs, hat, hle⟩ := hdone.within (p.index - 1) (by omega) (by omega)
      rw [hat]
      exact WithBot.coe_le_coe.mpr hle
    · exact h.due
  shown := by
    intro _
    exact hdone.shown.trans (before_marks hk).symm
  restarts := by
    intro point heq
    have heq : s.restartPoint = some point := heq
    rw [hnone] at heq
    cases heq
  still := hdone.still
  open' := h.open'

theorem Held.next (h : Held source restores targetMs s) (hnone : s.restartPoint = none)
    {segment : Segment τ} (hk : source.recorded[s.segment]? = some segment)
    (hentry : segment.atMs.length ≤ s.entry) :
    Held source restores targetMs { s with segment := s.segment + 1, entry := 0 } := by
  have heq := before_next hk hentry
  refine { h with drawn := ?_, shown := ?_, restarts := ?_ }
  · rw [← heq]
    exact h.drawn
  · rw [← heq]
    exact h.shown
  · intro point hpoint
    have hpoint : s.restartPoint = some point := hpoint
    rw [hnone] at hpoint
    cases hpoint

theorem Source.Recorded.length (hsource : source.Recorded) :
    source.segments.length = source.recorded.length := by
  simpa using congrArg List.length hsource.starts

theorem Source.Recorded.head_after (hsource : source.Recorded) {k : Nat} {info : SegmentInfo τ}
    (hinfo : source.segments[k]? = some info) {x : τ × List Mark}
    (hx : (source.after k 0).head? = some x) : x.1 = info.startAtMs := by
  have hstart := congrArg (·[k]?) hsource.starts
  simp only [List.getElem?_map, hinfo, Option.map_some] at hstart
  cases hk : source.recorded[k]? with
  | none => simp [hk] at hstart
  | some segment =>
      rw [hk] at hstart
      have hhead : segment.atMs[0]? = some info.startAtMs := by
        rw [← List.head?_eq_getElem?]
        simpa using hstart.symm
      have hentry := entries_getElem? segment 0
      rw [hhead] at hentry
      unfold Source.after at hx
      rw [hk, Option.map_some, Option.getD_some, List.drop_zero, List.head?_append,
        List.head?_eq_getElem?, hentry] at hx
      cases hx
      rfl

theorem drawSegments_spec (hsource : source.Recorded) (infos : List (SegmentInfo τ))
    (viewport : Option (Nat × Nat)) (h : Held source restores targetMs s)
    (hnone : s.restartPoint = none) (hinfos : source.segments.drop s.segment = infos) :
    Held source restores targetMs (drawSegments source targetMs infos s viewport).1 ∧
      ((drawSegments source targetMs infos s viewport).2.2 = true →
        denote restores (drawSegments source targetMs infos s viewport).1.terminal.log =
          source.shown targetMs) := by
  induction infos generalizing s viewport with
  | nil =>
      refine ⟨h, fun _ => h.caughtUp hnone ?_⟩
      have hlen : source.recorded.length ≤ s.segment := by
        rw [← hsource.length]
        exact List.drop_eq_nil_iff.mp hinfos
      unfold Source.after
      simp [List.getElem?_eq_none hlen, List.drop_of_length_le (hlen.trans (Nat.le_succ _))]
  | cons info rest ih =>
      have hinfo : source.segments[s.segment]? = some info := by
        have := congrArg List.head? hinfos
        simpa [List.head?_drop] using this
      unfold drawSegments
      by_cases hqueued : replayPendingLimitBytes < s.terminal.queued
      · rw [if_pos hqueued]
        exact ⟨h, fun hfalse => nomatch hfalse⟩
      · rw [if_neg hqueued]
        by_cases hstart : s.entry = 0 ∧ targetMs < info.startAtMs
        · rw [if_pos hstart]
          refine ⟨h, fun _ => h.caughtUp hnone (after_later hsource fun x hx => ?_)⟩
          rw [hstart.1] at hx
          rw [hsource.head_after hinfo hx]
          exact hstart.2
        · rw [if_neg hstart]
          cases hcache : s.cache s.segment with
          | none => exact ⟨h.request _, fun hfalse => nomatch hfalse⟩
          | some segment =>
              have hk := h.cached _ segment hcache
              have hdone := drawSegment_spec targetMs
                (hsource.readable segment (List.mem_of_getElem? hk))
                ((h.shown hnone).trans (before_marks hk)) h.still viewport
              have hpassed := h.passed hsource hnone hk hdone
              dsimp only
              by_cases hwaiting :
                  (drawSegment segment targetMs s viewport).waitingForWrites = true
              · rw [if_pos hwaiting]
                exact ⟨hpassed, fun hfalse => nomatch hfalse⟩
              · rw [if_neg hwaiting]
                by_cases hlt :
                    (drawSegment segment targetMs s viewport).index < segment.atMs.length
                · rw [if_pos hlt]
                  refine ⟨hpassed, fun _ => hpassed.caughtUp hnone
                    (after_later hsource fun x hx => ?_)⟩
                  have hat := List.getElem?_eq_getElem hlt
                  have hentry :=
                    entries_getElem? segment (drawSegment segment targetMs s viewport).index
                  rw [hat] at hentry
                  unfold Source.after State.passed at hx
                  dsimp only at hx
                  rw [hk, Option.map_some, Option.getD_some, List.head?_append, List.head?_drop,
                    hentry] at hx
                  cases hx
                  exact hdone.later (by simpa using hwaiting) _ hat
                · rw [if_neg hlt]
                  have hnext := (hpassed.next hnone hk (not_lt.mp hlt)).evict
                  refine ih _ hnext hnone ?_
                  have := congrArg List.tail hinfos
                  simpa [State.evict, State.passed] using this

theorem Held.restart (h : Held source restores bound s) {point : RestartPoint τ}
    (hpoint : s.restartPoint = some point) (hqueued : s.terminal.queued = 0) :
    Held source restores bound { s.restart point with restartPoint := none } := by
  obtain ⟨hsegment, hentry, hstands⟩ := h.restarts point hpoint
  cases point with
  | start =>
      refine { h with shown := fun _ => ?_, restarts := fun _ heq => nomatch heq }
      have hsegment : s.segment = 0 := hsegment
      change [] = (source.before s.segment s.entry).flatMap (·.2)
      rw [hsegment, hentry]
      simp [Source.before]
  | snapshot snapshot =>
      refine { h with
        shown := fun _ => ?_
        restarts := fun _ heq => nomatch heq
        still := fun queued hmem => ?_ }
      · have hsegment : s.segment = snapshot.segment := hsegment
        change restores snapshot.cols snapshot.rows snapshot.data ++ [] =
          (source.before s.segment s.entry).flatMap (·.2)
        rw [hsegment, hentry, List.append_nil]
        exact (hstands snapshot rfl).restores
      · have hmem : queued ∈ s.terminal.resizedOver ++ [s.terminal.queued] := hmem
        obtain hmem | hmem := List.mem_append.mp hmem
        · exact h.still queued hmem
        · rw [List.mem_singleton.mp hmem, hqueued]

theorem restarted_cases (source : Source τ) (s : State τ) (targetMs : τ) :
    s.restarted source targetMs = .error s ∨
      s.restarted source targetMs = .error (s.request source s.segment) ∨
      (s.restartPoint = none ∧ s.restarted source targetMs = .ok s) ∨
      ∃ point, s.restartPoint = some point ∧ s.terminal.queued = 0 ∧
        s.restarted source targetMs = .ok { s.restart point with restartPoint := none } := by
  unfold State.restarted
  cases hpoint : s.restartPoint with
  | none => exact .inr (.inr (.inl ⟨rfl, rfl⟩))
  | some point =>
      dsimp only
      by_cases hqueued : 0 < s.terminal.queued
      · rw [if_pos hqueued]
        exact .inl rfl
      · rw [if_neg hqueued]
        have hzero : s.terminal.queued = 0 := by omega
        cases source.segments[s.segment]? with
        | none => exact .inr (.inr (.inr ⟨point, rfl, hzero, rfl⟩))
        | some first =>
            dsimp only
            split
            · exact .inr (.inl rfl)
            · exact .inr (.inr (.inr ⟨point, rfl, hzero, rfl⟩))

theorem Held.drawOn (h : Held source restores targetMs s) (hsource : source.Recorded)
    (hnone : s.restartPoint = none) :
    let drawn := drawSegments source targetMs (source.segments.drop s.segment) s none
    let next := State.prefetch source
      { drawn.1 with viewports := drawn.1.viewports ++ drawn.2.1.toList }
    Held source restores targetMs next ∧
      (drawn.2.2 = true → denote restores next.terminal.log = source.shown targetMs) := by
  obtain ⟨hheld, hshown⟩ := drawSegments_spec hsource _ none h hnone rfl
  refine ⟨Held.prefetch { hheld with }, fun hdone => ?_⟩
  rw [prefetch_terminal]
  exact hshown hdone

theorem Held.advance (h : Held source restores targetMs s) (hsource : source.Recorded) :
    Held source restores targetMs (s.advance source targetMs).1 ∧
      ((s.advance source targetMs).2 = true →
        denote restores (s.advance source targetMs).1.terminal.log = source.shown targetMs) := by
  unfold State.advance
  rw [if_neg (by simp [h.open'])]
  obtain heq | heq | ⟨hnone, heq⟩ | ⟨point, hpoint, hqueued, heq⟩ :=
    restarted_cases source s targetMs
  · rw [heq]
    exact ⟨h, fun hfalse => nomatch hfalse⟩
  · rw [heq]
    exact ⟨h.request _, fun hfalse => nomatch hfalse⟩
  · rw [heq]
    exact h.drawOn hsource hnone
  · rw [heq]
    exact (h.restart hpoint hqueued).drawOn hsource rfl

/-- The calls are seeks and advances that do not go below `floor`, every read gives its segment, and
a snapshot is a picture of the terminal. -/
def Proper (source : Source τ) (restores : Nat → Nat → String → List Mark)
    (floor : State τ → WithBot τ) (s : State τ) : Event τ → Prop
  | .advance targetMs => floor s ≤ targetMs
  | .takes snapshot => Stands source restores snapshot
  | .dispose | .fails _ => False
  | .seek _ | .whenReady | .completes _ | .drains _ => True

theorem Held.step {s' : State τ} {e : Event τ} (h : Held source restores s.goal s)
    (hsource : source.Recorded) (hok : Proper source restores State.goal s e)
    (he : ReplayPlayer.step source s e = some s') : Held source restores s'.goal s' := by
  cases e with
  | seek targetMs =>
      cases he
      exact { h.seek hsource targetMs with }
  | advance targetMs =>
      cases he
      exact { ((h.mono hok).advance hsource).1 with }
  | whenReady =>
      cases he
      unfold State.whenReady
      split
      · exact h
      · rw [(request_frame source s s.segment).2]
        exact h.request _
  | dispose => exact hok.elim
  | completes i =>
      unfold ReplayPlayer.step at he
      dsimp only at he
      split at he
      · obtain ⟨segment, hsegment, rfl⟩ := Option.map_eq_some_iff.mp he
        refine { h with cached := fun j other hj => ?_ }
        unfold State.loaded at hj
        dsimp only at hj
        split at hj
        · next hcond =>
          cases hj
          simp only [Bool.and_eq_true, decide_eq_true_eq] at hcond
          rw [hcond.2]
          exact hsegment
        · exact h.cached j other hj
      · cases he
  | fails i => exact hok.elim
  | drains size =>
      cases he
      exact { h with }
  | takes snapshot =>
      cases he
      refine { h with stands := fun x hx => ?_ }
      obtain hx | hx := List.mem_append.mp (mem_of_mem_thin hx)
      · exact h.stands x hx
      · rw [List.mem_singleton.mp hx]
        exact hok

theorem held_start (source : Source τ) (restores : Nat → Nat → String → List Mark)
    {store : SnapshotStore τ}
    (hstore : ∀ snapshot ∈ store.snapshots, Stands source restores snapshot) :
    Held source restores (start source store).goal (start source store) := by
  have hgoal : (start source store).goal = ⊥ :=
    prefetch_induction (P := fun s' => s'.goal = ⊥) rfl
      fun s' i hs => (request_frame source s' i).2.trans hs
  rw [hgoal]
  have hfirst : Held source restores ⊥ { snapshots := store } := by
    constructor
    · intro _ _ hsome
      cases hsome
    · exact hstore
    · simp [Source.before]
    · exact le_rfl
    · intro hnone
      cases hnone
    · intro point heq
      cases heq
      refine ⟨rfl, rfl, fun _ hpoint => ?_⟩
      cases hpoint
    · intro _ hmem
      cases hmem
    · rfl
  exact hfirst.prefetch

theorem advance_shows_played (source : Source τ) (restores : Nat → Nat → String → List Mark)
    (hsource : source.Recorded) (store : SnapshotStore τ)
    (hstore : ∀ snapshot ∈ store.snapshots, Stands source restores snapshot)
    (es : List (Event τ)) (s : State τ)
    (ha : Admissible (Proper source restores State.goal) (step source) (start source store) es)
    (hr : run (step source) (start source store) es = some s) (targetMs : τ)
    (hgoal : s.goal ≤ targetMs) :
    ((s.advance source targetMs).2 = true →
        denote restores (s.advance source targetMs).1.terminal.log = source.shown targetMs) ∧
      ∀ queued ∈ (s.advance source targetMs).1.terminal.resizedOver, queued = 0 := by
  have hheld : Held source restores s.goal s :=
    run_invariant_of_admissible (I := fun s => Held source restores s.goal s)
      (fun _ _ _ h hok he => h.step hsource hok he) (held_start source restores hstore) ha hr
  obtain ⟨hheld, hshown⟩ := (hheld.mono hgoal).advance hsource
  exact ⟨hshown, hheld.still⟩

end Run

def sampleSource : Source Nat where
  segments := [⟨5, 1⟩]
  recorded := [⟨[5, 9], [1, 1], [0, 80], [0, 24], [65]⟩]

theorem sampleSource_recorded : sampleSource.Recorded where
  readable := by
    intro segment hmem
    cases List.mem_singleton.mp hmem
    constructor
    · decide
    · decide
  starts := rfl
  sorted := by decide

/-- Whether the call does not go below `floor`. -/
def calls (floor : State Nat → WithBot Nat) (s : State Nat) : Event Nat → Bool
  | .advance targetMs => floor s ≤ WithBot.some targetMs
  | .seek _ | .whenReady | .completes _ | .drains _ => true
  | .takes _ | .dispose | .fails _ => false

theorem proper_of_calls {restores : Nat → Nat → String → List Mark}
    {floor : State Nat → WithBot Nat} (s : State Nat) (e : Event Nat)
    (h : calls floor s e = true) : Proper sampleSource restores floor s e := by
  cases e <;> simp_all [calls, Proper]

/-- The whole recording is shown once what it has before the resize is drawn. -/
theorem played_to_end : sampleSource.Recorded ∧
    ∃ s, run (step sampleSource) (start sampleSource {})
        [.completes 0, .advance 9, .drains 1] = some s ∧
      (s.advance sampleSource 9).2 = true ∧
      denote (fun _ _ _ => []) (s.advance sampleSource 9).1.terminal.log =
        sampleSource.shown 9 := by
  have ha : Admissible (Proper sampleSource (fun _ _ _ => []) State.goal) (step sampleSource)
      (start sampleSource {}) [.completes 0, .advance 9, .drains 1] :=
    admissible_of_allows proper_of_calls (by decide)
  have hview : (run (step sampleSource) (start sampleSource {})
      [.completes 0, .advance 9, .drains 1]).map
        (fun s => (decide (s.goal ≤ WithBot.some 9), (s.advance sampleSource 9).2)) =
      some (true, true) := by decide
  obtain ⟨s, hs, heq⟩ := Option.map_eq_some_iff.mp hview
  simp only [Prod.mk.injEq, decide_eq_true_eq] at heq
  exact ⟨sampleSource_recorded, s, hs, heq.2,
    (advance_shows_played sampleSource (fun _ _ _ => []) sampleSource_recorded {} (by simp)
      _ s ha hs 9 heq.1).1 heq.2⟩

/-- An advance to a time before that of the last one finds the terminal ahead of it. -/
theorem earlier_advance_shows_later : sampleSource.Recorded ∧
    Admissible (Proper sampleSource (fun _ _ _ => []) State.sought) (step sampleSource)
      (start sampleSource {}) [.completes 0, .advance 5] ∧
    ∃ s, run (step sampleSource) (start sampleSource {}) [.completes 0, .advance 5] = some s ∧
      s.sought ≤ WithBot.some 3 ∧ (s.advance sampleSource 3).2 = true ∧
      denote (fun _ _ _ => []) (s.advance sampleSource 3).1.terminal.log ≠
        sampleSource.shown 3 := by
  refine ⟨sampleSource_recorded, admissible_of_allows proper_of_calls (by decide), ?_⟩
  have hview : (run (step sampleSource) (start sampleSource {}) [.completes 0, .advance 5]).map
      (fun s => (decide (s.sought ≤ WithBot.some 3), (s.advance sampleSource 3).2,
        denote (fun _ _ _ => []) (s.advance sampleSource 3).1.terminal.log)) =
      some (true, true, [.byte 65]) := by decide
  obtain ⟨s, hs, heq⟩ := Option.map_eq_some_iff.mp hview
  simp only [Prod.mk.injEq, decide_eq_true_eq] at heq
  refine ⟨s, hs, heq.1, heq.2.1, ?_⟩
  rw [heq.2.2]
  decide

end Dolgate.ReplayPlayer
