import Mathlib
import Dolgate.DesktopSync
import Dolgate.Transition

set_option autoImplicit false

namespace Dolgate.DesktopSync
open SyncServer Transition

variable {α : Type}

inductive Change (α : Type) where
  | save (record : Stored α)
  | delete (deletedAt : Int)
deriving DecidableEq, Repr

namespace Change

def time : Change α → Int
  | save record => record.updatedAt
  | delete deletedAt => deletedAt

def record : Change α → Option (Stored α)
  | save record => some record
  | delete _ => none

def row (iv : Nat) : Change α → Wire α
  | save record => toSyncRecord iv record
  | delete deletedAt => tombstone deletedAt

def Shown (c : Change α) (row : Wire α) : Prop := ∃ iv, row = c.row iv

theorem Shown.updatedAt {c : Change α} {row : Wire α} (h : c.Shown row) :
    row.updatedAt = c.time := by
  obtain ⟨iv, rfl⟩ := h
  cases c <;> rfl

theorem Shown.decodeLive {c : Change α} {row : Wire α} (h : c.Shown row) :
    decodeLive row = c.record := by
  obtain ⟨iv, rfl⟩ := h
  cases c <;> rfl

end Change

/-- One desktop and the server, with the history that the loss of a change is told from. -/
structure Device (α : Type) where
  server : Remote α
  desktop : Desktop α
  /-- Ghost: the last local edit or deletion of each record. -/
  made : Key → Option (Change α)
  /-- Ghost: the newest version of each record that did not come from an edit here. -/
  others : Key → WithBot Int
  /-- Ghost: the time of the last local edit. -/
  clock : Int

def applies (d : Desktop α) : Option (Remote α) :=
  match d.phase with
  | .got refetch (some remote) =>
      if !refetch && remote.rows.entries.isEmpty then none else some remote
  | .built (.recover etag) snapshot =>
      if snapshot.payload.isEmpty then some ⟨∅, etag⟩ else none
  | _ => none

/-- What a pull rewrites counts as edited here: it is stamped with the clock and pushed. -/
def rewrites (systemTheme : α) (d : Desktop α) : Event α → List (Key × Stored α)
  | .resume choice =>
      match applies d with
      | none => []
      | some remote =>
          pullChanges choice (withPreferences systemTheme choice.now (liveRecords remote.rows))
  | _ => []

def recordRewrites (made : Key → Option (Change α)) (changes : List (Key × Stored α)) :
    Key → Option (Change α) :=
  changes.foldl (fun made c => Function.update made c.1 (some (.save c.2))) made

section Steps

variable [DecidableEq α]

def newcomers (s : Device α) (d : Desktop α) (changes : List (Key × Stored α)) :
    Key → WithBot Int := fun k =>
  if d.records.lookup k = s.desktop.records.lookup k ∨ (changes.any fun c => c.1 == k) then
    s.others k
  else
    match d.records.lookup k with
    | none => s.others k
    | some record => max (s.others k) record.updatedAt

def ownStep (systemTheme : α) (s : Device α) (e : Event α) : Option (Device α) :=
  match e with
  | .edit k record =>
      if s.clock < record.updatedAt then
        (step systemTheme s.server s.desktop e).map fun next =>
          { s with
            server := next.1
            desktop := next.2
            made := Function.update s.made k (some (.save record))
            clock := record.updatedAt }
      else none
  | .remove k deletedAt =>
      if s.clock < deletedAt then
        (step systemTheme s.server s.desktop e).map fun next =>
          { s with
            server := next.1
            desktop := next.2
            made := Function.update s.made k (some (.delete deletedAt))
            clock := deletedAt }
      else none
  | .fail => none
  | e =>
      let changes := rewrites systemTheme s.desktop e
      if ∀ c ∈ changes, s.clock < c.2.updatedAt then
        (step systemTheme s.server s.desktop e).map fun next =>
          { server := next.1
            desktop := next.2
            made := recordRewrites s.made changes
            others := newcomers s next.2 changes
            clock := changes.foldl (fun clock c => max clock c.2.updatedAt) s.clock }
      else none

def foreignPush (s : Device α) (iv : Nat) (changes : List (Key × Change α)) : Device α :=
  { s with
    server := applyPushRecords s.server (changes.map fun c => ⟨c.1, c.2.row iv⟩)
    others := changes.foldl (fun others c =>
      Function.update others c.1 (max (others c.1) c.2.time)) s.others }

inductive DeviceEvent (α : Type) where
  | own (e : Event α)
  | foreign (iv : Nat) (changes : List (Key × Change α))

def deviceStep (systemTheme : α) (s : Device α) : DeviceEvent α → Option (Device α)
  | .own e => ownStep systemTheme s e
  | .foreign iv changes => some (foreignPush s iv changes)

end Steps

def Quiescent (d : Desktop α) : Prop := d.phase = .idle ∧ d.queue = [] ∧ d.pushTimer = false

/-- The last local change of a record, when no later version has come from elsewhere. -/
def Standing (s : Device α) (k : Key) (c : Change α) : Prop :=
  s.made k = some c ∧ s.others k ≤ c.time

def GroupsAreNew (s : Device α) (choice : Choice α) : Prop :=
  ∀ group ∈ choice.groups, ∀ c, Standing s (.groups, group.1) c →
    s.desktop.records.lookup (.groups, group.1) = none → c.time < group.2.updatedAt

def clearsOutbox (d : Desktop α) : Prop :=
  match d.phase with
  | .got _ none | .applied .. => True
  | _ => False

/-- No local change is waiting to be pushed when a pull replaces the local store, and no deletion
when one forgets the outbox; `pushDirty` is not called between the last check of a push and its
`finally`; a group that comes back by itself is newer than its deletion, and no other device writes
a version of a pushed change with the very same time. -/
def Undisturbed (s : Device α) : DeviceEvent α → Prop
  | .own (.edit ..) | .own (.remove ..) | .own .retry => s.desktop.phase ≠ .settling .pushDirty
  | .own (.start choice) => GroupsAreNew s choice
  | .own (.resume choice) => GroupsAreNew s choice ∧
      (applies s.desktop ≠ none → ∀ k c, Standing s k c → s.desktop.unpushed k = false) ∧
      (clearsOutbox s.desktop → ∀ k deletedAt, Standing s k (.delete deletedAt) →
        s.desktop.unpushed k = false)
  | .own _ => True
  | .foreign _ changes => ∀ c ∈ changes, ∀ mine, s.made c.1 = some mine →
      s.desktop.unpushed c.1 = false → c.2.time ≠ mine.time

def Bounded (s : Device α) (k : Key) (time : Int) : Prop :=
  time ≤ s.others k ∨ ∃ c, s.made k = some c ∧ time ≤ c.time

def Tombstones (s : Device α) (deletions : Table Key Int) : Prop :=
  ∀ k deletedAt, deletions.lookup k = some deletedAt → deletedAt ≤ s.clock ∧
    Bounded s k deletedAt ∧ ∀ c, s.made k = some c → deletedAt < c.time ∨ c = .delete deletedAt

def Rows (s : Device α) (records : Table Key (Wire α)) : Prop :=
  ∀ k row, records.lookup k = some row → (∃ iv record, row = toSyncRecord iv record) ∧
    Bounded s k row.updatedAt ∧
    ∀ c, Standing s k c → s.desktop.unpushed k = false → c.Shown row

structure Holds (s : Device α) (rows : Table Key (Wire α)) : Prop where
  bounded : ∀ k row, rows.lookup k = some row → Bounded s k row.updatedAt
  shown : ∀ k c, Standing s k c → s.desktop.unpushed k = false →
    ∃ row, rows.lookup k = some row ∧ c.Shown row

structure Core (s : Device α) : Prop where
  store : ∀ k c, Standing s k c → s.desktop.records.lookup k = c.record
  bounded : ∀ k record, s.desktop.records.lookup k = some record → Bounded s k record.updatedAt
  outbox : Tombstones s s.desktop.outbox
  deletion : ∀ k deletedAt, Standing s k (.delete deletedAt) → s.desktop.unpushed k = true →
    s.desktop.outbox.lookup k = some deletedAt
  server : Holds s s.server.rows
  clock : ∀ k c, s.made k = some c → c.time ≤ s.clock
  preferences : ∀ deletedAt, s.made preferencesKey ≠ some (.delete deletedAt)

def PhaseHolds (s : Device α) : Phase α → Prop
  | .loading purpose records _ => Rows s records ∧ ∀ etag, purpose = .recover etag → Holds s ∅
  | .built purpose snapshot => Rows s snapshot.records ∧ Tombstones s snapshot.deletions ∧
      ∀ etag, purpose = .recover etag → Holds s ∅
  | .posting _ snapshot => Rows s snapshot.records ∧ Tombstones s snapshot.deletions
  | .posted _ snapshot _ | .pushed _ snapshot => Tombstones s snapshot.deletions ∧
      ∀ k deletedAt, Standing s k (.delete deletedAt) → s.desktop.unpushed k = true →
        snapshot.deletions.lookup k ≠ some deletedAt
  | .got _ (some remote) => Holds s remote.rows
  | _ => True

/-- A push is running, up to its `finally`. -/
def Pushing : Phase α → Prop
  | .loading .pushDirty _ _ | .built .pushDirty _ | .posting .pushDirty _ | .posted .pushDirty _ _
  | .pushed .pushDirty _ | .settling .pushDirty => True
  | _ => False

def Covered (d : Desktop α) (records : Table Key (Wire α)) (refs : List Key) (k : Key) : Prop :=
  ∀ record, d.records.lookup k = some record →
    k ∈ refs ∨ (records.lookup k).bind decodeLive = some record

section Invariant

variable [DecidableEq α]

def InFlight (d : Desktop α) (k : Key) : Phase α → Prop
  | .loading .pushDirty records refs => d.queuedPush = true ∨ Covered d records refs k
  | .built .pushDirty snapshot | .posting .pushDirty snapshot =>
      d.queuedPush = true ∨ carries d snapshot k = true
  | .posted .pushDirty _ _ | .pushed .pushDirty _ => d.queuedPush = true
  | .applied _ changed => changed = true
  | _ => False

def Due (d : Desktop α) (k : Key) : Prop :=
  .pushDirty ∈ d.queue ∨ d.pushTimer = true ∨ InFlight d k d.phase

structure PullInv (s : Device α) : Prop where
  core : Core s
  due : ∀ k c, Standing s k c → s.desktop.unpushed k = true → Due s.desktop k
  task : s.desktop.pushTask = true → .pushDirty ∈ s.desktop.queue ∨ Pushing s.desktop.phase
  phase : PhaseHolds s s.desktop.phase

end Invariant

/-- Between the two states local changes may have been made, but nothing has been pushed. -/
structure Later (s s' : Device α) : Prop where
  bounded : ∀ k time, Bounded s k time → Bounded s' k time
  standing : ∀ k c, Standing s' k c →
    (Standing s k c ∧ s'.desktop.unpushed k = s.desktop.unpushed k) ∨
      (s.clock < c.time ∧ s'.desktop.unpushed k = true)
  clock : s.clock ≤ s'.clock
  fresh : ∀ k c, s'.made k = some c → s.made k = some c ∨ s.clock < c.time

section Frames

variable {s s' : Device α}

theorem Standing.le {k : Key} {c : Change α} {time : Int} (h : Standing s k c)
    (hb : Bounded s k time) : time ≤ c.time := by
  rcases hb with hle | ⟨c', hc', hle⟩
  · exact WithBot.coe_le_coe.mp (hle.trans h.2)
  · cases h.1.symm.trans hc'
    exact hle

theorem Later.pushed (h : Later s s') {k : Key} {c : Change α} (hs : Standing s' k c)
    (hu : s'.desktop.unpushed k = false) : Standing s k c ∧ s.desktop.unpushed k = false := by
  rcases h.standing k c hs with ⟨hold, hsame⟩ | ⟨-, htrue⟩
  · exact ⟨hold, hsame ▸ hu⟩
  · rw [hu] at htrue
    cases htrue

theorem Later.rows (h : Later s s') {records : Table Key (Wire α)} (hr : Rows s records) :
    Rows s' records := by
  intro k row hrow
  obtain ⟨hform, hb, hshown⟩ := hr k row hrow
  refine ⟨hform, h.bounded k _ hb, fun c hs hu => ?_⟩
  obtain ⟨hs, hu⟩ := h.pushed hs hu
  exact hshown c hs hu

theorem Later.holds (h : Later s s') {rows : Table Key (Wire α)} (hr : Holds s rows) :
    Holds s' rows where
  bounded k row hrow := h.bounded k _ (hr.bounded k row hrow)
  shown k c hs hu := by
    obtain ⟨hs, hu⟩ := h.pushed hs hu
    exact hr.shown k c hs hu

theorem Later.tombstones (h : Later s s') {deletions : Table Key Int} (hd : Tombstones s deletions) :
    Tombstones s' deletions := by
  intro k deletedAt hk
  obtain ⟨hclock, hb, hmade⟩ := hd k deletedAt hk
  refine ⟨hclock.trans h.clock, h.bounded k _ hb, fun c hc => ?_⟩
  rcases h.fresh k c hc with hold | hlt
  · exact hmade c hold
  · exact .inl (by omega)

theorem Later.phaseHolds (h : Later s s') {phase : Phase α} (hp : PhaseHolds s phase) :
    PhaseHolds s' phase := by
  have carried {deletions : Table Key Int} (htomb : Tombstones s deletions)
      (hne : ∀ k deletedAt, Standing s k (.delete deletedAt) → s.desktop.unpushed k = true →
        deletions.lookup k ≠ some deletedAt) {k : Key} {deletedAt : Int}
      (hs : Standing s' k (.delete deletedAt)) (hu : s'.desktop.unpushed k = true) :
      deletions.lookup k ≠ some deletedAt := by
    rcases h.standing k _ hs with ⟨hold, hsame⟩ | ⟨hlt, -⟩
    · exact hne k deletedAt hold (hsame ▸ hu)
    · intro hk
      have := (htomb k deletedAt hk).1
      simp only [Change.time] at hlt
      omega
  cases phase with
  | loading purpose records refs =>
      exact ⟨h.rows hp.1, fun etag he => h.holds (hp.2 etag he)⟩
  | built purpose snapshot =>
      exact ⟨h.rows hp.1, h.tombstones hp.2.1, fun etag he => h.holds (hp.2.2 etag he)⟩
  | posting purpose snapshot => exact ⟨h.rows hp.1, h.tombstones hp.2⟩
  | posted purpose snapshot revision =>
      exact ⟨h.tombstones hp.1, fun k deletedAt hs hu => carried hp.1 hp.2 hs hu⟩
  | pushed purpose snapshot =>
      exact ⟨h.tombstones hp.1, fun k deletedAt hs hu => carried hp.1 hp.2 hs hu⟩
  | got refetch reply =>
      cases reply with
      | none => trivial
      | some remote => exact h.holds hp
  | _ => trivial

theorem later_of_same {d : Desktop α} (hu : d.unpushed = s.desktop.unpushed) :
    Later s { s with desktop := d } where
  bounded _ _ hb := hb
  standing k _ hs := .inl ⟨hs, congrFun hu k⟩
  clock := le_rfl
  fresh _ _ hc := .inl hc

theorem Core.same (hc : Core s) {d : Desktop α} (hr : d.records = s.desktop.records)
    (hu : d.unpushed = s.desktop.unpushed) (ho : Tombstones s d.outbox)
    (hd : ∀ k deletedAt, Standing s k (.delete deletedAt) → s.desktop.unpushed k = true →
      d.outbox.lookup k = some deletedAt) : Core { s with desktop := d } where
  store k c hs := by
    show d.records.lookup k = c.record
    rw [hr]
    exact hc.store k c hs
  bounded k record hk := by
    change d.records.lookup k = some record at hk
    rw [hr] at hk
    exact hc.bounded k record hk
  outbox := ho
  deletion k deletedAt hs hk := by
    change d.unpushed k = true at hk
    rw [hu] at hk
    exact hd k deletedAt hs hk
  server := (later_of_same hu).holds hc.server
  clock := hc.clock
  preferences := hc.preferences

theorem later_edit (hc : Core s) {k : Key} {c : Change α} {d : Desktop α} (hlt : s.clock < c.time)
    (hu : d.unpushed = Function.update s.desktop.unpushed k true) :
    Later s { s with
      desktop := d
      made := Function.update s.made k (some c)
      clock := c.time } where
  bounded j time hb := by
    rcases hb with hle | ⟨c', hc', hle⟩
    · exact .inl hle
    · by_cases hj : j = k
      · subst hj
        have := hc.clock j c' hc'
        exact .inr ⟨c, Function.update_self .., by omega⟩
      · exact .inr ⟨c', (Function.update_of_ne hj ..).trans hc', hle⟩
  standing j c' hs := by
    by_cases hj : j = k
    · subst hj
      have : c' = c := by simpa using hs.1.symm
      subst this
      exact .inr ⟨hlt, by simp [hu]⟩
    · refine .inl ⟨⟨(Function.update_of_ne hj ..).symm.trans hs.1, hs.2⟩, ?_⟩
      simp [hu, Function.update_of_ne hj]
  clock := hlt.le
  fresh j c' hc' := by
    by_cases hj : j = k
    · subst hj
      have : c' = c := by simpa using hc'.symm
      subst this
      exact .inr hlt
    · exact .inl ((Function.update_of_ne hj ..).symm.trans hc')

theorem Core.edit (hc : Core s) {k : Key} {c : Change α} {d : Desktop α} (hlt : s.clock < c.time)
    (hrec : ∀ j, d.records.lookup j = if j = k then c.record else s.desktop.records.lookup j)
    (hu : d.unpushed = Function.update s.desktop.unpushed k true)
    (hout : ∀ j, j ≠ k → d.outbox.lookup j = s.desktop.outbox.lookup j)
    (hk : (∃ deletedAt, c = .delete deletedAt ∧ d.outbox.lookup k = some deletedAt ∧
        k ≠ preferencesKey) ∨
      (∃ record, c = .save record) ∧ d.outbox.lookup k = s.desktop.outbox.lookup k) :
    Core { s with
      desktop := d
      made := Function.update s.made k (some c)
      clock := c.time } := by
  have hl := later_edit hc hlt hu
  have hself {c' : Change α} (h : Function.update s.made k (some c) k = some c') : c' = c := by
    simpa using h.symm
  refine ⟨fun j c' hs => ?_, fun j record hj => ?_, fun j deletedAt hj => ?_,
    fun j deletedAt hs hj => ?_, hl.holds hc.server, fun j c' hc' => ?_, fun deletedAt hc' => ?_⟩
  · by_cases hj : j = k
    · subst hj
      rw [hself hs.1, hrec, if_pos rfl]
    · rw [hrec, if_neg hj]
      exact hc.store j c' ⟨(Function.update_of_ne hj ..).symm.trans hs.1, hs.2⟩
  · by_cases hjk : j = k
    · subst hjk
      rw [hrec, if_pos rfl] at hj
      refine .inr ⟨c, Function.update_self .., ?_⟩
      cases c with
      | save saved =>
          cases hj
          exact le_rfl
      | delete deletedAt => cases hj
    · rw [hrec, if_neg hjk] at hj
      exact hl.bounded j _ (hc.bounded j record hj)
  · by_cases hjk : j = k
    · subst hjk
      rcases hk with ⟨t, rfl, ht, -⟩ | ⟨⟨record, rfl⟩, hsame⟩
      · cases ht.symm.trans hj
        refine ⟨le_rfl, .inr ⟨_, Function.update_self .., le_rfl⟩, fun c' hc' => ?_⟩
        exact .inr (hself hc')
      · exact hl.tombstones hc.outbox j deletedAt (hsame ▸ hj)
    · exact hl.tombstones hc.outbox j deletedAt (hout j hjk ▸ hj)
  · by_cases hjk : j = k
    · subst hjk
      rcases hk with ⟨t, rfl, ht, -⟩ | ⟨⟨record, rfl⟩, -⟩
      · cases hself hs.1
        exact ht
      · cases hself hs.1
    · change d.unpushed j = true at hj
      rw [hu, Function.update_of_ne hjk] at hj
      exact (hout j hjk).trans (hc.deletion j deletedAt
        ⟨(Function.update_of_ne hjk ..).symm.trans hs.1, hs.2⟩ hj)
  · by_cases hj : j = k
    · subst hj
      rw [hself hc']
    · have := hc.clock j c' ((Function.update_of_ne hj ..).symm.trans hc')
      exact this.trans hlt.le
  · by_cases hj : preferencesKey = k
    · subst hj
      rcases hk with ⟨t, -, -, hne⟩ | ⟨⟨record, rfl⟩, -⟩
      · exact hne rfl
      · cases hself hc'
    · exact hc.preferences deletedAt ((Function.update_of_ne hj ..).symm.trans hc')

end Frames

section Marks

variable [DecidableEq α] {s : Device α}

theorem newcomers_le (s : Device α) (d : Desktop α) (changes : List (Key × Stored α)) (k : Key) :
    s.others k ≤ newcomers s d changes k := by
  unfold newcomers
  split
  · exact le_rfl
  · split
    · exact le_rfl
    · exact le_max_left _ _

theorem newcomers_of_same {d : Desktop α} {changes : List (Key × Stored α)}
    (h : d.records = s.desktop.records) : newcomers s d changes = s.others := by
  funext k
  unfold newcomers
  rw [if_pos (.inl (by rw [h]))]

theorem le_newcomers {d : Desktop α} {changes : List (Key × Stored α)} {k : Key}
    {record : Stored α} (hk : d.records.lookup k = some record)
    (hne : d.records.lookup k ≠ s.desktop.records.lookup k)
    (hchange : (changes.any fun c => c.1 == k) = false) :
    record.updatedAt ≤ newcomers s d changes k := by
  rw [newcomers, if_neg (by simp [hne, hchange]), hk]
  exact le_max_right _ _

def withGroups (s : Device α) (groups : List (String × Stored α)) : Device α :=
  { s with
    desktop := materializeImplicitHostGroups groups s.desktop
    others := newcomers s (materializeImplicitHostGroups groups s.desktop) [] }

theorem standing_withGroups {choice : Choice α} (hg : GroupsAreNew s choice) {k : Key}
    {c : Change α} (h : Standing (withGroups s choice.groups) k c) : Standing s k c ∧
      (withGroups s choice.groups).desktop.records.lookup k = s.desktop.records.lookup k ∧
      (withGroups s choice.groups).desktop.unpushed k = s.desktop.unpushed k := by
  have hs : Standing s k c := ⟨h.1, (newcomers_le s _ [] k).trans h.2⟩
  refine ⟨hs, ?_⟩
  rcases materialize_lookup choice.groups s.desktop k with hsame | ⟨hnone, -, group, hmem, rfl, hrec⟩
  · exact hsame
  · have hlt := hg group hmem c hs hnone
    have hle := (le_newcomers (s := s) hrec (by rw [hrec, hnone]; nofun) rfl).trans h.2
    have := WithBot.coe_le_coe.mp hle
    omega

theorem later_withGroups {choice : Choice α} (hg : GroupsAreNew s choice) :
    Later s (withGroups s choice.groups) where
  bounded k time hb := hb.imp (fun hle => hle.trans (newcomers_le s _ [] k)) id
  standing k c hs := by
    obtain ⟨hold, -, hu⟩ := standing_withGroups hg hs
    exact .inl ⟨hold, hu⟩
  clock := le_rfl
  fresh _ _ hc := .inl hc

theorem Core.withGroups (hc : Core s) {choice : Choice α} (hg : GroupsAreNew s choice) :
    Core (withGroups s choice.groups) := by
  have hl := later_withGroups hg
  have hout : (DesktopSync.withGroups s choice.groups).desktop.outbox = s.desktop.outbox := by
    obtain ⟨records, unpushed, he⟩ := materialize_eq choice.groups s.desktop
    simp only [DesktopSync.withGroups, he]
  refine ⟨fun k c hs => ?_, fun k record hk => ?_, ?_, fun k deletedAt hs hu => ?_,
    hl.holds hc.server, hc.clock, hc.preferences⟩
  · obtain ⟨hold, hsame, -⟩ := standing_withGroups hg hs
    exact hsame.trans (hc.store k c hold)
  · by_cases hsame : (DesktopSync.withGroups s choice.groups).desktop.records.lookup k =
        s.desktop.records.lookup k
    · exact hl.bounded k _ (hc.bounded k record (hsame ▸ hk))
    · exact .inl (le_newcomers hk hsame rfl)
  · rw [hout]
    exact hl.tombstones hc.outbox
  · obtain ⟨hold, -, hmark⟩ := standing_withGroups hg hs
    rw [hout]
    exact hc.deletion k deletedAt hold (hmark ▸ hu)

end Marks

section Calls

variable [DecidableEq α] {d : Desktop α}

theorem due_pushDirty (htask : d.pushTask = true → .pushDirty ∈ d.queue ∨ Pushing d.phase)
    (hphase : d.phase ≠ .settling .pushDirty) (k : Key) : Due (pushDirty d) k := by
  by_cases ht : d.pushTask = true
  · rcases htask ht with hq | hp
    · exact .inl (by simpa [pushDirty, ht] using hq)
    · refine .inr (.inr ?_)
      have hflag : (pushDirty d).queuedPush = true := by simp [pushDirty, ht]
      rw [pushDirty_phase]
      generalize d.phase = phase at hp hphase ⊢
      cases phase with
      | loading purpose records refs =>
          cases purpose with
          | pushDirty => exact .inl hflag
          | _ => cases hp
      | built purpose snapshot =>
          cases purpose with
          | pushDirty => exact .inl hflag
          | _ => cases hp
      | posting purpose snapshot =>
          cases purpose with
          | pushDirty => exact .inl hflag
          | _ => cases hp
      | posted purpose snapshot revision =>
          cases purpose with
          | pushDirty => exact hflag
          | _ => cases hp
      | pushed purpose snapshot =>
          cases purpose with
          | pushDirty => exact hflag
          | _ => cases hp
      | settling op =>
          cases op with
          | pushDirty => exact absurd rfl hphase
          | bootstrap => cases hp
      | _ => cases hp
  · exact .inl (by simp [pushDirty, ht])

omit [DecidableEq α] in
theorem task_pushDirty (htask : d.pushTask = true → .pushDirty ∈ d.queue ∨ Pushing d.phase) :
    .pushDirty ∈ (pushDirty d).queue ∨ Pushing (pushDirty d).phase := by
  rw [pushDirty_phase]
  by_cases ht : d.pushTask = true
  · simpa [pushDirty, ht] using htask ht
  · exact .inl (by simp [pushDirty, ht])

theorem InFlight.pushing {k : Key} {phase : Phase α} (h : InFlight d k phase) :
    Pushing phase ∨ ∃ etag, phase = .applied etag true := by
  cases phase with
  | loading purpose records refs =>
      cases purpose with
      | pushDirty => exact .inl trivial
      | _ => cases h
  | built purpose snapshot =>
      cases purpose with
      | pushDirty => exact .inl trivial
      | _ => cases h
  | posting purpose snapshot =>
      cases purpose with
      | pushDirty => exact .inl trivial
      | _ => cases h
  | posted purpose snapshot revision =>
      cases purpose with
      | pushDirty => exact .inl trivial
      | _ => cases h
  | pushed purpose snapshot =>
      cases purpose with
      | pushDirty => exact .inl trivial
      | _ => cases h
  | applied etag changed =>
      cases h
      exact .inr ⟨etag, rfl⟩
  | _ => cases h

end Calls

section Building

variable [DecidableEq α] {s : Device α}

theorem PullInv.edit (hi : PullInv s) {k : Key} {c : Change α} {d : Desktop α}
    (hlt : s.clock < c.time) (hphase : s.desktop.phase ≠ .settling .pushDirty)
    (hcore : Core { s with
      desktop := pushDirty d
      made := Function.update s.made k (some c)
      clock := c.time })
    (hu : d.unpushed = Function.update s.desktop.unpushed k true) (hp : d.phase = s.desktop.phase)
    (hq : d.queue = s.desktop.queue) (ht : d.pushTask = s.desktop.pushTask) :
    PullInv { s with
      desktop := pushDirty d
      made := Function.update s.made k (some c)
      clock := c.time } := by
  have htask : d.pushTask = true → .pushDirty ∈ d.queue ∨ Pushing d.phase := by
    rw [hp, hq, ht]
    exact hi.task
  refine ⟨hcore, fun j _ _ _ => due_pushDirty htask (hp ▸ hphase) j, fun _ => task_pushDirty htask, ?_⟩
  have hl := later_edit (d := pushDirty d) hi.core hlt (by simpa using hu)
  have := hl.phaseHolds hi.phase
  simpa [hp] using this

omit [DecidableEq α] in
theorem Core.row (hc : Core s) (iv : Nat) {k : Key} {record : Stored α}
    (hk : s.desktop.records.lookup k = some record) :
    (∃ iv' record', toSyncRecord iv record = toSyncRecord iv' record') ∧
      Bounded s k (toSyncRecord iv record).updatedAt ∧
      ∀ c, Standing s k c → s.desktop.unpushed k = false → c.Shown (toSyncRecord iv record) := by
  refine ⟨⟨iv, record, rfl⟩, hc.bounded k record hk, fun c hs _ => ?_⟩
  have hrec := (hc.store k c hs).symm.trans hk
  cases c with
  | save saved =>
      cases hrec
      exact ⟨iv, rfl⟩
  | delete deletedAt => cases hrec

omit [DecidableEq α] in
theorem Core.insertRow (hc : Core s) (iv : Nat) {k : Key} {record : Stored α}
    (hk : s.desktop.records.lookup k = some record) {records : Table Key (Wire α)}
    (hr : Rows s records) : Rows s (records.insert k (toSyncRecord iv record)) := by
  intro j row hj
  by_cases hjk : j = k
  · subst hjk
    rw [AList.lookup_insert] at hj
    cases hj
    exact hc.row iv hk
  · rw [AList.lookup_insert_ne hjk] at hj
    exact hr j row hj

theorem Core.carries (hc : Core s) {records : Table Key (Wire α)} {k : Key} {c : Change α}
    (hs : Standing s k c) (hu : s.desktop.unpushed k = true)
    (hcov : Covered s.desktop records [] k) :
    carries s.desktop ⟨records, s.desktop.outbox⟩ k = true := by
  cases hk : s.desktop.records.lookup k with
  | some record =>
      have := (hcov record hk).resolve_left (by simp)
      simp [DesktopSync.carries, hk, this]
  | none =>
      have hrec := (hc.store k c hs).symm.trans hk
      cases c with
      | save saved => cases hrec
      | delete deletedAt =>
          have := hc.deletion k deletedAt hs hu
          simp [DesktopSync.carries, hk, this]

theorem PullInv.load (hc : Core s) (iv : Key → Nat) (purpose : Purpose)
    {records : Table Key (Wire α)} {refs : List Key} (hr : Rows s records)
    (hempty : ∀ etag, purpose = .recover etag → Holds s ∅)
    (hdue : ∀ k c, Standing s k c → s.desktop.unpushed k = true →
      .pushDirty ∈ s.desktop.queue ∨ s.desktop.pushTimer = true ∨
        purpose = .pushDirty ∧ (s.desktop.queuedPush = true ∨ Covered s.desktop records refs k))
    (htask : s.desktop.pushTask = true → .pushDirty ∈ s.desktop.queue ∨ purpose = .pushDirty) :
    PullInv { s with
      desktop := { s.desktop with phase := loadSecrets iv s.desktop purpose records refs } } := by
  have hcore : Core { s with
      desktop := { s.desktop with phase := loadSecrets iv s.desktop purpose records refs } } :=
    hc.same rfl rfl hc.outbox hc.deletion
  have hl := later_of_same (s := s) (d := { s.desktop with
    phase := loadSecrets iv s.desktop purpose records refs }) rfl
  cases refs with
  | nil =>
      refine ⟨hcore, fun k c hs hu => ?_, fun ht => ?_, hl.phaseHolds ⟨hr, hc.outbox, hempty⟩⟩
      · rcases hdue k c hs hu with hq | htimer | ⟨rfl, hflag | hcov⟩
        · exact .inl hq
        · exact .inr (.inl htimer)
        · exact .inr (.inr (.inl hflag))
        · exact .inr (.inr (.inr (hc.carries hs hu hcov)))
      · rcases htask ht with hq | rfl
        · exact .inl hq
        · exact .inr trivial
  | cons ref rest =>
      cases hk : s.desktop.records.lookup ref with
      | none =>
          simp only [loadSecrets, hk] at hcore hl ⊢
          refine ⟨hcore, fun k c hs hu => ?_, fun ht => ?_, hl.phaseHolds ⟨hr, hempty⟩⟩
          · rcases hdue k c hs hu with hq | htimer | ⟨rfl, hflag | hcov⟩
            · exact .inl hq
            · exact .inr (.inl htimer)
            · exact .inr (.inr (.inl hflag))
            · refine .inr (.inr (.inr fun record hrec => ?_))
              rcases hcov record hrec with hmem | hread
              · rcases List.mem_cons.mp hmem with rfl | hmem
                · cases hk.symm.trans hrec
                · exact .inl hmem
              · exact .inr hread
          · rcases htask ht with hq | rfl
            · exact .inl hq
            · exact .inr trivial
      | some secret =>
          simp only [loadSecrets, hk] at hcore hl ⊢
          refine ⟨hcore, fun k c hs hu => ?_, fun ht => ?_,
            hl.phaseHolds ⟨hc.insertRow (iv ref) hk hr, hempty⟩⟩
          · rcases hdue k c hs hu with hq | htimer | ⟨rfl, hflag | hcov⟩
            · exact .inl hq
            · exact .inr (.inl htimer)
            · exact .inr (.inr (.inl hflag))
            · refine .inr (.inr (.inr fun record hrec => ?_))
              by_cases hkr : k = ref
              · subst hkr
                cases hk.symm.trans hrec
                exact .inr (by simp)
              · rw [AList.lookup_insert_ne hkr]
                exact (hcov record hrec).imp_left fun hmem => (List.mem_cons.mp hmem).resolve_left hkr
          · rcases htask ht with hq | rfl
            · exact .inl hq
            · exact .inr trivial

omit [DecidableEq α] in
theorem covered_start (iv : Key → Nat) (d : Desktop α) (k : Key) :
    Covered d (plainRecords iv d.records) (secretRefs d.records) k := by
  intro record hrec
  by_cases hkind : k.1 = .secrets
  · exact .inl (mem_secretRefs.mpr ⟨⟨record, hrec⟩, hkind⟩)
  · exact .inr (by simp [plainRecords_lookup, hkind, hrec])

theorem PullInv.build (hc : Core s) {choice : Choice α} (hg : GroupsAreNew s choice)
    (purpose : Purpose) (hempty : ∀ etag, purpose = .recover etag → Holds s ∅)
    (hdue : ∀ k c, Standing s k c → s.desktop.unpushed k = true →
      .pushDirty ∈ s.desktop.queue ∨ s.desktop.pushTimer = true ∨ purpose = .pushDirty)
    (htask : s.desktop.pushTask = true → .pushDirty ∈ s.desktop.queue ∨ purpose = .pushDirty) :
    PullInv { s with
      desktop := buildEncryptedSnapshot choice purpose s.desktop
      others := newcomers s (buildEncryptedSnapshot choice purpose s.desktop) [] } := by
  have hcore := hc.withGroups hg
  have hl := later_withGroups hg
  obtain ⟨hq, htimer, ht⟩ : (withGroups s choice.groups).desktop.queue = s.desktop.queue ∧
      (withGroups s choice.groups).desktop.pushTimer = s.desktop.pushTimer ∧
      (withGroups s choice.groups).desktop.pushTask = s.desktop.pushTask := by
    obtain ⟨records, unpushed, he⟩ := materialize_eq choice.groups s.desktop
    simp [withGroups, he]
  refine PullInv.load (s := withGroups s choice.groups) hcore choice.iv purpose ?_
    (fun etag he => hl.holds (hempty etag he)) (fun k c hs hu => ?_) (by rwa [hq, ht])
  · intro k row hrow
    rw [plainRecords_lookup] at hrow
    split at hrow
    · cases hrow
    · obtain ⟨record, hrec, rfl⟩ := Option.map_eq_some_iff.mp hrow
      exact hcore.row (choice.iv k) hrec
  · obtain ⟨hold, -, hmark⟩ := standing_withGroups hg hs
    rw [hq, htimer]
    rcases hdue k c hold (hmark ▸ hu) with h | h | h
    · exact .inl h
    · exact .inr (.inl h)
    · exact .inr (.inr ⟨h, .inr (covered_start choice.iv _ k)⟩)

end Building

section Applying

variable {s : Device α}

theorem rewrite_cases (changes : List (Key × Stored α)) (made : Key → Option (Change α))
    (records : Table Key (Stored α)) (k : Key) :
    ((∀ c ∈ changes, c.1 ≠ k) ∧ recordRewrites made changes k = made k ∧
        (Table.insertAll records changes).lookup k = records.lookup k) ∨
      ∃ record, (k, record) ∈ changes ∧ recordRewrites made changes k = some (.save record) ∧
        (Table.insertAll records changes).lookup k = some record := by
  induction changes generalizing made records with
  | nil => exact .inl ⟨by simp, rfl, rfl⟩
  | cons c rest ih =>
      rcases ih (Function.update made c.1 (some (.save c.2))) (records.insert c.1 c.2) with
        ⟨hne, hmade, hrec⟩ | ⟨record, hmem, hmade, hrec⟩
      · by_cases hk : k = c.1
        · subst hk
          exact .inr ⟨c.2, by simp, hmade.trans (Function.update_self ..),
            hrec.trans (AList.lookup_insert _)⟩
        · refine .inl ⟨List.forall_mem_cons.mpr ⟨Ne.symm hk, hne⟩, ?_, ?_⟩
          · exact hmade.trans (Function.update_of_ne hk ..)
          · exact hrec.trans (AList.lookup_insert_ne hk)
      · exact .inr ⟨record, List.mem_cons_of_mem _ hmem, hmade, hrec⟩

theorem le_clock (changes : List (Key × Stored α)) (clock : Int) :
    clock ≤ changes.foldl (fun clock c => max clock c.2.updatedAt) clock ∧
      ∀ c ∈ changes, c.2.updatedAt ≤
        changes.foldl (fun clock c => max clock c.2.updatedAt) clock := by
  induction changes generalizing clock with
  | nil => simp
  | cons c rest ih =>
      obtain ⟨hle, hall⟩ := ih (max clock c.2.updatedAt)
      exact ⟨(le_max_left ..).trans hle,
        List.forall_mem_cons.mpr ⟨(le_max_right ..).trans hle, hall⟩⟩

theorem Core.received (hc : Core s) {remote : Remote α} (hr : Holds s remote.rows) {k : Key}
    {c : Change α} (hs : Standing s k c) (hu : s.desktop.unpushed k = false) (systemTheme : α)
    (now : Int) :
    (withPreferences systemTheme now (liveRecords remote.rows)).lookup k = c.record := by
  obtain ⟨row, hrow, hshown⟩ := hr.shown k c hs hu
  have hlive : (liveRecords remote.rows).lookup k = c.record := by
    rw [liveRecords_lookup, hrow]
    exact hshown.decodeLive
  unfold withPreferences
  split
  · rename_i hnone
    by_cases hk : k = preferencesKey
    · subst hk
      rw [hlive] at hnone
      cases c with
      | save record => cases hnone
      | delete deletedAt => exact absurd hs.1 (hc.preferences deletedAt)
    · rw [AList.lookup_insert_ne hk, hlive]
  · exact hlive

variable [DecidableEq α]

def pulled (systemTheme : α) (choice : Choice α) (remote : Remote α) (s : Device α) : Device α :=
  let changes :=
    pullChanges choice (withPreferences systemTheme choice.now (liveRecords remote.rows))
  { s with
    desktop := applyRemoteSnapshot systemTheme choice remote s.desktop
    made := recordRewrites s.made changes
    others := newcomers s (applyRemoteSnapshot systemTheme choice remote s.desktop) changes
    clock := changes.foldl (fun clock c => max clock c.2.updatedAt) s.clock }

theorem PullInv.pull (hi : PullInv s) {remote : Remote α} (hr : Holds s remote.rows)
    (happlies : applies s.desktop = some remote) (systemTheme : α) (choice : Choice α)
    (hfresh : ∀ c ∈ pullChanges choice
      (withPreferences systemTheme choice.now (liveRecords remote.rows)), s.clock < c.2.updatedAt)
    (hpushed : ∀ k c, Standing s k c → s.desktop.unpushed k = false) :
    PullInv (pulled systemTheme choice remote s) := by
  unfold pulled
  generalize hchanges : pullChanges choice
    (withPreferences systemTheme choice.now (liveRecords remote.rows)) = changes at hfresh
  obtain ⟨hclock, hclocks⟩ := le_clock changes s.clock
  have hcases := rewrite_cases changes s.made
    (withPreferences systemTheme choice.now (liveRecords remote.rows))
  have hmark (k : Key) : (applyRemoteSnapshot systemTheme choice remote s.desktop).unpushed k =
      changes.any fun c => c.1 == k := by
    simp [applyRemoteSnapshot, hchanges]
  have hstore (k : Key) : (applyRemoteSnapshot systemTheme choice remote s.desktop).records.lookup k =
      (Table.insertAll (withPreferences systemTheme choice.now (liveRecords remote.rows))
        changes).lookup k := by
    simp [applyRemoteSnapshot, hchanges]
  have hany {k : Key} (h : ∀ c ∈ changes, c.1 ≠ k) :
      (changes.any fun c => c.1 == k) = false :=
    List.any_eq_false.mpr fun c hc => by simp [h c hc]
  have hmem {k : Key} {record : Stored α} (h : (k, record) ∈ changes) :
      (changes.any fun c => c.1 == k) = true :=
    List.any_eq_true.mpr ⟨_, h, by simp⟩
  have hold {k : Key} {c : Change α} (hm : recordRewrites s.made changes k = s.made k)
      (h : recordRewrites s.made changes k = some c ∧ newcomers s
        (applyRemoteSnapshot systemTheme choice remote s.desktop) changes k ≤ c.time) :
      Standing s k c :=
    ⟨hm ▸ h.1, (newcomers_le ..).trans h.2⟩
  have hl : Later s { s with
      desktop := applyRemoteSnapshot systemTheme choice remote s.desktop
      made := recordRewrites s.made changes
      others := newcomers s (applyRemoteSnapshot systemTheme choice remote s.desktop) changes
      clock := changes.foldl (fun clock c => max clock c.2.updatedAt) s.clock } := by
    refine ⟨fun k time hb => ?_, fun k c hs => ?_, hclock, fun k c hc => ?_⟩
    · rcases hb with hle | ⟨c, hc, hle⟩
      · exact .inl (hle.trans (newcomers_le ..))
      · rcases hcases k with ⟨-, hm, -⟩ | ⟨record, hk, hm, -⟩
        · exact .inr ⟨c, hm.trans hc, hle⟩
        · have h1 := hi.core.clock k c hc
          have h2 : s.clock < record.updatedAt := hfresh _ hk
          exact .inr ⟨_, hm, by simp only [Change.time]; omega⟩
    · rcases hcases k with ⟨hne, hm, -⟩ | ⟨record, hk, hm, -⟩
      · have hs' := hold hm hs
        exact .inl ⟨hs', by rw [hpushed k c hs']; exact (hmark k).trans (hany hne)⟩
      · cases hm.symm.trans hs.1
        exact .inr ⟨hfresh _ hk, (hmark k).trans (hmem hk)⟩
    · rcases hcases k with ⟨-, hm, -⟩ | ⟨record, hk, hm, -⟩
      · exact .inl (hm ▸ hc)
      · cases hm.symm.trans hc
        exact .inr (hfresh _ hk)
  refine ⟨⟨fun k c hs => ?_, fun k record hk => ?_, hl.tombstones hi.core.outbox,
    fun k deletedAt hs hu => ?_, hl.holds hi.core.server, fun k c hc => ?_, fun deletedAt hc => ?_⟩,
    fun k c hs hu => ?_, fun ht => ?_, trivial⟩
  · refine (hstore k).trans ?_
    rcases hcases k with ⟨-, hm, hrec⟩ | ⟨record, -, hm, hrec⟩
    · have hs' := hold hm hs
      exact hrec.trans (hi.core.received hr hs' (hpushed k c hs') systemTheme choice.now)
    · cases hm.symm.trans hs.1
      exact hrec
  · rcases hcases k with ⟨hne, hm, -⟩ | ⟨new, -, hm, hrec⟩
    · by_cases hsame : (applyRemoteSnapshot systemTheme choice remote s.desktop).records.lookup k =
          s.desktop.records.lookup k
      · exact hl.bounded k _ (hi.core.bounded k record (hsame ▸ hk))
      · exact .inl (le_newcomers hk hsame (hany hne))
    · have : some record = some new := hk.symm.trans ((hstore k).trans hrec)
      cases this
      exact .inr ⟨_, hm, le_rfl⟩
  · rcases hcases k with ⟨hne, -, -⟩ | ⟨record, -, hm, -⟩
    · have := (hmark k).symm.trans hu
      rw [hany hne] at this
      cases this
    · cases hm.symm.trans hs.1
  · rcases hcases k with ⟨-, hm, -⟩ | ⟨record, hk, hm, -⟩
    · exact (hi.core.clock k c (hm ▸ hc)).trans hclock
    · cases hm.symm.trans hc
      exact hclocks _ hk
  · rcases hcases preferencesKey with ⟨-, hm, -⟩ | ⟨record, -, hm, -⟩
    · exact hi.core.preferences deletedAt (hm ▸ hc)
    · cases hm.symm.trans hc
  · refine .inr (.inr ?_)
    have hu := (hmark k).symm.trans hu
    obtain ⟨c, hmem, -⟩ := List.any_eq_true.mp hu
    show (!(pullChanges choice _).isEmpty) = true
    rw [hchanges]
    cases changes with
    | nil => cases hmem
    | cons c rest => rfl
  · refine .inl ((hi.task ht).resolve_right fun hp => ?_)
    unfold applies at happlies
    split at happlies
    · rename_i hphase
      rw [hphase] at hp
      exact hp
    · rename_i hphase
      rw [hphase] at hp
      exact hp
    · cases happlies

end Applying

section Serving

variable {s : Device α}

theorem resultAt_cases {snapshot : Snapshot α} {k : Key} {current : Option (Wire α)} {row : Wire α}
    (h : snapshot.resultAt k current = some row) : current = some row ∨
      snapshot.records.lookup k = some row ∨
      ∃ deletedAt, snapshot.deletions.lookup k = some deletedAt ∧ row = tombstone deletedAt := by
  have hrecord {row : Wire α} (h : snapshot.recordAt k current = some row) :
      current = some row ∨ snapshot.records.lookup k = some row := by
    unfold Snapshot.recordAt at h
    cases hr : snapshot.records.lookup k with
    | none =>
        rw [hr] at h
        exact .inl h
    | some read =>
        rw [hr] at h
        cases h
        rcases lastWriter_eq_or current read with heq | ⟨c, hc, heq, -⟩
        · exact .inr (by rw [heq])
        · exact .inl (by rw [heq, hc])
  unfold Snapshot.resultAt at h
  cases hd : snapshot.deletions.lookup k with
  | none =>
      rw [hd] at h
      exact (hrecord h).imp_right .inl
  | some deletedAt =>
      rw [hd] at h
      cases h
      rcases lastWriter_eq_or (snapshot.recordAt k current) (tombstone deletedAt) with
        heq | ⟨c, hc, heq, -⟩
      · exact .inr (.inr ⟨deletedAt, rfl, heq⟩)
      · rw [heq]
        exact (hrecord hc).imp_right .inl

theorem Tombstones.resultAt {snapshot : Snapshot α} (htomb : Tombstones s snapshot.deletions)
    {k : Key} {c : Change α} (hmade : s.made k = some c) {current : Option (Wire α)} {row : Wire α}
    (hrow : snapshot.recordAt k current = some row) (hshown : c.Shown row) :
    ∃ result, snapshot.resultAt k current = some result ∧ c.Shown result := by
  unfold Snapshot.resultAt
  cases hd : snapshot.deletions.lookup k with
  | none => exact ⟨row, hrow, hshown⟩
  | some deletedAt =>
      simp only [hrow, Option.some.injEq, exists_eq_left']
      rcases (htomb k deletedAt hd).2.2 c hmade with hlt | rfl
      · have : lastWriter (some row) (tombstone deletedAt) = row := by
          simp [lastWriter, hshown.updatedAt, hlt]
        rwa [this]
      · have : lastWriter (some row) (tombstone deletedAt) = tombstone deletedAt := by
          have htime := hshown.updatedAt
          simp only [Change.time] at htime
          simp [lastWriter, htime]
        rw [this]
        exact ⟨0, rfl⟩

variable [DecidableEq α]

theorem Core.push (hc : Core s) {snapshot : Snapshot α} (hr : Rows s snapshot.records)
    (htomb : Tombstones s snapshot.deletions) {k : Key} {c : Change α} (hs : Standing s k c)
    (hu : (s.desktop.unpushed k && !DesktopSync.carries s.desktop snapshot k) = false) :
    ∃ row, snapshot.resultAt k (s.server.rows.lookup k) = some row ∧ c.Shown row := by
  have hold (row : Wire α) (hrow : s.server.rows.lookup k = some row) : row.updatedAt ≤ c.time :=
    hs.le (hc.server.bounded k row hrow)
  cases hk : s.desktop.unpushed k with
  | false =>
      obtain ⟨row, hrow, hshown⟩ := hc.server.shown k c hs hk
      cases hread : snapshot.records.lookup k with
      | none => exact htomb.resultAt hs.1 (by rw [Snapshot.recordAt, hread]; exact hrow) hshown
      | some read =>
          have hread' := (hr k read hread).2.2 c hs hk
          refine htomb.resultAt hs.1 (?_ : snapshot.recordAt k _ = some read) hread'
          simp only [Snapshot.recordAt, hread]
          rw [lastWriter_of_not_older fun c' hc' => ?_]
          rw [hread'.updatedAt]
          exact hold c' hc'
  | true =>
      have hcar : DesktopSync.carries s.desktop snapshot k = true := by simpa [hk] using hu
      have hstore := hc.store k c hs
      cases c with
      | save record =>
          simp only [DesktopSync.carries, hstore, Change.record, beq_iff_eq] at hcar
          obtain ⟨row, hrow, hlive⟩ := Option.bind_eq_some_iff.mp hcar
          obtain ⟨⟨iv, read, rfl⟩, -⟩ := hr k row hrow
          obtain rfl : record = read := by simpa using hlive.symm
          refine htomb.resultAt hs.1 (?_ : snapshot.recordAt k _ = some (toSyncRecord iv record))
            ⟨iv, rfl⟩
          simp only [Snapshot.recordAt, hrow]
          rw [lastWriter_of_not_older fun c' hc' => hold c' hc']
      | delete deletedAt =>
          have hout := hc.deletion k deletedAt hs hk
          simp only [DesktopSync.carries, hstore, Change.record, hout, Bool.and_eq_true,
            beq_iff_eq] at hcar
          refine ⟨tombstone deletedAt, ?_, 0, rfl⟩
          simp only [Snapshot.resultAt, hcar.2, Option.some.injEq]
          refine lastWriter_of_not_older fun row hrow => ?_
          cases hread : snapshot.records.lookup k with
          | none =>
              simp only [Snapshot.recordAt, hread] at hrow
              exact hold row hrow
          | some read =>
              simp only [Snapshot.recordAt, hread, Option.some.injEq] at hrow
              subst hrow
              rcases lastWriter_eq_or (s.server.rows.lookup k) read with heq | ⟨c', hc', heq, -⟩
              · rw [heq]
                exact hs.le (hr k read hread).2.1
              · rw [heq]
                exact hold c' hc'

theorem PullInv.post (hi : PullInv s) {purpose : Purpose} {snapshot : Snapshot α}
    (hphase : s.desktop.phase = .posting purpose snapshot) :
    PullInv { s with
      server := applyPushRecords s.server snapshot.payload
      desktop := { s.desktop with
        unpushed := fun k => s.desktop.unpushed k && !DesktopSync.carries s.desktop snapshot k
        phase := .posted purpose snapshot
          (applyPushRecords s.server snapshot.payload).revision } } := by
  have hp := hi.phase
  rw [hphase] at hp
  obtain ⟨hr, htomb⟩ := hp
  have hmark {k : Key}
      (hu : (s.desktop.unpushed k && !DesktopSync.carries s.desktop snapshot k) = true) :
      s.desktop.unpushed k = true ∧ DesktopSync.carries s.desktop snapshot k = false := by
    simpa using hu
  refine ⟨⟨hi.core.store, hi.core.bounded, hi.core.outbox, fun k deletedAt hs hu => ?_,
    ⟨fun k row hrow => ?_, fun k c hs hu => ?_⟩, hi.core.clock, hi.core.preferences⟩,
    fun k c hs hu => ?_, fun ht => ?_, htomb, fun k deletedAt hs hu hd => ?_⟩
  · exact hi.core.deletion k deletedAt hs (hmark hu).1
  · rw [applyPushRecords_lookup] at hrow
    rcases resultAt_cases hrow with h | h | ⟨deletedAt, h, rfl⟩
    · exact hi.core.server.bounded k row h
    · exact (hr k row h).2.1
    · exact (htomb k deletedAt h).2.1
  · rw [applyPushRecords_lookup]
    exact hi.core.push hr htomb hs hu
  · obtain ⟨hk, hcar⟩ := hmark hu
    rcases hi.due k c hs hk with hq | htimer | hfl
    · exact .inl hq
    · exact .inr (.inl htimer)
    · rw [hphase] at hfl
      cases purpose with
      | pushDirty =>
          refine .inr (.inr (hfl.resolve_right ?_))
          simp [hcar]
      | _ => cases hfl
  · rcases hi.task ht with hq | hp
    · exact .inl hq
    · rw [hphase] at hp
      cases purpose with
      | pushDirty => exact .inr trivial
      | _ => cases hp
  · obtain ⟨hk, hcar⟩ := hmark hu
    have hstore := hi.core.store k _ hs
    have hout := hi.core.deletion k deletedAt hs hk
    simp [DesktopSync.carries, hstore, Change.record, hout, hd] at hcar

theorem PullInv.get (hi : PullInv s) {refetch : Bool} {ifNoneMatch : Option Nat}
    (hphase : s.desktop.phase = .getting refetch ifNoneMatch) :
    PullInv { s with
      desktop := { s.desktop with phase := .got refetch (getSync s.server ifNoneMatch) } } := by
  have hl := later_of_same (s := s) (d := { s.desktop with
    phase := .got refetch (getSync s.server ifNoneMatch) }) rfl
  refine ⟨hi.core.same rfl rfl hi.core.outbox hi.core.deletion, fun k c hs hu => ?_,
    fun ht => ?_, hl.phaseHolds ?_⟩
  · rcases hi.due k c hs hu with hq | htimer | hfl
    · exact .inl hq
    · exact .inr (.inl htimer)
    · rw [hphase] at hfl
      cases hfl
  · refine .inl ((hi.task ht).resolve_right ?_)
    rw [hphase]
    exact id
  · unfold getSync
    split
    · trivial
    · exact hi.core.server

omit [DecidableEq α] in
theorem le_foreign (changes : List (Key × Change α)) (others : Key → WithBot Int) (k : Key) :
    others k ≤ changes.foldl (fun others c =>
        Function.update others c.1 (max (others c.1) c.2.time)) others k ∧
      ∀ c, (k, c) ∈ changes → c.time ≤ changes.foldl (fun others c =>
        Function.update others c.1 (max (others c.1) c.2.time)) others k := by
  induction changes generalizing others with
  | nil => simp
  | cons e rest ih =>
      obtain ⟨hle, hall⟩ := ih (Function.update others e.1 (max (others e.1) e.2.time))
      have hstep : others k ≤ Function.update others e.1 (max (others e.1) e.2.time) k := by
        by_cases hk : k = e.1
        · subst hk
          simp
        · simp [Function.update_of_ne hk]
      refine ⟨hstep.trans hle, fun c hc => ?_⟩
      rcases List.mem_cons.mp hc with rfl | hc
      · refine le_trans ?_ hle
        simp
      · exact hall c hc

theorem PullInv.foreignPush (hi : PullInv s) (iv : Nat) {changes : List (Key × Change α)}
    (hok : ∀ c ∈ changes, ∀ mine, s.made c.1 = some mine → s.desktop.unpushed c.1 = false →
      c.2.time ≠ mine.time) : PullInv (foreignPush s iv changes) := by
  have hothers := le_foreign changes s.others
  have hstand {k : Key} {c : Change α} (hs : Standing (DesktopSync.foreignPush s iv changes) k c) :
      Standing s k c := ⟨hs.1, (hothers k).1.trans hs.2⟩
  have hl : Later s (DesktopSync.foreignPush s iv changes) :=
    ⟨fun k time hb => hb.imp (fun hle => hle.trans (hothers k).1) id,
      fun k c hs => .inl ⟨hstand hs, rfl⟩, le_rfl, fun k c hc => .inl hc⟩
  refine ⟨⟨fun k c hs => hi.core.store k c (hstand hs), fun k record hk =>
    hl.bounded k _ (hi.core.bounded k record hk), hl.tombstones hi.core.outbox,
    fun k deletedAt hs hu => hi.core.deletion k deletedAt (hstand hs) hu,
    ⟨fun k row hrow => ?_, fun k c hs hu => ?_⟩, hi.core.clock, hi.core.preferences⟩,
    fun k c hs hu => hi.due k c (hstand hs) hu, hi.task, hl.phaseHolds hi.phase⟩
  · rcases upsertSyncRecords_lookup_cases hrow with h | h
    · exact hl.bounded k _ (hi.core.server.bounded k row h)
    · obtain ⟨c, hc, heq⟩ := List.mem_map.mp h
      cases heq
      have htime : (c.2.row iv).updatedAt = c.2.time := Change.Shown.updatedAt ⟨iv, rfl⟩
      refine .inl ?_
      rw [htime]
      exact (hothers c.1).2 c.2 hc
  · obtain ⟨row, hrow, hshown⟩ := hi.core.server.shown k c (hstand hs) hu
    refine ⟨row, upsertSyncRecords_lookup_of_older hrow fun older holder => ?_, hshown⟩
    obtain ⟨e, he, heq⟩ := List.mem_map.mp holder
    cases heq
    have htime : (e.2.row iv).updatedAt = e.2.time := Change.Shown.updatedAt ⟨iv, rfl⟩
    have hle := WithBot.coe_le_coe.mp (((hothers e.1).2 e.2 he).trans hs.2)
    have hne := hok e he c hs.1 hu
    rw [htime, hshown.updatedAt]
    omega

end Serving

section Running

variable [DecidableEq α] {s : Device α}

theorem PullInv.quiet (hi : PullInv s) {d : Desktop α} (hr : d.records = s.desktop.records)
    (hu : d.unpushed = s.desktop.unpushed) (ho : d.outbox = s.desktop.outbox)
    (hdue : ∀ k, Due s.desktop k → Due d k)
    (htask : d.pushTask = true → .pushDirty ∈ d.queue ∨ Pushing d.phase)
    (hphase : PhaseHolds s d.phase) : PullInv { s with desktop := d } where
  core := hi.core.same hr hu (ho ▸ hi.core.outbox) fun k deletedAt hs hk =>
    ho ▸ hi.core.deletion k deletedAt hs hk
  due k c hs hk := hdue k (hi.due k c hs (by rwa [← hu]))
  task := htask
  phase := (later_of_same hu).phaseHolds hphase

theorem PullInv.counted {server : Remote α} {d : Desktop α}
    (h : PullInv { s with server := server, desktop := d })
    (hr : d.records = s.desktop.records) :
    PullInv { s with server := server, desktop := d, others := newcomers s d [] } := by
  rw [newcomers_of_same hr]
  exact h

theorem PullInv.waiting (hi : PullInv s) (hphase : ¬ Pushing s.desktop.phase)
    (happlied : ∀ etag, s.desktop.phase ≠ .applied etag true) {k : Key} {c : Change α}
    (hs : Standing s k c) (hu : s.desktop.unpushed k = true) :
    .pushDirty ∈ s.desktop.queue ∨ s.desktop.pushTimer = true := by
  rcases hi.due k c hs hu with hq | htimer | hfl
  · exact .inl hq
  · exact .inr htimer
  · rcases hfl.pushing with hp | ⟨etag, he⟩
    · exact absurd hp hphase
    · exact absurd he (happlied etag)

theorem PullInv.fetch (hi : PullInv s) (refetch : Bool) (hphase : ¬ Pushing s.desktop.phase)
    (happlied : ∀ etag, s.desktop.phase ≠ .applied etag true) :
    PullInv { s with desktop := fetchRemoteSnapshot refetch s.desktop } where
  core := hi.core.same rfl rfl hi.core.outbox hi.core.deletion
  due _ _ hs hu := (hi.waiting hphase happlied hs hu).imp_right .inl
  task ht := .inl ((hi.task ht).resolve_right hphase)
  phase := trivial

omit [DecidableEq α] in
theorem Core.clear (hc : Core s) {d : Desktop α} {cleared : Table Key Int}
    (hr : d.records = s.desktop.records) (hu : d.unpushed = s.desktop.unpushed)
    (ho : d.outbox = clearMany s.desktop.outbox cleared)
    (hne : ∀ k deletedAt, Standing s k (.delete deletedAt) → s.desktop.unpushed k = true →
      cleared.lookup k ≠ some deletedAt) : Core { s with desktop := d } := by
  refine hc.same hr hu (fun k deletedAt hk => ?_) fun k deletedAt hs hk => ?_
  · rw [ho, clearMany_lookup] at hk
    split at hk
    · cases hk
    · exact hc.outbox k deletedAt hk
  · have hout := hc.deletion k deletedAt hs hk
    rw [ho, clearMany_lookup, if_neg]
    · exact hout
    · rw [hout]
      exact hne k deletedAt hs hk

theorem PullInv.finish (hi : PullInv s) {changed : Bool} {d : Desktop α}
    (hr : d.records = s.desktop.records) (hu : d.unpushed = s.desktop.unpushed)
    (hq : d.queue = s.desktop.queue) (ht : d.pushTask = s.desktop.pushTask)
    (htimer : d.pushTimer = s.desktop.pushTimer) (hphase : ¬ Pushing s.desktop.phase)
    (hchanged : ∀ etag, s.desktop.phase = .applied etag true → changed = true)
    (hok : ∀ k deletedAt, Standing s k (.delete deletedAt) → s.desktop.unpushed k = false) :
    PullInv { s with desktop := finishBootstrap changed d } where
  core := by
    refine hi.core.same hr hu (fun k deletedAt hk => ?_) fun k deletedAt hs hk => ?_
    · cases hk
    · rw [hok k deletedAt hs] at hk
      cases hk
  due k c hs hk := by
    change d.unpushed k = true at hk
    rw [hu] at hk
    rcases hi.due k c hs hk with h | h | hfl
    · exact .inl (hq ▸ h)
    · exact .inr (.inl (by simp [finishBootstrap, htimer, h]))
    · rcases hfl.pushing with hp | ⟨etag, he⟩
      · exact absurd hp hphase
      · exact .inr (.inl (by simp [finishBootstrap, hchanged etag he]))
  task h := .inl (hq ▸ (hi.task (ht ▸ h)).resolve_right hphase)
  phase := trivial

theorem PullInv.endRound (hi : PullInv s) {choice : Choice α} (hg : GroupsAreNew s choice)
    {snapshot : Snapshot α} (hphase : s.desktop.phase = .pushed .pushDirty snapshot) :
    PullInv { s with
      desktop := endPushRound choice snapshot s.desktop
      others := newcomers s (endPushRound choice snapshot s.desktop) [] } := by
  have hp := hi.phase
  rw [hphase] at hp
  unfold endPushRound
  simp only
  split
  · exact PullInv.build (s := { s with desktop := { s.desktop with
        outbox := clearMany s.desktop.outbox snapshot.deletions
        queuedPush := false
        pendingPush := true } })
      (hi.core.clear rfl rfl rfl hp.2) hg .pushDirty nofun (fun _ _ _ _ => .inr (.inr rfl))
      (fun _ => .inr rfl)
  · rename_i hflag
    refine PullInv.counted ?_ rfl
    refine ⟨hi.core.clear rfl rfl rfl hp.2, fun k c hs hu => ?_, fun _ => .inr trivial, trivial⟩
    rcases hi.due k c hs hu with hq | htimer | hfl
    · exact .inl hq
    · exact .inr (.inl htimer)
    · rw [hphase] at hfl
      have : s.desktop.queuedPush = true := hfl
      simp [this] at hflag

omit [DecidableEq α] in
theorem resume_of_applies {d : Desktop α} {remote : Remote α} (h : applies d = some remote)
    (systemTheme : α) (choice : Choice α) :
    resume systemTheme choice d = some (applyRemoteSnapshot systemTheme choice remote d) := by
  unfold applies at h
  split at h
  · rename_i hphase
    split at h
    · cases h
    · rename_i hne
      cases h
      simp only [resume, hphase, afterFetch]
      rw [if_neg hne]
  · rename_i hphase
    split at h
    · rename_i hempty
      cases h
      simp [resume, hphase, afterBuild, hempty]
    · cases h
  · cases h

theorem PullInv.holds_of_applies (hi : PullInv s) {remote : Remote α}
    (h : applies s.desktop = some remote) : Holds s remote.rows := by
  have hp := hi.phase
  unfold applies at h
  split at h
  · rename_i hphase
    split at h
    · cases h
    · cases h
      rw [hphase] at hp
      exact hp
  · rename_i hphase
    split at h
    · cases h
      rw [hphase] at hp
      exact hp.2.2 _ rfl
    · cases h
  · cases h

omit [DecidableEq α] in
theorem storePushRevision_eq (revision : Nat) (d : Desktop α) :
    storePushRevision revision d =
      { d with lastSyncRevision := (storePushRevision revision d).lastSyncRevision } := by
  unfold storePushRevision
  split
  · rfl
  · split
    · rfl
    · rfl

theorem PullInv.goOn (hi : PullInv s) {d : Desktop α} {phase : Phase α} {revision : Option Nat}
    (hd : d = { s.desktop with phase := phase, lastSyncRevision := revision })
    (hfl : ∀ k, InFlight s.desktop k s.desktop.phase → InFlight s.desktop k phase)
    (hpush : Pushing s.desktop.phase → Pushing phase) (hp : PhaseHolds s phase) :
    PullInv { s with desktop := d, others := newcomers s d [] } := by
  subst hd
  refine PullInv.counted ?_ rfl
  refine hi.quiet rfl rfl rfl (fun k hd => ?_) (fun ht => (hi.task ht).imp_right hpush) hp
  exact hd.imp_right (Or.imp_right (hfl k))

theorem PullInv.posting (hi : PullInv s) {purpose : Purpose} {snapshot : Snapshot α}
    (hphase : s.desktop.phase = .built purpose snapshot) :
    PullInv { s with
      desktop := { s.desktop with phase := .posting purpose snapshot }
      others := newcomers s { s.desktop with phase := .posting purpose snapshot } [] } := by
  have hp := hi.phase
  rw [hphase] at hp
  refine hi.goOn rfl (fun k hfl => ?_) (fun hpush => ?_) ⟨hp.1, hp.2.1⟩
  · rw [hphase] at hfl
    cases purpose <;> exact hfl
  · rw [hphase] at hpush
    cases purpose <;> exact hpush

theorem PullInv.pushed (hi : PullInv s) {purpose : Purpose} {snapshot : Snapshot α} {revision : Nat}
    (hphase : s.desktop.phase = .posted purpose snapshot revision) {d : Desktop α}
    (hd : d = { storePushRevision revision s.desktop with phase := .pushed purpose snapshot }) :
    PullInv { s with desktop := d, others := newcomers s d [] } := by
  have hp := hi.phase
  rw [hphase] at hp
  rw [storePushRevision_eq] at hd
  refine hi.goOn hd (fun k hfl => ?_) (fun hpush => ?_) hp
  · rw [hphase] at hfl
    cases purpose <;> exact hfl
  · rw [hphase] at hpush
    cases purpose <;> exact hpush

theorem PullInv.loaded (hi : PullInv s) (iv : Key → Nat) {purpose : Purpose}
    {records : Table Key (Wire α)} {refs : List Key}
    (hphase : s.desktop.phase = .loading purpose records refs) :
    PullInv { s with
      desktop := { s.desktop with phase := loadSecrets iv s.desktop purpose records refs } } := by
  have hp := hi.phase
  rw [hphase] at hp
  refine PullInv.load hi.core iv purpose hp.1 hp.2 (fun k c hs hu => ?_) (fun ht => ?_)
  · refine (hi.due k c hs hu).imp_right (Or.imp_right fun hfl => ?_)
    rw [hphase] at hfl
    cases purpose with
    | pushDirty => exact ⟨rfl, hfl⟩
    | _ => cases hfl
  · refine (hi.task ht).imp_right fun hpush => ?_
    rw [hphase] at hpush
    cases purpose with
    | pushDirty => rfl
    | _ => cases hpush

theorem PullInv.afterBuild (hi : PullInv s) {systemTheme : α} {choice : Choice α}
    {purpose : Purpose} {snapshot : Snapshot α}
    (hphase : s.desktop.phase = .built purpose snapshot) (hnone : applies s.desktop = none)
    {d : Desktop α} (hd : d = DesktopSync.afterBuild systemTheme choice snapshot s.desktop purpose) :
    PullInv { s with desktop := d, others := newcomers s d [] } := by
  subst hd
  cases purpose with
  | bootstrap =>
      simp only [DesktopSync.afterBuild]
      split
      · refine PullInv.counted ?_ rfl
        exact hi.fetch false (by simp [hphase, Pushing]) (by simp [hphase])
      · exact hi.posting hphase
  | recover etag =>
      have hne : snapshot.payload.isEmpty = false := by
        simpa [applies, hphase] using hnone
      simp only [DesktopSync.afterBuild, hne]
      exact hi.posting hphase
  | pushDirty => exact hi.posting hphase

theorem PullInv.afterFetch (hi : PullInv s) {systemTheme : α} {choice : Choice α}
    (hg : GroupsAreNew s choice) {refetch : Bool} {reply : Option (Remote α)}
    (hphase : s.desktop.phase = .got refetch reply) (hnone : applies s.desktop = none)
    (hclears : clearsOutbox s.desktop → ∀ k deletedAt, Standing s k (.delete deletedAt) →
      s.desktop.unpushed k = false) {d : Desktop α}
    (hd : d = DesktopSync.afterFetch systemTheme choice refetch s.desktop reply) :
    PullInv { s with desktop := d, others := newcomers s d [] } := by
  have hp := hi.phase
  rw [hphase] at hp
  have hpush : ¬ Pushing s.desktop.phase := by simp [hphase, Pushing]
  have happ (etag : Nat) : s.desktop.phase ≠ .applied etag true := by simp [hphase]
  subst hd
  cases reply with
  | none =>
      simp only [DesktopSync.afterFetch]
      refine PullInv.counted ?_ rfl
      refine hi.finish rfl rfl rfl rfl rfl hpush (fun etag he => absurd he (happ etag)) ?_
      exact hclears (by simp [clearsOutbox, hphase])
  | some remote =>
      have hempty : (!refetch && remote.rows.entries.isEmpty) = true := by
        by_contra he
        simp [applies, hphase, he] at hnone
      have hrows : remote.rows.entries = [] := by
        have := (Bool.and_eq_true _ _ ▸ hempty).2
        simpa using this
      simp only [DesktopSync.afterFetch, hempty, if_true]
      refine PullInv.build hi.core hg (.recover remote.revision) (fun etag _ => ?_)
        (fun k c hs hu => (hi.waiting hpush happ hs hu).imp_right .inl)
        (fun ht => .inl ((hi.task ht).resolve_right hpush))
      refine ⟨nofun, fun k c hs hu => ?_⟩
      obtain ⟨row, hrow, -⟩ := hp.shown k c hs hu
      rw [Table.entries_eq_nil.mp hrows k] at hrow
      cases hrow

theorem PullInv.settle (hi : PullInv s) {op : Op} (hphase : s.desktop.phase = .settling op) :
    PullInv { s with desktop := DesktopSync.settle s.desktop op } := by
  have hdue (k : Key) (hd : Due s.desktop k) :
      .pushDirty ∈ s.desktop.queue ∨ s.desktop.pushTimer = true := by
    rcases hd with hq | htimer | hfl
    · exact .inl hq
    · exact .inr htimer
    · rw [hphase] at hfl
      cases hfl
  cases op with
  | bootstrap =>
      refine hi.quiet rfl rfl rfl (fun k hd => (hdue k hd).imp_right .inl) (fun ht => ?_) trivial
      refine .inl ((hi.task ht).resolve_right ?_)
      simp [hphase, Pushing]
  | pushDirty =>
      exact hi.quiet rfl rfl rfl (fun k hd => (hdue k hd).imp_right .inl) nofun trivial

theorem PullInv.resume (hi : PullInv s) {systemTheme : α} {choice : Choice α}
    (hg : GroupsAreNew s choice) (hnone : applies s.desktop = none)
    (hclears : clearsOutbox s.desktop → ∀ k deletedAt, Standing s k (.delete deletedAt) →
      s.desktop.unpushed k = false) {d : Desktop α}
    (h : resume systemTheme choice s.desktop = some d) :
    PullInv { s with desktop := d, others := newcomers s d [] } := by
  cases hphase : s.desktop.phase with
  | idle => simp [DesktopSync.resume, hphase] at h
  | posting purpose snapshot => simp [DesktopSync.resume, hphase] at h
  | getting refetch ifNoneMatch => simp [DesktopSync.resume, hphase] at h
  | info hadPending =>
      simp only [DesktopSync.resume, hphase, Option.some.injEq] at h
      subst h
      have hpush : ¬ Pushing s.desktop.phase := by simp [hphase, Pushing]
      have happ (etag : Nat) : s.desktop.phase ≠ .applied etag true := by simp [hphase]
      split
      · exact PullInv.build hi.core hg .bootstrap nofun
          (fun k c hs hu => (hi.waiting hpush happ hs hu).imp_right .inl)
          (fun ht => .inl ((hi.task ht).resolve_right hpush))
      · refine PullInv.counted ?_ rfl
        exact hi.fetch false hpush happ
  | loading purpose records refs =>
      simp only [DesktopSync.resume, hphase, Option.some.injEq] at h
      subst h
      refine PullInv.counted ?_ rfl
      exact hi.loaded choice.iv hphase
  | built purpose snapshot =>
      simp only [DesktopSync.resume, hphase, Option.some.injEq] at h
      exact hi.afterBuild hphase hnone h.symm
  | posted purpose snapshot revision =>
      simp only [DesktopSync.resume, hphase, Option.some.injEq] at h
      exact hi.pushed hphase h.symm
  | pushed purpose snapshot =>
      simp only [DesktopSync.resume, hphase, Option.some.injEq] at h
      subst h
      cases purpose with
      | bootstrap =>
          refine PullInv.counted ?_ rfl
          exact hi.fetch false (by simp [hphase, Pushing]) (by simp [hphase])
      | recover etag =>
          refine PullInv.counted ?_ rfl
          exact hi.fetch true (by simp [hphase, Pushing]) (by simp [hphase])
      | pushDirty => exact hi.endRound hg hphase
  | got refetch reply =>
      simp only [DesktopSync.resume, hphase, Option.some.injEq] at h
      exact hi.afterFetch hg hphase hnone hclears h.symm
  | applied etag changed =>
      simp only [DesktopSync.resume, hphase, Option.some.injEq] at h
      subst h
      refine PullInv.counted ?_ rfl
      refine hi.finish rfl rfl rfl rfl rfl (by simp [hphase, Pushing]) (fun etag' he => ?_)
        (hclears (by simp [clearsOutbox, hphase]))
      rw [hphase] at he
      cases he
      rfl
  | settling op =>
      simp only [DesktopSync.resume, hphase, Option.some.injEq] at h
      subst h
      cases op with
      | bootstrap => exact PullInv.counted (hi.settle hphase) rfl
      | pushDirty => exact PullInv.counted (hi.settle hphase) rfl

theorem PullInv.start (hi : PullInv s) {choice : Choice α} (hg : GroupsAreNew s choice)
    {d : Desktop α} (h : start choice s.desktop = some d) :
    PullInv { s with desktop := d, others := newcomers s d [] } := by
  unfold DesktopSync.start at h
  split at h
  · rename_i rest hphase hqueue
    cases h
    have hpush : ¬ Pushing s.desktop.phase := by simp [hphase, Pushing]
    refine PullInv.counted ⟨hi.core.same rfl rfl hi.core.outbox hi.core.deletion,
      fun k c hs hu => ?_, fun ht => ?_, trivial⟩ rfl
    · rcases hi.waiting hpush (by simp [hphase]) hs hu with hq | htimer
      · exact .inl (by simpa [hqueue] using hq)
      · exact .inr (.inl htimer)
    · exact .inl (by simpa [hqueue] using (hi.task ht).resolve_right hpush)
  · rename_i rest hphase hqueue
    cases h
    exact PullInv.build (s := { s with desktop := { s.desktop with
        queue := rest
        queuedPush := false
        pendingPush := true } })
      (hi.core.same rfl rfl hi.core.outbox hi.core.deletion) hg .pushDirty nofun
      (fun _ _ _ _ => .inr (.inr rfl)) (fun _ => .inr rfl)
  · cases h

theorem PullInv.serve (hi : PullInv s) {server : Remote α} {d : Desktop α}
    (h : serve s.server s.desktop = some (server, d)) :
    PullInv { s with server := server, desktop := d, others := newcomers s d [] } := by
  unfold DesktopSync.serve at h
  split at h
  · rename_i hphase
    cases h
    exact (hi.post hphase).counted rfl
  · rename_i hphase
    cases h
    exact (hi.get hphase).counted rfl
  · cases h

theorem PullInv.ownStep (hi : PullInv s) {systemTheme : α} {e : Event α} {t : Device α}
    (hok : Undisturbed s (.own e)) (h : ownStep systemTheme s e = some t) : PullInv t := by
  cases e with
  | edit k record =>
      simp only [DesktopSync.ownStep] at h
      split at h
      · rename_i hlt
        cases h
        refine hi.edit (c := .save record) hlt hok ?_ rfl rfl rfl rfl
        refine hi.core.edit (c := .save record) hlt (fun j => ?_) (pushDirty_unpushed _)
          (fun j _ => by simp [upsertRecord]) (.inr ⟨⟨record, rfl⟩, by simp [upsertRecord]⟩)
        by_cases hj : j = k
        · subst hj
          simp [upsertRecord, Change.record]
        · simp [(upsertRecord_lookup s.desktop record hj).1, hj]
      · cases h
  | remove k deletedAt =>
      simp only [DesktopSync.ownStep, step] at h
      split at h
      · rename_i hlt
        split at h
        · cases h
        · rename_i hkind
          cases h
          refine hi.edit (c := .delete deletedAt) hlt hok ?_ rfl rfl rfl rfl
          refine hi.core.edit (c := .delete deletedAt) hlt (fun j => ?_) (pushDirty_unpushed _)
            (fun j hj => ?_) (.inl ⟨deletedAt, rfl, by simp [upsertDeletion], ?_⟩)
          · by_cases hj : j = k
            · subst hj
              simp [upsertDeletion, Change.record]
            · simp [(upsertDeletion_lookup s.desktop deletedAt hj).1, hj]
          · simp [(upsertDeletion_lookup s.desktop deletedAt hj).2.1]
          · rintro rfl
            exact hkind rfl
      · cases h
  | bootstrap =>
      cases h
      refine PullInv.counted (s := s) ?_ (by unfold DesktopSync.bootstrap; split <;> rfl)
      unfold DesktopSync.bootstrap
      split
      · exact hi
      · refine hi.quiet rfl rfl rfl (fun k hd => ?_) (fun ht => ?_) hi.phase
        · exact hd.imp_left fun hq => by simp [hq]
        · exact (hi.task ht).imp_left fun hq => by simp [hq]
  | retry =>
      simp only [DesktopSync.ownStep, rewrites, List.not_mem_nil, false_implies, implies_true, if_true,
        step] at h
      split at h
      · cases h
        refine PullInv.counted (s := s) ?_ (pushDirty_records _)
        refine hi.quiet (pushDirty_records _) (pushDirty_unpushed _) (pushDirty_outbox _)
          (fun k _ => due_pushDirty hi.task hok k) (fun _ => task_pushDirty hi.task) ?_
        rw [pushDirty_phase]
        exact hi.phase
      · cases h
  | start choice =>
      simp only [DesktopSync.ownStep, rewrites, List.not_mem_nil, false_implies, implies_true, if_true,
        step] at h
      obtain ⟨next, hnext, rfl⟩ := Option.map_eq_some_iff.mp h
      obtain ⟨d, hd, rfl⟩ := Option.map_eq_some_iff.mp hnext
      exact hi.start hok hd
  | resume choice =>
      simp only [DesktopSync.ownStep] at h
      split at h
      · rename_i hfresh
        obtain ⟨next, hnext, rfl⟩ := Option.map_eq_some_iff.mp h
        obtain ⟨d, hd, rfl⟩ := Option.map_eq_some_iff.mp hnext
        cases happ : applies s.desktop with
        | none =>
            simp only [rewrites, happ]
            exact hi.resume hok.1 happ hok.2.2 hd
        | some remote =>
            simp only [rewrites, happ] at hfresh ⊢
            rw [resume_of_applies happ] at hd
            cases hd
            refine hi.pull (hi.holds_of_applies happ) happ systemTheme choice hfresh (hok.2.1 ?_)
            rw [happ]
            exact Option.some_ne_none _
      · cases h
  | serve =>
      simp only [DesktopSync.ownStep, rewrites, List.not_mem_nil, false_implies, implies_true, if_true,
        step] at h
      obtain ⟨⟨server, d⟩, hd, rfl⟩ := Option.map_eq_some_iff.mp h
      exact hi.serve hd
  | fail => cases h

theorem deviceStep_inv {systemTheme : α} (s : Device α) (e : DeviceEvent α) (t : Device α)
    (hi : PullInv s) (hok : Undisturbed s e) (h : deviceStep systemTheme s e = some t) :
    PullInv t := by
  cases e with
  | own e => exact hi.ownStep hok h
  | foreign iv changes =>
      cases h
      exact hi.foreignPush iv hok

def newestOf (server : Remote α) (d : Desktop α) (k : Key) : WithBot Int :=
  max (max ((server.rows.lookup k).elim ⊥ fun row => row.updatedAt)
    ((d.records.lookup k).elim ⊥ fun record => record.updatedAt))
    ((d.outbox.lookup k).elim ⊥ fun deletedAt => deletedAt)

def begin (server : Remote α) (d : Desktop α) (clock : Int) : Device α :=
  ⟨server, d, fun _ => none, newestOf server d, clock⟩

structure AtRest (d : Desktop α) (clock : Int) : Prop where
  idle : d.phase = .idle
  queue : d.queue = []
  pushTask : d.pushTask = false
  outbox : ∀ k deletedAt, d.outbox.lookup k = some deletedAt → deletedAt ≤ clock

theorem PullInv.begin {server : Remote α} {d : Desktop α} {clock : Int} (h : AtRest d clock) :
    PullInv (begin server d clock) where
  core := by
    refine ⟨nofun, fun k record hk => .inl ?_, fun k deletedAt hk => ⟨h.outbox k deletedAt hk,
      .inl ?_, nofun⟩, nofun, ⟨fun k row hrow => .inl ?_, nofun⟩, nofun, nofun⟩
    · change d.records.lookup k = some record at hk
      simp [DesktopSync.begin, newestOf, hk]
    · change d.outbox.lookup k = some deletedAt at hk
      simp [DesktopSync.begin, newestOf, hk]
    · change server.rows.lookup k = some row at hrow
      simp [DesktopSync.begin, newestOf, hrow]
  due := nofun
  task ht := by
    change d.pushTask = true at ht
    rw [h.pushTask] at ht
    cases ht
  phase := by
    show PhaseHolds _ d.phase
    rw [h.idle]
    trivial

theorem no_local_change_lost (systemTheme : α) (server : Remote α) {d : Desktop α} {clock : Int}
    (hrest : AtRest d clock) (es : List (DeviceEvent α)) {t : Device α}
    (hok : Admissible Undisturbed (deviceStep systemTheme) (begin server d clock) es)
    (hr : run (deviceStep systemTheme) (begin server d clock) es = some t)
    (hq : Quiescent t.desktop) {k : Key} {c : Change α} (hmade : t.made k = some c)
    (hnewest : t.others k ≤ c.time) :
    t.desktop.records.lookup k = c.record ∧
      ∃ row, t.server.rows.lookup k = some row ∧ c.Shown row := by
  have hi := run_invariant_of_admissible deviceStep_inv (PullInv.begin hrest) hok hr
  have hs : Standing t k c := ⟨hmade, hnewest⟩
  refine ⟨hi.core.store k c hs, hi.core.server.shown k c hs ?_⟩
  cases hu : t.desktop.unpushed k with
  | false => rfl
  | true =>
      obtain ⟨hidle, hqueue, htimer⟩ := hq
      rcases hi.due k c hs hu with h | h | h
      · simp [hqueue] at h
      · simp [htimer] at h
      · rw [hidle] at h
        cases h

end Running

theorem atRest_freshDesktop : AtRest freshDesktop 0 := ⟨rfl, rfl, rfl, nofun⟩

def ownRun (es : List (Event String)) : List (DeviceEvent String) := es.map .own

/-- Everything is pulled; then the theme is changed and pushed while a phone pushes a host. -/
def pullThenChange : List (DeviceEvent String) :=
  ownRun [.bootstrap, .start (sampleChoice 1), .resume (sampleChoice 1), .serve,
    .resume (sampleChoice 1), .resume (sampleChoice 1), .resume (sampleChoice 1),
    .edit preferencesKey ⟨"light", 5⟩, .start (sampleChoice 1)] ++
  [.foreign 2 [((.hosts, "h1"), .save ⟨"phone", 7⟩)]] ++
  ownRun [.resume (sampleChoice 1), .serve, .resume (sampleChoice 1), .resume (sampleChoice 1),
    .resume (sampleChoice 1)]

theorem no_local_change_lost_pullThenChange :
    AtRest freshDesktop 0 ∧
      Admissible Undisturbed (deviceStep "system") (begin syncedServer freshDesktop 0)
        pullThenChange ∧
      ∃ t, run (deviceStep "system") (begin syncedServer freshDesktop 0) pullThenChange = some t ∧
        t.desktop.records.lookup preferencesKey = some ⟨"light", 5⟩ ∧
        ∃ row, t.server.rows.lookup preferencesKey = some row ∧
          (Change.save (⟨"light", 5⟩ : Stored String)).Shown row := by
  have hok : Admissible Undisturbed (deviceStep "system") (begin syncedServer freshDesktop 0)
      pullThenChange := by
    refine ⟨trivial, fun _ h => ?_⟩
    cases h
    refine ⟨nofun, fun _ h => ?_⟩
    cases h
    refine ⟨⟨nofun, fun h => absurd rfl h, nofun⟩, fun _ h => ?_⟩
    cases h
    refine ⟨trivial, fun _ h => ?_⟩
    cases h
    refine ⟨⟨nofun, fun _ k c hs => ?_, nofun⟩, fun _ h => ?_⟩
    · cases hs.1
    cases h
    refine ⟨⟨nofun, fun h => absurd rfl h, fun _ k deletedAt hs => ?_⟩, fun _ h => ?_⟩
    · cases hs.1
    cases h
    refine ⟨⟨nofun, fun h => absurd rfl h, nofun⟩, fun _ h => ?_⟩
    cases h
    refine ⟨nofun, fun _ h => ?_⟩
    cases h
    refine ⟨nofun, fun _ h => ?_⟩
    cases h
    refine ⟨List.forall_mem_singleton.mpr nofun, fun _ h => ?_⟩
    cases h
    refine ⟨⟨nofun, fun h => absurd rfl h, nofun⟩, fun _ h => ?_⟩
    cases h
    refine ⟨trivial, fun _ h => ?_⟩
    cases h
    iterate 3
      refine ⟨⟨nofun, fun h => absurd rfl h, nofun⟩, fun _ h => ?_⟩
      cases h
    trivial
  have hkept := no_local_change_lost "system" syncedServer atRest_freshDesktop pullThenChange hok rfl
    ⟨rfl, rfl, rfl⟩ (k := preferencesKey) (c := .save ⟨"light", 5⟩) rfl (by decide)
  exact ⟨atRest_freshDesktop, hok, _, rfl, hkept⟩

/-- The theme is changed while a poll waits for `/api/info`. -/
def changeDuringPull : List (DeviceEvent String) :=
  ownRun [.bootstrap, .start (sampleChoice 1), .edit preferencesKey ⟨"light", 5⟩,
    .resume (sampleChoice 1), .serve, .resume (sampleChoice 1), .resume (sampleChoice 1),
    .resume (sampleChoice 1), .start (sampleChoice 2), .resume (sampleChoice 2), .serve,
    .resume (sampleChoice 2), .resume (sampleChoice 2), .resume (sampleChoice 2)]

theorem change_lost_during_pull : AtRest freshDesktop 0 ∧
    ∃ t, run (deviceStep "system") (begin syncedServer freshDesktop 0) changeDuringPull = some t ∧
      Quiescent t.desktop ∧ t.made preferencesKey = some (.save ⟨"light", 5⟩) ∧
      t.others preferencesKey ≤ (5 : Int) ∧
      t.desktop.records.lookup preferencesKey = some ⟨"system", 0⟩ ∧
      (t.server.rows.lookup preferencesKey).bind decodeLive = some ⟨"system", 0⟩ :=
  ⟨atRest_freshDesktop, _, rfl, ⟨rfl, rfl, rfl⟩, rfl, by decide, rfl, rfl⟩

end Dolgate.DesktopSync
