import Mathlib

set_option autoImplicit false

/-! The tree of the panes of a workspace. `ι` are the identifiers of its nodes, `σ` those of the
sessions, and `ρ` the numbers. -/

namespace Dolgate.WorkspaceLayouts

inductive WorkspaceDropDirection where
  | left
  | right
  | top
  | bottom
  deriving DecidableEq, Repr

inductive Axis where
  | horizontal
  | vertical
  deriving DecidableEq, Repr

inductive WorkspaceLayoutNode (ι σ ρ : Type) where
  | leaf (id : ι) (sessionId : σ) (cols rows : Option ρ)
  | split (id : ι) (axis : Axis) (ratio : ρ) (first second : WorkspaceLayoutNode ι σ ρ)
  deriving DecidableEq, Repr

variable {ι σ ρ : Type}

def createWorkspaceLeaf (newId : ι) (sessionId : σ) : WorkspaceLayoutNode ι σ ρ :=
  .leaf newId sessionId none none

def directionAxis (direction : WorkspaceDropDirection) : Axis :=
  if direction = .left ∨ direction = .right then .horizontal else .vertical

structure NewIds (ι : Type) where
  existing : ι
  incoming : ι
  split : ι

def prependIncoming (direction : WorkspaceDropDirection) : Bool :=
  direction = .left || direction = .top

def createWorkspaceSplit (newIds : NewIds ι) (half : ρ) (existingSessionId incomingSessionId : σ)
    (direction : WorkspaceDropDirection) : WorkspaceLayoutNode ι σ ρ :=
  let existingLeaf := createWorkspaceLeaf newIds.existing existingSessionId
  let incomingLeaf := createWorkspaceLeaf newIds.incoming incomingSessionId
  .split newIds.split (directionAxis direction) half
    (if prependIncoming direction then incomingLeaf else existingLeaf)
    (if prependIncoming direction then existingLeaf else incomingLeaf)

def listWorkspaceSessionIds : WorkspaceLayoutNode ι σ ρ → List σ
  | .leaf _ sessionId _ _ => [sessionId]
  | .split _ _ _ first second => listWorkspaceSessionIds first ++ listWorkspaceSessionIds second

variable [DecidableEq σ]

def insertSessionIntoWorkspaceLayout (newIds : NewIds ι) (half : ρ)
    (targetSessionId incomingSessionId : σ) (direction : WorkspaceDropDirection) :
    WorkspaceLayoutNode ι σ ρ → WorkspaceLayoutNode ι σ ρ × Bool
  | .leaf id sessionId cols rows =>
    if sessionId ≠ targetSessionId then (.leaf id sessionId cols rows, false)
    else (createWorkspaceSplit newIds half targetSessionId incomingSessionId direction, true)
  | .split id axis ratio first second =>
    let nextFirst := insertSessionIntoWorkspaceLayout newIds half targetSessionId incomingSessionId
      direction first
    if nextFirst.2 then (.split id axis ratio nextFirst.1 second, true)
    else
      let nextSecond := insertSessionIntoWorkspaceLayout newIds half targetSessionId
        incomingSessionId direction second
      if nextSecond.2 then (.split id axis ratio first nextSecond.1, true)
      else (.split id axis ratio first second, false)

def removeSessionFromWorkspaceLayout (sessionId : σ) :
    WorkspaceLayoutNode ι σ ρ → Option (WorkspaceLayoutNode ι σ ρ)
  | .leaf id session cols rows =>
    if session = sessionId then none else some (.leaf id session cols rows)
  | .split id axis ratio first second =>
    match removeSessionFromWorkspaceLayout sessionId first,
      removeSessionFromWorkspaceLayout sessionId second with
    | none, none => none
    | none, some nextSecond => some nextSecond
    | some nextFirst, none => some nextFirst
    | some nextFirst, some nextSecond => some (.split id axis ratio nextFirst nextSecond)

def moveSessionWithinWorkspaceLayout (newIds : NewIds ι) (half : ρ) (node : WorkspaceLayoutNode ι σ ρ)
    (sessionId targetSessionId : σ) (direction : WorkspaceDropDirection) :
    WorkspaceLayoutNode ι σ ρ × Bool :=
  if sessionId = targetSessionId then (node, false)
  else
    let sessionIds := listWorkspaceSessionIds node
    if sessionId ∉ sessionIds ∨ targetSessionId ∉ sessionIds then (node, false)
    else
      match removeSessionFromWorkspaceLayout sessionId node with
      | none => (node, false)
      | some reducedLayout =>
        let nextLayout := insertSessionIntoWorkspaceLayout newIds half targetSessionId sessionId
          direction reducedLayout
        if nextLayout.2 then (nextLayout.1, true) else (node, false)

/-! ### The sessions of a layout -/

def pair (direction : WorkspaceDropDirection) (target incoming : σ) : List σ :=
  if prependIncoming direction then [incoming, target] else [target, incoming]

variable {newIds : NewIds ι} {half : ρ} {target incoming sessionId : σ}
  {direction : WorkspaceDropDirection} {node layout : WorkspaceLayoutNode ι σ ρ}

omit [DecidableEq σ] in
theorem sessions_createWorkspaceSplit :
    listWorkspaceSessionIds (createWorkspaceSplit newIds half target incoming direction) =
      pair direction target incoming := by
  unfold createWorkspaceSplit pair
  dsimp only
  split
  · rfl
  · rfl

theorem insert_of_not_mem (h : target ∉ listWorkspaceSessionIds node) :
    insertSessionIntoWorkspaceLayout newIds half target incoming direction node = (node, false) := by
  induction node with
  | leaf id session cols rows =>
    exact if_pos fun heq => h (List.mem_singleton.mpr heq.symm)
  | split id axis ratio first second ihFirst ihSecond =>
    rw [listWorkspaceSessionIds, List.mem_append, not_or] at h
    rw [insertSessionIntoWorkspaceLayout, ihFirst h.1, ihSecond h.2]
    rfl

theorem insert_of_mem (h : target ∈ listWorkspaceSessionIds node) :
    ∃ layout before after, insertSessionIntoWorkspaceLayout newIds half target incoming direction node =
        (layout, true) ∧ target ∉ before ∧
      listWorkspaceSessionIds node = before ++ target :: after ∧
      listWorkspaceSessionIds layout = before ++ pair direction target incoming ++ after := by
  induction node with
  | leaf id session cols rows =>
    obtain rfl := List.mem_singleton.mp h
    refine ⟨_, [], [], if_neg (not_not.mpr rfl), List.not_mem_nil, rfl, ?_⟩
    rw [sessions_createWorkspaceSplit, List.nil_append, List.append_nil]
  | split id axis ratio first second ihFirst ihSecond =>
    rw [listWorkspaceSessionIds, List.mem_append] at h
    by_cases hfirst : target ∈ listWorkspaceSessionIds first
    · obtain ⟨layout, before, after, hinsert, hbefore, hsessions, hlayout⟩ := ihFirst hfirst
      refine ⟨.split id axis ratio layout second, before, after ++ listWorkspaceSessionIds second,
        ?_, hbefore, ?_, ?_⟩
      · rw [insertSessionIntoWorkspaceLayout, hinsert]
        rfl
      · rw [listWorkspaceSessionIds, hsessions, List.append_assoc, List.cons_append]
      · rw [listWorkspaceSessionIds, hlayout]
        simp only [List.append_assoc]
    · obtain ⟨layout, before, after, hinsert, hbefore, hsessions, hlayout⟩ :=
        ihSecond (h.resolve_left hfirst)
      refine ⟨.split id axis ratio first layout, listWorkspaceSessionIds first ++ before, after,
        ?_, ?_, ?_, ?_⟩
      · rw [insertSessionIntoWorkspaceLayout, insert_of_not_mem hfirst, hinsert]
        rfl
      · exact fun hmem => (List.mem_append.mp hmem).elim hfirst hbefore
      · rw [listWorkspaceSessionIds, hsessions, List.append_assoc]
      · rw [listWorkspaceSessionIds, hlayout]
        simp only [List.append_assoc]

omit [DecidableEq σ] in
theorem sessions_ne_nil (node : WorkspaceLayoutNode ι σ ρ) : listWorkspaceSessionIds node ≠ [] := by
  induction node with
  | leaf id session cols rows => exact List.cons_ne_nil _ _
  | split id axis ratio first second ihFirst _ =>
    exact fun h => ihFirst (List.append_eq_nil_iff.mp h).1

theorem sessions_remove (sessionId : σ) (node : WorkspaceLayoutNode ι σ ρ) :
    ((removeSessionFromWorkspaceLayout sessionId node).map listWorkspaceSessionIds).getD [] =
      (listWorkspaceSessionIds node).filter (· ≠ sessionId) := by
  induction node with
  | leaf id session cols rows =>
    rw [removeSessionFromWorkspaceLayout, listWorkspaceSessionIds]
    by_cases heq : session = sessionId
    · rw [if_pos heq, List.filter_cons_of_neg (by simpa using heq)]
      rfl
    · rw [if_neg heq, List.filter_cons_of_pos (by simpa using heq)]
      rfl
  | split id axis ratio first second ihFirst ihSecond =>
    rw [listWorkspaceSessionIds, List.filter_append, ← ihFirst, ← ihSecond,
      removeSessionFromWorkspaceLayout]
    cases removeSessionFromWorkspaceLayout sessionId first with
    | none =>
      cases removeSessionFromWorkspaceLayout sessionId second with
      | none => rfl
      | some second => rfl
    | some first =>
      cases removeSessionFromWorkspaceLayout sessionId second with
      | none => exact (List.append_nil _).symm
      | some second => rfl

theorem remove_eq_none_iff : removeSessionFromWorkspaceLayout sessionId node = none ↔
    (listWorkspaceSessionIds node).filter (· ≠ sessionId) = [] := by
  rw [← sessions_remove]
  cases removeSessionFromWorkspaceLayout sessionId node with
  | none => exact ⟨fun _ => rfl, fun _ => rfl⟩
  | some layout => exact ⟨fun h => (by cases h), fun h => absurd h (sessions_ne_nil layout)⟩

theorem sessions_of_remove (h : removeSessionFromWorkspaceLayout sessionId node = some layout) :
    listWorkspaceSessionIds layout = (listWorkspaceSessionIds node).filter (· ≠ sessionId) := by
  rw [← sessions_remove, h]
  rfl

theorem remove_of_not_mem (h : sessionId ∉ listWorkspaceSessionIds node) :
    removeSessionFromWorkspaceLayout sessionId node = some node := by
  induction node with
  | leaf id session cols rows =>
    exact if_neg fun heq => h (List.mem_singleton.mpr heq.symm)
  | split id axis ratio first second ihFirst ihSecond =>
    rw [listWorkspaceSessionIds, List.mem_append, not_or] at h
    rw [removeSessionFromWorkspaceLayout, ihFirst h.1, ihSecond h.2]

/-! ### Back again -/

def outline : WorkspaceLayoutNode ι σ ρ → WorkspaceLayoutNode Unit σ ρ
  | .leaf _ sessionId _ _ => .leaf () sessionId none none
  | .split _ axis ratio first second => .split () axis ratio (outline first) (outline second)

theorem remove_createWorkspaceSplit (h : incoming ≠ target) :
    removeSessionFromWorkspaceLayout incoming
        (createWorkspaceSplit newIds half target incoming direction) =
      some (createWorkspaceLeaf newIds.existing target) := by
  have hincoming : removeSessionFromWorkspaceLayout incoming
      (@createWorkspaceLeaf ι σ ρ newIds.incoming incoming) = none := if_pos rfl
  have hexisting : removeSessionFromWorkspaceLayout incoming
      (@createWorkspaceLeaf ι σ ρ newIds.existing target) =
        some (createWorkspaceLeaf newIds.existing target) := if_neg h.symm
  unfold createWorkspaceSplit
  dsimp only
  rw [removeSessionFromWorkspaceLayout]
  by_cases hprepend : prependIncoming direction = true
  · simp only [if_pos hprepend, hincoming, hexisting]
  · simp only [if_neg hprepend, hincoming, hexisting]

theorem remove_insert (htarget : target ∈ listWorkspaceSessionIds node)
    (hincoming : incoming ∉ listWorkspaceSessionIds node) :
    ∃ layout, removeSessionFromWorkspaceLayout incoming
        (insertSessionIntoWorkspaceLayout newIds half target incoming direction node).1 =
          some layout ∧ outline layout = outline node := by
  induction node with
  | leaf id session cols rows =>
    obtain rfl := List.mem_singleton.mp htarget
    rw [insertSessionIntoWorkspaceLayout, if_neg (not_not.mpr rfl)]
    exact ⟨_, remove_createWorkspaceSplit fun heq => hincoming (List.mem_singleton.mpr heq), rfl⟩
  | split id axis ratio first second ihFirst ihSecond =>
    rw [listWorkspaceSessionIds, List.mem_append] at htarget
    rw [listWorkspaceSessionIds, List.mem_append, not_or] at hincoming
    rw [insertSessionIntoWorkspaceLayout]
    by_cases hfirst : target ∈ listWorkspaceSessionIds first
    · obtain ⟨layout, hremove, houtline⟩ := ihFirst hfirst hincoming.1
      obtain ⟨next, _, _, hinsert, -⟩ := @insert_of_mem ι σ ρ _ newIds half target incoming direction
        first hfirst
      rw [hinsert] at hremove ⊢
      refine ⟨.split id axis ratio layout second, ?_, ?_⟩
      · simp only [if_true, removeSessionFromWorkspaceLayout, hremove,
          remove_of_not_mem hincoming.2]
      · rw [outline, outline, houtline]
    · have hsecond := htarget.resolve_left hfirst
      obtain ⟨layout, hremove, houtline⟩ := ihSecond hsecond hincoming.2
      obtain ⟨next, _, _, hinsert, -⟩ := @insert_of_mem ι σ ρ _ newIds half target incoming direction
        second hsecond
      rw [hinsert] at hremove
      rw [hinsert, insert_of_not_mem hfirst]
      refine ⟨.split id axis ratio first layout, ?_, ?_⟩
      · simp only [if_true, Bool.false_eq_true, if_false, removeSessionFromWorkspaceLayout, hremove,
          remove_of_not_mem hincoming.1]
      · rw [outline, outline, houtline]

/-! ### The laws -/

omit [DecidableEq σ] in
theorem pair_perm (direction : WorkspaceDropDirection) (target incoming : σ) :
    (pair direction target incoming).Perm [incoming, target] := by
  unfold pair
  split
  · exact .refl _
  · exact .swap _ _ _

omit [DecidableEq σ] in
theorem inserted_perm {before after : List σ} :
    (before ++ pair direction target incoming ++ after).Perm
      (incoming :: (before ++ target :: after)) := by
  rw [List.append_assoc]
  refine (((pair_perm direction target incoming).append_right after).append_left before).trans ?_
  exact List.perm_middle

theorem filter_pair (h : incoming ≠ target) :
    (pair direction target incoming).filter (· ≠ incoming) = [target] := by
  unfold pair
  split
  · rw [List.filter_cons_of_neg (by simp), List.filter_cons_of_pos (by simpa using h.symm),
      List.filter_nil]
  · rw [List.filter_cons_of_pos (by simpa using h.symm), List.filter_cons_of_neg (by simp),
      List.filter_nil]

/-- What an insertion, a removal, a move and an insertion that is taken back do to the sessions of a
layout. -/
structure Lawful (newIds : NewIds ι) (half : ρ) (node : WorkspaceLayoutNode ι σ ρ) : Prop where
  insert : ∀ target incoming direction, target ∈ listWorkspaceSessionIds node →
    incoming ∉ listWorkspaceSessionIds node →
    ∃ layout before after,
      insertSessionIntoWorkspaceLayout newIds half target incoming direction node = (layout, true) ∧
      listWorkspaceSessionIds node = before ++ target :: after ∧
      listWorkspaceSessionIds layout = before ++ pair direction target incoming ++ after ∧
      (listWorkspaceSessionIds layout).Nodup
  insertMissing : ∀ target incoming direction, target ∉ listWorkspaceSessionIds node →
    insertSessionIntoWorkspaceLayout newIds half target incoming direction node = (node, false)
  remove : ∀ sessionId, (removeSessionFromWorkspaceLayout sessionId node = none ↔
      listWorkspaceSessionIds node = [sessionId]) ∧
    ∀ layout, removeSessionFromWorkspaceLayout sessionId node = some layout →
      listWorkspaceSessionIds layout = (listWorkspaceSessionIds node).filter (· ≠ sessionId)
  move : ∀ sessionId target direction, sessionId ≠ target → sessionId ∈ listWorkspaceSessionIds node →
    target ∈ listWorkspaceSessionIds node →
    ∃ layout before after,
      moveSessionWithinWorkspaceLayout newIds half node sessionId target direction = (layout, true) ∧
      (listWorkspaceSessionIds layout).Perm (listWorkspaceSessionIds node) ∧
      (listWorkspaceSessionIds layout).filter (· ≠ sessionId) =
        (listWorkspaceSessionIds node).filter (· ≠ sessionId) ∧
      listWorkspaceSessionIds layout = before ++ pair direction target sessionId ++ after
  moveNothing : ∀ sessionId target direction, sessionId = target ∨
      sessionId ∉ listWorkspaceSessionIds node ∨ target ∉ listWorkspaceSessionIds node →
    moveSessionWithinWorkspaceLayout newIds half node sessionId target direction = (node, false)
  back : ∀ target incoming direction, target ∈ listWorkspaceSessionIds node →
    incoming ∉ listWorkspaceSessionIds node →
    ∃ layout, removeSessionFromWorkspaceLayout incoming
        (insertSessionIntoWorkspaceLayout newIds half target incoming direction node).1 =
          some layout ∧ outline layout = outline node

theorem remove_eq_none_iff_of_nodup (h : (listWorkspaceSessionIds node).Nodup) :
    removeSessionFromWorkspaceLayout sessionId node = none ↔
      listWorkspaceSessionIds node = [sessionId] := by
  rw [remove_eq_none_iff, List.filter_eq_nil_iff]
  simp only [decide_eq_true_eq, not_not]
  constructor
  · intro hall
    obtain ⟨first, rest, hsessions⟩ := List.exists_cons_of_ne_nil (sessions_ne_nil node)
    rw [hsessions] at hall h ⊢
    obtain ⟨rfl, hrest⟩ := List.forall_mem_cons.mp hall
    cases rest with
    | nil => rfl
    | cons second rest =>
      have hsame := hrest second List.mem_cons_self
      exact absurd (hsame ▸ List.mem_cons_self) (List.nodup_cons.mp h).1
  · intro hsessions session hmem
    rw [hsessions] at hmem
    exact List.mem_singleton.mp hmem

theorem move_of_mem (h : (listWorkspaceSessionIds node).Nodup) (hne : sessionId ≠ target)
    (hsession : sessionId ∈ listWorkspaceSessionIds node)
    (htarget : target ∈ listWorkspaceSessionIds node) :
    ∃ layout before after,
      moveSessionWithinWorkspaceLayout newIds half node sessionId target direction = (layout, true) ∧
      (listWorkspaceSessionIds layout).Perm (listWorkspaceSessionIds node) ∧
      (listWorkspaceSessionIds layout).filter (· ≠ sessionId) =
        (listWorkspaceSessionIds node).filter (· ≠ sessionId) ∧
      listWorkspaceSessionIds layout = before ++ pair direction target sessionId ++ after := by
  have htarget' : target ∈ (listWorkspaceSessionIds node).filter (· ≠ sessionId) :=
    List.mem_filter.mpr ⟨htarget, by simpa using hne.symm⟩
  rw [moveSessionWithinWorkspaceLayout, if_neg hne]
  dsimp only
  rw [if_neg (not_or.mpr ⟨not_not.mpr hsession, not_not.mpr htarget⟩)]
  cases hremove : removeSessionFromWorkspaceLayout sessionId node with
  | none =>
    rw [remove_eq_none_iff.mp hremove] at htarget'
    cases htarget'
  | some reduced =>
    have hreduced := sessions_of_remove hremove
    rw [← hreduced] at htarget'
    obtain ⟨layout, before, after, hinsert, -, hbefore, hafter⟩ :=
      @insert_of_mem ι σ ρ _ newIds half target sessionId direction reduced htarget'
    have hothers : ∀ x ∈ before ++ target :: after, decide (x ≠ sessionId) = true := by
      intro x hx
      rw [← hbefore, hreduced] at hx
      exact (List.mem_filter.mp hx).2
    refine ⟨layout, before, after, ?_, ?_, ?_, hafter⟩
    · dsimp only
      rw [hinsert]
      rfl
    · rw [hafter]
      refine inserted_perm.trans ?_
      have herase : (listWorkspaceSessionIds node).filter (· ≠ sessionId) =
          (listWorkspaceSessionIds node).erase sessionId := by
        rw [h.erase_eq_filter]
        exact List.filter_congr fun x _ => Bool.eq_iff_iff.mpr (by simp)
      rw [← hbefore, hreduced, herase]
      exact (List.perm_cons_erase hsession).symm
    · have hfirst := List.filter_eq_self.mpr fun x hx => hothers x (List.mem_append_left _ hx)
      have hlast := List.filter_eq_self.mpr fun x hx =>
        hothers x (List.mem_append_right _ (List.mem_cons_of_mem _ hx))
      rw [hafter, List.filter_append, List.filter_append, hfirst, hlast, filter_pair hne,
        ← hreduced, hbefore, List.append_assoc, List.singleton_append]

/-- The operations on a layout keep its sessions. -/
theorem layout_lawful (newIds : NewIds ι) (half : ρ) (node : WorkspaceLayoutNode ι σ ρ)
    (h : (listWorkspaceSessionIds node).Nodup) : Lawful newIds half node where
  insert target incoming direction htarget hincoming := by
    obtain ⟨layout, before, after, hinsert, -, hbefore, hafter⟩ :=
      @insert_of_mem ι σ ρ _ newIds half target incoming direction node htarget
    refine ⟨layout, before, after, hinsert, hbefore, hafter, ?_⟩
    rw [hafter, inserted_perm.nodup_iff, ← hbefore]
    exact List.nodup_cons.mpr ⟨hincoming, h⟩
  insertMissing _ _ _ hmissing := insert_of_not_mem hmissing
  remove _ := ⟨remove_eq_none_iff_of_nodup h, fun _ hremove => sessions_of_remove hremove⟩
  move _ _ _ hne hsession htarget := move_of_mem h hne hsession htarget
  moveNothing sessionId target direction hnothing := by
    rw [moveSessionWithinWorkspaceLayout]
    by_cases heq : sessionId = target
    · exact if_pos heq
    · rw [if_neg heq]
      exact if_pos (hnothing.resolve_left heq)
  back _ _ _ htarget hincoming := remove_insert htarget hincoming

theorem layout_lawful_three :
    Lawful ⟨"e", "i", "s"⟩ (1 / 2 : ℚ)
      (.split "a" .horizontal (1 / 3) (.leaf "b" "one" none none)
        (.split "c" .vertical (1 / 2) (.leaf "d" "two" none none) (.leaf "f" "three" none none))) :=
  layout_lawful _ _ _ (by decide)

end Dolgate.WorkspaceLayouts
