import Mathlib.Data.List.Flatten
import Mathlib.Data.List.Nodup
import Mathlib.Tactic.Common
import Dolgate.WorkspaceTabs

set_option autoImplicit false

/-! Every tab keeps one place, and every reference its target, when a session goes. -/

namespace Dolgate.WorkspaceTabs

variable {s : AppState} {sid x : String} {owning w : WorkspaceTab}
  {item : DynamicTabStripItem} {strip : List DynamicTabStripItem} {tab : WorkspaceTabId}

def WorkspaceTab.sessions (w : WorkspaceTab) : List String := listWorkspaceSessionIds w.layout

def places (tabStrip : List DynamicTabStripItem) (workspaces : List WorkspaceTab)
    (sessionId : String) : Nat :=
  tabStrip.count (.session sessionId) + (workspaces.flatMap (·.sessions)).count sessionId

def AppState.Refers (s : AppState) : WorkspaceTabId → Prop
  | .home | .sftp | .containers => True
  | .session sessionId => sessionId ∈ s.tabs.map (·.sessionId)
  | .workspace workspaceId => workspaceId ∈ s.workspaces.map (·.id)
  | .tmuxGroup tmuxGroupId => tmuxGroupId ∈ s.tmuxGroups

instance (s : AppState) (tab : WorkspaceTabId) : Decidable (s.Refers tab) :=
  match tab with
  | .home | .sftp | .containers => .isTrue trivial
  | .session sessionId => inferInstanceAs (Decidable (sessionId ∈ s.tabs.map (·.sessionId)))
  | .workspace workspaceId => inferInstanceAs (Decidable (workspaceId ∈ s.workspaces.map (·.id)))
  | .tmuxGroup tmuxGroupId => inferInstanceAs (Decidable (tmuxGroupId ∈ s.tmuxGroups))

structure Integrity (s : AppState) : Prop where
  placed : ∀ sessionId ∈ s.tabs.map (·.sessionId), places s.tabStrip s.workspaces sessionId = 1
  items : ∀ item ∈ s.tabStrip, s.Refers item.tabId
  active : s.Refers s.activeWorkspaceTab
  activeLeaf : ∀ w ∈ s.workspaces, w.activeSessionId ∈ w.sessions
  shared : ∀ w ∈ s.workspaces, 2 ≤ w.sessions.length
  leaves : ∀ w ∈ s.workspaces, ∀ sessionId ∈ w.sessions, sessionId ∈ s.tabs.map (·.sessionId)
  ids : (s.workspaces.map (·.id)).Nodup

def AppState.promptSessions (s : AppState) : List String :=
  (s.pendingHostKeyPrompt.toList ++ s.queuedHostKeyPrompts ++ s.pendingCredentialRetry.toList ++
      s.activeCredentialRetryAttempt.toList).filterMap (·.sessionId) ++
    s.pendingRdpCertificatePrompt.toList.map (·.sessionId) ++
    s.pendingInteractiveAuths.filterMap (·.sessionId?) ++
    s.pendingConnectionAttempts.map (·.sessionId)

def shows (workspaces : List WorkspaceTab) : DynamicTabStripItem → List String
  | .session sessionId => [sessionId]
  | .workspace workspaceId =>
      (workspaces.filter fun w => w.id = workspaceId).flatMap (·.sessions)
  | .tmux _ => []

/-- The sessions in the order in which the strip shows them, those of a workspace in its place. -/
def AppState.order (s : AppState) : List String := s.tabStrip.flatMap (shows s.workspaces)

structure Gone (s : AppState) (sessionId : String) : Prop where
  tabs : sessionId ∉ s.tabs.map (·.sessionId)
  strip : .session sessionId ∉ s.tabStrip
  layouts : ∀ w ∈ s.workspaces, sessionId ∉ w.sessions
  active : s.activeWorkspaceTab ≠ .session sessionId
  prompts : sessionId ∉ s.promptSessions

/-- The sessions other than `sessionId` stand in `s'` as they stood in `s`. -/
structure OrderKept (s s' : AppState) (sessionId : String) : Prop where
  tabs : s'.tabs = s.tabs.filter fun tab => tab.sessionId ≠ sessionId
  layouts : ∀ w' ∈ s'.workspaces, ∃ w ∈ s.workspaces,
    w.id = w'.id ∧ w'.sessions = w.sessions.filter (· ≠ sessionId)
  strip : List.Sublist (s'.order.filter (· ∈ s.order)) (s.order.filter (· ≠ sessionId))

/-- The stored return target of the session still stands once the session has left `owning`. -/
def Returns (s : AppState) (sessionId : String) (owning : WorkspaceTab) : Prop :=
  ∃ target, s.sessionReturnTargets sessionId = some target ∧
    match target.activeWorkspaceTab with
    | .session other =>
        .session other ∈ s.tabStrip ∨ owning.sessions.filter (· ≠ sessionId) = [other]
    | .workspace workspaceId =>
        workspaceId ∈ s.workspaces.map (·.id) ∧
          (workspaceId = owning.id → 2 ≤ (owning.sessions.filter (· ≠ sessionId)).length)
    | _ => (resolveSessionReturnTarget s target).isSome

/-- No question that the removal overlooks is about the session, and the focus can leave it. -/
structure Leaves (s : AppState) (sessionId : String) : Prop where
  auths : ∀ auth ∈ s.pendingInteractiveAuths,
    auth.sessionId? = some sessionId → auth = .ssh sessionId
  certificate : ∀ prompt, s.pendingRdpCertificatePrompt = some prompt →
    prompt.sessionId ≠ sessionId
  focus : s.activeWorkspaceTab = .session sessionId →
    ∀ owning ∈ s.workspaces, sessionId ∈ owning.sessions → Returns s sessionId owning

theorem sessions_remove (sid : String) (l : WorkspaceLayoutNode) :
    ((removeSessionFromWorkspaceLayout sid l).elim [] listWorkspaceSessionIds) =
      (listWorkspaceSessionIds l).filter (· ≠ sid) := by
  induction l with
  | leaf id session =>
      by_cases h : session = sid <;>
        simp [removeSessionFromWorkspaceLayout, listWorkspaceSessionIds, h]
  | split id first second ihf ihs =>
      rw [listWorkspaceSessionIds, List.filter_append, ← ihf, ← ihs]
      simp only [removeSessionFromWorkspaceLayout]
      cases removeSessionFromWorkspaceLayout sid first <;>
        cases removeSessionFromWorkspaceLayout sid second <;> simp [listWorkspaceSessionIds]

theorem findFirst_mem (l : WorkspaceLayoutNode) :
    findFirstWorkspaceSessionId l ∈ listWorkspaceSessionIds l := by
  induction l with
  | leaf id session => simp [findFirstWorkspaceSessionId, listWorkspaceSessionIds]
  | split id first second ihf ihs =>
      simp [findFirstWorkspaceSessionId, listWorkspaceSessionIds, ihf]

theorem two_le_split (id : String) (first second : WorkspaceLayoutNode) :
    2 ≤ (listWorkspaceSessionIds (.split id first second)).length := by
  have hf := List.length_pos_of_mem (findFirst_mem first)
  have hs := List.length_pos_of_mem (findFirst_mem second)
  simp only [listWorkspaceSessionIds, List.length_append]
  omega

theorem spliceIn_perm {α : Type} (l : List α) (i : Nat) (y : α) :
    (spliceIn l i y).Perm (y :: l) := by
  have h : (spliceIn l i y).Perm (y :: (l.take i ++ l.drop i)) := List.perm_middle
  rwa [List.take_append_drop] at h

theorem spliceIn_cases {α : Type} [DecidableEq α] (l : List α) (a y : α) :
    (a ∉ l ∧ spliceIn (l.filter (· ≠ a))
      ((l.findIdx? (· = a)).getD (l.filter (· ≠ a)).length) y = l ++ [y]) ∨
    ∃ before after, l = before ++ a :: after ∧ a ∉ before ∧
      spliceIn (l.filter (· ≠ a)) ((l.findIdx? (· = a)).getD (l.filter (· ≠ a)).length) y =
        before ++ y :: after.filter (· ≠ a) := by
  by_cases hmem : a ∈ l
  · right
    obtain ⟨before, after, rfl, hnot⟩ := List.eq_append_cons_of_mem hmem
    have hbefore : before.filter (· ≠ a) = before := by
      rw [List.filter_eq_self]
      intro b hb
      simp only [decide_eq_true_eq]
      rintro rfl
      exact hnot hb
    have hidx : (before ++ a :: after).findIdx? (· = a) = some before.length := by
      have hnone : before.findIdx? (· = a) = none := by
        rw [List.findIdx?_eq_none_iff]
        intro b hb
        simp only [decide_eq_false_iff_not]
        rintro rfl
        exact hnot hb
      simp [List.findIdx?_append, hnone, List.findIdx?_cons]
    refine ⟨before, after, rfl, hnot, ?_⟩
    rw [hidx, List.filter_append, hbefore]
    simp [spliceIn]
  · left
    have hself : l.filter (· ≠ a) = l := by
      rw [List.filter_eq_self]
      intro b hb
      simp only [decide_eq_true_eq]
      rintro rfl
      exact hmem hb
    have hnone : l.findIdx? (· = a) = none := by
      rw [List.findIdx?_eq_none_iff]
      intro b hb
      simp only [decide_eq_false_iff_not]
      rintro rfl
      exact hmem hb
    rw [hnone, hself]
    simp [spliceIn, hmem]

theorem eq_of_count_le {ws : List WorkspaceTab} {w' : WorkspaceTab}
    (hcount : (ws.flatMap (·.sessions)).count x ≤ 1) (hw : w ∈ ws) (hw' : w' ∈ ws)
    (hx : x ∈ w.sessions) (hx' : x ∈ w'.sessions) : w = w' := by
  induction ws with
  | nil => cases hw
  | cons head rest ih =>
      simp only [List.flatMap_cons, List.count_append] at hcount
      have hrest : ∀ v ∈ rest, x ∈ v.sessions →
          0 < (rest.flatMap (·.sessions)).count x := by
        intro v hv hxv
        exact List.count_pos_iff.mpr (List.mem_flatMap.mpr ⟨v, hv, hxv⟩)
      have hhead : x ∈ head.sessions → 0 < head.sessions.count x := List.count_pos_iff.mpr
      obtain heq | hmem := List.mem_cons.mp hw
      · obtain heq' | hmem' := List.mem_cons.mp hw'
        · rw [heq, heq']
        · have := hrest w' hmem' hx'
          have := hhead (heq ▸ hx)
          omega
      · have := hrest w hmem hx
        obtain heq' | hmem' := List.mem_cons.mp hw'
        · have := hhead (heq' ▸ hx')
          omega
        · exact ih (by omega) hmem hmem'

/-- The leaves of the workspaces, and the items of the strip, once the session is gone from them. -/
structure Rest (s : AppState) (sid : String) (strip : List DynamicTabStripItem)
    (ws : List WorkspaceTab) : Prop where
  placed : ∀ x, x ≠ sid → places strip ws x = places s.tabStrip s.workspaces x
  items : ∀ item ∈ strip,
    item ≠ .session sid ∧ ({ s with workspaces := ws } : AppState).Refers item.tabId
  workspaces : ∀ w' ∈ ws, ∃ w ∈ s.workspaces, w.id = w'.id ∧
    w'.sessions = w.sessions.filter (· ≠ sid) ∧ 2 ≤ w'.sessions.length ∧
    w'.activeSessionId ∈ w'.sessions
  ids : (ws.map (·.id)).Nodup
  order : List.Sublist ((strip.flatMap (shows ws)).filter (· ∈ s.order))
    (s.order.filter (· ≠ sid))

theorem Integrity.count_le (h : Integrity s) (hx : x ∈ s.tabs.map (·.sessionId)) :
    (s.workspaces.flatMap (·.sessions)).count x ≤ 1 := by
  have := h.placed x hx
  unfold places at this
  omega

theorem Integrity.not_mem_strip (h : Integrity s) (hw : w ∈ s.workspaces) (hx : x ∈ w.sessions) :
    .session x ∉ s.tabStrip := by
  intro hmem
  have hplaced := h.placed x (h.leaves w hw x hx)
  have hstrip := List.count_pos_iff.mpr hmem
  have hleaf : 0 < (s.workspaces.flatMap (·.sessions)).count x :=
    List.count_pos_iff.mpr (List.mem_flatMap.mpr ⟨w, hw, hx⟩)
  unfold places at hplaced
  omega

theorem Integrity.owner_unique (h : Integrity s) {w' : WorkspaceTab} (hw : w ∈ s.workspaces)
    (hw' : w' ∈ s.workspaces) (hx : x ∈ w.sessions) (hx' : x ∈ w'.sessions) : w = w' :=
  eq_of_count_le (h.count_le (h.leaves w hw x hx)) hw hw' hx hx'

theorem Integrity.id_unique (h : Integrity s) {w' : WorkspaceTab} (hw : w ∈ s.workspaces)
    (hw' : w' ∈ s.workspaces) (hid : w.id = w'.id) : w = w' :=
  List.inj_on_of_nodup_map h.ids hw hw' hid

theorem filter_eq_of_not_mem (h : sid ∉ w.sessions) : w.sessions.filter (· ≠ sid) = w.sessions := by
  rw [List.filter_eq_self]
  intro b hb
  simp only [decide_eq_true_eq]
  rintro rfl
  exact h hb

theorem exists_split_id {ws : List WorkspaceTab} (hids : (ws.map (·.id)).Nodup)
    (hown : owning ∈ ws) :
    ∃ before after, ws.filter (fun w => w.id ≠ owning.id) = before ++ after ∧
      ws.filter (fun w => w.id = owning.id) = [owning] ∧ ws = before ++ owning :: after := by
  obtain ⟨before, after, rfl⟩ := List.append_of_mem hown
  rw [List.map_append, List.map_cons, List.nodup_middle, List.nodup_cons, ← List.map_append] at hids
  have hne : ∀ w ∈ before ++ after, w.id ≠ owning.id := by
    intro w hw heq
    exact hids.1 (heq ▸ List.mem_map_of_mem hw)
  have hbefore := fun w hw => hne w (List.mem_append_left after hw)
  have hafter := fun w hw => hne w (List.mem_append_right before hw)
  refine ⟨before, after, ?_, ?_, rfl⟩
  · rw [List.filter_append, List.filter_cons_of_neg (by simp),
      List.filter_eq_self.mpr (by simpa using hbefore),
      List.filter_eq_self.mpr (by simpa using hafter)]
  · rw [List.filter_append, List.filter_cons_of_pos (by simp),
      List.filter_eq_nil_iff.mpr (by simpa using hbefore),
      List.filter_eq_nil_iff.mpr (by simpa using hafter), List.nil_append]

theorem count_without {ws : List WorkspaceTab} (hids : (ws.map (·.id)).Nodup) (hown : owning ∈ ws)
    (x : String) :
    ((ws.filter fun w => w.id ≠ owning.id).flatMap (·.sessions)).count x +
      owning.sessions.count x = (ws.flatMap (·.sessions)).count x := by
  obtain ⟨before, after, hothers, -, heq⟩ := exists_split_id hids hown
  rw [hothers, heq]
  simp only [List.flatMap_append, List.flatMap_cons, List.count_append]
  omega

theorem AppState.Refers.withWorkspaces {ws : List WorkspaceTab} (h : s.Refers tab)
    (hws : ∀ x, tab = .workspace x → x ∈ s.workspaces.map (·.id) → x ∈ ws.map (·.id)) :
    ({ s with workspaces := ws } : AppState).Refers tab := by
  cases tab with
  | home | sftp | containers => trivial
  | session x => exact h
  | workspace x => exact hws x rfl h
  | tmuxGroup x => exact h

theorem ids_map {f : WorkspaceTab → WorkspaceTab} (hid : ∀ w, (f w).id = w.id) :
    (s.workspaces.map f).map (·.id) = s.workspaces.map (·.id) := by
  simp [Function.comp_def, hid]

theorem mem_ids_others : x ∈ (s.workspaces.filter fun w => w.id ≠ owning.id).map (·.id) ↔
    x ∈ s.workspaces.map (·.id) ∧ x ≠ owning.id := by
  simp only [List.mem_map, List.mem_filter, decide_eq_true_eq]
  constructor
  · rintro ⟨w, ⟨hw, hne⟩, rfl⟩
    exact ⟨⟨w, hw, rfl⟩, hne⟩
  · rintro ⟨⟨w, hw, rfl⟩, hne⟩
    exact ⟨w, ⟨hw, hne⟩, rfl⟩

theorem rest_pruned (h : Integrity s) {f : WorkspaceTab → WorkspaceTab}
    (hid : ∀ w, (f w).id = w.id)
    (hf : ∀ w ∈ s.workspaces, (f w).sessions = w.sessions.filter (· ≠ sid) ∧
      2 ≤ (f w).sessions.length ∧ (f w).activeSessionId ∈ (f w).sessions) :
    Rest s sid (s.tabStrip.filter (· ≠ .session sid)) (s.workspaces.map f) where
  placed := by
    intro x hx
    have hflat : (s.workspaces.map f).flatMap (·.sessions) =
        (s.workspaces.flatMap (·.sessions)).filter (· ≠ sid) := by
      rw [List.flatMap_map, List.filter_flatMap]
      exact List.flatMap_congr fun w hw => (hf w hw).1
    rw [places, places, hflat, List.count_filter (by simpa using hx),
      List.count_filter (by simpa using hx)]
  items := by
    intro item hitem
    obtain ⟨hitem, hne⟩ := List.mem_filter.mp hitem
    refine ⟨by simpa using hne, (h.items item hitem).withWorkspaces ?_⟩
    intro x _ hx
    rwa [ids_map hid]
  workspaces := by
    intro w' hw'
    obtain ⟨w, hw, rfl⟩ := List.mem_map.mp hw'
    exact ⟨w, hw, (hid w).symm, hf w hw⟩
  ids := by
    rw [ids_map hid]
    exact h.ids
  order := by
    have hshows : ∀ item ∈ s.tabStrip.filter (· ≠ .session sid),
        shows (s.workspaces.map f) item = (shows s.workspaces item).filter (· ≠ sid) := by
      intro item hitem
      cases item with
      | session x =>
          have hx : x ≠ sid := by simpa using (List.mem_filter.mp hitem).2
          simp [shows, hx]
      | workspace x =>
          simp only [shows, List.filter_map, Function.comp_def, hid, List.flatMap_map,
            List.filter_flatMap]
          exact List.flatMap_congr fun w hw => (hf w (List.mem_filter.mp hw).1).1
      | tmux x => rfl
    refine List.Sublist.trans List.filter_sublist ?_
    rw [List.flatMap_congr hshows, AppState.order, List.filter_flatMap]
    exact List.filter_sublist.flatMap _

theorem rest_dissolved (h : Integrity s) {survivor : String} (hown : owning ∈ s.workspaces)
    (hsid : sid ∈ owning.sessions)
    (hleft : owning.sessions.filter (· ≠ sid) = [survivor]) :
    Rest s sid
      (spliceIn (s.tabStrip.filter (· ≠ .workspace owning.id))
        ((s.tabStrip.findIdx? (· = .workspace owning.id)).getD
          (s.tabStrip.filter (· ≠ .workspace owning.id)).length) (.session survivor))
      (s.workspaces.filter fun w => w.id ≠ owning.id) where
  placed := by
    intro x hx
    have hown_count : owning.sessions.count x = [survivor].count x := by
      rw [← hleft, List.count_filter (by simpa using hx)]
    have hstrip := (spliceIn_perm (s.tabStrip.filter (· ≠ .workspace owning.id))
      ((s.tabStrip.findIdx? (· = .workspace owning.id)).getD
        (s.tabStrip.filter (· ≠ .workspace owning.id)).length) (.session survivor)).count_eq
        (.session x)
    have hitem : (DynamicTabStripItem.session survivor == .session x) = (survivor == x) := by
      by_cases heq : survivor = x <;> simp [heq]
    rw [List.count_cons, List.count_filter (by simp), hitem] at hstrip
    have hleaves := count_without h.ids hown x
    rw [hown_count, List.count_singleton] at hleaves
    unfold places
    omega
  items := by
    intro item hitem
    obtain heq | hitem := List.mem_cons.mp ((spliceIn_perm _ _ _).subset hitem)
    · subst heq
      have hmem : survivor ∈ owning.sessions.filter (· ≠ sid) := by
        rw [hleft]
        exact List.mem_singleton_self _
      obtain ⟨hmem, hne⟩ := List.mem_filter.mp hmem
      exact ⟨by simpa using hne, h.leaves owning hown survivor hmem⟩
    · obtain ⟨hmem, hne⟩ := List.mem_filter.mp hitem
      refine ⟨fun heq => h.not_mem_strip hown hsid (heq ▸ hmem),
        (h.items item hmem).withWorkspaces ?_⟩
      intro x htab hx
      refine mem_ids_others.mpr ⟨hx, ?_⟩
      rintro rfl
      cases item with
      | session y => cases htab
      | workspace y =>
          cases htab
          simp at hne
      | tmux y => cases htab
  workspaces := by
    intro w' hw'
    obtain ⟨hmem, hne⟩ := List.mem_filter.mp hw'
    have hnot : sid ∉ w'.sessions := by
      intro hx
      simp [h.owner_unique hmem hown hx hsid] at hne
    exact ⟨w', hmem, rfl, (filter_eq_of_not_mem hnot).symm, h.shared w' hmem,
      h.activeLeaf w' hmem⟩
  ids := h.ids.sublist (List.filter_sublist.map _)
  order := by
    -- an item that stays shows what it showed, and that is not the session
    have hshows : ∀ item ∈ s.tabStrip, item ≠ .workspace owning.id →
        shows (s.workspaces.filter fun w => w.id ≠ owning.id) item =
          (shows s.workspaces item).filter (· ≠ sid) := by
      intro item hitem hne
      cases item with
      | session x =>
          have hx : x ≠ sid := fun heq => h.not_mem_strip hown hsid (heq ▸ hitem)
          simp [shows, hx]
      | workspace x =>
          have hx : x ≠ owning.id := by simpa using hne
          have hfilter : (s.workspaces.filter fun w => w.id ≠ owning.id).filter (·.id = x) =
              s.workspaces.filter (·.id = x) := by
            rw [List.filter_filter]
            refine List.filter_congr fun w _ => ?_
            by_cases hid : w.id = x <;> simp [hid, hx]
          rw [shows, shows, hfilter, List.filter_flatMap]
          refine List.flatMap_congr fun w hw => ?_
          obtain ⟨hw, hid⟩ := List.mem_filter.mp hw
          have hid : w.id = x := by simpa using hid
          have hnot : sid ∉ w.sessions := by
            intro hmem
            exact hx (by rw [← hid, h.owner_unique hw hown hmem hsid])
          rw [filter_eq_of_not_mem hnot]
      | tmux x => rfl
    have hsub : ∀ items : List DynamicTabStripItem, (∀ item ∈ items, item ∈ s.tabStrip) →
        List.Sublist ((items.filter (· ≠ .workspace owning.id)).flatMap
            (shows (s.workspaces.filter fun w => w.id ≠ owning.id)))
          ((items.flatMap (shows s.workspaces)).filter (· ≠ sid)) := by
      intro items hitems
      rw [List.filter_flatMap, List.flatMap_congr fun item hitem =>
        hshows item (hitems item (List.mem_filter.mp hitem).1)
          (by simpa using (List.mem_filter.mp hitem).2)]
      exact List.filter_sublist.flatMap _
    obtain ⟨hnone, heq⟩ | ⟨before, after, hstrip, hbefore, heq⟩ :=
      spliceIn_cases s.tabStrip (.workspace owning.id) (.session survivor)
    · have hself : s.tabStrip.filter (· ≠ .workspace owning.id) = s.tabStrip := by
        rw [List.filter_eq_self]
        intro item hitem
        simp only [decide_eq_true_eq]
        rintro rfl
        exact hnone hitem
      have hsurvivor : survivor ∈ owning.sessions.filter (· ≠ sid) := by
        rw [hleft]
        exact List.mem_singleton_self _
      have hnot : survivor ∉ s.order := by
        intro hmem
        obtain ⟨item, hitem, hmem⟩ := List.mem_flatMap.mp hmem
        have hmem_own := (List.mem_filter.mp hsurvivor).1
        cases item with
        | session x =>
            cases List.mem_singleton.mp hmem
            exact h.not_mem_strip hown hmem_own hitem
        | workspace x =>
            obtain ⟨w, hw, hmem⟩ := List.mem_flatMap.mp hmem
            obtain ⟨hw, hid⟩ := List.mem_filter.mp hw
            have hid : w.id = x := by simpa using hid
            rw [h.owner_unique hw hown hmem hmem_own] at hid
            exact hnone (hid ▸ hitem)
        | tmux x => cases hmem
      have hall := hsub s.tabStrip fun _ hitem => hitem
      rw [hself] at hall
      rw [heq, List.flatMap_append, List.filter_append]
      simp only [List.flatMap_cons, List.flatMap_nil, List.append_nil, shows]
      rw [List.filter_cons_of_neg (by simpa using hnot), List.filter_nil, List.append_nil]
      exact List.filter_sublist.trans hall
    · have hself : before.filter (· ≠ .workspace owning.id) = before := by
        rw [List.filter_eq_self]
        intro item hitem
        simp only [decide_eq_true_eq]
        rintro rfl
        exact hbefore hitem
      have hown_shows : (shows s.workspaces (.workspace owning.id)).filter (· ≠ sid) =
          [survivor] := by
        obtain ⟨-, -, -, hown_filter, -⟩ := exists_split_id h.ids hown
        rw [shows, hown_filter, List.flatMap_singleton, hleft]
      refine List.filter_sublist.trans ?_
      rw [heq, AppState.order, hstrip, List.flatMap_append, List.flatMap_append,
        List.flatMap_cons, List.flatMap_cons, List.filter_append, List.filter_append, hown_shows]
      refine List.Sublist.append ?_ (List.Sublist.append (List.Sublist.refl _) (hsub after ?_))
      · have := hsub before (by intro item hitem; rw [hstrip]; simp [hitem])
        rwa [hself] at this
      · intro item hitem
        rw [hstrip]
        simp [hitem]

theorem leave_cases (h : Integrity s) (hown : owning ∈ s.workspaces)
    (hsid : sid ∈ owning.sessions) :
    (∃ survivor, owning.sessions.filter (· ≠ sid) = [survivor] ∧
      leaveWorkspace s sid owning =
        { tabStrip := spliceIn (s.tabStrip.filter (· ≠ .workspace owning.id))
            ((s.tabStrip.findIdx? (· = .workspace owning.id)).getD
              (s.tabStrip.filter (· ≠ .workspace owning.id)).length) (.session survivor)
          workspaces := s.workspaces.filter fun w => w.id ≠ owning.id
          active :=
            if s.activeWorkspaceTab = .workspace owning.id then .session survivor
            else s.activeWorkspaceTab }) ∨
    (2 ≤ (owning.sessions.filter (· ≠ sid)).length ∧ ∃ f : WorkspaceTab → WorkspaceTab,
      (∀ w, (f w).id = w.id) ∧
      (∀ w ∈ s.workspaces, (f w).sessions = w.sessions.filter (· ≠ sid) ∧
        2 ≤ (f w).sessions.length ∧ (f w).activeSessionId ∈ (f w).sessions) ∧
      leaveWorkspace s sid owning =
        { tabStrip := s.tabStrip.filter (· ≠ .session sid)
          workspaces := s.workspaces.map f
          active := s.activeWorkspaceTab }) := by
  have hremove := sessions_remove sid owning.layout
  unfold leaveWorkspace
  cases hreduced : removeSessionFromWorkspaceLayout sid owning.layout with
  | none =>
      -- every leaf would be the session, which has one place only
      exfalso
      rw [hreduced] at hremove
      have hall : ∀ y ∈ owning.sessions, sid = y := by
        intro y hy
        by_contra hne
        have hmem : y ∈ owning.sessions.filter (· ≠ sid) :=
          List.mem_filter.mpr ⟨hy, by simpa using fun heq => hne heq.symm⟩
        rw [WorkspaceTab.sessions, ← hremove] at hmem
        cases hmem
      have hcount := h.count_le (h.leaves owning hown sid hsid)
      rw [← count_without h.ids hown, List.count_eq_length.mpr hall] at hcount
      have := h.shared owning hown
      omega
  | some reduced =>
      rw [hreduced] at hremove
      cases reduced with
      | leaf id survivor => exact .inl ⟨survivor, hremove.symm, rfl⟩
      | split id first second =>
          have htwo := two_le_split id first second
          refine .inr ⟨?_, _, ?_, ?_, rfl⟩
          · rw [WorkspaceTab.sessions, ← hremove]
            exact htwo
          · intro w
            split <;> rfl
          · intro w hw
            split
            · next hid =>
              cases h.id_unique hw hown hid
              refine ⟨hremove, htwo, ?_⟩
              dsimp only [WorkspaceTab.sessions]
              split
              · exact findFirst_mem _
              · next hne =>
                have hmem : owning.activeSessionId ∈ owning.sessions.filter (· ≠ sid) :=
                  List.mem_filter.mpr ⟨h.activeLeaf owning hw, by simpa using hne⟩
                rwa [WorkspaceTab.sessions, ← hremove] at hmem
            · next hid =>
              have hnot : sid ∉ w.sessions := by
                intro hx
                exact hid (by rw [h.owner_unique hw hown hx hsid])
              exact ⟨(filter_eq_of_not_mem hnot).symm, h.shared w hw, h.activeLeaf w hw⟩

theorem owningWorkspace_eq_none :
    owningWorkspace s sid = none ↔ ∀ w ∈ s.workspaces, sid ∉ w.sessions := by
  simp [owningWorkspace, List.find?_eq_none, WorkspaceTab.sessions]

theorem owningWorkspace_eq_some (h : owningWorkspace s sid = some owning) :
    owning ∈ s.workspaces ∧ sid ∈ owning.sessions :=
  ⟨List.mem_of_find?_eq_some h, by simpa [WorkspaceTab.sessions] using List.find?_some h⟩

theorem Integrity.rest (h : Integrity s) (sid : String) :
    Rest s sid (detach s sid).tabStrip (detach s sid).workspaces := by
  unfold detach
  cases howner : owningWorkspace s sid with
  | none =>
      have hnot := owningWorkspace_eq_none.mp howner
      have hrest : Rest s sid (s.tabStrip.filter (· ≠ .session sid)) (s.workspaces.map id) :=
        rest_pruned h (fun _ => rfl) fun w hw =>
          ⟨(filter_eq_of_not_mem (hnot w hw)).symm, h.shared w hw, h.activeLeaf w hw⟩
      rwa [List.map_id] at hrest
  | some owning =>
      obtain ⟨hown, hsid⟩ := owningWorkspace_eq_some howner
      obtain ⟨survivor, hleft, heq⟩ | ⟨-, f, hid, hf, heq⟩ := leave_cases h hown hsid
      · simp only [heq]
        exact rest_dissolved h hown hsid hleft
      · simp only [heq]
        exact rest_pruned h hid hf

theorem refers_gone
    (h : ({ s with workspaces := (detach s sid).workspaces } : AppState).Refers tab)
    (hne : tab ≠ .session sid) : (removeSessionFromState s sid).Refers tab := by
  cases tab with
  | home | sftp | containers => trivial
  | session x =>
      obtain ⟨t, ht, rfl⟩ := List.mem_map.mp h
      have hx : t.sessionId ≠ sid := by simpa using hne
      exact List.mem_map.mpr ⟨t, List.mem_filter.mpr ⟨ht, by simpa using hx⟩, rfl⟩
  | workspace x => exact h
  | tmuxGroup x => exact h

theorem not_refers_gone : ¬ (removeSessionFromState s sid).Refers (.session sid) := by
  intro h
  obtain ⟨t, ht, heq⟩ := List.mem_map.mp h
  have hne := (List.mem_filter.mp ht).2
  simp [heq] at hne

theorem Rest.items_gone (h : Rest s sid (detach s sid).tabStrip (detach s sid).workspaces)
    (hitem : item ∈ (detach s sid).tabStrip) :
    (removeSessionFromState s sid).Refers item.tabId := by
  obtain ⟨hne, hrefers⟩ := h.items item hitem
  refine refers_gone hrefers ?_
  cases item with
  | session x => simpa [DynamicTabStripItem.tabId] using hne
  | workspace x => simp [DynamicTabStripItem.tabId]
  | tmux x => simp [DynamicTabStripItem.tabId]

variable {s' : AppState}

theorem resolveNextVisibleTab_refers (h : ∀ item ∈ strip, s.Refers item.tabId) (index : Nat) :
    s.Refers (resolveNextVisibleTab strip index) := by
  unfold resolveNextVisibleTab
  split
  · trivial
  · next item hitem =>
    obtain hitem | ⟨-, hitem⟩ := Option.or_eq_some_iff.mp hitem
    · exact h item (List.mem_of_getElem? hitem)
    · split at hitem
      · cases hitem
      · exact h item (List.mem_of_getElem? hitem)

theorem preferDynamic_refers (h : ∀ item ∈ strip, s.Refers item.tabId) (htab : s.Refers tab)
    (index : Nat) : s.Refers (preferDynamic strip index tab) := by
  unfold preferDynamic
  split
  · exact resolveNextVisibleTab_refers h index
  · exact htab

theorem resolveSessionReturnTarget_refers {target resolved : SessionReturnTarget}
    (h : resolveSessionReturnTarget s target = some resolved)
    (hitems : ∀ item ∈ s.tabStrip, s'.Refers item.tabId)
    (hws : s'.workspaces = s.workspaces) (hgroups : s'.tmuxGroups = s.tmuxGroups) :
    s'.Refers resolved.activeWorkspaceTab := by
  unfold resolveSessionReturnTarget at h
  split at h
  · cases h
    trivial
  · cases h
    trivial
  · split at h
    · cases h
    · simp only at h
      split at h
      · cases h
      · cases h
      · cases h
        trivial
  · split at h
    · next hmem =>
      cases h
      exact hitems _ hmem
    · cases h
  · split at h
    · next hmem =>
      cases h
      rw [← hws] at hmem
      exact hmem
    · cases h
  · split at h
    · next hmem =>
      cases h
      rw [← hgroups] at hmem
      exact hmem
    · cases h

theorem resolves_session {target : SessionReturnTarget}
    (h : target.activeWorkspaceTab = .session x) :
    (resolveSessionReturnTarget s target).isSome ↔ .session x ∈ s.tabStrip := by
  simp [resolveSessionReturnTarget, h]

theorem resolves_workspace {target : SessionReturnTarget}
    (h : target.activeWorkspaceTab = .workspace x) :
    (resolveSessionReturnTarget s target).isSome ↔ x ∈ s.workspaces.map (·.id) := by
  simp [resolveSessionReturnTarget, h]

/-- The stored return target resolves once the session has left its workspace just when it still
stands. -/
theorem returns_iff (h : Integrity s) (hown : owning ∈ s.workspaces)
    (hsid : sid ∈ owning.sessions) :
    Returns s sid owning ↔
      ((s.sessionReturnTargets sid).bind (resolveSessionReturnTarget
        { s with
          tabStrip := (leaveWorkspace s sid owning).tabStrip
          workspaces := (leaveWorkspace s sid owning).workspaces })).isSome := by
  unfold Returns
  cases hstored : s.sessionReturnTargets sid with
  | none => simp
  | some target =>
      simp only [Option.some.injEq, Option.bind_some, exists_eq_left']
      obtain ⟨active, homeSection, settingsSection, host⟩ := target
      cases active with
      | home => simp [resolveSessionReturnTarget]
      | sftp => simp [resolveSessionReturnTarget]
      | containers => rfl
      | tmuxGroup x => rfl
      | session x =>
          refine Iff.trans ?_ (resolves_session rfl).symm
          change .session x ∈ s.tabStrip ∨ owning.sessions.filter (· ≠ sid) = [x] ↔ _
          obtain ⟨survivor, hleft, heq⟩ | ⟨htwo, f, -, -, heq⟩ := leave_cases h hown hsid
          · simp only [heq, hleft, (spliceIn_perm _ _ _).mem_iff]
            simp [or_comm, eq_comm]
          · have hlen : owning.sessions.filter (· ≠ sid) ≠ [x] := by
              intro hone
              rw [hone] at htwo
              simp at htwo
            have hstrip : .session x ∈ s.tabStrip → x ≠ sid := by
              rintro hx rfl
              exact h.not_mem_strip hown hsid hx
            simp only [heq, hlen, or_false, List.mem_filter]
            simpa using hstrip
      | workspace x =>
          refine Iff.trans ?_ (resolves_workspace rfl).symm
          change x ∈ s.workspaces.map (·.id) ∧
            (x = owning.id → 2 ≤ (owning.sessions.filter (· ≠ sid)).length) ↔ _
          obtain ⟨survivor, hleft, heq⟩ | ⟨htwo, f, hid, -, heq⟩ := leave_cases h hown hsid
          · rw [heq, mem_ids_others, hleft]
            simp
          · rw [heq, ids_map hid]
            exact ⟨fun hx => hx.1, fun hx => ⟨hx, fun _ => htwo⟩⟩

theorem detach_of_owner (h : owningWorkspace s sid = some owning) :
    detach s sid = leaveWorkspace s sid owning := by
  unfold detach
  rw [h]

theorem detach_active_of_owner (h : Integrity s) (howner : owningWorkspace s sid = some owning)
    (hfocus : s.activeWorkspaceTab = .session sid) :
    (detach s sid).active = .session sid := by
  obtain ⟨hown, hsid⟩ := owningWorkspace_eq_some howner
  rw [detach_of_owner howner]
  obtain ⟨survivor, -, heq⟩ | ⟨-, f, -, -, heq⟩ := leave_cases h hown hsid
  · simp [heq, hfocus]
  · simp [heq, hfocus]

theorem detach_active_refers (h : Integrity s) (hfocus : s.activeWorkspaceTab ≠ .session sid) :
    (removeSessionFromState s sid).Refers (detach s sid).active := by
  have hrest := h.rest sid
  cases howner : owningWorkspace s sid with
  | none =>
      have heq : (detach s sid).active = s.activeWorkspaceTab ∧
          (detach s sid).workspaces = s.workspaces := by
        unfold detach
        rw [howner]
        exact ⟨if_neg hfocus, rfl⟩
      rw [heq.1]
      refine refers_gone ?_ hfocus
      rw [heq.2]
      exact h.active
  | some owning =>
      obtain ⟨hown, hsid⟩ := owningWorkspace_eq_some howner
      have hdetach := detach_of_owner howner
      obtain ⟨survivor, -, heq⟩ | ⟨-, f, hid, -, heq⟩ := leave_cases h hown hsid
      · by_cases hactive : s.activeWorkspaceTab = .workspace owning.id
        · have hitem : .session survivor ∈ (detach s sid).tabStrip := by
            rw [hdetach, heq]
            exact (spliceIn_perm _ _ _).symm.subset List.mem_cons_self
          have := hrest.items_gone hitem
          rwa [hdetach, heq, if_pos hactive]
        · have hstays : (detach s sid).active = s.activeWorkspaceTab := by
            rw [hdetach, heq, if_neg hactive]
          rw [hstays]
          refine refers_gone (h.active.withWorkspaces ?_) hfocus
          intro x htab hx
          rw [hdetach, heq, mem_ids_others]
          refine ⟨hx, ?_⟩
          rintro rfl
          exact hactive htab
      · have hstays : (detach s sid).active = s.activeWorkspaceTab := by rw [hdetach, heq]
        rw [hstays]
        refine refers_gone (h.active.withWorkspaces ?_) hfocus
        intro x _ hx
        rwa [hdetach, heq, ids_map hid]

/-- The tab that is active afterwards is about something that is there, unless the focus cannot
leave the session. -/
theorem active_gone_iff (h : Integrity s) (sid : String) :
    (removeSessionFromState s sid).Refers (removeSessionFromState s sid).activeWorkspaceTab ↔
      (s.activeWorkspaceTab = .session sid →
        ∀ owning ∈ s.workspaces, sid ∈ owning.sessions → Returns s sid owning) := by
  have hrest := h.rest sid
  have hitems : ∀ item ∈ (detach s sid).tabStrip,
      (removeSessionFromState s sid).Refers item.tabId := fun item hitem => hrest.items_gone hitem
  have hresolved : ∀ target resolved, resolveSessionReturnTarget
      { s with tabStrip := (detach s sid).tabStrip, workspaces := (detach s sid).workspaces }
      target = some resolved →
      (removeSessionFromState s sid).Refers resolved.activeWorkspaceTab :=
    fun target resolved hres => resolveSessionReturnTarget_refers hres hitems rfl rfl
  by_cases hfocus : s.activeWorkspaceTab = .session sid
  · have hstored : storedReturnTarget s sid = s.sessionReturnTargets sid := if_pos hfocus
    cases howner : owningWorkspace s sid with
    | none =>
        have hnot := owningWorkspace_eq_none.mp howner
        refine ⟨fun _ _ owning hown hsid => absurd hsid (hnot owning hown), fun _ => ?_⟩
        refine preferDynamic_refers hitems ?_ _
        cases hres : (storedReturnTarget s sid).bind (resolveSessionReturnTarget
          { s with tabStrip := (detach s sid).tabStrip, workspaces := (detach s sid).workspaces })
        with
        | none =>
            have hnext : (detach s sid).active = resolveNextVisibleTab (detach s sid).tabStrip
                ((standaloneIndex s sid).getD (detach s sid).tabStrip.length) := by
              unfold detach
              rw [howner]
              exact if_pos hfocus
            simp only [Option.map_none, Option.getD_none]
            rw [hnext]
            exact resolveNextVisibleTab_refers hitems _
        | some resolved =>
            obtain ⟨target, -, hres⟩ := Option.bind_eq_some_iff.mp hres
            exact hresolved target resolved hres
    | some owning =>
        obtain ⟨hown, hsid⟩ := owningWorkspace_eq_some howner
        have hreturns : (s.activeWorkspaceTab = .session sid →
            ∀ owning ∈ s.workspaces, sid ∈ owning.sessions → Returns s sid owning) ↔
            Returns s sid owning := by
          constructor
          · exact fun hall => hall hfocus owning hown hsid
          · intro hone _ w hw hx
            rwa [h.owner_unique hw hown hx hsid]
        rw [hreturns, returns_iff h hown hsid, ← detach_of_owner howner, ← hstored]
        cases hres : (storedReturnTarget s sid).bind (resolveSessionReturnTarget
          { s with tabStrip := (detach s sid).tabStrip, workspaces := (detach s sid).workspaces })
        with
        | none =>
            have hactive : (removeSessionFromState s sid).activeWorkspaceTab = .session sid := by
              unfold removeSessionFromState
              simp only [hres, Option.map_none, Option.getD_none,
                detach_active_of_owner h howner hfocus]
              rfl
            rw [hactive]
            simpa using not_refers_gone
        | some resolved =>
            obtain ⟨target, -, htarget⟩ := Option.bind_eq_some_iff.mp hres
            refine ⟨fun _ => rfl, fun _ => preferDynamic_refers hitems ?_ _⟩
            rw [hres]
            exact hresolved target resolved htarget
  · refine ⟨fun _ hactive => absurd hactive hfocus, fun _ => ?_⟩
    have hstored : storedReturnTarget s sid = none := if_neg hfocus
    refine preferDynamic_refers hitems ?_ _
    rw [hstored]
    exact detach_active_refers h hfocus

theorem integrity_gone_iff (h : Integrity s) (sid : String) :
    Integrity (removeSessionFromState s sid) ↔
      (s.activeWorkspaceTab = .session sid →
        ∀ owning ∈ s.workspaces, sid ∈ owning.sessions → Returns s sid owning) := by
  have hrest := h.rest sid
  refine ⟨fun hgone => (active_gone_iff h sid).mp hgone.active, fun hfocus => ?_⟩
  have hmem : ∀ x, x ∈ (removeSessionFromState s sid).tabs.map (·.sessionId) →
      x ∈ s.tabs.map (·.sessionId) ∧ x ≠ sid := by
    intro x hx
    obtain ⟨t, ht, rfl⟩ := List.mem_map.mp hx
    obtain ⟨ht, hne⟩ := List.mem_filter.mp ht
    exact ⟨List.mem_map_of_mem ht, by simpa using hne⟩
  have hws : ∀ w' ∈ (removeSessionFromState s sid).workspaces, ∃ w ∈ s.workspaces, w.id = w'.id ∧
      w'.sessions = w.sessions.filter (· ≠ sid) ∧ 2 ≤ w'.sessions.length ∧
      w'.activeSessionId ∈ w'.sessions := hrest.workspaces
  constructor
  · intro x hx
    obtain ⟨hx, hne⟩ := hmem x hx
    exact (hrest.placed x hne).trans (h.placed x hx)
  · exact fun item hitem => hrest.items_gone hitem
  · exact (active_gone_iff h sid).mpr hfocus
  · intro w' hw'
    obtain ⟨w, -, -, -, -, hactive⟩ := hws w' hw'
    exact hactive
  · intro w' hw'
    obtain ⟨w, -, -, -, htwo, -⟩ := hws w' hw'
    exact htwo
  · intro w' hw' x hx
    obtain ⟨w, hw, -, hsessions, -⟩ := hws w' hw'
    rw [hsessions] at hx
    obtain ⟨hx, hne⟩ := List.mem_filter.mp hx
    obtain ⟨t, ht, rfl⟩ := List.mem_map.mp (h.leaves w hw x hx)
    exact List.mem_map_of_mem (List.mem_filter.mpr ⟨ht, by simpa using hne⟩)
  · exact hrest.ids

theorem dropHostKeyPrompts_sessionId {pending : Option SessionPrompt}
    {queue : List SessionPrompt} {prompt : SessionPrompt}
    (h : prompt ∈ (dropHostKeyPromptsForSession pending queue sid).1.toList ++
      (dropHostKeyPromptsForSession pending queue sid).2) : prompt.sessionId ≠ some sid := by
  have hqueued : ∀ p ∈ queue.filter fun prompt => prompt.sessionId ≠ some sid,
      p.sessionId ≠ some sid := fun p hp => by simpa using (List.mem_filter.mp hp).2
  unfold dropHostKeyPromptsForSession at h
  simp only at h
  split at h
  · next hne =>
    obtain hmem | hmem := List.mem_append.mp h
    · have hpending : pending = some prompt := Option.mem_toList.mp hmem
      rw [hpending] at hne
      exact hne
    · exact hqueued prompt hmem
  · refine hqueued prompt ?_
    obtain hmem | hmem := List.mem_append.mp h
    · exact List.mem_of_mem_head? (Option.mem_toList.mp hmem)
    · exact List.mem_of_mem_tail hmem

theorem clearPrompt_sessionId {pending : Option SessionPrompt} {prompt : SessionPrompt}
    (h : prompt ∈ (clearPrompt pending sid).toList) : prompt.sessionId ≠ some sid := by
  unfold clearPrompt at h
  split at h
  · cases h
  · next hne =>
    rw [Option.mem_toList.mp h] at hne
    exact hne

theorem prompts_gone_iff :
    sid ∉ (removeSessionFromState s sid).promptSessions ↔
      (∀ auth ∈ s.pendingInteractiveAuths, auth.sessionId? = some sid → auth = .ssh sid) ∧
        ∀ prompt, s.pendingRdpCertificatePrompt = some prompt → prompt.sessionId ≠ sid := by
  have hprompts : ∀ prompt ∈ (removeSessionFromState s sid).pendingHostKeyPrompt.toList ++
      (removeSessionFromState s sid).queuedHostKeyPrompts ++
      (removeSessionFromState s sid).pendingCredentialRetry.toList ++
      (removeSessionFromState s sid).activeCredentialRetryAttempt.toList,
      prompt.sessionId ≠ some sid := by
    intro prompt hprompt
    obtain hprompt | hprompt := List.mem_append.mp hprompt
    · obtain hprompt | hprompt := List.mem_append.mp hprompt
      · exact dropHostKeyPrompts_sessionId hprompt
      · exact clearPrompt_sessionId hprompt
    · exact clearPrompt_sessionId hprompt
  have hattempts : sid ∉ (removeSessionFromState s sid).pendingConnectionAttempts.map
      (·.sessionId) := by
    intro hmem
    obtain ⟨attempt, hattempt, heq⟩ := List.mem_map.mp hmem
    have hne := (List.mem_filter.mp hattempt).2
    simp [heq] at hne
  have hauths : sid ∈ (removeSessionFromState s sid).pendingInteractiveAuths.filterMap
      (·.sessionId?) ↔
      ∃ auth ∈ s.pendingInteractiveAuths, auth ≠ .ssh sid ∧ auth.sessionId? = some sid := by
    simp [removeSessionFromState, clearSessionPendingInteractiveAuth, and_assoc]
  have hcertificate : sid ∈ (removeSessionFromState s sid).pendingRdpCertificatePrompt.toList.map
      (·.sessionId) ↔
      ∃ prompt, s.pendingRdpCertificatePrompt = some prompt ∧ prompt.sessionId = sid := by
    simp [removeSessionFromState]
  unfold AppState.promptSessions
  rw [List.mem_append, List.mem_append, List.mem_append, hauths, hcertificate]
  constructor
  · intro hnot
    refine ⟨fun auth hauth hsession => ?_, fun prompt hprompt heq => ?_⟩
    · by_contra hne
      exact hnot (.inl (.inr ⟨auth, hauth, hne, hsession⟩))
    · exact hnot (.inl (.inl (.inr ⟨prompt, hprompt, heq⟩)))
  · rintro ⟨hssh, hother⟩ (((hmem | ⟨prompt, hprompt, heq⟩) | ⟨auth, hauth, hne, hsession⟩) | hmem)
    · obtain ⟨prompt, hprompt, heq⟩ := List.mem_filterMap.mp hmem
      exact hprompts prompt hprompt heq
    · exact hother prompt hprompt heq
    · exact hne (hssh auth hauth hsession)
    · exact hattempts hmem

theorem removed_session_is_gone_iff (s : AppState) (sessionId : String) (h : Integrity s) :
    (Integrity (removeSessionFromState s sessionId) ∧
        Gone (removeSessionFromState s sessionId) sessionId ∧
        OrderKept s (removeSessionFromState s sessionId) sessionId) ↔
      Leaves s sessionId := by
  have hrest := h.rest sessionId
  constructor
  · rintro ⟨hintact, hgone, -⟩
    obtain ⟨hauths, hcertificate⟩ := prompts_gone_iff.mp hgone.prompts
    exact ⟨hauths, hcertificate, (integrity_gone_iff h sessionId).mp hintact⟩
  · intro hleaves
    have hintact := (integrity_gone_iff h sessionId).mpr hleaves.focus
    refine ⟨hintact, ?_, ?_⟩
    · constructor
      · exact not_refers_gone
      · intro hitem
        exact not_refers_gone (hintact.items _ hitem)
      · intro w hw hx
        exact not_refers_gone (hintact.leaves w hw sessionId hx)
      · intro hactive
        have := hintact.active
        rw [hactive] at this
        exact not_refers_gone this
      · exact prompts_gone_iff.mpr ⟨hleaves.auths, hleaves.certificate⟩
    · constructor
      · rfl
      · intro w' hw'
        obtain ⟨w, hw, hid, hsessions, -⟩ := hrest.workspaces w' hw'
        exact ⟨w, hw, hid, hsessions⟩
      · exact hrest.order

def sampleState : AppState where
  tabs := [⟨"a"⟩, ⟨"b"⟩, ⟨"c"⟩]
  workspaces := [⟨"w", .split "n" (.leaf "l" "b") (.leaf "r" "c"), "c"⟩]
  tabStrip := [.session "a", .workspace "w"]
  activeWorkspaceTab := .workspace "w"
  pendingInteractiveAuths := [.ssh "c", .vncTunnel "e" "a"]

theorem sampleState_integrity : Integrity sampleState where
  placed := by decide
  items := by decide
  active := by decide
  activeLeaf := by decide
  shared := by decide
  leaves := by decide
  ids := by decide

theorem split_session_is_gone :
    Integrity sampleState ∧ (Integrity (removeSessionFromState sampleState "c") ∧
      Gone (removeSessionFromState sampleState "c") "c" ∧
      OrderKept sampleState (removeSessionFromState sampleState "c") "c") :=
  ⟨sampleState_integrity,
    (removed_session_is_gone_iff sampleState "c" sampleState_integrity).mpr
      ⟨by decide, by simp [sampleState], by simp [sampleState]⟩⟩

/-- The tunnel of a desktop still asks after its tab is closed. -/
theorem tunnel_question_outlives_session :
    Integrity sampleState ∧ ¬ Gone (removeSessionFromState sampleState "a") "a" :=
  ⟨sampleState_integrity, fun hgone => hgone.prompts (by decide)⟩

end Dolgate.WorkspaceTabs
