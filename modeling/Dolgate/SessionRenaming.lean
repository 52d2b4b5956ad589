import Dolgate.WorkspaceLayouts
import Dolgate.WorkspaceTabs

set_option autoImplicit false

/-! A session that gets another identifier, and all that is kept under the old one. -/

namespace Dolgate.SessionRenaming

open WorkspaceLayouts (WorkspaceLayoutNode)
open WorkspaceTabs (WorkspaceTabId HomeSection DynamicTabStripItem SessionReturnTarget
  PendingInteractiveAuth SessionPrompt OfSession delete)

abbrev Layout := WorkspaceLayoutNode String String ℚ

structure TerminalTab where
  id : String
  stableId : String
  sessionId : String
  hostId : Option String := none
  title : String := ""
  /-- `tmux.controlSessionId`, where the tab is a pane of tmux. -/
  controlSessionId : Option String := none
  same : id = sessionId

structure WorkspaceTab where
  id : String
  title : String := ""
  layout : Layout
  activeSessionId : String
  broadcastEnabled : Bool := false
  broadcastExcludedSessionIds : List String := []
  zoomedSessionId : Option String := none
  /-- `tmux.controlSessionId`, where the workspace is a window of tmux. -/
  controlSessionId : Option String := none

structure TmuxSessionGroup where
  id : String
  controlSessionId : String
  activeWorkspaceId : String
  reconnectSessionId : Option String := none

structure ConnectionView where
  key : String
  status : String

@[ext]
structure AppState where
  tabs : List TerminalTab := []
  sessionShareChatNotifications : String → Option (List String) := fun _ => none
  workspaces : List WorkspaceTab := []
  tmuxGroups : List TmuxSessionGroup := []
  tmuxCommandPrompt : Option OfSession := none
  tabStrip : List DynamicTabStripItem := []
  activeContainerHostId : Option String := none
  activeWorkspaceTab : WorkspaceTabId := .home
  homeSection : HomeSection := .hosts
  settingsSection : String := "general"
  pendingHostKeyPrompt : Option SessionPrompt := none
  queuedHostKeyPrompts : List SessionPrompt := []
  connectionViews : String → Option ConnectionView := fun _ => none
  pendingRdpCertificatePrompt : Option OfSession := none
  pendingCredentialRetry : Option SessionPrompt := none
  activeCredentialRetryAttempt : Option SessionPrompt := none
  pendingInteractiveAuths : List PendingInteractiveAuth := []
  pendingConnectionAttempts : List OfSession := []
  resolvedStartupCommandsBySessionId : String → Option String := fun _ => none
  sessionReturnTargets : String → Option SessionReturnTarget := fun _ => none
  sessionContainerTunnels : String → Option (List String) := fun _ => none
  aiConversations : String → Option (List String) := fun _ => none
  sessionPanelSectionBySessionId : String → Option (Option String) := fun _ => none

/-! ### The replacement -/

def replaceSessionIdInLayout (previousSessionId nextSessionId : String) : Layout → Layout
  | .leaf id sessionId cols rows =>
      if sessionId = previousSessionId then .leaf id nextSessionId cols rows
      else .leaf id sessionId cols rows
  | .split id axis ratio first second =>
      .split id axis ratio (replaceSessionIdInLayout previousSessionId nextSessionId first)
        (replaceSessionIdInLayout previousSessionId nextSessionId second)

/-- `remap`, and the same for the credentials to try again. -/
def remap (previousSessionId nextSessionId : String) (prompt : SessionPrompt) : SessionPrompt :=
  if prompt.sessionId = some previousSessionId then { prompt with sessionId := some nextSessionId }
  else prompt

def moveKey {α : Type} (record : String → Option α) (previousKey nextKey : String) :
    String → Option α :=
  match record previousKey with
  | none => delete record previousKey
  | some value => Function.update (delete record previousKey) nextKey (some value)

def replaceSessionReferencesInState (s : AppState) (previousSessionId nextSessionId : String)
    (transformTab : TerminalTab → TerminalTab := id) : AppState :=
  { s with
    tabs := s.tabs.map fun tab =>
      if tab.sessionId ≠ previousSessionId then tab
      else transformTab { tab with id := nextSessionId, sessionId := nextSessionId, same := rfl }
    tabStrip := s.tabStrip.map fun item =>
      if item = .session previousSessionId then .session nextSessionId else item
    workspaces := s.workspaces.map fun workspace =>
      { workspace with
        layout := replaceSessionIdInLayout previousSessionId nextSessionId workspace.layout
        activeSessionId :=
          if workspace.activeSessionId = previousSessionId then nextSessionId
          else workspace.activeSessionId }
    activeWorkspaceTab :=
      if s.activeWorkspaceTab = .session previousSessionId then .session nextSessionId
      else s.activeWorkspaceTab
    pendingHostKeyPrompt := s.pendingHostKeyPrompt.map (remap previousSessionId nextSessionId)
    queuedHostKeyPrompts := s.queuedHostKeyPrompts.map (remap previousSessionId nextSessionId)
    pendingCredentialRetry := s.pendingCredentialRetry.map (remap previousSessionId nextSessionId)
    activeCredentialRetryAttempt :=
      s.activeCredentialRetryAttempt.map (remap previousSessionId nextSessionId)
    pendingInteractiveAuths := s.pendingInteractiveAuths.map fun auth =>
      if auth = .ssh previousSessionId then .ssh nextSessionId else auth
    sessionReturnTargets := moveKey s.sessionReturnTargets previousSessionId nextSessionId
    resolvedStartupCommandsBySessionId :=
      moveKey s.resolvedStartupCommandsBySessionId previousSessionId nextSessionId }

/-! ### Renaming everything

A renaming of sessions is a permutation of their identifiers. -/

section Renaming

variable (f : Equiv.Perm String)

def renameLayout : Layout → Layout
  | .leaf id sessionId cols rows => .leaf id (f sessionId) cols rows
  | .split id axis ratio first second =>
      .split id axis ratio (renameLayout first) (renameLayout second)

def renameTabId : WorkspaceTabId → WorkspaceTabId
  | .session sessionId => .session (f sessionId)
  | tab => tab

def renameItem : DynamicTabStripItem → DynamicTabStripItem
  | .session sessionId => .session (f sessionId)
  | item => item

def renameAuth : PendingInteractiveAuth → PendingInteractiveAuth
  | .ssh sessionId => .ssh (f sessionId)
  | .keyInstall sessionId => .keyInstall (f sessionId)
  | .vncTunnel endpointId sessionId => .vncTunnel endpointId (f sessionId)
  | auth => auth

def renamePrompt (prompt : SessionPrompt) : SessionPrompt :=
  { prompt with sessionId := prompt.sessionId.map f }

def renameOf (x : OfSession) : OfSession := ⟨f x.sessionId⟩

def renameKeys {α : Type} (record : String → Option α) : String → Option α :=
  fun key => record (f.symm key)

def renameTarget (target : SessionReturnTarget) : SessionReturnTarget :=
  { target with activeWorkspaceTab := renameTabId f target.activeWorkspaceTab }

def TerminalTab.rename (tab : TerminalTab) : TerminalTab :=
  { tab with
    id := f tab.id, sessionId := f tab.sessionId
    controlSessionId := tab.controlSessionId.map f, same := congrArg f tab.same }

def WorkspaceTab.rename (workspace : WorkspaceTab) : WorkspaceTab :=
  { workspace with
    layout := renameLayout f workspace.layout
    activeSessionId := f workspace.activeSessionId
    broadcastExcludedSessionIds := workspace.broadcastExcludedSessionIds.map f
    zoomedSessionId := workspace.zoomedSessionId.map f
    controlSessionId := workspace.controlSessionId.map f }

def TmuxSessionGroup.rename (group : TmuxSessionGroup) : TmuxSessionGroup :=
  { group with
    controlSessionId := f group.controlSessionId
    reconnectSessionId := group.reconnectSessionId.map f }

def ConnectionView.rename (view : ConnectionView) : ConnectionView :=
  { view with key := f view.key }

def AppState.rename (s : AppState) : AppState :=
  { s with
    tabs := s.tabs.map (·.rename f)
    sessionShareChatNotifications := renameKeys f s.sessionShareChatNotifications
    workspaces := s.workspaces.map (·.rename f)
    tmuxGroups := s.tmuxGroups.map (·.rename f)
    tmuxCommandPrompt := s.tmuxCommandPrompt.map (renameOf f)
    tabStrip := s.tabStrip.map (renameItem f)
    activeWorkspaceTab := renameTabId f s.activeWorkspaceTab
    pendingHostKeyPrompt := s.pendingHostKeyPrompt.map (renamePrompt f)
    queuedHostKeyPrompts := s.queuedHostKeyPrompts.map (renamePrompt f)
    connectionViews := fun key => (renameKeys f s.connectionViews key).map (·.rename f)
    pendingRdpCertificatePrompt := s.pendingRdpCertificatePrompt.map (renameOf f)
    pendingCredentialRetry := s.pendingCredentialRetry.map (renamePrompt f)
    activeCredentialRetryAttempt := s.activeCredentialRetryAttempt.map (renamePrompt f)
    pendingInteractiveAuths := s.pendingInteractiveAuths.map (renameAuth f)
    pendingConnectionAttempts := s.pendingConnectionAttempts.map (renameOf f)
    resolvedStartupCommandsBySessionId := renameKeys f s.resolvedStartupCommandsBySessionId
    sessionReturnTargets := fun key =>
      (renameKeys f s.sessionReturnTargets key).map (renameTarget f)
    sessionContainerTunnels := renameKeys f s.sessionContainerTunnels
    aiConversations := renameKeys f s.aiConversations
    sessionPanelSectionBySessionId := renameKeys f s.sessionPanelSectionBySessionId }

end Renaming

structure AppState.FreeBeside (s : AppState) (id : String) : Prop where
  panes : ∀ tab ∈ s.tabs, tab.controlSessionId ≠ some id
  notifications : s.sessionShareChatNotifications id = none
  excluded : ∀ workspace ∈ s.workspaces, id ∉ workspace.broadcastExcludedSessionIds
  zoomed : ∀ workspace ∈ s.workspaces, workspace.zoomedSessionId ≠ some id
  windows : ∀ workspace ∈ s.workspaces, workspace.controlSessionId ≠ some id
  groups : ∀ group ∈ s.tmuxGroups,
    group.controlSessionId ≠ id ∧ group.reconnectSessionId ≠ some id
  commandPrompt : s.tmuxCommandPrompt ≠ some ⟨id⟩
  viewKeys : s.connectionViews id = none
  views : ∀ key view, s.connectionViews key = some view → view.key ≠ id
  certificate : s.pendingRdpCertificatePrompt ≠ some ⟨id⟩
  auths : ∀ auth ∈ s.pendingInteractiveAuths, auth.sessionId? = some id → auth = .ssh id
  targets : ∀ key target, s.sessionReturnTargets key = some target →
    target.activeWorkspaceTab ≠ .session id
  tunnels : s.sessionContainerTunnels id = none
  conversations : s.aiConversations id = none
  sections : s.sessionPanelSectionBySessionId id = none

structure AppState.FreeWithin (s : AppState) (id : String) : Prop where
  tabs : ∀ tab ∈ s.tabs, tab.sessionId ≠ id
  strip : DynamicTabStripItem.session id ∉ s.tabStrip
  leaves : ∀ workspace ∈ s.workspaces,
    id ∉ WorkspaceLayouts.listWorkspaceSessionIds workspace.layout
  activeSessions : ∀ workspace ∈ s.workspaces, workspace.activeSessionId ≠ id
  active : s.activeWorkspaceTab ≠ .session id
  hostKey : ∀ prompt ∈ s.pendingHostKeyPrompt, prompt.sessionId ≠ some id
  queued : ∀ prompt ∈ s.queuedHostKeyPrompts, prompt.sessionId ≠ some id
  retry : ∀ prompt ∈ s.pendingCredentialRetry, prompt.sessionId ≠ some id
  attempt : ∀ prompt ∈ s.activeCredentialRetryAttempt, prompt.sessionId ≠ some id
  ssh : PendingInteractiveAuth.ssh id ∉ s.pendingInteractiveAuths
  commands : s.resolvedStartupCommandsBySessionId id = none
  returns : s.sessionReturnTargets id = none

structure AppState.Free (s : AppState) (id : String) : Prop
    extends s.FreeBeside id, s.FreeWithin id where
  attempts : ∀ attempt ∈ s.pendingConnectionAttempts, attempt.sessionId ≠ id

/-! ### Renaming one session -/

variable {previousSessionId nextSessionId sessionId : String} {s : AppState}

theorem swap_eq (hnext : sessionId ≠ nextSessionId) :
    (if sessionId = previousSessionId then nextSessionId else sessionId) =
      Equiv.swap previousSessionId nextSessionId sessionId := by
  rw [Equiv.swap_apply_def, if_neg hnext]

theorem swap_option {o : Option String} (hprevious : o ≠ some previousSessionId)
    (hnext : o ≠ some nextSessionId) :
    o.map (Equiv.swap previousSessionId nextSessionId) = o := by
  cases o with
  | none => rfl
  | some id =>
    rw [Option.map_some, Equiv.swap_apply_of_ne_of_ne]
    · exact fun h => hprevious (congrArg some h)
    · exact fun h => hnext (congrArg some h)

theorem swap_list {ids : List String} (hprevious : previousSessionId ∉ ids)
    (hnext : nextSessionId ∉ ids) :
    ids.map (Equiv.swap previousSessionId nextSessionId) = ids := by
  refine (List.map_congr_left fun id hid => ?_).trans (List.map_id ids)
  refine Equiv.swap_apply_of_ne_of_ne ?_ ?_
  · exact fun h => hprevious (h ▸ hid)
  · exact fun h => hnext (h ▸ hid)

theorem renameKeys_swap {α : Type} {record : String → Option α}
    (hprevious : record previousSessionId = none) (hnext : record nextSessionId = none) :
    renameKeys (Equiv.swap previousSessionId nextSessionId) record = record := by
  funext key
  rw [renameKeys, Equiv.symm_swap, Equiv.swap_apply_def]
  split_ifs with h h'
  · rw [h, hprevious, hnext]
  · rw [h', hprevious, hnext]
  · rfl

theorem moveKey_eq {α : Type} {record : String → Option α} (hnext : record nextSessionId = none) :
    moveKey record previousSessionId nextSessionId =
      renameKeys (Equiv.swap previousSessionId nextSessionId) record := by
  funext key
  have hdelete : delete record previousSessionId nextSessionId = none := by
    rw [delete]
    split_ifs
    · rfl
    · exact hnext
  rw [renameKeys, Equiv.symm_swap, moveKey]
  by_cases hkey : key = nextSessionId
  · rw [hkey, Equiv.swap_apply_right]
    cases record previousSessionId with
    | none => exact hdelete
    | some value => exact Function.update_self _ _ _
  · have hmoved : (match record previousSessionId with
        | none => delete record previousSessionId
        | some value => Function.update (delete record previousSessionId) nextSessionId
            (some value)) key = delete record previousSessionId key := by
      cases record previousSessionId with
      | none => rfl
      | some value => exact Function.update_of_ne hkey _ _
    rw [hmoved, delete]
    split_ifs with h
    · rw [h, Equiv.swap_apply_left, hnext]
    · rw [Equiv.swap_apply_of_ne_of_ne h hkey]

theorem replaceSessionIdInLayout_eq {layout : Layout}
    (hnext : nextSessionId ∉ WorkspaceLayouts.listWorkspaceSessionIds layout) :
    replaceSessionIdInLayout previousSessionId nextSessionId layout =
      renameLayout (Equiv.swap previousSessionId nextSessionId) layout := by
  induction layout with
  | leaf leafId sessionId cols rows =>
    have hne : sessionId ≠ nextSessionId := fun h => hnext (List.mem_singleton.mpr h.symm)
    rw [replaceSessionIdInLayout, renameLayout, ← swap_eq hne]
    split_ifs <;> rfl
  | split splitId axis ratio first second ihfirst ihsecond =>
    obtain ⟨hfirst, hsecond⟩ := not_or.mp fun h => hnext (List.mem_append.mpr h)
    rw [replaceSessionIdInLayout, renameLayout, ihfirst hfirst, ihsecond hsecond]

theorem remap_eq {prompt : SessionPrompt} (hnext : prompt.sessionId ≠ some nextSessionId) :
    remap previousSessionId nextSessionId prompt =
      renamePrompt (Equiv.swap previousSessionId nextSessionId) prompt := by
  obtain ⟨sessionId, hostId⟩ := prompt
  unfold remap renamePrompt
  dsimp only at hnext ⊢
  split_ifs with h
  · rw [h, Option.map_some, Equiv.swap_apply_left]
  · rw [swap_option h hnext]

theorem remap_option {prompt : Option SessionPrompt}
    (hnext : ∀ p ∈ prompt, p.sessionId ≠ some nextSessionId) :
    prompt.map (remap previousSessionId nextSessionId) =
      prompt.map (renamePrompt (Equiv.swap previousSessionId nextSessionId)) := by
  cases prompt with
  | none => rfl
  | some prompt => exact congrArg some (remap_eq (hnext prompt rfl))

theorem renameTabId_swap {tab : WorkspaceTabId} (hnext : tab ≠ .session nextSessionId) :
    (if tab = .session previousSessionId then .session nextSessionId else tab) =
      renameTabId (Equiv.swap previousSessionId nextSessionId) tab := by
  cases tab with
  | session id =>
    have hne : id ≠ nextSessionId := fun h => hnext (congrArg _ h)
    rw [renameTabId, ← swap_eq hne]
    simp only [WorkspaceTabId.session.injEq]
    split_ifs <;> rfl
  | _ => rfl

theorem renameItem_swap {item : DynamicTabStripItem} (hnext : item ≠ .session nextSessionId) :
    (if item = .session previousSessionId then .session nextSessionId else item) =
      renameItem (Equiv.swap previousSessionId nextSessionId) item := by
  cases item with
  | session id =>
    have hne : id ≠ nextSessionId := fun h => hnext (congrArg _ h)
    rw [renameItem, ← swap_eq hne]
    simp only [DynamicTabStripItem.session.injEq]
    split_ifs <;> rfl
  | _ => rfl

theorem renameAuth_swap {auth : PendingInteractiveAuth}
    (hprevious : auth.sessionId? = some previousSessionId → auth = .ssh previousSessionId)
    (hnext : auth.sessionId? ≠ some nextSessionId) :
    (if auth = .ssh previousSessionId then .ssh nextSessionId else auth) =
      renameAuth (Equiv.swap previousSessionId nextSessionId) auth := by
  by_cases h : auth.sessionId? = some previousSessionId
  · rw [hprevious h, if_pos rfl, renameAuth, Equiv.swap_apply_left]
  · have hssh : auth ≠ .ssh previousSessionId := by
      rintro rfl
      exact h rfl
    rw [if_neg hssh]
    cases auth with
    | ssh id =>
      rw [renameAuth, Equiv.swap_apply_of_ne_of_ne]
      · exact fun heq => h (congrArg some heq)
      · exact fun heq => hnext (congrArg some heq)
    | keyInstall id =>
      rw [renameAuth, Equiv.swap_apply_of_ne_of_ne]
      · exact fun heq => h (congrArg some heq)
      · exact fun heq => hnext (congrArg some heq)
    | vncTunnel endpointId id =>
      rw [renameAuth, Equiv.swap_apply_of_ne_of_ne]
      · exact fun heq => h (congrArg some heq)
      · exact fun heq => hnext (congrArg some heq)
    | _ => rfl

theorem renameTabId_fixed {tab : WorkspaceTabId} (hprevious : tab ≠ .session previousSessionId)
    (hnext : tab ≠ .session nextSessionId) :
    renameTabId (Equiv.swap previousSessionId nextSessionId) tab = tab := by
  rw [← renameTabId_swap hnext, if_neg hprevious]

theorem renameOf_fixed {x : Option OfSession} (hprevious : x ≠ some ⟨previousSessionId⟩)
    (hnext : x ≠ some ⟨nextSessionId⟩) :
    x.map (renameOf (Equiv.swap previousSessionId nextSessionId)) = x := by
  cases x with
  | none => rfl
  | some x =>
    rw [Option.map_some, renameOf, Equiv.swap_apply_of_ne_of_ne]
    · exact fun h => hprevious (congrArg (fun id => some (OfSession.mk id)) h)
    · exact fun h => hnext (congrArg (fun id => some (OfSession.mk id)) h)

theorem workspace_renamed {workspace : WorkspaceTab} (hprevious : s.FreeBeside previousSessionId)
    (hnext : s.Free nextSessionId) (hmem : workspace ∈ s.workspaces) :
    { workspace with
      layout := replaceSessionIdInLayout previousSessionId nextSessionId workspace.layout
      activeSessionId :=
        if workspace.activeSessionId = previousSessionId then nextSessionId
        else workspace.activeSessionId } =
      workspace.rename (Equiv.swap previousSessionId nextSessionId) := by
  unfold WorkspaceTab.rename
  rw [replaceSessionIdInLayout_eq (hnext.leaves workspace hmem),
    swap_eq (hnext.activeSessions workspace hmem),
    swap_list (hprevious.excluded workspace hmem) (hnext.excluded workspace hmem),
    swap_option (hprevious.zoomed workspace hmem) (hnext.zoomed workspace hmem),
    swap_option (hprevious.windows workspace hmem) (hnext.windows workspace hmem)]

theorem tab_renamed {tab : TerminalTab} (transformTab : TerminalTab → TerminalTab)
    (hprevious : s.FreeBeside previousSessionId) (hnext : s.Free nextSessionId)
    (hmem : tab ∈ s.tabs) :
    (if tab.sessionId ≠ previousSessionId then tab
      else transformTab { tab with id := nextSessionId, sessionId := nextSessionId, same := rfl }) =
      (fun tab : TerminalTab => if tab.sessionId = nextSessionId then transformTab tab else tab)
        (tab.rename (Equiv.swap previousSessionId nextSessionId)) := by
  have hpane := swap_option (hprevious.panes tab hmem) (hnext.panes tab hmem)
  have hne := hnext.tabs tab hmem
  obtain ⟨tabId, stableId, sessionId, hostId, title, controlSessionId, rfl⟩ := tab
  unfold TerminalTab.rename
  dsimp only at hpane hne ⊢
  rw [hpane]
  by_cases h : tabId = previousSessionId
  · subst h
    simp only [ne_eq, not_true_eq_false, if_false, Equiv.swap_apply_left, if_true]
  · have hfixed := Equiv.swap_apply_of_ne_of_ne h hne
    simp only [ne_eq, h, not_false_eq_true, if_true, hfixed, hne, if_false]

theorem map_values {α : Type} {record : String → Option α} {g : α → α}
    (h : ∀ key value, record key = some value → g value = value) :
    (fun key => (record key).map g) = record := by
  funext key
  cases hrecord : record key with
  | none => rfl
  | some value => exact congrArg some (h key value hrecord)

theorem replace_eq (transformTab : TerminalTab → TerminalTab)
    (hprevious : s.FreeBeside previousSessionId) (hnext : s.Free nextSessionId) :
    replaceSessionReferencesInState s previousSessionId nextSessionId transformTab =
      { s.rename (Equiv.swap previousSessionId nextSessionId) with
        tabs := (s.rename (Equiv.swap previousSessionId nextSessionId)).tabs.map fun tab =>
          if tab.sessionId = nextSessionId then transformTab tab else tab
        pendingConnectionAttempts := s.pendingConnectionAttempts } := by
  apply AppState.ext
  case tabs =>
    refine (List.map_congr_left fun tab hmem => ?_).trans (List.map_map ..).symm
    exact tab_renamed transformTab hprevious hnext hmem
  case sessionShareChatNotifications =>
    exact (renameKeys_swap hprevious.notifications hnext.notifications).symm
  case workspaces =>
    exact List.map_congr_left fun workspace hmem => workspace_renamed hprevious hnext hmem
  case tmuxGroups =>
    refine ((List.map_congr_left fun group hmem => ?_).trans (List.map_id _)).symm
    obtain ⟨hcontrol, hreconnect⟩ := hprevious.groups group hmem
    obtain ⟨hcontrol', hreconnect'⟩ := hnext.groups group hmem
    unfold TmuxSessionGroup.rename
    rw [Equiv.swap_apply_of_ne_of_ne hcontrol hcontrol', swap_option hreconnect hreconnect']
    rfl
  case tmuxCommandPrompt =>
    exact (renameOf_fixed hprevious.commandPrompt hnext.commandPrompt).symm
  case tabStrip =>
    exact List.map_congr_left fun item hmem => renameItem_swap fun h => hnext.strip (h ▸ hmem)
  case activeContainerHostId => rfl
  case activeWorkspaceTab => exact renameTabId_swap hnext.active
  case homeSection => rfl
  case settingsSection => rfl
  case pendingHostKeyPrompt => exact remap_option hnext.hostKey
  case queuedHostKeyPrompts =>
    exact List.map_congr_left fun prompt hmem => remap_eq (hnext.queued prompt hmem)
  case connectionViews =>
    have hkeys := renameKeys_swap hprevious.viewKeys hnext.viewKeys
    have hviews : ∀ key view, s.connectionViews key = some view →
        view.rename (Equiv.swap previousSessionId nextSessionId) = view := by
      intro key view hview
      unfold ConnectionView.rename
      rw [Equiv.swap_apply_of_ne_of_ne (hprevious.views key view hview)
        (hnext.views key view hview)]
    change s.connectionViews = fun key => (renameKeys _ s.connectionViews key).map _
    rw [hkeys, map_values hviews]
  case pendingRdpCertificatePrompt =>
    exact (renameOf_fixed hprevious.certificate hnext.certificate).symm
  case pendingCredentialRetry => exact remap_option hnext.retry
  case activeCredentialRetryAttempt => exact remap_option hnext.attempt
  case pendingInteractiveAuths =>
    refine List.map_congr_left fun auth hmem => renameAuth_swap (hprevious.auths auth hmem) ?_
    intro h
    exact hnext.ssh (hnext.auths auth hmem h ▸ hmem)
  case pendingConnectionAttempts => rfl
  case resolvedStartupCommandsBySessionId => exact moveKey_eq hnext.commands
  case sessionReturnTargets =>
    refine (moveKey_eq hnext.returns).trans (map_values fun key target htarget => ?_).symm
    unfold renameTarget
    rw [renameTabId_fixed (hprevious.targets _ target htarget) (hnext.targets _ target htarget)]
  case sessionContainerTunnels => exact (renameKeys_swap hprevious.tunnels hnext.tunnels).symm
  case aiConversations =>
    exact (renameKeys_swap hprevious.conversations hnext.conversations).symm
  case sessionPanelSectionBySessionId =>
    exact (renameKeys_swap hprevious.sections hnext.sections).symm

/-! ### What is left of the identifier -/

theorem ite_ne {α : Type} [DecidableEq α] {x a b : α} (h : x ≠ b) :
    (if x = a then b else x) ≠ a := by
  split_ifs with hx
  · exact fun hb => h (hx.trans hb.symm)
  · exact hx

theorem not_mem_map_ite {α : Type} [DecidableEq α] {l : List α} {a b : α} (h : b ∉ l) :
    a ∉ l.map fun x => if x = a then b else x := by
  intro hmem
  obtain ⟨x, hx, heq⟩ := List.mem_map.mp hmem
  have hne : x ≠ b := by
    rintro rfl
    exact h hx
  exact ite_ne hne heq

theorem remap_ne {prompt : SessionPrompt} (h : prompt.sessionId ≠ some nextSessionId) :
    (remap previousSessionId nextSessionId prompt).sessionId ≠ some previousSessionId := by
  unfold remap
  split_ifs with hprompt
  · exact fun hnext => h (hprompt.trans hnext.symm)
  · exact hprompt

theorem remap_prompts {prompts : Option SessionPrompt}
    (h : ∀ prompt ∈ prompts, prompt.sessionId ≠ some nextSessionId) :
    ∀ prompt ∈ prompts.map (remap previousSessionId nextSessionId),
      prompt.sessionId ≠ some previousSessionId := by
  intro prompt hmem
  obtain ⟨found, hfound, rfl⟩ := Option.map_eq_some_iff.mp hmem
  exact remap_ne (h found hfound)

theorem moveKey_previous {α : Type} {record : String → Option α}
    (h : record nextSessionId = none) :
    moveKey record previousSessionId nextSessionId previousSessionId = none := by
  rw [moveKey_eq h, renameKeys, Equiv.symm_swap, Equiv.swap_apply_left, h]

theorem listWorkspaceSessionIds_replace (layout : Layout) :
    WorkspaceLayouts.listWorkspaceSessionIds
        (replaceSessionIdInLayout previousSessionId nextSessionId layout) =
      (WorkspaceLayouts.listWorkspaceSessionIds layout).map fun id =>
        if id = previousSessionId then nextSessionId else id := by
  induction layout with
  | leaf leafId sessionId cols rows =>
    rw [replaceSessionIdInLayout]
    split_ifs with h
    · exact congrArg (fun id => [id]) (if_pos h).symm
    · exact congrArg (fun id => [id]) (if_neg h).symm
  | split splitId axis ratio first second ihfirst ihsecond =>
    rw [replaceSessionIdInLayout, WorkspaceLayouts.listWorkspaceSessionIds, ihfirst, ihsecond,
      ← List.map_append]
    rfl

variable {transformTab : TerminalTab → TerminalTab}

theorem freeWithin_replace (hnext : s.Free nextSessionId)
    (htransform : ∀ tab, tab.sessionId = nextSessionId →
      (transformTab tab).sessionId = nextSessionId) :
    (replaceSessionReferencesInState s previousSessionId nextSessionId transformTab).FreeWithin
      previousSessionId := by
  constructor
  case tabs =>
    refine List.forall_mem_map.mpr fun tab hmem => ?_
    split_ifs with h
    · exact h
    · rw [htransform _ rfl, ← not_not.mp h]
      exact (hnext.tabs tab hmem).symm
  case strip => exact not_mem_map_ite hnext.strip
  case leaves =>
    refine List.forall_mem_map.mpr fun workspace hmem => ?_
    rw [listWorkspaceSessionIds_replace]
    exact not_mem_map_ite (hnext.leaves workspace hmem)
  case activeSessions =>
    exact List.forall_mem_map.mpr fun workspace hmem =>
      ite_ne (hnext.activeSessions workspace hmem)
  case active => exact ite_ne hnext.active
  case hostKey => exact remap_prompts hnext.hostKey
  case queued =>
    exact List.forall_mem_map.mpr fun prompt hmem => remap_ne (hnext.queued prompt hmem)
  case retry => exact remap_prompts hnext.retry
  case attempt => exact remap_prompts hnext.attempt
  case ssh => exact not_mem_map_ite hnext.ssh
  case commands => exact moveKey_previous hnext.commands
  case returns => exact moveKey_previous hnext.returns

theorem freeBeside_replace (hprevious : s.FreeBeside previousSessionId)
    (hnext : s.Free nextSessionId)
    (htransform : ∀ tab id, tab.sessionId = nextSessionId →
      (transformTab tab).controlSessionId = some id → tab.controlSessionId = some id) :
    (replaceSessionReferencesInState s previousSessionId nextSessionId transformTab).FreeBeside
      previousSessionId := by
  constructor
  case panes =>
    refine List.forall_mem_map.mpr fun tab hmem => ?_
    split_ifs with h
    · exact hprevious.panes tab hmem
    · intro hpane
      have hcontrol := htransform { tab with
        id := nextSessionId, sessionId := nextSessionId, same := rfl } _ rfl hpane
      exact hprevious.panes tab hmem hcontrol
  case notifications => exact hprevious.notifications
  case excluded => exact List.forall_mem_map.mpr hprevious.excluded
  case zoomed => exact List.forall_mem_map.mpr hprevious.zoomed
  case windows => exact List.forall_mem_map.mpr hprevious.windows
  case groups => exact hprevious.groups
  case commandPrompt => exact hprevious.commandPrompt
  case viewKeys => exact hprevious.viewKeys
  case views => exact hprevious.views
  case certificate => exact hprevious.certificate
  case auths =>
    refine List.forall_mem_map.mpr fun auth hmem hid => ?_
    split_ifs at hid ⊢ with h
    · rw [h] at hmem
      rw [Option.some.inj hid] at hnext
      exact absurd hmem hnext.ssh
    · exact hprevious.auths auth hmem hid
  case targets =>
    intro key target htarget
    change moveKey s.sessionReturnTargets previousSessionId nextSessionId key = _ at htarget
    rw [moveKey_eq hnext.returns] at htarget
    exact hprevious.targets _ target htarget
  case tunnels => exact hprevious.tunnels
  case conversations => exact hprevious.conversations
  case sections => exact hprevious.sections

/-- The identifier is gone from all that a replacement looks at. Where it is in nothing else, the
new one is exactly where it was, and nothing else changes. The attempts to connect are left to the
caller. -/
theorem replace_renames (hnext : s.Free nextSessionId)
    (htransform : ∀ tab, tab.sessionId = nextSessionId →
      (transformTab tab).sessionId = nextSessionId ∧
        ∀ id, (transformTab tab).controlSessionId = some id → tab.controlSessionId = some id) :
    (replaceSessionReferencesInState s previousSessionId nextSessionId transformTab).FreeWithin
        previousSessionId ∧
      (s.FreeBeside previousSessionId →
        (replaceSessionReferencesInState s previousSessionId nextSessionId transformTab).FreeBeside
          previousSessionId ∧
        replaceSessionReferencesInState s previousSessionId nextSessionId transformTab =
          { s.rename (Equiv.swap previousSessionId nextSessionId) with
            tabs := (s.rename (Equiv.swap previousSessionId nextSessionId)).tabs.map fun tab =>
              if tab.sessionId = nextSessionId then transformTab tab else tab
            pendingConnectionAttempts := s.pendingConnectionAttempts }) := by
  refine ⟨freeWithin_replace hnext fun tab htab => (htransform tab htab).1, fun hprevious => ?_⟩
  refine ⟨freeBeside_replace hprevious hnext fun tab id htab => (htransform tab htab).2 id, ?_⟩
  exact replace_eq transformTab hprevious hnext

def connecting : AppState where
  tabs := [{ id := "pending:1", stableId := "tab", sessionId := "pending:1", same := rfl }]
  workspaces := [{ id := "w", layout := .leaf "leaf" "pending:1" none none
                   activeSessionId := "pending:1" }]
  tabStrip := [.workspace "w"]
  activeWorkspaceTab := .session "pending:1"
  pendingInteractiveAuths := [.ssh "pending:1"]
  pendingConnectionAttempts := [⟨"pending:1"⟩]
  sessionReturnTargets := fun key =>
    if key = "pending:1" then some { activeWorkspaceTab := .home } else none

theorem connecting_beside (sessionId : String) : connecting.FreeBeside sessionId := by
  constructor
  case panes =>
    intro tab hmem hpane
    rw [List.mem_singleton.mp hmem] at hpane
    cases hpane
  case excluded =>
    intro workspace hmem
    rw [List.mem_singleton.mp hmem]
    exact List.not_mem_nil
  case zoomed =>
    intro workspace hmem hzoomed
    rw [List.mem_singleton.mp hmem] at hzoomed
    cases hzoomed
  case windows =>
    intro workspace hmem hwindow
    rw [List.mem_singleton.mp hmem] at hwindow
    cases hwindow
  case auths =>
    intro auth hmem hid
    rw [List.mem_singleton.mp hmem] at hid ⊢
    exact congrArg _ (Option.some.inj hid)
  case targets =>
    intro key target htarget
    change (if key = "pending:1" then _ else _) = _ at htarget
    split_ifs at htarget
    rw [← Option.some.inj htarget]
    intro hactive
    cases hactive
  case groups => exact List.forall_mem_nil _
  case views =>
    intro key view hview
    cases hview
  case commandPrompt =>
    intro hprompt
    cases hprompt
  case certificate =>
    intro hprompt
    cases hprompt
  all_goals rfl

theorem connecting_free : connecting.Free "1" := by
  refine { connecting_beside "1" with
    tabs := ?_, strip := ?_, leaves := ?_, activeSessions := ?_, active := ?_, hostKey := ?_
    queued := ?_, retry := ?_, attempt := ?_, ssh := ?_, commands := ?_, returns := ?_
    attempts := ?_ }
  · exact List.forall_mem_singleton.mpr (by decide)
  · decide
  · exact List.forall_mem_singleton.mpr (by decide)
  · exact List.forall_mem_singleton.mpr (by decide)
  · decide
  · intro prompt hmem
    cases hmem
  · exact List.forall_mem_nil _
  · intro prompt hmem
    cases hmem
  · intro prompt hmem
    cases hmem
  · decide
  · rfl
  · rfl
  · exact List.forall_mem_singleton.mpr (by decide)

theorem replace_renames_connecting :
    (replaceSessionReferencesInState connecting "pending:1" "1").FreeWithin "pending:1" ∧
      (replaceSessionReferencesInState connecting "pending:1" "1").FreeBeside "pending:1" ∧
      replaceSessionReferencesInState connecting "pending:1" "1" =
        { connecting.rename (Equiv.swap "pending:1" "1") with
          tabs := (connecting.rename (Equiv.swap "pending:1" "1")).tabs.map fun tab =>
            if tab.sessionId = "1" then id tab else tab
          pendingConnectionAttempts := connecting.pendingConnectionAttempts } :=
  have h := replace_renames connecting_free fun _ htab => ⟨htab, fun _ hpane => hpane⟩
  ⟨h.1, h.2 (connecting_beside "pending:1")⟩

theorem attempts_left : ¬ ∀ (s : AppState) (previousSessionId nextSessionId : String),
    s.Free nextSessionId →
      (replaceSessionReferencesInState s previousSessionId nextSessionId).Free
        previousSessionId := by
  intro h
  exact (h connecting "pending:1" "1" connecting_free).attempts ⟨"pending:1"⟩
    (List.mem_singleton_self _) rfl

end Dolgate.SessionRenaming
