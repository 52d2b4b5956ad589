import Mathlib.Data.List.Basic

set_option autoImplicit false

/-! The tabs of the desktop window and what is left of them when a session goes. -/

namespace Dolgate.WorkspaceTabs

inductive WorkspaceTabId where
  | home
  | sftp
  | containers
  | session (sessionId : String)
  | workspace (workspaceId : String)
  | tmuxGroup (tmuxGroupId : String)
  deriving DecidableEq, Repr

def WorkspaceTabId.isDynamic : WorkspaceTabId → Bool
  | .home | .sftp | .containers => false
  | .session _ | .workspace _ | .tmuxGroup _ => true

inductive HomeSection where
  | hosts
  | portForwarding
  | snippets
  | logs
  | settings
  deriving DecidableEq, Repr

inductive WorkspaceLayoutNode where
  | leaf (id sessionId : String)
  | split (id : String) (first second : WorkspaceLayoutNode)
  deriving DecidableEq, Repr

structure WorkspaceTab where
  id : String
  layout : WorkspaceLayoutNode
  activeSessionId : String
  deriving DecidableEq, Repr

inductive DynamicTabStripItem where
  | session (sessionId : String)
  | workspace (workspaceId : String)
  | tmux (tmuxGroupId : String)
  deriving DecidableEq, Repr

structure SessionReturnTarget where
  activeWorkspaceTab : WorkspaceTabId
  homeSection : Option HomeSection := none
  settingsSection : Option String := none
  /-- Absent, null or a host. -/
  activeContainerHostId : Option (Option String) := none
  deriving DecidableEq, Repr

inductive PendingInteractiveAuth where
  | ssh (sessionId : String)
  | keyInstall (sessionId : String)
  | sftp (endpointId : String)
  | containers (endpointId : String)
  | portForward (endpointId : String)
  | vncTunnel (endpointId sessionId : String)
  deriving DecidableEq, Repr

def PendingInteractiveAuth.sessionId? : PendingInteractiveAuth → Option String
  | .ssh sessionId | .keyInstall sessionId | .vncTunnel _ sessionId => some sessionId
  | .sftp _ | .containers _ | .portForward _ => none

/-- A question that may be about a session: of a host key, or of credentials to try again. -/
structure SessionPrompt where
  sessionId : Option String
  hostId : String
  deriving DecidableEq, Repr

/-- What is kept for a session: its tab, its attempt to connect, its certificate prompt. -/
structure OfSession where
  sessionId : String
  deriving DecidableEq, Repr

structure AppState where
  tabs : List OfSession
  workspaces : List WorkspaceTab := []
  tmuxGroups : List String := []
  containerTabs : List String := []
  activeContainerHostId : Option String := none
  tabStrip : List DynamicTabStripItem
  activeWorkspaceTab : WorkspaceTabId
  homeSection : HomeSection := .hosts
  settingsSection : String := "general"
  sessionShareChatNotifications : String → Option (List String) := fun _ => none
  pendingHostKeyPrompt : Option SessionPrompt := none
  queuedHostKeyPrompts : List SessionPrompt := []
  pendingRdpCertificatePrompt : Option OfSession := none
  pendingCredentialRetry : Option SessionPrompt := none
  activeCredentialRetryAttempt : Option SessionPrompt := none
  pendingInteractiveAuths : List PendingInteractiveAuth := []
  pendingConnectionAttempts : List OfSession := []
  resolvedStartupCommandsBySessionId : String → Option String := fun _ => none
  sessionReturnTargets : String → Option SessionReturnTarget := fun _ => none
  sessionContainerTunnels : String → Option (List String) := fun _ => none

def delete {α : Type} (record : String → Option α) (key : String) : String → Option α :=
  fun k => if k = key then none else record k

/-- `splice(start, 0, item)`. -/
def spliceIn {α : Type} (items : List α) (start : Nat) (item : α) : List α :=
  items.take start ++ item :: items.drop start

def listWorkspaceSessionIds : WorkspaceLayoutNode → List String
  | .leaf _ sessionId => [sessionId]
  | .split _ first second => listWorkspaceSessionIds first ++ listWorkspaceSessionIds second

def findFirstWorkspaceSessionId : WorkspaceLayoutNode → String
  | .leaf _ sessionId => sessionId
  | .split _ first _ => findFirstWorkspaceSessionId first

def removeSessionFromWorkspaceLayout (sessionId : String) :
    WorkspaceLayoutNode → Option WorkspaceLayoutNode
  | .leaf id session => if session = sessionId then none else some (.leaf id session)
  | .split id first second =>
      match removeSessionFromWorkspaceLayout sessionId first,
          removeSessionFromWorkspaceLayout sessionId second with
      | none, none => none
      | none, some second => some second
      | some first, none => some first
      | some first, some second => some (.split id first second)

def DynamicTabStripItem.tabId : DynamicTabStripItem → WorkspaceTabId
  | .session sessionId => .session sessionId
  | .workspace workspaceId => .workspace workspaceId
  | .tmux tmuxGroupId => .tmuxGroup tmuxGroupId

def resolveNextVisibleTab (tabStrip : List DynamicTabStripItem) (removedIndex : Nat) :
    WorkspaceTabId :=
  match tabStrip[removedIndex]?.or
      (if removedIndex = 0 then none else tabStrip[removedIndex - 1]?) with
  | none => .home
  | some item => item.tabId

def resolveSessionReturnTarget (s : AppState) (target : SessionReturnTarget) :
    Option SessionReturnTarget :=
  match target.activeWorkspaceTab with
  | .home =>
      let homeSection := target.homeSection.getD .hosts
      some { activeWorkspaceTab := .home
             homeSection := some homeSection
             settingsSection :=
               if homeSection = .settings then some (target.settingsSection.getD s.settingsSection)
               else none }
  | .sftp => some { activeWorkspaceTab := .sftp }
  | .containers =>
      match s.containerTabs with
      | [] => none
      | first :: _ =>
          let stored := target.activeContainerHostId.join.getD ""
          let current := s.activeContainerHostId.getD ""
          let activeContainerHostId :=
            if stored ∈ s.containerTabs then target.activeContainerHostId.join
            else if current ∈ s.containerTabs then s.activeContainerHostId
            else some first
          match activeContainerHostId with
          | none | some "" => none
          | some hostId =>
              some { activeWorkspaceTab := .containers
                     activeContainerHostId := some (some hostId) }
  | .session sessionId =>
      if .session sessionId ∈ s.tabStrip then some { activeWorkspaceTab := .session sessionId }
      else none
  | .workspace workspaceId =>
      if workspaceId ∈ s.workspaces.map (·.id) then
        some { activeWorkspaceTab := .workspace workspaceId }
      else none
  | .tmuxGroup tmuxGroupId =>
      if tmuxGroupId ∈ s.tmuxGroups then some { activeWorkspaceTab := .tmuxGroup tmuxGroupId }
      else none

def dropHostKeyPromptsForSession (pending : Option SessionPrompt) (queue : List SessionPrompt)
    (sessionId : String) : Option SessionPrompt × List SessionPrompt :=
  let queued := queue.filter fun prompt => prompt.sessionId ≠ some sessionId
  if pending.bind (·.sessionId) ≠ some sessionId then (pending, queued)
  else (queued.head?, queued.tail)

def clearSessionPendingInteractiveAuth (auths : List PendingInteractiveAuth) (sessionId : String) :
    List PendingInteractiveAuth :=
  auths.filter (· ≠ .ssh sessionId)

def clearPrompt (prompt : Option SessionPrompt) (sessionId : String) : Option SessionPrompt :=
  if prompt.bind (·.sessionId) = some sessionId then none else prompt

structure Remaining where
  tabStrip : List DynamicTabStripItem
  workspaces : List WorkspaceTab
  active : WorkspaceTabId

def standaloneIndex (s : AppState) (sessionId : String) : Option Nat :=
  s.tabStrip.findIdx? (· = .session sessionId)

def leaveWorkspace (s : AppState) (sessionId : String) (owning : WorkspaceTab) : Remaining :=
  let workspaceIndex := s.tabStrip.findIdx? (· = .workspace owning.id)
  let without := s.tabStrip.filter (· ≠ .workspace owning.id)
  let others := s.workspaces.filter fun workspace => workspace.id ≠ owning.id
  let index := workspaceIndex.getD without.length
  match removeSessionFromWorkspaceLayout sessionId owning.layout with
  | none =>
      { tabStrip := without
        workspaces := others
        active :=
          if s.activeWorkspaceTab = .workspace owning.id then resolveNextVisibleTab without index
          else s.activeWorkspaceTab }
  | some (.leaf _ survivor) =>
      { tabStrip := spliceIn without index (.session survivor)
        workspaces := others
        active :=
          if s.activeWorkspaceTab = .workspace owning.id then .session survivor
          else s.activeWorkspaceTab }
  | some (.split id first second) =>
      let reducedLayout := .split id first second
      { tabStrip := s.tabStrip.filter (· ≠ .session sessionId)
        workspaces := s.workspaces.map fun workspace =>
          if workspace.id = owning.id then
            { workspace with
              layout := reducedLayout
              activeSessionId :=
                if workspace.activeSessionId = sessionId then
                  findFirstWorkspaceSessionId reducedLayout
                else workspace.activeSessionId }
          else workspace
        active := s.activeWorkspaceTab }

def owningWorkspace (s : AppState) (sessionId : String) : Option WorkspaceTab :=
  s.workspaces.find? fun workspace => sessionId ∈ listWorkspaceSessionIds workspace.layout

def detach (s : AppState) (sessionId : String) : Remaining :=
  match owningWorkspace s sessionId with
  | some owning => leaveWorkspace s sessionId owning
  | none =>
      let without := s.tabStrip.filter (· ≠ .session sessionId)
      { tabStrip := without
        workspaces := s.workspaces
        active :=
          if s.activeWorkspaceTab = .session sessionId then
            resolveNextVisibleTab without ((standaloneIndex s sessionId).getD without.length)
          else s.activeWorkspaceTab }

def storedReturnTarget (s : AppState) (sessionId : String) : Option SessionReturnTarget :=
  if s.activeWorkspaceTab = .session sessionId then s.sessionReturnTargets sessionId else none

def preferDynamic (tabStrip : List DynamicTabStripItem) (index : Nat) (active : WorkspaceTabId) :
    WorkspaceTabId :=
  if !active.isDynamic && 0 < tabStrip.length then resolveNextVisibleTab tabStrip index else active

def removeSessionFromState (s : AppState) (sessionId : String) : AppState :=
  let next := detach s sessionId
  let resolved := (storedReturnTarget s sessionId).bind
    (resolveSessionReturnTarget { s with tabStrip := next.tabStrip, workspaces := next.workspaces })
  let active := (resolved.map (·.activeWorkspaceTab)).getD next.active
  let prompts :=
    dropHostKeyPromptsForSession s.pendingHostKeyPrompt s.queuedHostKeyPrompts sessionId
  { s with
    tabs := s.tabs.filter fun tab => tab.sessionId ≠ sessionId
    sessionShareChatNotifications := delete s.sessionShareChatNotifications sessionId
    workspaces := next.workspaces
    tabStrip := next.tabStrip
    activeWorkspaceTab := preferDynamic next.tabStrip
      ((standaloneIndex s sessionId).getD next.tabStrip.length) active
    homeSection := (resolved.bind (·.homeSection)).getD s.homeSection
    settingsSection := (resolved.bind (·.settingsSection)).getD s.settingsSection
    activeContainerHostId :=
      (resolved.bind (·.activeContainerHostId)).getD s.activeContainerHostId
    pendingHostKeyPrompt := prompts.1
    queuedHostKeyPrompts := prompts.2
    pendingCredentialRetry := clearPrompt s.pendingCredentialRetry sessionId
    activeCredentialRetryAttempt := clearPrompt s.activeCredentialRetryAttempt sessionId
    pendingInteractiveAuths :=
      clearSessionPendingInteractiveAuth s.pendingInteractiveAuths sessionId
    pendingConnectionAttempts :=
      s.pendingConnectionAttempts.filter fun attempt => attempt.sessionId ≠ sessionId
    sessionReturnTargets := delete s.sessionReturnTargets sessionId
    resolvedStartupCommandsBySessionId := delete s.resolvedStartupCommandsBySessionId sessionId
    sessionContainerTunnels := delete s.sessionContainerTunnels sessionId }

end Dolgate.WorkspaceTabs
