import Mathlib
import Dolgate.GroupPaths
import Dolgate.Transition

set_option autoImplicit false

/-! What is done to the tree of groups. -/

namespace Dolgate.GroupMutations

open GroupPaths Segments Transition

structure GroupRecord where
  id : Text
  name : Text
  path : Text
  parentPath : Option Text
  sortRank : Option Int := none
  createdAt : String
  updatedAt : String
  deriving DecidableEq, Repr

structure HostRecord where
  id : Text
  groupName : Option Text
  createdAt : String
  updatedAt : String
  deriving DecidableEq, Repr

/-- The order of the locale, and the id of a group that only hosts are in: a hash of the id of the
first of them and the path. -/
structure Env where
  localeCompare : Text → Text → Int
  implicitId : Text → Text → Text

structure Library where
  groups : List GroupRecord := []
  hosts : List HostRecord := []
  deriving DecidableEq, Repr

structure Options where
  timestamp : String
  normalizeHost : HostRecord → HostRecord := id
  pathAlsoOccupied : Bool := false

inductive Failure where
  | nameRequired
  | pathInvalid
  | alreadyExists
  | notFound
  | unchanged
  | intoItself
  deriving DecidableEq, Repr

def Failure.message : Failure → String
  | .nameRequired => "Group name is required"
  | .pathInvalid => "Group path is invalid"
  | .alreadyExists => "Group already exists"
  | .notFound => "Group not found"
  | .unchanged => "Group path is unchanged"
  | .intoItself => "Group cannot be moved into itself or one of its descendants"

def createPath (name : Text) (parentPath : Option Text) : Option Text :=
  normalizeGroupPath (some (under (normalizeGroupPath parentPath) (trim name)))

def createGroupIn (groups : List GroupRecord) (id name : Text) (parentPath : Option Text)
    (timestamp : String) : Except Failure (List GroupRecord) :=
  if trim name = [] then .error .nameRequired
  else match createPath name parentPath with
    | none => .error .pathInvalid
    | some path =>
        if groups.any fun record => record.path = path then .error .alreadyExists
        else .ok (groups ++ [{
          id, path
          name := trim name
          parentPath := normalizeGroupPath parentPath
          createdAt := timestamp
          updatedAt := timestamp }])

def withAncestors (path : Option Text) : List Text :=
  match normalizeGroupPath path with
  | none => []
  | some path =>
      let segments := path.splitOn slash
      (List.range segments.length).map fun index => join slash (segments.take (index + 1))

section

variable (env : Env)

/-- `compareGroupSiblings` of the groups at two paths, or of the paths alone. -/
def compareGroupSiblings (groups : List GroupRecord) (left right : Text) : Int :=
  let recordAt := fun path => groups.reverse.find? fun record => record.path = path
  match (recordAt left).bind (·.sortRank), (recordAt right).bind (·.sortRank) with
  | some leftRank, some rightRank =>
      if leftRank ≠ rightRank then leftRank - rightRank
      else env.localeCompare (((recordAt left).map (·.id)).getD [])
        (((recordAt right).map (·.id)).getD [])
  | some _, none => -1
  | none, some _ => 1
  | none, none => env.localeCompare left right

/-- `emit` of `orderGroupPaths`. The fuel is how deep the tree can be. -/
def emitPaths (groups : List GroupRecord) (allPaths : List Text) : Nat → Text → List Text
  | 0, _ => []
  | fuel + 1, parent =>
      let children := allPaths.filter fun path => (getParentGroupPath (some path)).getD [] = parent
      let sorted := children.mergeSort fun left right =>
        decide (compareGroupSiblings env groups left right ≤ 0)
      sorted.flatMap fun path => path :: emitPaths groups allPaths fuel path

def collectGroupPaths (groups : List GroupRecord) (hosts : List HostRecord) : List Text :=
  let paths := (groups.flatMap fun group => withAncestors (some group.path)) ++
    hosts.flatMap fun host => withAncestors host.groupName
  let allPaths := paths.foldl (fun paths path => if path ∈ paths then paths else paths ++ [path]) []
  emitPaths env groups allPaths (allPaths.length + 1) []

def HostRecord.within (host : HostRecord) (path : Option Text) : Bool :=
  isGroupWithinPath (normalizeGroupPath host.groupName) path

def GroupRecord.within (record : GroupRecord) (path : Option Text) : Bool :=
  isGroupWithinPath (some record.path) path

def materializeImplicitHostGroups (groups : List GroupRecord) (hosts : List HostRecord)
    (withinPath : Option Text) : List GroupRecord :=
  groups ++ (collectGroupPaths env groups hosts).filterMap fun path =>
    if (groups.any fun record => record.path = path) || !isGroupWithinPath (some path) withinPath
    then none
    else
      let anchor := ((hosts.filter fun host => host.within (some path)).mergeSort fun left right =>
        decide (env.localeCompare left.id right.id ≤ 0)).head?
      anchor.map fun anchor => {
        id := env.implicitId anchor.id path
        name := getGroupLabel path
        path
        parentPath := getParentGroupPath (some path)
        createdAt := anchor.createdAt
        updatedAt := anchor.updatedAt }

/-- `Map.set` under the path of the record. -/
def setByPath (groups : List GroupRecord) (record : GroupRecord) : List GroupRecord :=
  if groups.any fun r => r.path = record.path then
    groups.map fun r => if r.path = record.path then record else r
  else groups ++ [record]

def outside (groups : List GroupRecord) (path : Text) : List GroupRecord :=
  (groups.filter fun record => !record.within (some path)).foldl setByPath []

def GroupRecord.placedAt (record : GroupRecord) (path : Text) (timestamp : String) : GroupRecord :=
  { record with
    name := getGroupLabel path
    path
    parentPath := getParentGroupPath (some path)
    updatedAt := timestamp }

def rebaseInto (targetPath nextPath : Text) (timestamp : String) (groups : List GroupRecord)
    (record : GroupRecord) : Except Failure (List GroupRecord) :=
  match rebaseGroupPath (some record.path) targetPath (some nextPath) with
  | none => .error .pathInvalid
  | some path =>
      if groups.any fun r => r.path = path then .error .alreadyExists
      else .ok (setByPath groups (record.placedAt path timestamp))

def mutateGroupPathIn (groups : List GroupRecord) (hosts : List HostRecord)
    (targetPath nextPath : Text) (options : Options) : Except Failure Library :=
  let groups := materializeImplicitHostGroups env groups hosts (some targetPath)
  let affectedGroups := groups.filter fun record => record.within (some targetPath)
  let affectedHosts := hosts.filter fun host => host.within (some targetPath)
  if affectedGroups = [] ∧ affectedHosts = [] ∧ options.pathAlsoOccupied = false then
    .error .notFound
  else if (outside groups targetPath).any fun record => record.path = nextPath then
    .error .alreadyExists
  else
    (affectedGroups.foldlM (rebaseInto targetPath nextPath options.timestamp)
      (outside groups targetPath)).map fun groups => {
        groups
        hosts := hosts.map fun host =>
          if host.within (some targetPath) then
            options.normalizeHost { host with
              groupName := rebaseGroupPath (normalizeGroupPath host.groupName) targetPath nextPath
              updatedAt := options.timestamp }
          else host }

def renameGroupIn (groups : List GroupRecord) (hosts : List HostRecord) (targetPath name : Text)
    (options : Options) : Except Failure Library :=
  match normalizeGroupPath (some targetPath) with
  | none => .error .pathInvalid
  | some target =>
      if trim name = [] then .error .nameRequired
      else match normalizeGroupPath (some (under (getParentGroupPath (some target)) (trim name))) with
        | none => .error .pathInvalid
        | some next =>
            if next = target then .error .unchanged
            else mutateGroupPathIn env groups hosts target next options

def moveGroupIn (groups : List GroupRecord) (hosts : List HostRecord) (targetPath : Text)
    (targetParentPath : Option Text) (options : Options) : Except Failure Library :=
  match normalizeGroupPath (some targetPath) with
  | none => .error .pathInvalid
  | some target =>
      let parent := normalizeGroupPath targetParentPath
      if parent.isSome ∧ isGroupWithinPath parent (some target) then .error .intoItself
      else match normalizeGroupPath (some (under parent (getGroupLabel target))) with
        | none => .error .pathInvalid
        | some next =>
            if next = target then .error .unchanged
            else mutateGroupPathIn env groups hosts target next options

end

/-- `delete-subtree` and `reparent-descendants` -/
inductive GroupRemoveMode where
  | deleteSubtree
  | reparentDescendants
  deriving DecidableEq, Repr

structure GroupRemoval extends Library where
  removedGroupIds : List Text
  removedHostIds : List Text
  deriving DecidableEq, Repr

def stripInto (targetPath : Text) (timestamp : String) (kept : List GroupRecord × List Text)
    (record : GroupRecord) : List GroupRecord × List Text :=
  if record.path = targetPath then (kept.1, kept.2 ++ [record.id])
  else match stripRemovedGroupSegment (some record.path) targetPath with
    | none => (kept.1, kept.2 ++ [record.id])
    | some path =>
        if kept.1.any fun r => r.path = path then (kept.1, kept.2 ++ [record.id])
        else (setByPath kept.1 (record.placedAt path timestamp), kept.2)

def removeGroupFrom (groups : List GroupRecord) (hosts : List HostRecord) (targetPath : Text)
    (mode : GroupRemoveMode) (options : Options) : Except Failure GroupRemoval :=
  match normalizeGroupPath (some targetPath) with
  | none => .error .pathInvalid
  | some target =>
      let affectedGroups := groups.filter fun record => record.within (some target)
      let affectedHosts := hosts.filter fun host => host.within (some target)
      if affectedGroups = [] ∧ affectedHosts = [] ∧ options.pathAlsoOccupied = false then
        .error .notFound
      else match mode with
        | .deleteSubtree =>
            .ok {
              groups := groups.filter fun record => !record.within (some target)
              hosts := hosts.filter fun host => !host.within (some target)
              removedGroupIds := affectedGroups.map fun record => record.id
              removedHostIds := affectedHosts.map fun host => host.id }
        | .reparentDescendants =>
            let (kept, removed) :=
              affectedGroups.foldl (stripInto target options.timestamp) (outside groups target, [])
            .ok {
              groups := kept
              hosts := hosts.map fun host =>
                if host.within (some target) then
                  options.normalizeHost { host with
                    groupName := stripRemovedGroupSegment (normalizeGroupPath host.groupName) target
                    updatedAt := options.timestamp }
                else host
              removedGroupIds := removed
              removedHostIds := [] }

inductive Operation where
  | create (id name : Text) (parentPath : Option Text) (timestamp : String)
  | rename (targetPath name : Text) (options : Options)
  | move (targetPath : Text) (targetParentPath : Option Text) (options : Options)
  | remove (targetPath : Text) (mode : GroupRemoveMode) (options : Options)

def apply (env : Env) (library : Library) : Operation → Except Failure Library
  | .create id name parentPath timestamp =>
      (createGroupIn library.groups id name parentPath timestamp).map
        fun groups => { library with groups }
  | .rename targetPath name options =>
      renameGroupIn env library.groups library.hosts targetPath name options
  | .move targetPath targetParentPath options =>
      moveGroupIn env library.groups library.hosts targetPath targetParentPath options
  | .remove targetPath mode options =>
      (removeGroupFrom library.groups library.hosts targetPath mode options).map (·.toLibrary)

def step (env : Env) (library : Library) (operation : Operation) : Option Library :=
  match apply env library operation with
  | .ok next => some next
  | .error _ => some library

def parentOf (path : Text) : Option Text :=
  match (path.splitOn slash).dropLast with
  | [] => none
  | segments => some (join slash segments)

structure GroupRecord.Placed (record : GroupRecord) : Prop where
  normalised : Normalised record.path
  name : (record.path.splitOn slash).getLast? = some record.name
  parentPath : record.parentPath = parentOf record.path

structure WellFormed (library : Library) : Prop where
  placed : ∀ record ∈ library.groups, record.Placed
  paths : (library.groups.map fun record => record.path).Nodup

/-- A group that is created has no slash in its trimmed name, or its path is empty or taken. -/
def Plain (library : Library) : Operation → Prop
  | .create _ name parentPath _ => slash ∈ trim name →
      ∀ path, createPath name parentPath = some path → ∃ record ∈ library.groups, record.path = path
  | _ => True

end Dolgate.GroupMutations
