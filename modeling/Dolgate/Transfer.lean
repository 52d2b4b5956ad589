import Dolgate.Calls

set_option autoImplicit false

namespace Dolgate.Sftp
open Calls

structure FilesystemAccessor where
  join : String → String → String
  dir : String → String
  base : String → String

/-- What the reads of a file return: the last of them has an error, which may be the end of the
file. -/
inductive Reader where
  | last (bytes : List UInt8) (failed : Bool)
  | more (bytes : List UInt8) (rest : Reader)
deriving DecidableEq, Repr

def Reader.content : Reader → Option (List UInt8)
  | .last bytes failed => if failed then none else some bytes
  | .more bytes rest => rest.content.map fun content => bytes ++ content

mutual

inductive Source where
  | missing
  | file (reader : Option Reader)
  | unlisted
  | dir (entries : Entries)

inductive Entries where
  | nil
  | cons (name : String) (source : Source) (rest : Entries)

end

def Source.isDir : Source → Bool
  | .missing | .file _ => false
  | .unlisted | .dir _ => true

inductive Node where
  | file (content : List UInt8)
  | dir
deriving DecidableEq, Repr

/-- The target's file system, the paths of `transferCleanupTracker`, and whether the job is
cancelled. -/
structure World where
  fs : String → Option Node
  tracker : List String := []
  cancelled : Bool := false

inductive Stat where
  | error
  | missing
  | file
  | dir
deriving DecidableEq, Repr

inductive Call where
  | wait
  | ctxErr
  | resolveAccessor
  | calculateTotalSize (sourcePath : String)
  | stat (path : String)
  | readDir (path : String)
  | mkdirAll (path : String)
  | create (path : String)
  | write (path : String) (bytes : List UInt8)
  | close (path : String)
  | chmod (path : String)
  | chtimes (path : String)
  | remove (path : String)
  | removeDirectory (path : String)
  | rename (oldPath newPath : String)
  | add (path : String)
  | forget (path : String)
  | takePaths
  | cleanup (path : String)
deriving DecidableEq, Repr

inductive TransferError where
  | cancelled
  | failed (operation path : String)
deriving DecidableEq, Repr

/-- `annotateTransferError`. What an error tells already, it keeps. -/
def TransferError.annotate (operation path : String) : TransferError → TransferError
  | .cancelled => .failed operation path
  | .failed operation path => .failed operation path

/-- `wait` and `ctxErr` tell whether there is an error, the calls of the file system whether there
is none. -/
abbrev Call.Response : Call → Type
  | .wait | .ctxErr => Bool
  | .resolveAccessor | .mkdirAll _ | .create _ | .chmod _ | .remove _ | .removeDirectory _
  | .rename _ _ => Bool
  | .calculateTotalSize _ => Option TransferError
  | .stat _ => Stat
  | .readDir _ => Option (List String)
  | .write _ _ => Nat × Bool
  | .close _ | .chtimes _ | .add _ | .forget _ | .cleanup _ => Unit
  | .takePaths => List String

/-- A call that is `lost` takes effect and reports an error. -/
inductive Fault where
  | none
  | failed
  | lost
deriving DecidableEq, Repr

/-- What the environment makes of a call: whether the job is cancelled before it or is paused, how
many bytes are not stored, and the names that are listed. -/
structure Outcome where
  fault : Fault := .none
  cancel : Bool := false
  paused : Bool := false
  short : Nat := 0
  names : List String := []
deriving DecidableEq, Repr

namespace World

def set (w : World) (path : String) (node : Option Node) : World :=
  { w with fs := fun p => if p = path then node else w.fs p }

def change (w : World) (fault : Fault) (w' : World) : World × Bool :=
  match fault with
  | .none => (w', true)
  | .failed => (w, false)
  | .lost => (w', false)

def stat (w : World) (path : String) : Stat :=
  match w.fs path with
  | none => .missing
  | some (.file _) => .file
  | some .dir => .dir

def remove (w : World) (fault : Fault) (path : String) : World × Bool :=
  match w.fs path with
  | none => (w, false)
  | some _ => w.change fault (w.set path none)

def call (w : World) (o : Outcome) : (c : Call) → World × c.Response
  | .wait => (w, w.cancelled && o.paused)
  | .ctxErr => (w, w.cancelled)
  | .resolveAccessor => (w, o.fault = .none)
  | .calculateTotalSize sourcePath =>
      (w, if w.cancelled then some .cancelled
        else if o.fault = .none then none else some (.failed "source_stat" sourcePath))
  | .stat path => (w, if o.fault = .none then w.stat path else .error)
  | .readDir _ => (w, if o.fault = .none then some o.names else none)
  | .mkdirAll path =>
      match w.fs path with
      | none => w.change o.fault (w.set path (some .dir))
      | some (.file _) => (w, false)
      | some .dir => (w, o.fault = .none)
  | .create path =>
      match w.fs path with
      | some .dir => (w, false)
      | _ => w.change o.fault (w.set path (some (.file [])))
  | .write path bytes =>
      let stored := bytes.take (bytes.length - o.short)
      match w.fs path with
      | some (.file content) =>
          (w.set path (some (.file (content ++ stored))), stored.length, o.fault = .none)
      | _ => (w, stored.length, o.fault = .none)
  | .close path =>
      match w.fs path with
      | some (.file content) =>
          (if o.fault = .none then w
            else w.set path (some (.file (content.take (content.length - o.short)))), ())
      | _ => (w, ())
  | .chmod _ => (w, o.fault = .none)
  | .chtimes _ => (w, ())
  | .remove path | .removeDirectory path => w.remove o.fault path
  | .rename oldPath newPath =>
      match w.fs oldPath, w.fs newPath with
      | none, _ | _, some .dir => (w, false)
      | some node, _ => w.change o.fault ((w.set newPath (some node)).set oldPath none)
  | .add path =>
      ({ w with
        tracker := if path = "" ∨ path ∈ w.tracker then w.tracker else w.tracker ++ [path] }, ())
  | .forget path => ({ w with tracker := w.tracker.filter (· ≠ path) }, ())
  | .takePaths =>
      ({ w with tracker := [] }, if o.names.isPerm w.tracker then o.names else w.tracker)
  | .cleanup path => ((w.remove o.fault path).1, ())

def exec (w : World) (c : Call) (o : Outcome) : World × c.Response :=
  { w with cancelled := w.cancelled || o.cancel }.call o c

end World

abbrev Transfer := Prog Call Call.Response

def perform (c : Call) : Transfer c.Response := Prog.perform c

structure MetadataOptions where
  preserveMtime : Bool
  preservePermissions : Bool
deriving DecidableEq, Repr

structure Job where
  accessor : FilesystemAccessor
  sourceAccessor : FilesystemAccessor
  jobID : String
  conflictResolution : String
  metadata : MetadataOptions

/-- `removePath`, with how deep it may go into a directory. It tells whether there is no error. -/
def removePath (accessor : FilesystemAccessor) : Nat → String → Transfer Bool
  | 0, _ => pure false
  | depth + 1, targetPath => do
      match ← perform (.stat targetPath) with
      | .error => pure false
      | .missing => pure true
      | .file => perform (.remove targetPath)
      | .dir =>
          match ← perform (.readDir targetPath) with
          | none => pure false
          | some names =>
              let removed ← removeEntries (removePath accessor depth) (accessor.join targetPath) names
              if removed then perform (.removeDirectory targetPath) else pure false
where
  removeEntries (remove : String → Transfer Bool) (join : String → String) :
      List String → Transfer Bool
    | [] => pure true
    | name :: names => do
        let removed ← remove (join name)
        if removed then removeEntries remove join names else pure false

def sanitizePartialTransferID (value : String) : String :=
  String.ofList (value.toList.filter fun r =>
    ('a' ≤ r && r ≤ 'z') || ('A' ≤ r && r ≤ 'Z') || ('0' ≤ r && r ≤ '9') || r = '-' || r = '_')

def buildPartialTransferPath (targetFS : FilesystemAccessor) (targetPath jobID : String) : String :=
  let baseName := targetFS.base targetPath
  if baseName = "" ∨ baseName = "." ∨ baseName = "/" then ""
  else
    let suffix := sanitizePartialTransferID jobID
    targetFS.join (targetFS.dir targetPath)
      ("." ++ baseName ++ ".dolgate-partial." ++ if suffix = "" then "unknown" else suffix)

def partialPath (job : Job) (targetPath : String) : String :=
  let path := buildPartialTransferPath job.accessor targetPath job.jobID
  if path = "" then targetPath else path

/-- One turn of the loop of `transferFileContentsWithControl`. -/
def transferChunk (targetPath : String) (bytes : List UInt8) : Transfer (Option TransferError) := do
  if bytes = [] then pure none
  else
    let paused ← perform .wait
    if paused then pure (some .cancelled)
    else
      let (writtenBytes, written) ← perform (.write targetPath bytes)
      pure (if written ∧ writtenBytes = bytes.length then none
        else some (.failed "target_write" targetPath))

def transferFileContentsWithControl (sourcePath targetPath : String) :
    Reader → Transfer (Option TransferError)
  | .last bytes failed => do
      let paused ← perform .wait
      if paused then pure (some .cancelled)
      else
        match ← transferChunk targetPath bytes with
        | some err => pure (some err)
        | none => pure (if failed then some (.failed "source_read" sourcePath) else none)
  | .more bytes rest => do
      let paused ← perform .wait
      if paused then pure (some .cancelled)
      else
        match ← transferChunk targetPath bytes with
        | some err => pure (some err)
        | none => transferFileContentsWithControl sourcePath targetPath rest

def applyTransferMetadata (targetPath : String) (options : MetadataOptions) : Transfer Unit := do
  let changed ← (if options.preservePermissions then perform (.chmod targetPath) else pure true)
  if changed ∧ options.preserveMtime then perform (.chtimes targetPath) else pure ()

def nextUniquePath (targetFS : FilesystemAccessor) (targetPath : String) :
    Transfer (Except TransferError String) :=
  let parentDir := targetFS.dir targetPath
  let baseName := (targetFS.base targetPath).toList
  let extension := baseName.reverse.takeWhile (· ≠ '.')
  -- the index of the last dot, which is not to be the first character
  let dotIndex := baseName.length - (extension.length + 1)
  let (rootName, extension) :=
    if extension.length < baseName.length ∧ 0 < dotIndex then baseName.splitAt dotIndex
    else (baseName, [])
  candidates fun suffix =>
    targetFS.join parentDir (String.ofList rootName ++ suffix ++ String.ofList extension)
where
  candidates (candidate : String → String) : Transfer (Except TransferError String) :=
    search candidate ((List.range 999).map (· + 1))
  search (candidate : String → String) : List Nat → Transfer (Except TransferError String)
    | [] => pure (.error (.failed "target_stat" targetPath))
    | index :: rest => do
        let path := candidate (if index = 1 then " copy" else " copy " ++ toString index)
        match ← perform (.stat path) with
        | .missing => pure (.ok path)
        | .error => pure (.error (.failed "target_stat" targetPath))
        | _ => search candidate rest

structure Destination where
  path : String
  skip : Bool := false
  mergeIntoExistingDir : Bool := false
  replaceExisting : Bool := false
deriving DecidableEq, Repr

def prepareDestination (job : Job) (depth : Nat) (sourceIsDir : Bool) (targetPath : String) :
    Transfer (Except TransferError Destination) := do
  let existing ← perform (.stat targetPath)
  if existing = .error then pure (.error (.failed "target_stat" targetPath))
  else if existing = .missing then pure (.ok { path := targetPath })
  else if job.conflictResolution = "skip" then pure (.ok { path := targetPath, skip := true })
  else if job.conflictResolution = "keepBoth" then
    match ← nextUniquePath job.accessor targetPath with
    | .error err => pure (.error err)
    | .ok uniquePath => pure (.ok { path := uniquePath })
  else if job.conflictResolution = "overwrite" ∨ job.conflictResolution = "" then
    if sourceIsDir ∧ existing = .dir then
      pure (.ok { path := targetPath, mergeIntoExistingDir := true })
    else if ¬ sourceIsDir then pure (.ok { path := targetPath, replaceExisting := true })
    else
      let removed ← removePath job.accessor depth targetPath
      pure (if removed then .ok { path := targetPath }
        else .error (.failed "target_remove" targetPath))
  else pure (.error (.failed "unsupported conflict resolution" targetPath))

/-- The copy gives up: the partial file is removed, and what it was opened for is closed. -/
def discardPartial (job : Job) (targetPath : String) (err : TransferError) :
    Transfer (Option TransferError) := do
  let path := partialPath job targetPath
  if path = targetPath then
    perform (.close path)
    pure (some err)
  else
    let _ ← perform (.remove path)
    perform (.forget path)
    perform (.close path)
    pure (some err)

def replaceTarget (job : Job) (depth : Nat) (targetPath : String) (replaceExisting : Bool) :
    Transfer (Option TransferError) := do
  let path := partialPath job targetPath
  if path = targetPath then pure none
  else
    let removed ← (if replaceExisting then removePath job.accessor depth targetPath else pure true)
    if ¬ removed then pure (some (.failed "target_remove" targetPath))
    else
      let renamed ← perform (.rename path targetPath)
      if ¬ renamed then pure (some (.failed "target_rename" targetPath))
      else
        perform (.forget path)
        pure none

/-- From `Create` on. The files are closed once. -/
def writePartial (job : Job) (depth : Nat) (sourcePath targetPath : String)
    (replaceExisting : Bool) (reader : Reader) : Transfer (Option TransferError) := do
  let path := partialPath job targetPath
  let created ← perform (.create path)
  if ¬ created then pure (some (.failed "target_create" path))
  else
    match ← transferFileContentsWithControl sourcePath path reader with
    | some err =>
        let cancelled ← perform .ctxErr
        if cancelled then
          perform (.close path)
          pure (some .cancelled)
        else discardPartial job targetPath (err.annotate "target_write" path)
    | none =>
        let cancelled ← perform .ctxErr
        if cancelled then discardPartial job targetPath .cancelled
        else
          perform (.close path)
          applyTransferMetadata path job.metadata
          replaceTarget job depth targetPath replaceExisting

def copyFileWithProgress (job : Job) (depth : Nat) (sourcePath targetPath : String)
    (replaceExisting : Bool) (opened : Option Reader) : Transfer (Option TransferError) := do
  let made ← perform (.mkdirAll (job.accessor.dir targetPath))
  if ¬ made then pure (some (.failed "target_mkdir" (job.accessor.dir targetPath)))
  else
    let paused ← perform .wait
    if paused then pure (some .cancelled)
    else
      match opened with
      | none => pure (some (.failed "source_open" sourcePath))
      | some reader =>
          let path := partialPath job targetPath
          if path = targetPath then
            writePartial job depth sourcePath targetPath replaceExisting reader
          else
            let _ ← perform (.remove path)
            perform (.add path)
            writePartial job depth sourcePath targetPath replaceExisting reader

/-- What `copyPath` does before it looks at the source. -/
def whenRunning (next : Transfer (Option TransferError)) : Transfer (Option TransferError) := do
  let paused ← perform .wait
  if paused then pure (some .cancelled)
  else
    let cancelled ← perform .ctxErr
    if cancelled then pure (some .cancelled) else next

mutual

def copyPath (job : Job) (depth : Nat) (sourcePath targetPath : String) :
    Source → Transfer (Option TransferError)
  | .missing => whenRunning (pure (some (.failed "source_stat" sourcePath)))
  | .file reader => whenRunning do
      match ← prepareDestination job depth false targetPath with
      | .error err => pure (some err)
      | .ok d =>
          if d.skip then pure none
          else copyFileWithProgress job depth sourcePath d.path d.replaceExisting reader
  | .unlisted => whenRunning do
      match ← prepareDestination job depth true targetPath with
      | .error err => pure (some err)
      | .ok d =>
          if d.skip then pure none
          else
            let made ← (if d.mergeIntoExistingDir then pure true else perform (.mkdirAll d.path))
            pure (some (if made then .failed "source_list" sourcePath
              else .failed "target_mkdir" d.path))
  | .dir entries => whenRunning do
      match ← prepareDestination job depth true targetPath with
      | .error err => pure (some err)
      | .ok d =>
          if d.skip then pure none
          else
            let made ← (if d.mergeIntoExistingDir then pure true else perform (.mkdirAll d.path))
            if ¬ made then pure (some (.failed "target_mkdir" d.path))
            else
              match ← copyEntries job depth sourcePath d.path entries with
              | some err => pure (some err)
              | none =>
                  applyTransferMetadata d.path job.metadata
                  pure none

def copyEntries (job : Job) (depth : Nat) (sourcePath targetPath : String) :
    Entries → Transfer (Option TransferError)
  | .nil => pure none
  | .cons name source rest => do
      match ← copyPath job depth (job.sourceAccessor.join sourcePath name)
          (job.accessor.join targetPath name) source with
      | some err => pure (some err)
      | none => copyEntries job depth sourcePath targetPath rest

end

structure Item where
  name : String
  path : String
  source : Source

/-- `CleanupAll`. -/
def cleanupAll : Transfer Unit := do
  let paths ← perform .takePaths
  cleanups paths
where
  cleanups : List String → Transfer Unit
    | [] => pure ()
    | path :: paths => do
        perform (.cleanup path)
        cleanups paths

/-- The items, by path and name, whose size cannot be told. A cancelled job has no list. -/
def sizeItems : List Item → List (String × String) → Transfer (Option (List (String × String)))
  | [], failedItems => pure (some failedItems)
  | item :: items, failedItems => do
      match ← perform (.calculateTotalSize item.path) with
      | some .cancelled => pure none
      | some (.failed _ _) => sizeItems items (failedItems ++ [(item.path, item.name)])
      | none => sizeItems items failedItems

def copyItems (job : Job) (depth : Nat) (target : String) :
    List Item → List (String × String) → Transfer (Option (List (String × String)))
  | [], failedItems => pure (some failedItems)
  | item :: items, failedItems => do
      if (item.path, item.name) ∈ failedItems then copyItems job depth target items failedItems
      else
        let paused ← perform .wait
        if paused then pure none
        else
          match ← copyPath job depth item.path (job.accessor.join target item.name) item.source with
          | some .cancelled => pure none
          | some (.failed _ _) =>
              copyItems job depth target items (failedItems ++ [(item.path, item.name)])
          | none => copyItems job depth target items failedItems

/-- `runTransfer`, whose cleanup is deferred. -/
def runTransfer (job : Job) (depth : Nat) (target : String) (items : List Item) :
    Transfer Unit := do
  transferItems
  cleanupAll
where
  transferItems : Transfer Unit := do
    let sourceFound ← perform .resolveAccessor
    if ¬ sourceFound then pure ()
    else
      let targetFound ← perform .resolveAccessor
      if ¬ targetFound then pure ()
      else
        match ← sizeItems items [] with
        | none => pure ()
        | some failedItems =>
            match ← copyItems job depth target items failedItems with
            | none => pure ()
            | some failedItems => if failedItems ≠ [] then cleanupAll else pure ()

end Dolgate.Sftp
