import Dolgate.Transfer

set_option autoImplicit false

namespace Dolgate.Sftp
open Calls Transition

mutual

def Source.files (join : String → String → String) (targetPath : String) :
    Source → List (String × Option Reader)
  | .missing | .unlisted => []
  | .file opened => [(targetPath, opened)]
  | .dir entries => entries.files join targetPath

def Entries.files (join : String → String → String) (targetPath : String) :
    Entries → List (String × Option Reader)
  | .nil => []
  | .cons name source rest =>
      source.files join (join targetPath name) ++ rest.files join targetPath

end

mutual

def Source.dirs (join : String → String → String) (targetPath : String) : Source → List String
  | .missing | .file _ => []
  | .unlisted => [targetPath]
  | .dir entries => targetPath :: entries.dirs join targetPath

def Entries.dirs (join : String → String → String) (targetPath : String) : Entries → List String
  | .nil => []
  | .cons name source rest => source.dirs join (join targetPath name) ++ rest.dirs join targetPath

end

namespace Job

variable (job : Job) (target : String) (items : List Item)

def files : List (String × Option Reader) :=
  items.flatMap fun item =>
    item.source.files job.accessor.join (job.accessor.join target item.name)

def dirs : List String :=
  items.flatMap fun item =>
    item.source.dirs job.accessor.join (job.accessor.join target item.name)

def Partial (path : String) : Prop :=
  ∃ file ∈ job.files target items, partialPath job file.1 = path

def New (path : String) (content : List UInt8) : Prop :=
  ∃ reader, (path, some reader) ∈ job.files target items ∧ reader.content = some content

end Job

inductive Below (join : String → String → String) : String → String → Prop where
  | refl (path : String) : Below join path path
  | name {path below : String} (name : String) : Below join (join path name) below →
      Below join path below

/-- The job copies files to the path, and nothing else of it gets in their way: no file is written
in place or where the partial file of another is, no directory is copied to the path, and no file
to what it lies in. -/
structure Job.Protects (job : Job) (target : String) (items : List Item) (path : String) : Prop where
  copied : ∃ file ∈ job.files target items, file.1 = path
  apart : ∀ file ∈ job.files target items, ¬ job.Partial target items file.1
  notDir : path ∉ job.dirs target items
  notBelow : ∀ file ∈ job.files target items, file.1 ≠ path →
    ¬ Below job.accessor.join file.1 path

section

variable (job : Job) (path : String) (isPartial : String → Prop)

/-- What the environment does not do: the partial file of the path loses nothing when it is closed
by a job that is not cancelled, a removal of the path that takes effect is not reported as an error,
and a rename to it that finds it removed takes effect. Partial files are gone when they are
forgotten, and are removed when they are cleaned up. -/
def Careful (w : World) (c : Call) (o : Outcome) : Prop :=
  match c with
  | .close p => p = partialPath job path → w.cancelled = false → w.fs p ≠ none → o.fault = .none
  | .remove p => p = path → o.fault ≠ .lost
  | .rename _ p => p = path → w.fs path = none → o.fault ≠ .failed
  | .forget p => isPartial p → ∀ content, w.fs p ≠ some (.file content)
  | .cleanup p => isPartial p → w.fs p ≠ none → o.fault ≠ .failed
  | _ => True

/-- What holds between the copies of a job, of a path with the content `old` and of the partial
files. `before` is the file system at the start. -/
structure Kept (new : List UInt8 → Prop) (before : String → Option Node) (old : List UInt8)
    (w : World) : Prop where
  target : ∃ content, w.fs path = some (.file content) ∧ (content = old ∨ new content)
  tracked : ∀ p content, isPartial p → w.fs p = some (.file content) →
    p ∈ w.tracker ∨ ∃ content, before p = some (.file content)
  tracker : ∀ p ∈ w.tracker, p ≠ path

def Harmless : Call → Prop
  | .wait | .ctxErr | .resolveAccessor | .calculateTotalSize _ | .stat _ | .readDir _
  | .mkdirAll _ | .chmod _ | .chtimes _ => True
  | .remove p | .removeDirectory p => p ≠ path
  | _ => False

def Quiet : Call → Prop
  | .wait | .ctxErr | .resolveAccessor | .calculateTotalSize _ | .stat _ | .readDir _
  | .chmod _ | .chtimes _ => True
  | _ => False

end

namespace World

@[simp] theorem set_fs_self (w : World) (p : String) (node : Option Node) :
    (w.set p node).fs p = node := if_pos rfl

theorem set_fs_ne (w : World) {p q : String} (node : Option Node) (h : q ≠ p) :
    (w.set p node).fs q = w.fs q := if_neg h

theorem remove_cases (w : World) (fault : Fault) (p : String) :
    (w.remove fault p = (w, false) ∧ (fault = .failed ∨ w.fs p = none)) ∨
      ((w.remove fault p).1 = w.set p none ∧ fault ≠ .failed ∧
        (fault = .none → (w.remove fault p).2 = true)) := by
  unfold remove
  cases hp : w.fs p with
  | none => exact .inl ⟨rfl, .inr rfl⟩
  | some node =>
      cases fault with
      | none => exact .inr ⟨rfl, nofun, fun _ => rfl⟩
      | failed => exact .inl ⟨rfl, .inl rfl⟩
      | lost => exact .inr ⟨rfl, nofun, nofun⟩

theorem exec_stat (w : World) (p : String) (o : Outcome) :
    (w.exec (.stat p) o).2 = .error ∨ (w.exec (.stat p) o).2 = w.stat p := by
  simp only [exec, call]
  split
  · exact .inr rfl
  · exact .inl rfl

end World

namespace Kept

variable {path old : _} {isPartial : String → Prop} {new : List UInt8 → Prop}
  {before : String → Option Node} {w : World}

theorem same {v : World} (h : Kept path isPartial new before old w) (hfs : v.fs = w.fs)
    (htracker : v.tracker = w.tracker) : Kept path isPartial new before old v := by
  refine ⟨?_, ?_, ?_⟩
  · rw [hfs]
    exact h.target
  · rw [hfs, htracker]
    exact h.tracked
  · rw [htracker]
    exact h.tracker

theorem cancel (h : Kept path isPartial new before old w) (b : Bool) :
    Kept path isPartial new before old { w with cancelled := b } :=
  h.same rfl rfl

theorem set (h : Kept path isPartial new before old w) {p : String} {node : Option Node}
    (hp : p ≠ path)
    (hnode : ∀ content, node = some (.file content) → isPartial p → p ∈ w.tracker) :
    Kept path isPartial new before old (w.set p node) := by
  refine ⟨?_, fun q content hq hfile => ?_, h.tracker⟩
  · rw [World.set_fs_ne _ _ hp.symm]
    exact h.target
  · by_cases hqp : q = p
    · subst hqp
      rw [World.set_fs_self] at hfile
      exact .inl (hnode content hfile hq)
    · rw [World.set_fs_ne _ _ hqp] at hfile
      exact h.tracked q content hq hfile

theorem remove (h : Kept path isPartial new before old w) (fault : Fault) {p : String}
    (hp : p ≠ path) : Kept path isPartial new before old (w.remove fault p).1 := by
  rcases w.remove_cases fault p with ⟨heq, -⟩ | ⟨heq, -⟩
  · rw [heq]
    exact h
  · rw [heq]
    exact h.set hp nofun

theorem mkdirAll (h : Kept path isPartial new before old w) (o : Outcome) (p : String) :
    Kept path isPartial new before old (w.call o (.mkdirAll p)).1 := by
  simp only [World.call]
  split
  · rename_i hnone
    have hp : p ≠ path := by
      rintro rfl
      obtain ⟨content, hfile, -⟩ := h.target
      rw [hnone] at hfile
      cases hfile
    cases o.fault with
    | none => exact h.set hp nofun
    | failed => exact h
    | lost => exact h.set hp nofun
  · exact h
  · exact h

theorem harmless (h : Kept path isPartial new before old w) {c : Call} (hc : Harmless path c)
    (o : Outcome) : Kept path isPartial new before old (w.exec c o).1 := by
  have hw := h.cancel (w.cancelled || o.cancel)
  cases c with
  | mkdirAll p => exact hw.mkdirAll o p
  | remove p => exact hw.remove o.fault hc
  | removeDirectory p => exact hw.remove o.fault hc
  | wait | ctxErr | resolveAccessor | calculateTotalSize | stat | readDir | chmod | chtimes =>
      exact hw
  | create | write | close | rename | add | forget | takePaths | cleanup => exact hc.elim

end Kept

section

variable {job : Job} {path : String} {isPartial : String → Prop} {new : List UInt8 → Prop}
  {before : String → Option Node} {old : List UInt8} {w : World} {α β : Type}

theorem wp_call {c : Call} {f : c.Response → Transfer β} {Q : β → World → Prop}
    (h : ∀ o, Careful job path isPartial w c o →
      wp World.exec (Careful job path isPartial) (f (w.exec c o).2) Q (w.exec c o).1) :
    wp World.exec (Careful job path isPartial) (perform c >>= f) Q w :=
  wp_perform h

theorem wp_quiet {c : Call} {f : c.Response → Transfer β} {Q : β → World → Prop} (hc : Quiet c)
    (h : ∀ r w', w'.fs = w.fs → w'.tracker = w.tracker →
      wp World.exec (Careful job path isPartial) (f r) Q w') :
    wp World.exec (Careful job path isPartial) (perform c >>= f) Q w := by
  refine wp_call fun o _ => h _ _ ?_ ?_
  all_goals
    cases c with
    | wait | ctxErr | resolveAccessor | calculateTotalSize | stat | readDir | chmod | chtimes => rfl
    | mkdirAll | create | write | close | remove | removeDirectory | rename | add | forget
    | takePaths | cleanup => exact hc.elim

theorem wp_harmless {c : Call} {f : c.Response → Transfer β} {Q : β → World → Prop}
    (hw : Kept path isPartial new before old w) (hc : Harmless path c)
    (h : ∀ r w', Kept path isPartial new before old w' →
      wp World.exec (Careful job path isPartial) (f r) Q w') :
    wp World.exec (Careful job path isPartial) (perform c >>= f) Q w :=
  wp_call fun o _ => h _ _ (hw.harmless hc o)

/-- The partial file `p` is being written and has this content. -/
structure Open (path : String) (isPartial : String → Prop) (new : List UInt8 → Prop)
    (before : String → Option Node) (old : List UInt8) (p : String) (content : List UInt8)
    (w : World) : Prop where
  kept : Kept path isPartial new before old w
  tracked : p ∈ w.tracker
  content : w.fs p = some (.file content)

theorem Open.same {p : String} {content : List UInt8} {v : World}
    (h : Open path isPartial new before old p content w) (hfs : v.fs = w.fs)
    (htracker : v.tracker = w.tracker) : Open path isPartial new before old p content v :=
  ⟨h.kept.same hfs htracker, htracker ▸ h.tracked, hfs ▸ h.content⟩

theorem Open.ne {p : String} {content : List UInt8}
    (h : Open path isPartial new before old p content w) : p ≠ path :=
  h.kept.tracker p h.tracked

theorem Open.set {p : String} {content : List UInt8}
    (h : Open path isPartial new before old p content w) (content' : List UInt8) :
    Open path isPartial new before old p content' (w.set p (some (.file content'))) :=
  ⟨h.kept.set h.ne fun _ _ _ => h.tracked, h.tracked, World.set_fs_self _ _ _⟩

theorem Open.write {p : String} {content : List UInt8}
    (h : Open path isPartial new before old p content w) (bytes : List UInt8) (o : Outcome) :
    ∃ stored, Open path isPartial new before old p (content ++ stored)
        (w.exec (.write p bytes) o).1 ∧
      ((w.exec (.write p bytes) o).2.1 = bytes.length → stored = bytes) := by
  refine ⟨bytes.take (bytes.length - o.short), ?_, fun hlen => ?_⟩
  · simp only [World.exec, World.call, h.content]
    exact (h.same (v := { w with cancelled := w.cancelled || o.cancel }) rfl rfl).set _
  · simp only [World.exec, World.call, h.content, List.length_take] at hlen
    exact List.take_of_length_le (by omega)

theorem transferChunk_wp {p : String} {content : List UInt8} (bytes : List UInt8)
    (h : Open path isPartial new before old p content w) :
    wp World.exec (Careful job path isPartial) (transferChunk p bytes)
      (fun err w' => ∃ stored, Open path isPartial new before old p (content ++ stored) w' ∧
        (err = none → stored = bytes)) w := by
  unfold transferChunk
  split
  · rename_i hnil
    exact ⟨[], by rwa [List.append_nil], fun _ => hnil.symm⟩
  · refine wp_quiet trivial fun paused w' hfs htracker => ?_
    have hopen := h.same hfs htracker
    split
    · exact ⟨[], by rwa [List.append_nil], nofun⟩
    · refine wp_call fun o _ => ?_
      obtain ⟨stored, hstored, hall⟩ := hopen.write bytes o
      refine ⟨stored, hstored, fun herr => ?_⟩
      split at herr
      · rename_i hwritten
        exact hall hwritten.2
      · cases herr

theorem transferFileContentsWithControl_wp (sourcePath : String) {p : String} (reader : Reader)
    {content : List UInt8} (h : Open path isPartial new before old p content w) :
    wp World.exec (Careful job path isPartial)
      (transferFileContentsWithControl sourcePath p reader)
      (fun err w' => ∃ stored, Open path isPartial new before old p (content ++ stored) w' ∧
        (err = none → reader.content = some stored)) w := by
  induction reader generalizing w content with
  | last bytes failed =>
      refine wp_quiet trivial fun paused w' hfs htracker => ?_
      have hopen := h.same hfs htracker
      split
      · exact ⟨[], by rwa [List.append_nil], nofun⟩
      · refine wp_seq (transferChunk_wp bytes hopen) fun err w' hchunk => ?_
        obtain ⟨stored, hopen, hstored⟩ := hchunk
        cases err with
        | some err => exact ⟨stored, hopen, nofun⟩
        | none =>
            refine ⟨stored, hopen, fun herr => ?_⟩
            split at herr
            · cases herr
            · rename_i hfailed
              rw [hstored rfl, Reader.content, if_neg hfailed]
  | more bytes rest ih =>
      refine wp_quiet trivial fun paused w' hfs htracker => ?_
      have hopen := h.same hfs htracker
      split
      · exact ⟨[], by rwa [List.append_nil], nofun⟩
      · refine wp_seq (transferChunk_wp bytes hopen) fun err w' hchunk => ?_
        obtain ⟨stored, hopen, hstored⟩ := hchunk
        cases err with
        | some err => exact ⟨stored, hopen, nofun⟩
        | none =>
            refine wp_mono (fun err w' hrest => ?_) (ih hopen)
            obtain ⟨more, hopen, hmore⟩ := hrest
            rw [List.append_assoc] at hopen
            refine ⟨stored ++ more, hopen, fun herr => ?_⟩
            rw [Reader.content, hmore herr, hstored rfl]
            rfl

theorem Kept.forget (h : Kept path isPartial new before old w) {p : String}
    (hgone : isPartial p → ∀ content, w.fs p ≠ some (.file content)) (o : Outcome) :
    Kept path isPartial new before old (w.exec (.forget p) o).1 := by
  refine ⟨h.target, fun q content hq hfile => ?_, fun q hq => ?_⟩
  · refine (h.tracked q content hq hfile).imp_left fun htracked => ?_
    refine List.mem_filter.mpr ⟨htracked, ?_⟩
    have hne : q ≠ p := by
      rintro rfl
      exact hgone hq content hfile
    simpa using hne
  · exact h.tracker q (List.mem_filter.mp hq).1

theorem Kept.rename (h : Kept path isPartial new before old w) {p q : String} {o : Outcome}
    (hp : p ≠ path) (hq : q ≠ path) ( hpartial : ¬ isPartial q) :
    Kept path isPartial new before old (w.exec (.rename p q) o).1 := by
  have hw := h.cancel (w.cancelled || o.cancel)
  simp only [World.exec, World.call]
  split
  · exact hw
  · exact hw
  · rename_i node _ _
    have hmoved : Kept path isPartial new before old
        ((World.set { w with cancelled := w.cancelled || o.cancel } q (some node)).set p none) := by
      refine (hw.set hq fun _ _ hq => ?_).set hp nofun
      exact absurd hq hpartial
    cases o.fault with
    | none => exact hmoved
    | failed => exact hw
    | lost => exact hmoved

theorem Open.close {p : String} {content : List UInt8}
    (h : Open path isPartial new before old p content w) (o : Outcome) :
    ∃ content', Open path isPartial new before old p content' (w.exec (.close p) o).1 ∧
      (o.fault = .none → content' = content) := by
  have hw := h.same (v := { w with cancelled := w.cancelled || o.cancel }) rfl rfl
  simp only [World.exec, World.call, h.content]
  split
  · exact ⟨content, hw, fun _ => rfl⟩
  · exact ⟨_, hw.set _, fun hnone => absurd hnone ‹_›⟩

theorem discardPartial_wp {t : String} (err : TransferError) (hp : partialPath job t ≠ path)
    ( hpartial : isPartial (partialPath job t)) (ht : partialPath job t ≠ t)
    (h : Kept path isPartial new before old w) :
    wp World.exec (Careful job path isPartial) (discardPartial job t err)
      (fun _ => Kept path isPartial new before old) w := by
  simp only [discardPartial, if_neg ht]
  refine wp_harmless h hp fun _ w' h => ?_
  refine wp_call fun o hgone => ?_
  have hkept := h.forget hgone o
  refine wp_call fun o' _ => ?_
  have hnone : ∀ content, (w'.exec (.forget (partialPath job t)) o).1.fs (partialPath job t) ≠
      some (.file content) := hgone hpartial
  refine wp_pure.mpr (hkept.same ?_ ?_)
  all_goals
    simp only [World.exec, World.call]
    split
    · rename_i content hfile
      exact absurd hfile (hnone content)
    · rfl

theorem applyTransferMetadata_wp (p : String) (options : MetadataOptions)
    {Q : Unit → World → Prop} (h : ∀ w', w'.fs = w.fs → w'.tracker = w.tracker → Q () w') :
    wp World.exec (Careful job path isPartial) (applyTransferMetadata p options) Q w := by
  have htimes : ∀ (changed : Bool) (w₁ : World), w₁.fs = w.fs → w₁.tracker = w.tracker →
      wp World.exec (Careful job path isPartial)
        (if changed ∧ options.preserveMtime then perform (.chtimes p) else pure ()) Q w₁ := by
    intro changed w₁ hfs htracker
    split
    · exact fun o _ => h _ hfs htracker
    · exact h w₁ hfs htracker
  unfold applyTransferMetadata
  split
  · exact wp_quiet trivial fun changed w₁ => htimes changed w₁
  · exact htimes true w rfl rfl

theorem removePath_all (accessor : FilesystemAccessor) (depth : Nat) (p : String)
    (hp : ¬ Below accessor.join p path) : (removePath accessor depth p).All (Harmless path) := by
  induction depth generalizing p with
  | zero => trivial
  | succ depth ih =>
      have hne : p ≠ path := by
        rintro rfl
        exact hp (.refl p)
      have hentries : ∀ names, (removePath.removeEntries (removePath accessor depth)
          (accessor.join p) names).All (Harmless path) := by
        intro names
        induction names with
        | nil => trivial
        | cons name names hnames =>
            refine .bind (ih _ fun hbelow => hp (.name name hbelow)) fun removed => ?_
            split
            · exact hnames
            · trivial
      refine .bind (.perform trivial) fun stat => ?_
      cases stat with
      | error => trivial
      | missing => trivial
      | file => exact .perform hne
      | dir =>
          refine .bind (.perform trivial) fun listed => ?_
          cases listed with
          | none => trivial
          | some names =>
              refine .bind (hentries names) fun removed => ?_
              split
              · exact .perform hne
              · trivial

theorem removePath_file_wp (accessor : FilesystemAccessor) (depth : Nat) {p : String}
    {content : List UInt8} (hfile : w.fs p = some (.file content)) {Q : Bool → World → Prop}
    (hfail : ∀ w', w'.fs = w.fs → w'.tracker = w.tracker → Q false w')
    (hremove : ∀ w' o, w'.fs = w.fs → w'.tracker = w.tracker →
      Careful job path isPartial w' (.remove p) o →
      Q (w'.exec (.remove p) o).2 (w'.exec (.remove p) o).1) :
    wp World.exec (Careful job path isPartial) (removePath accessor depth p) Q w := by
  cases depth with
  | zero => exact hfail w rfl rfl
  | succ depth =>
      refine wp_call fun o _ => ?_
      have hstat : w.stat p = .file := by simp only [World.stat, hfile]
      rcases w.exec_stat p o with herror | hfound
      · rw [herror]
        exact hfail _ rfl rfl
      · rw [hfound, hstat]
        exact fun o' hcareful => hremove _ o' rfl rfl hcareful

theorem replaceTarget_wp (depth : Nat) {t : String} (replaceExisting : Bool)
    (hp : partialPath job t ≠ path) (ht : t ≠ path) (htarget : ¬ isPartial t)
    (hbelow : ¬ Below job.accessor.join t path) (h : Kept path isPartial new before old w) :
    wp World.exec (Careful job path isPartial) (replaceTarget job depth t replaceExisting)
      (fun _ => Kept path isPartial new before old) w := by
  dsimp only [replaceTarget]
  split
  · exact h
  · have hremoved : (if replaceExisting then removePath job.accessor depth t
        else pure true : Transfer Bool).All (Harmless path) :=
      .ite (fun _ => removePath_all job.accessor depth t hbelow) fun _ => trivial
    refine wp_seq (wp_of_all (fun w c o hw hc _ => hw.harmless hc o) hremoved h)
      fun removed w₁ h₁ => ?_
    split
    · exact h₁
    · refine wp_call fun o _ => ?_
      have h₂ := h₁.rename (o := o) hp ht htarget
      split
      · exact h₂
      · exact fun o' hgone => h₂.forget hgone o'

theorem Open.renamed {p : String} {content : List UInt8}
    (h : Open path isPartial new before old p content w) (hnew : new content)
    (hpath : ¬ isPartial path) :
    Kept path isPartial new before old
      (((w.set path none).set path (some (.file content))).set p none) := by
  refine ⟨⟨content, ?_, .inr hnew⟩, fun q content' hq hfile => ?_, h.kept.tracker⟩
  · rw [World.set_fs_ne _ _ h.ne.symm, World.set_fs_self]
  · have hqpath : q ≠ path := by
      rintro rfl
      exact hpath hq
    by_cases hqp : q = p
    · exact .inl (hqp ▸ h.tracked)
    · rw [World.set_fs_ne _ _ hqp, World.set_fs_ne _ _ hqpath, World.set_fs_ne _ _ hqpath] at hfile
      exact h.kept.tracked q content' hq hfile

theorem Open.rename {p : String} {content : List UInt8}
    (h : Open path isPartial new before old p content w) (hnew : new content)
    (hpath : ¬ isPartial path) {o : Outcome}
    (hcareful : Careful job path isPartial (w.set path none) (.rename p path) o) :
    Kept path isPartial new before old ((w.set path none).exec (.rename p path) o).1 := by
  have hfault : o.fault ≠ .failed := hcareful rfl (World.set_fs_self _ _ _)
  have hmoved := (h.same (v := { w with cancelled := w.cancelled || o.cancel }) rfl rfl).renamed
    hnew hpath
  have hfile : (w.set path none).fs p = some (.file content) := by
    rw [World.set_fs_ne _ _ h.ne]
    exact h.content
  simp only [World.exec, World.call, hfile, World.set_fs_self]
  cases hf : o.fault with
  | none => exact hmoved
  | failed => exact absurd hf hfault
  | lost => exact hmoved

theorem replaceTarget_self_wp (depth : Nat) {content : List UInt8} (hnew : new content)
    (hself : partialPath job path ≠ path) (hpath : ¬ isPartial path)
    (h : Open path isPartial new before old (partialPath job path) content w) :
    wp World.exec (Careful job path isPartial) (replaceTarget job depth path true)
      (fun _ => Kept path isPartial new before old) w := by
  simp only [replaceTarget, if_neg hself, if_true]
  obtain ⟨was, hwas, -⟩ := h.kept.target
  refine wp_bind.mpr (removePath_file_wp job.accessor depth hwas (fun w₁ hfs htracker => ?_)
    fun w₁ o hfs htracker hcareful => ?_)
  · exact h.kept.same hfs htracker
  · have h₁ := h.same (v := { w₁ with cancelled := w₁.cancelled || o.cancel }) hfs htracker
    have hremove : w₁.exec (.remove path) o =
      World.remove { w₁ with cancelled := w₁.cancelled || o.cancel } o.fault path := rfl
    rw [hremove]
    rcases World.remove_cases { w₁ with cancelled := w₁.cancelled || o.cancel } o.fault path with
      ⟨heq, -⟩ | ⟨heq, hfailed, hnone⟩
    · rw [heq]
      exact h₁.kept
    · have hfault : o.fault = .none := by
        cases hf : o.fault with
        | none => rfl
        | failed => exact absurd hf hfailed
        | lost => exact absurd hf (hcareful rfl)
      rw [heq, hnone hfault]
      refine wp_call fun o' hrename => ?_
      have h₂ := h₁.rename hnew hpath hrename
      split
      · exact h₂
      · exact fun o'' hgone => h₂.forget hgone o''

/-- What a copy needs of the path `t` it copies to. -/
structure Fits (job : Job) (path : String) (isPartial : String → Prop) (t : String) : Prop where
  partialNe : partialPath job t ≠ path
  known : isPartial (partialPath job t)
  inPlace : partialPath job t ≠ t
  target : ¬ isPartial t
  notBelow : t ≠ path → ¬ Below job.accessor.join t path

theorem Kept.add (h : Kept path isPartial new before old w) {p : String} (hp : p ≠ path)
    (o : Outcome) : Kept path isPartial new before old (w.exec (.add p) o).1 := by
  have hmem : ∀ q ∈ w.tracker, q ∈ (w.exec (.add p) o).1.tracker := by
    intro q hq
    simp only [World.exec, World.call]
    split
    · exact hq
    · exact List.mem_append_left _ hq
  refine ⟨h.target, fun q content hq hfile => ?_, fun q hq => ?_⟩
  · exact (h.tracked q content hq hfile).imp_left (hmem q)
  · simp only [World.exec, World.call] at hq
    split at hq
    · exact h.tracker q hq
    · rcases List.mem_append.mp hq with hq | hq
      · exact h.tracker q hq
      · exact List.mem_singleton.mp hq ▸ hp

theorem add_mem (w : World) {p : String} (hp : p ≠ "") (o : Outcome) :
    p ∈ (w.exec (.add p) o).1.tracker := by
  simp only [World.exec, World.call]
  split
  · exact Or.resolve_left ‹_› hp
  · simp

theorem partialPath_ne_empty {t : String} (h : partialPath job t ≠ t) : partialPath job t ≠ "" := by
  unfold partialPath at h ⊢
  dsimp only at h ⊢
  split
  · rename_i hempty
    rw [if_pos hempty] at h
    exact absurd rfl h
  · assumption

theorem create_cases {p : String} (h : Kept path isPartial new before old w) (hp : p ≠ path)
    (htracked : p ∈ w.tracker) (o : Outcome) :
    Kept path isPartial new before old (w.exec (.create p) o).1 ∧
      ((w.exec (.create p) o).2 = true →
        Open path isPartial new before old p [] (w.exec (.create p) o).1) := by
  have hw := h.cancel (w.cancelled || o.cancel)
  have hopen : Open path isPartial new before old p []
      (World.set { w with cancelled := w.cancelled || o.cancel } p (some (.file []))) :=
    ⟨hw.set hp fun _ _ _ => htracked, htracked, World.set_fs_self _ _ _⟩
  simp only [World.exec, World.call]
  split
  · exact ⟨hw, nofun⟩
  · cases o.fault with
    | none => exact ⟨hopen.kept, fun _ => hopen⟩
    | failed => exact ⟨hw, nofun⟩
    | lost => exact ⟨hopen.kept, nofun⟩

theorem writePartial_wp (depth : Nat) (sourcePath : String) {t : String} {replaceExisting : Bool}
    {reader : Reader} (hfit : Fits job path isPartial t)
    (hself : t = path → replaceExisting = true ∧ ∀ content, reader.content = some content →
      new content)
    (h : Kept path isPartial new before old w) (htracked : partialPath job t ∈ w.tracker) :
    wp World.exec (Careful job path isPartial)
      (writePartial job depth sourcePath t replaceExisting reader)
      (fun _ => Kept path isPartial new before old) w := by
  refine wp_call fun o _ => ?_
  obtain ⟨hkept, hcreated⟩ := create_cases h hfit.partialNe htracked o
  split
  · exact hkept
  · rename_i hok
    refine wp_seq (transferFileContentsWithControl_wp sourcePath reader
      (hcreated (by simpa using hok))) fun err w₁ hwritten => ?_
    obtain ⟨stored, hopen, hall⟩ := hwritten
    rw [List.nil_append] at hopen
    cases err with
    | some err =>
        refine wp_quiet trivial fun cancelled w₂ hfs htracker => ?_
        have h₂ := hopen.same hfs htracker
        split
        · refine wp_call fun o' _ => ?_
          obtain ⟨content', hclosed, -⟩ := h₂.close o'
          exact hclosed.kept
        · exact discardPartial_wp _ hfit.partialNe hfit.known hfit.inPlace h₂.kept
    | none =>
        refine wp_call fun o₂ _ => ?_
        have h₂ := hopen.same (v := (w₁.exec .ctxErr o₂).1) rfl rfl
        split
        · exact discardPartial_wp _ hfit.partialNe hfit.known hfit.inPlace h₂.kept
        · rename_i hrunning
          have hrunning : (w₁.exec .ctxErr o₂).1.cancelled = false :=
            (Bool.not_eq_true _).mp hrunning
          refine wp_call fun o' hcareful => ?_
          obtain ⟨content', hclosed, hstored⟩ := h₂.close o'
          refine wp_bind.mpr (applyTransferMetadata_wp _ _ fun w₃ hfs htracker => ?_)
          have h₃ := hclosed.same hfs htracker
          by_cases ht : t = path
          · subst ht
            obtain ⟨hreplace, hnew⟩ := hself rfl
            rw [hstored (hcareful rfl hrunning (by simp [h₂.content]))] at h₃
            rw [hreplace]
            exact replaceTarget_self_wp depth (hnew stored (hall rfl)) hfit.inPlace hfit.target h₃
          · exact replaceTarget_wp depth replaceExisting hfit.partialNe ht hfit.target
              (hfit.notBelow ht) h₃.kept

theorem copyFileWithProgress_wp (depth : Nat) (sourcePath : String) {t : String}
    {replaceExisting : Bool} {opened : Option Reader} (hfit : Fits job path isPartial t)
    (hself : t = path → replaceExisting = true ∧ ∀ reader content, opened = some reader →
      reader.content = some content → new content)
    (h : Kept path isPartial new before old w) :
    wp World.exec (Careful job path isPartial)
      (copyFileWithProgress job depth sourcePath t replaceExisting opened)
      (fun _ => Kept path isPartial new before old) w := by
  refine wp_harmless h trivial fun made w₁ h₁ => ?_
  split
  · exact h₁
  · refine wp_harmless h₁ trivial fun paused w₂ h₂ => ?_
    split
    · exact h₂
    · cases opened with
      | none => exact h₂
      | some reader =>
          dsimp only
          rw [if_neg hfit.inPlace]
          refine wp_harmless h₂ hfit.partialNe fun _ w₃ h₃ => ?_
          refine wp_call fun o _ => ?_
          refine writePartial_wp depth sourcePath hfit (fun ht => ?_)
            (h₃.add hfit.partialNe o) (add_mem w₃ (partialPath_ne_empty hfit.inPlace) o)
          exact ⟨(hself ht).1, fun content => (hself ht).2 reader content rfl⟩

theorem prepareDestination_wp (depth : Nat) {t : String} {sourceIsDir : Bool}
    (hmode : job.conflictResolution = "overwrite" ∨ job.conflictResolution = "")
    (hdir : sourceIsDir = true → t ≠ path) (h : Kept path isPartial new before old w) :
    wp World.exec (Careful job path isPartial) (prepareDestination job depth sourceIsDir t)
      (fun r w' => Kept path isPartial new before old w' ∧ ∀ d, r = .ok d →
        d.path = t ∧ (t = path → d.replaceExisting = true)) w := by
  have hskip : job.conflictResolution ≠ "skip" := by
    rintro hskip
    simp [hskip] at hmode
  have hboth : job.conflictResolution ≠ "keepBoth" := by
    rintro hboth
    simp [hboth] at hmode
  refine wp_call fun o _ => ?_
  have h₁ := h.cancel (w.cancelled || o.cancel)
  rcases w.exec_stat t o with herror | hfound
  · rw [herror]
    exact ⟨h₁, nofun⟩
  · rw [hfound]
    simp only [if_neg hskip, if_neg hboth, if_pos hmode]
    cases hstat : w.stat t with
    | error => exact ⟨h₁, nofun⟩
    | missing =>
        refine ⟨h₁, fun d hd => ?_⟩
        cases hd
        refine ⟨rfl, ?_⟩
        rintro rfl
        obtain ⟨content, hfile, -⟩ := h.target
        simp [World.stat, hfile] at hstat
    | dir =>
        have ht : t ≠ path := by
          rintro rfl
          obtain ⟨content, hfile, -⟩ := h.target
          simp [World.stat, hfile] at hstat
        cases sourceIsDir with
        | true =>
            refine ⟨h₁, fun d hd => ?_⟩
            cases hd
            exact ⟨rfl, fun heq => absurd heq ht⟩
        | false =>
            refine ⟨h₁, fun d hd => ?_⟩
            cases hd
            exact ⟨rfl, fun _ => rfl⟩
    | file =>
        cases sourceIsDir with
        | false =>
            refine ⟨h₁, fun d hd => ?_⟩
            cases hd
            exact ⟨rfl, fun _ => rfl⟩
        | true =>
            obtain ⟨content, hfile⟩ : ∃ content, w.fs t = some (.file content) := by
              unfold World.stat at hstat
              split at hstat
              · cases hstat
              · exact ⟨_, ‹_›⟩
              · cases hstat
            have ht := hdir rfl
            refine wp_bind.mpr (removePath_file_wp (w := (w.exec (.stat t) o).1) job.accessor depth
              hfile (fun w₁ hfs htracker => ?_) fun w₁ o' hfs htracker _ => ?_)
            · exact ⟨h.same hfs htracker, nofun⟩
            · refine ⟨(h.same hfs htracker).harmless (c := .remove t) ht o', fun d hd => ?_⟩
              split at hd
              · cases hd
                exact ⟨rfl, fun heq => absurd heq ht⟩
              · cases hd

theorem whenRunning_wp {next : Transfer (Option TransferError)}
    (h : Kept path isPartial new before old w)
    (hnext : ∀ w', Kept path isPartial new before old w' →
      wp World.exec (Careful job path isPartial) next
        (fun _ => Kept path isPartial new before old) w') :
    wp World.exec (Careful job path isPartial) (whenRunning next)
      (fun _ => Kept path isPartial new before old) w := by
  refine wp_harmless h trivial fun paused w₁ h₁ => ?_
  split
  · exact h₁
  · refine wp_harmless h₁ trivial fun cancelled w₂ h₂ => ?_
    split
    · exact h₂
    · exact hnext w₂ h₂

theorem makeDir_all (made : Bool) (p : String) :
    (if made then pure true else perform (.mkdirAll p) : Transfer Bool).All (Harmless path) :=
  .ite (fun _ => .pure true) fun _ => .perform trivial

mutual

theorem copyPath_wp (depth : Nat)
    (hmode : job.conflictResolution = "overwrite" ∨ job.conflictResolution = "")
    (sourcePath t : String) (source : Source)
    (hfiles : ∀ file ∈ source.files job.accessor.join t, Fits job path isPartial file.1 ∧
      ∀ reader content, file = (path, some reader) → reader.content = some content → new content)
    (hdirs : path ∉ source.dirs job.accessor.join t) {w : World}
    (h : Kept path isPartial new before old w) :
    wp World.exec (Careful job path isPartial) (copyPath job depth sourcePath t source)
      (fun _ => Kept path isPartial new before old) w := by
  cases source with
  | missing => exact whenRunning_wp h fun w' h' => h'
  | file opened =>
      refine whenRunning_wp h fun w' h' => ?_
      obtain ⟨hfit, hnew⟩ := hfiles (t, opened) List.mem_cons_self
      refine wp_seq (prepareDestination_wp depth hmode nofun h') fun r w₁ hprepared => ?_
      obtain ⟨h₁, hd⟩ := hprepared
      cases r with
      | error err => exact h₁
      | ok d =>
          obtain ⟨hpath, hreplace⟩ := hd d rfl
          dsimp only
          split
          · exact h₁
          · rw [hpath]
            refine copyFileWithProgress_wp depth sourcePath hfit (fun ht => ?_) h₁
            refine ⟨hreplace ht, fun reader content hopened hcontent => ?_⟩
            exact hnew reader content (by rw [ht, hopened]) hcontent
  | unlisted =>
      refine whenRunning_wp h fun w' h' => ?_
      have ht : t ≠ path := by
        rintro rfl
        exact hdirs List.mem_cons_self
      refine wp_seq (prepareDestination_wp depth hmode (fun _ => ht) h') fun r w₁ hprepared => ?_
      cases r with
      | error err => exact hprepared.1
      | ok d =>
          dsimp only
          split
          · exact hprepared.1
          · exact wp_seq (wp_of_all (fun w c o hw hc _ => hw.harmless hc o)
              (makeDir_all d.mergeIntoExistingDir d.path) hprepared.1) fun made w₂ h₂ => h₂
  | dir entries =>
      refine whenRunning_wp h fun w' h' => ?_
      have ht : t ≠ path := by
        rintro rfl
        exact hdirs List.mem_cons_self
      refine wp_seq (prepareDestination_wp depth hmode (fun _ => ht) h') fun r w₁ hprepared => ?_
      obtain ⟨h₁, hd⟩ := hprepared
      cases r with
      | error err => exact h₁
      | ok d =>
          obtain ⟨hpath, -⟩ := hd d rfl
          dsimp only
          split
          · exact h₁
          · refine wp_seq (wp_of_all (fun w c o hw hc _ => hw.harmless hc o)
              (makeDir_all d.mergeIntoExistingDir d.path) h₁) fun made w₂ h₂ => ?_
            split
            · exact h₂
            · rw [hpath]
              refine wp_seq (copyEntries_wp depth hmode sourcePath t entries hfiles
                (fun hd => hdirs (List.mem_cons_of_mem t hd)) h₂) fun err w₃ h₃ => ?_
              cases err with
              | some err => exact h₃
              | none =>
                  exact wp_bind.mpr (applyTransferMetadata_wp _ _ fun w₄ hfs htracker =>
                    h₃.same hfs htracker)

theorem copyEntries_wp (depth : Nat)
    (hmode : job.conflictResolution = "overwrite" ∨ job.conflictResolution = "")
    (sourcePath t : String) (entries : Entries)
    (hfiles : ∀ file ∈ entries.files job.accessor.join t, Fits job path isPartial file.1 ∧
      ∀ reader content, file = (path, some reader) → reader.content = some content → new content)
    (hdirs : path ∉ entries.dirs job.accessor.join t) {w : World}
    (h : Kept path isPartial new before old w) :
    wp World.exec (Careful job path isPartial) (copyEntries job depth sourcePath t entries)
      (fun _ => Kept path isPartial new before old) w := by
  cases entries with
  | nil => exact h
  | cons name source rest =>
      refine wp_seq (copyPath_wp depth hmode _ _ source (fun file hf => ?_) (fun hd => ?_) h)
        fun err w₁ h₁ => ?_
      · exact hfiles file (List.mem_append_left _ hf)
      · exact hdirs (List.mem_append_left _ hd)
      · cases err with
        | some err => exact h₁
        | none =>
            refine copyEntries_wp depth hmode sourcePath t rest (fun file hf => ?_)
              (fun hd => ?_) h₁
            · exact hfiles file (List.mem_append_right _ hf)
            · exact hdirs (List.mem_append_right _ hd)

end

theorem sizeItems_all (items : List Item) (failedItems : List (String × String)) :
    (sizeItems items failedItems).All (Harmless path) := by
  induction items generalizing failedItems with
  | nil => trivial
  | cons item items ih =>
      refine .bind (.perform trivial) fun err => ?_
      cases err with
      | none => exact ih failedItems
      | some err =>
          cases err with
          | cancelled => trivial
          | failed operation p => exact ih _

theorem copyItems_wp (depth : Nat) (target : String)
    (hmode : job.conflictResolution = "overwrite" ∨ job.conflictResolution = "")
    (items : List Item) (failedItems : List (String × String))
    (hfiles : ∀ file ∈ job.files target items, Fits job path isPartial file.1 ∧
      ∀ reader content, file = (path, some reader) → reader.content = some content → new content)
    (hdirs : path ∉ job.dirs target items) {w : World}
    (h : Kept path isPartial new before old w) :
    wp World.exec (Careful job path isPartial) (copyItems job depth target items failedItems)
      (fun _ => Kept path isPartial new before old) w := by
  induction items generalizing failedItems w with
  | nil => exact h
  | cons item items ih =>
      have hrest := fun failedItems w h =>
        ih failedItems (fun file hf => hfiles file (List.mem_append_right _ hf))
          (fun hd => hdirs (List.mem_append_right _ hd)) (w := w) h
      dsimp only [copyItems]
      split
      · exact hrest failedItems w h
      · refine wp_harmless h trivial fun paused w₁ h₁ => ?_
        split
        · exact h₁
        · refine wp_seq (copyPath_wp depth hmode _ _ item.source (fun file hf => ?_)
            (fun hd => ?_) h₁) fun err w₂ h₂ => ?_
          · exact hfiles file (List.mem_append_left _ hf)
          · exact hdirs (List.mem_append_left _ hd)
          · cases err with
            | none => exact hrest failedItems w₂ h₂
            | some err =>
                cases err with
                | cancelled => exact h₂
                | failed operation p => exact hrest _ w₂ h₂

theorem cleanups_wp (paths : List String) {w : World}
    (h : Kept path isPartial new before old { w with tracker := paths })
    (hnone : w.tracker = []) :
    wp World.exec (Careful job path isPartial) (cleanupAll.cleanups paths)
      (fun _ w' => Kept path isPartial new before old { w' with tracker := [] } ∧
        w'.tracker = []) w := by
  induction paths generalizing w with
  | nil => exact ⟨h, hnone⟩
  | cons p paths ih =>
      refine wp_call fun o hcareful => ih ?_ ?_
      · rcases World.remove_cases { w with cancelled := w.cancelled || o.cancel } o.fault p with
          ⟨heq, hwhy⟩ | ⟨heq, -, -⟩
        all_goals
          simp only [World.exec, World.call, heq]
        · refine ⟨h.target, fun q content hq hfile => ?_, fun q hq => ?_⟩
          · refine (h.tracked q content hq hfile).imp_left fun hmem => ?_
            rcases List.mem_cons.mp hmem with rfl | hmem
            · have hthere : w.fs q = some (.file content) := hfile
              rcases hwhy with hfailed | hgone
              · exact absurd hfailed (hcareful hq (by simp [hthere]))
              · exact absurd (hgone.symm.trans hthere) nofun
            · exact hmem
          · exact h.tracker q (List.mem_cons_of_mem p hq)
        · have hp := h.tracker p List.mem_cons_self
          refine ⟨?_, fun q content hq hfile => ?_, fun q hq => ?_⟩
          · obtain ⟨content, hfile, hcontent⟩ := h.target
            exact ⟨content, (World.set_fs_ne _ _ hp.symm).trans hfile, hcontent⟩
          · have hqp : q ≠ p := by
              rintro rfl
              have := (World.set_fs_self _ q none).symm.trans hfile
              cases this
            have hthere : w.fs q = some (.file content) :=
              (World.set_fs_ne _ none hqp).symm.trans hfile
            refine (h.tracked q content hq hthere).imp_left fun hmem => ?_
            exact (List.mem_cons.mp hmem).resolve_left hqp
          · exact h.tracker q (List.mem_cons_of_mem p hq)
      · rcases World.remove_cases { w with cancelled := w.cancelled || o.cancel } o.fault p with
          ⟨heq, -⟩ | ⟨heq, -, -⟩
        all_goals
          simp only [World.exec, World.call, heq]
          exact hnone

theorem cleanupAll_wp (h : Kept path isPartial new before old w) :
    wp World.exec (Careful job path isPartial) cleanupAll
      (fun _ w' => Kept path isPartial new before old { w' with tracker := [] } ∧
        w'.tracker = []) w := by
  refine wp_call fun o _ => cleanups_wp _ ?_ rfl
  have hmem : ∀ q, q ∈ (w.exec .takePaths o).2 ↔ q ∈ w.tracker := by
    intro q
    simp only [World.exec, World.call]
    split
    · rename_i hperm
      exact (List.isPerm_iff.mp hperm).mem_iff
    · rfl
  refine ⟨h.target, fun q content hq hfile => ?_, fun q hq => ?_⟩
  · exact (h.tracked q content hq hfile).imp_left (hmem q).mpr
  · exact h.tracker q ((hmem q).mp hq)

theorem transferItems_wp (depth : Nat) (target : String) (items : List Item)
    (hmode : job.conflictResolution = "overwrite" ∨ job.conflictResolution = "")
    (hfiles : ∀ file ∈ job.files target items, Fits job path isPartial file.1 ∧
      ∀ reader content, file = (path, some reader) → reader.content = some content → new content)
    (hdirs : path ∉ job.dirs target items) (h : Kept path isPartial new before old w) :
    wp World.exec (Careful job path isPartial)
      (runTransfer.transferItems job depth target items)
      (fun _ => Kept path isPartial new before old) w := by
  refine wp_harmless h trivial fun found w₁ h₁ => ?_
  split
  · exact h₁
  · refine wp_harmless h₁ trivial fun found w₂ h₂ => ?_
    split
    · exact h₂
    · refine wp_seq (wp_of_all (fun w c o hw hc _ => hw.harmless hc o)
        (sizeItems_all items []) h₂) fun sized w₃ h₃ => ?_
      cases sized with
      | none => exact h₃
      | some failedItems =>
          refine wp_seq (copyItems_wp depth target hmode items failedItems hfiles hdirs h₃)
            fun copied w₄ h₄ => ?_
          cases copied with
          | none => exact h₄
          | some failedItems =>
              dsimp only
              split
              · exact wp_mono (fun _ w' hclean => hclean.1.same rfl hclean.2) (cleanupAll_wp h₄)
              · exact h₄

end

theorem Job.Protects.fits {job : Job} {target path : String} {items : List Item}
    (h : job.Protects target items path) {file : String × Option Reader}
    (hfile : file ∈ job.files target items) :
    Fits job path (job.Partial target items) file.1 := by
  obtain ⟨own, hown, rfl⟩ := h.copied
  refine ⟨fun heq => ?_, ⟨file, hfile, rfl⟩, fun heq => ?_, h.apart file hfile,
    h.notBelow file hfile⟩
  · exact h.apart own hown ⟨file, hfile, heq⟩
  · exact h.apart file hfile ⟨file, hfile, heq⟩

/-- A job that overwrites a file leaves the complete old or the complete new content, and no partial
file that was not there before, whatever fails and whenever it is cancelled, as long as the
environment is careful. -/
theorem transfer_atomic {job : Job} {target path : String} {items : List Item} {depth : Nat}
    {fs : String → Option Node} {old : List UInt8} {os : List Outcome} {w : World}
    (hmode : job.conflictResolution = "overwrite" ∨ job.conflictResolution = "")
    (hprotects : job.Protects target items path) (hold : fs path = some (.file old))
    (hcareful : Admissible (Allowed (Careful job path (job.Partial target items)))
      (step World.exec) ({ fs := fs }, runTransfer job depth target items) os)
    (hr : runs World.exec (runTransfer job depth target items) { fs := fs } os = some ((), w)) :
    (∃ content, w.fs path = some (.file content) ∧
      (content = old ∨ job.New target items path content)) ∧
    ∀ p content, job.Partial target items p → w.fs p = some (.file content) →
      ∃ content, fs p = some (.file content) := by
  have hstart : Kept path (job.Partial target items) (job.New target items path) fs old
      { fs := fs } :=
    ⟨⟨old, hold, .inl rfl⟩, fun p content _ hfile => .inr ⟨content, hfile⟩, nofun⟩
  have hfiles : ∀ file ∈ job.files target items,
      Fits job path (job.Partial target items) file.1 ∧ ∀ reader content,
        file = (path, some reader) → reader.content = some content →
          job.New target items path content := by
    refine fun file hfile => ⟨hprotects.fits hfile, fun reader content heq hcontent => ?_⟩
    exact ⟨reader, heq ▸ hfile, hcontent⟩
  have hwp : wp World.exec (Careful job path (job.Partial target items))
      (runTransfer job depth target items) (fun _ w' => Kept path (job.Partial target items)
        (job.New target items path) fs old { w' with tracker := [] } ∧ w'.tracker = [])
      { fs := fs } :=
    wp_seq (transferItems_wp depth target items hmode hfiles hprotects.notDir hstart)
      fun _ w' h' => cleanupAll_wp h'
  obtain ⟨hkept, -⟩ := runs_wp hwp hcareful hr
  exact ⟨hkept.target, fun p content hp hfile =>
    (hkept.tracked p content hp hfile).resolve_left nofun⟩

def slashAccessor : FilesystemAccessor where
  join base elem := base ++ "/" ++ elem
  dir path := String.ofList ((path.toList.reverse.dropWhile (· ≠ '/')).drop 1).reverse
  base path := String.ofList (path.toList.reverse.takeWhile (· ≠ '/')).reverse

def overwriteJob : Job where
  accessor := slashAccessor
  sourceAccessor := slashAccessor
  jobID := "7"
  conflictResolution := "overwrite"
  metadata := ⟨true, true⟩

def overwriteItems : List Item := [⟨"a", "s/a", .file (some (.more [1] (.last [2] false)))⟩]

def overwriteTarget (path : String) : Option Node :=
  if path = "t/a" then some (.file [0]) else if path = "t" then some .dir else none

def nothingFails (s : World × Transfer Unit) (o : Outcome) : Bool :=
  o.fault = .none && match s.2 with
    | .call (.forget p) _ => s.1.fs p = none
    | _ => true

theorem allowed_of_nothingFails (job : Job) (path : String) (isPartial : String → Prop)
    (s : World × Transfer Unit) (o : Outcome) (h : nothingFails s o = true) :
    Allowed (Careful job path isPartial) s o := by
  obtain ⟨w, p⟩ := s
  simp only [nothingFails, Bool.and_eq_true, decide_eq_true_eq] at h
  cases p with
  | ret a => trivial
  | call c k =>
      cases c with
      | forget p =>
          have hgone : w.fs p = none := by simpa using h.2
          exact fun _ content => by simp [hgone]
      | close p => exact fun _ _ _ => h.1
      | remove p => exact fun _ => by simp [h.1]
      | rename p q => exact fun _ _ => by simp [h.1]
      | cleanup p => exact fun _ _ => by simp [h.1]
      | _ => trivial

theorem overwriteJob_protects : overwriteJob.Protects "t" overwriteItems "t/a" := by
  have hpath : slashAccessor.join "t" "a" = "t/a" := by decide
  refine ⟨⟨_, List.mem_cons_self, hpath⟩, fun file hfile => ?_, nofun, fun file hfile hne => ?_⟩
  all_goals
    obtain rfl := List.mem_singleton.mp hfile
  · rintro ⟨file, hfile, heq⟩
    obtain rfl := List.mem_singleton.mp hfile
    revert heq
    decide
  · exact absurd hpath hne

/-- Every step succeeds. -/
theorem transfer_atomic_overwrites : ∃ w,
    runs World.exec (runTransfer overwriteJob 1 "t" overwriteItems) { fs := overwriteTarget }
      (List.replicate 27 ({} : Outcome)) = some ((), w) ∧
    (∃ content, w.fs "t/a" = some (.file content) ∧
      (content = [0] ∨ overwriteJob.New "t" overwriteItems "t/a" content)) ∧
    ∀ p content, overwriteJob.Partial "t" overwriteItems p → w.fs p = some (.file content) →
      ∃ content, overwriteTarget p = some (.file content) := by
  have hr : (runs World.exec (runTransfer overwriteJob 1 "t" overwriteItems)
      { fs := overwriteTarget } (List.replicate 27 ({} : Outcome))).isSome = true := by
    decide
  obtain ⟨⟨u, w⟩, hw⟩ := Option.isSome_iff_exists.mp hr
  refine ⟨w, hw, transfer_atomic (.inl rfl) overwriteJob_protects (by decide) ?_ hw⟩
  exact admissible_of_allows (allowed_of_nothingFails _ _ _) (by decide)

/-- The rename fails when the file has been removed, and the cleanup removes the only copy. -/
theorem failed_rename_loses_target : ∃ w,
    runs World.exec (runTransfer overwriteJob 1 "t" overwriteItems) { fs := overwriteTarget }
      (List.replicate 24 ({} : Outcome) ++ { fault := .failed } :: List.replicate 3 ({} : Outcome)) =
        some ((), w) ∧
    overwriteTarget "t/a" = some (.file [0]) ∧ w.fs "t/a" = none := by
  have hr : (runs World.exec (runTransfer overwriteJob 1 "t" overwriteItems)
      { fs := overwriteTarget }
      (List.replicate 24 ({} : Outcome) ++ { fault := .failed } :: List.replicate 3 ({} : Outcome))).map
        (fun r => r.2.fs "t/a") = some none := by decide
  obtain ⟨⟨u, w⟩, hw, hgone⟩ := Option.map_eq_some_iff.mp hr
  exact ⟨w, hw, by decide, hgone⟩

end Dolgate.Sftp
