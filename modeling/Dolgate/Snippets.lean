import Mathlib.Data.List.Induction
import Dolgate.JsText

set_option autoImplicit false

/-! The variables of a snippet's command. Both apps have this code. -/

namespace Dolgate.Snippets
open JsonText

/-- `\s`, which is what `trim` takes away, too. -/
def isSpace (u : UInt16) : Bool :=
  (9 ≤ u && u ≤ 13) || u == 0x20 || u == 0xa0 || u == 0x1680 || (0x2000 ≤ u && u ≤ 0x200a) ||
    u == 0x2028 || u == 0x2029 || u == 0x202f || u == 0x205f || u == 0x3000 || u == 0xfeff

/-- `[A-Za-z0-9_]` -/
def isWord (u : UInt16) : Bool :=
  (0x41 ≤ u && u ≤ 0x5a) || (0x61 ≤ u && u ≤ 0x7a) || (0x30 ≤ u && u ≤ 0x39) || u == 0x5f

def brace : UInt16 := 0x7d

def trim (s : Units) : Units := ((s.dropWhile isSpace).reverse.dropWhile isSpace).reverse

def strip (start s : Units) : Option Units :=
  if start.isPrefixOf s then some (s.drop start.length) else none

structure Match where
  source : Units
  name : Units
  group : Option Units
deriving DecidableEq, Repr

def Match.defaultValue (m : Match) : Units := trim (m.group.getD [])

/-- The groups of a match at the start of `s`, and what follows it. No choice that the pattern
leaves open leads to another match: what follows a run is never one of the run. -/
def groups (s : Units) : Option (Units × Option Units × Units) :=
  (strip [0x7b, 0x7b] s).bind fun rest =>
    let body := rest.dropWhile isSpace
    let name := body.takeWhile isWord
    let rest := (body.dropWhile isWord).dropWhile isSpace
    if name = [] then none
    else
      match strip [0x3d] rest with
      | some value =>
        (strip [brace, brace] (value.dropWhile fun u => u != brace)).map fun after =>
          (name, some (value.takeWhile fun u => u != brace), after)
      | none => (strip [brace, brace] rest).map fun after => (name, none, after)

def matchAt (s : Units) : Option Match :=
  (groups s).map fun g => ⟨s.take (s.length - g.2.2.length), g.1, g.2.1⟩

inductive Segment where
  | unit (u : UInt16)
  | placeholder (m : Match)
deriving DecidableEq, Repr

/-- The matches from left to right and what is between them. `skip` units are part of the match
before. -/
def segmentsFrom : Nat → Units → List Segment
  | _, [] => []
  | skip + 1, _ :: s => segmentsFrom skip s
  | 0, u :: s =>
    match matchAt (u :: s) with
    | none => .unit u :: segmentsFrom 0 s
    | some m => .placeholder m :: segmentsFrom (m.source.length - 1) s

def segments (command : Units) : List Segment := segmentsFrom 0 command

def Segment.match? : Segment → Option Match
  | .unit _ => none
  | .placeholder m => some m

def matchAll (command : Units) : List Match := (segments command).filterMap Segment.match?

structure SnippetVariable where
  name : Units
  defaultValue : Units
deriving DecidableEq, Repr

def SnippetVariable.fill (m : Match) (v : SnippetVariable) : SnippetVariable :=
  if v.name = m.name ∧ v.defaultValue = [] then { v with defaultValue := m.defaultValue } else v

def noteMatch (ordered : List SnippetVariable) (m : Match) : List SnippetVariable :=
  if ordered.any fun v => v.name = m.name then ordered.map (SnippetVariable.fill m)
  else ordered ++ [⟨m.name, m.defaultValue⟩]

def parseSnippetVariables (command : Units) : List SnippetVariable :=
  (matchAll command).foldl noteMatch []

/-- A record of values. `inherited` is what the prototype of every object has under a name, as the
text it is replaced by. -/
structure Values where
  own : Units → Option Units
  inherited : Units → Option Units

/-- `values[name]` -/
def Values.get (values : Values) (name : Units) : Option Units :=
  (values.own name).or (values.inherited name)

def replacement (values : Values) (m : Match) : Units := (values.get m.name).getD m.defaultValue

def Segment.resolve (values : Values) : Segment → Units
  | .unit u => [u]
  | .placeholder m => replacement values m

def resolveSnippetCommand (command : Units) (values : Values) : Units :=
  (segments command).flatMap (Segment.resolve values)

def Segment.source : Segment → Units
  | .unit u => [u]
  | .placeholder m => m.source

theorem strip_eq_some {start s rest : Units} : strip start s = some rest ↔ s = start ++ rest := by
  simp only [strip, Option.ite_none_right_eq_some, Option.some.injEq, List.isPrefixOf_iff_prefix]
  constructor
  · rintro ⟨⟨t, rfl⟩, h⟩
    rw [← h, List.drop_left]
  · rintro rfl
    exact ⟨List.prefix_append start rest, List.drop_left⟩

theorem dropWhile_append (p : UInt16 → Bool) (s : Units) :
    ∃ run, s = run ++ s.dropWhile p :=
  ⟨s.takeWhile p, List.takeWhile_append_dropWhile.symm⟩

theorem groups_rest {s : Units} {g : Units × Option Units × Units} (h : groups s = some g) :
    ∃ source, source ≠ [] ∧ s = source ++ g.2.2 := by
  obtain ⟨rest, hopen, hbody⟩ := Option.bind_eq_some_iff.mp h
  obtain rfl := strip_eq_some.mp hopen
  dsimp only at hbody
  rw [Option.ite_none_left_eq_some] at hbody
  obtain ⟨-, hgroups⟩ := hbody
  obtain ⟨spaces, hspaces⟩ := dropWhile_append isSpace rest
  obtain ⟨word, hword⟩ := dropWhile_append isWord (rest.dropWhile isSpace)
  obtain ⟨spaces', hspaces'⟩ :=
    dropWhile_append isSpace ((rest.dropWhile isSpace).dropWhile isWord)
  have hrest : rest = spaces ++ word ++ spaces' ++
      ((rest.dropWhile isSpace).dropWhile isWord).dropWhile isSpace := by
    rw [List.append_assoc, List.append_assoc, ← hspaces', ← hword, ← hspaces]
  generalize ((rest.dropWhile isSpace).dropWhile isWord).dropWhile isSpace = tail
    at hrest hgroups
  cases hvalue : strip [0x3d] tail with
  | some value =>
    simp only [hvalue] at hgroups
    obtain ⟨after, hclose, rfl⟩ := Option.map_eq_some_iff.mp hgroups
    obtain ⟨run, hrun⟩ := dropWhile_append (fun u => u != brace) value
    rw [strip_eq_some.mp hclose] at hrun
    refine ⟨[0x7b, 0x7b] ++ spaces ++ word ++ spaces' ++ [0x3d] ++ run ++ [brace, brace], ?_, ?_⟩
    · simp
    · rw [hrest, strip_eq_some.mp hvalue]
      conv => lhs; rw [hrun]
      simp only [List.append_assoc]
  | none =>
    simp only [hvalue] at hgroups
    obtain ⟨after, hclose, rfl⟩ := Option.map_eq_some_iff.mp hgroups
    refine ⟨[0x7b, 0x7b] ++ spaces ++ word ++ spaces' ++ [brace, brace], by simp, ?_⟩
    rw [hrest, strip_eq_some.mp hclose]
    simp only [List.append_assoc]

theorem matchAt_source {s : Units} {m : Match} (h : matchAt s = some m) :
    m.source ≠ [] ∧ ∃ rest, s = m.source ++ rest := by
  obtain ⟨g, hg, rfl⟩ := Option.map_eq_some_iff.mp h
  obtain ⟨source, hne, rfl⟩ := groups_rest hg
  have hlength : (source ++ g.2.2).length - g.2.2.length = source.length := by
    rw [List.length_append, Nat.add_sub_cancel]
  simp only [hlength, List.take_left]
  exact ⟨hne, g.2.2, rfl⟩

theorem segmentsFrom_source (skip : Nat) (s : Units) :
    (segmentsFrom skip s).flatMap Segment.source = s.drop skip := by
  induction s generalizing skip with
  | nil => simp [segmentsFrom]
  | cons u s ih =>
    cases skip with
    | succ skip => rw [segmentsFrom, ih, List.drop_succ_cons]
    | zero =>
      rw [segmentsFrom, List.drop_zero]
      cases hm : matchAt (u :: s) with
      | none => simp only [List.flatMap_cons, ih, Segment.source, List.drop_zero,
          List.singleton_append]
      | some m =>
        obtain ⟨hne, rest, hrest⟩ := matchAt_source hm
        obtain ⟨v, source, hsource⟩ := List.exists_cons_of_ne_nil hne
        rw [hsource, List.cons_append, List.cons.injEq] at hrest
        obtain ⟨rfl, rfl⟩ := hrest
        simp only [List.flatMap_cons, ih, Segment.source, hsource, List.length_cons,
          Nat.add_sub_cancel, List.drop_left, List.cons_append]

theorem segments_source (command : Units) :
    (segments command).flatMap Segment.source = command :=
  segmentsFrom_source 0 command

def lookup (ordered : List SnippetVariable) (name : Units) : Option Units :=
  (ordered.find? fun v => v.name = name).map SnippetVariable.defaultValue

def merge (known value : Units) : Units := if known = [] then value else known

theorem lookup_cons (v : SnippetVariable) (ordered : List SnippetVariable) (name : Units) :
    lookup (v :: ordered) name =
      if v.name = name then some v.defaultValue else lookup ordered name := by
  by_cases h : v.name = name <;> simp [lookup, h]

theorem lookup_append (ordered : List SnippetVariable) (v : SnippetVariable) (name : Units) :
    lookup (ordered ++ [v]) name =
      (lookup ordered name).or (if v.name = name then some v.defaultValue else none) := by
  induction ordered with
  | nil => simp [lookup]
  | cons w ordered ih =>
    rw [List.cons_append, lookup_cons, lookup_cons, ih]
    split <;> rfl

theorem fill_name (m : Match) (v : SnippetVariable) : (v.fill m).name = v.name := by
  unfold SnippetVariable.fill
  split <;> rfl

theorem lookup_fill (ordered : List SnippetVariable) (m : Match) (name : Units) :
    lookup (ordered.map (SnippetVariable.fill m)) name =
      (lookup ordered name).map fun known =>
        if name = m.name then merge known m.defaultValue else known := by
  induction ordered with
  | nil => rfl
  | cons v ordered ih =>
    rw [List.map_cons, lookup_cons, lookup_cons, fill_name, ih]
    split
    · next hv =>
      subst hv
      simp only [SnippetVariable.fill, merge, Option.map_some]
      by_cases hname : v.name = m.name <;> by_cases hempty : v.defaultValue = [] <;>
        simp [hname, hempty]
    · rfl

theorem lookup_eq_none {ordered : List SnippetVariable} {name : Units} :
    lookup ordered name = none ↔ (ordered.any fun v => v.name = name) = false := by
  simp [lookup]

theorem lookup_noteMatch (ordered : List SnippetVariable) (m : Match) (name : Units) :
    lookup (noteMatch ordered m) name =
      if name = m.name then
        some (merge ((lookup ordered name).getD []) m.defaultValue)
      else lookup ordered name := by
  unfold noteMatch
  split
  · next hany =>
    rw [lookup_fill]
    by_cases hname : name = m.name
    · cases hlookup : lookup ordered name with
      | none => simp [lookup_eq_none.mp (hname ▸ hlookup)] at hany
      | some known => simp [hname]
    · simp [hname]
  · next hany =>
    rw [lookup_append]
    by_cases hname : name = m.name
    · subst hname
      have hnone : lookup ordered m.name = none := lookup_eq_none.mpr (by simpa using hany)
      simp [hnone, merge]
    · simp [hname, Ne.symm hname]

def firstFilled (ds : List Units) : Units := (ds.find? fun d => !d.isEmpty).getD []

theorem firstFilled_append (ds : List Units) (d : Units) :
    firstFilled (ds ++ [d]) = merge (firstFilled ds) d := by
  induction ds with
  | nil => cases d <;> rfl
  | cons e ds ih =>
    cases e with
    | nil => exact ih
    | cons u e => rfl

theorem firstFilled_of_equal {ds : List Units} {d : Units} (hd : d ∈ ds)
    (h : ∀ e ∈ ds, e = d) : firstFilled ds = d := by
  cases ds with
  | nil => simp at hd
  | cons e ds =>
    obtain rfl := h e List.mem_cons_self
    cases e with
    | cons u e => rfl
    | nil =>
      have hnone : (([] : Units) :: ds).find? (fun d => !d.isEmpty) = none := by
        simpa [List.find?_eq_none] using fun e he => h e (List.mem_cons_of_mem _ he)
      rw [firstFilled, hnone, Option.getD_none]

def defaultsOf (ms : List Match) (name : Units) : List Units :=
  (ms.filter fun m => m.name = name).map Match.defaultValue

theorem mem_defaultsOf {ms : List Match} {name d : Units} :
    d ∈ defaultsOf ms name ↔ ∃ m ∈ ms, m.name = name ∧ m.defaultValue = d := by
  simp [defaultsOf, and_assoc]

theorem defaultsOf_append (ms : List Match) (m : Match) (name : Units) :
    defaultsOf (ms ++ [m]) name =
      defaultsOf ms name ++ if name = m.name then [m.defaultValue] else [] := by
  by_cases hname : name = m.name
  · simp [defaultsOf, hname]
  · simp [defaultsOf, hname, Ne.symm hname]

def firstDefault (ms : List Match) (name : Units) : Units := firstFilled (defaultsOf ms name)

theorem firstDefault_append (ms : List Match) (m : Match) (name : Units) :
    firstDefault (ms ++ [m]) name =
      if name = m.name then merge (firstDefault ms name) m.defaultValue
      else firstDefault ms name := by
  rw [firstDefault, defaultsOf_append]
  split
  · exact firstFilled_append _ _
  · rw [List.append_nil, firstDefault]

theorem lookup_foldl (ms : List Match) (name : Units) :
    lookup (ms.foldl noteMatch []) name =
      if ∃ m ∈ ms, m.name = name then some (firstDefault ms name) else none := by
  induction ms using List.reverseRecOn with
  | nil => simp [lookup]
  | append_singleton ms m ih =>
    rw [List.foldl_append, List.foldl_cons, List.foldl_nil, lookup_noteMatch, ih,
      firstDefault_append]
    by_cases hname : name = m.name
    · subst hname
      have hlast : ∃ m' ∈ ms ++ [m], m'.name = m.name := ⟨m, by simp, rfl⟩
      rw [if_pos rfl, if_pos hlast, if_pos rfl]
      split
      · rfl
      · next hnone =>
        have hempty : defaultsOf ms m.name = [] :=
          List.eq_nil_iff_forall_not_mem.mpr fun d hd => by
            obtain ⟨m', hm', hname, -⟩ := mem_defaultsOf.mp hd
            exact hnone ⟨m', hm', hname⟩
        simp [firstDefault, hempty, firstFilled]
    · simp [hname, Ne.symm hname]

def reported (command name : Units) : Option Units :=
  lookup (parseSnippetVariables command) name

theorem reported_of_mem {command : Units} {m : Match} (h : m ∈ matchAll command) :
    reported command m.name = some (firstDefault (matchAll command) m.name) := by
  rw [reported, parseSnippetVariables, lookup_foldl, if_pos ⟨m, h, rfl⟩]

def Values.extended (values : Values) (command : Units) : Values :=
  { values with own := fun name => (values.own name).or (reported command name) }

/-- For a name that is left out the command has one default only. Objects have nothing under it
either, or the very text that is reported. -/
structure Consistent (command : Units) (values : Values) : Prop where
  defaults : ∀ m ∈ matchAll command, ∀ m' ∈ matchAll command, m'.name = m.name →
    values.get m.name = none → m'.defaultValue = m.defaultValue
  inherited : ∀ m ∈ matchAll command, ∀ value, values.own m.name = none →
    values.inherited m.name = some value → reported command m.name = some value

theorem firstDefault_of_equal {ms : List Match} {m : Match} (hm : m ∈ ms)
    (h : ∀ m' ∈ ms, m'.name = m.name → m'.defaultValue = m.defaultValue) :
    firstDefault ms m.name = m.defaultValue := by
  refine firstFilled_of_equal (mem_defaultsOf.mpr ⟨m, hm, rfl, rfl⟩) fun d hd => ?_
  obtain ⟨m', hm', hname, rfl⟩ := mem_defaultsOf.mp hd
  exact h m' hm' hname

theorem replacement_extended {command : Units} {values : Values} {m : Match}
    (hm : m ∈ matchAll command) :
    replacement (values.extended command) m =
      (values.own m.name).getD (firstDefault (matchAll command) m.name) := by
  simp only [replacement, Values.get, Values.extended, reported_of_mem hm]
  cases values.own m.name <;> simp

theorem consistent_iff (command : Units) (values : Values) :
    Consistent command values ↔ ∀ m ∈ matchAll command,
      replacement values m = replacement (values.extended command) m := by
  constructor
  · intro h m hm
    rw [replacement_extended hm, replacement, Values.get]
    cases hown : values.own m.name with
    | some value => simp
    | none =>
      cases hinherited : values.inherited m.name with
      | some value =>
        have hreported := h.inherited m hm value hown hinherited
        rw [reported_of_mem hm] at hreported
        simp [Option.some.inj hreported]
      | none =>
        have hequal := firstDefault_of_equal hm fun m' hm' hname =>
          h.defaults m hm m' hm' hname (by simp [Values.get, hown, hinherited])
        simp [hequal]
  · intro h
    refine ⟨fun m hm m' hm' hname hget => ?_, fun m hm value hown hinherited => ?_⟩
    · have hfirst := h m hm
      have hother := h m' hm'
      rw [replacement_extended hm, replacement, hget] at hfirst
      rw [replacement_extended hm', replacement, hname, hget] at hother
      have hown : values.own m.name = none := by
        simp only [Values.get, Option.or_eq_none_iff] at hget
        exact hget.1
      simp only [hown, Option.getD_none] at hfirst hother
      rw [hfirst, hother]
    · have hsame := h m hm
      rw [replacement_extended hm, replacement, Values.get, hown, hinherited] at hsame
      simp only [Option.none_or, Option.getD_some, Option.getD_none] at hsame
      rw [reported_of_mem hm, hsame]

/-- What is shown and what is sent agree where the defaults are consistent, and what is not part
of a placeholder is sent as it stands. -/
theorem resolve_agrees (command : Units) (values : Values) :
    (Consistent command values ↔ ∀ m ∈ matchAll command,
      replacement values m = replacement (values.extended command) m) ∧
    (Consistent command values →
      resolveSnippetCommand command values =
        resolveSnippetCommand command (values.extended command)) ∧
    ∃ pieces : List Segment, pieces.filterMap Segment.match? = matchAll command ∧
      pieces.flatMap Segment.source = command ∧
      resolveSnippetCommand command values = pieces.flatMap (Segment.resolve values) := by
  refine ⟨consistent_iff command values, fun h => ?_,
    segments command, rfl, segments_source command, rfl⟩
  refine List.flatMap_congr fun piece hpiece => ?_
  cases piece with
  | unit u => rfl
  | placeholder m =>
    have hm : m ∈ matchAll command := List.mem_filterMap.mpr ⟨_, hpiece, rfl⟩
    exact (consistent_iff command values).mp h m hm

def repeatedVariable : Units := text "\x7b\x7ba\x7d\x7d \x7b\x7ba=x\x7d\x7d"

def noValues : Values := ⟨fun _ => none, fun _ => none⟩

/-- What is sent without the variable is not what is sent with the default that is shown. -/
theorem repeated_variable_differs :
    resolveSnippetCommand repeatedVariable noValues ≠
        resolveSnippetCommand repeatedVariable (noValues.extended repeatedVariable) ∧
      resolveSnippetCommand repeatedVariable noValues = text " x" := by
  constructor <;> decide

end Dolgate.Snippets
