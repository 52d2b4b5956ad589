import Dolgate.ScreenText
import Dolgate.Segments
import Dolgate.WorkspaceLayouts

set_option autoImplicit false

/-! The layouts that tmux sends in control mode, and the trees that they become. -/

namespace Dolgate.TmuxLayout

open GroupPaths (Text trim isSpace)
open WorkspaceLayouts

def unit (c : Char) : UInt16 := UInt16.ofNat c.toNat

def isDigit (c : UInt16) : Bool := 48 ≤ c && c ≤ 57

/-- `[0-9a-f]` without regard to capital letters. -/
def isHex (c : UInt16) : Bool := isDigit c || (97 ≤ c && c ≤ 102) || (65 ≤ c && c ≤ 70)

/-- What the parser is given: the identifiers of sessions and nodes, and the numbers. -/
structure Env (ι σ ρ : Type) where
  newId : ι
  toSessionId : Text → σ
  /-- `Number` of some digits. -/
  number : Text → ρ
  half : ρ

section

variable {ι σ ρ : Type} [Zero ρ] [Add ρ] [Div ρ] [LT ρ] [DecidableLT ρ]

/-! ### The parser -/

structure TmuxLayoutCell (ι σ ρ : Type) where
  node : WorkspaceLayoutNode ι σ ρ
  width : ρ
  height : ρ

def TmuxLayoutCell.measure (axis : Axis) (cell : TmuxLayoutCell ι σ ρ) : ρ :=
  if axis = .horizontal then cell.width else cell.height

def buildTmuxLayoutBinary (env : Env ι σ ρ) (axis : Axis) :
    TmuxLayoutCell ι σ ρ → List (TmuxLayoutCell ι σ ρ) → WorkspaceLayoutNode ι σ ρ
  | first, [] => first.node
  | first, next :: rest =>
    let firstSize := first.measure axis
    let restSize := (next :: rest).foldl (fun sum cell => sum + cell.measure axis) 0
    let total := firstSize + restSize
    .split env.newId axis (if 0 < total then firstSize / total else env.half) first.node
      (buildTmuxLayoutBinary env axis next rest)

/-- `\d+` at the beginning of a text, and what follows. -/
def matchDigits (source : Text) : Option (Text × Text) :=
  if source.takeWhile isDigit = [] then none
  else some (source.takeWhile isDigit, source.dropWhile isDigit)

def matchUnit (c : Char) : Text → Option Text
  | [] => none
  | d :: source => if d = unit c then some source else none

/-- `/^(\d+)x(\d+),\d+,\d+/` -/
def matchDims (source : Text) : Option (Text × Text × Text) := do
  let (width, source) ← matchDigits source
  let source ← matchUnit 'x' source
  let (height, source) ← matchDigits source
  let source ← matchUnit ',' source
  let (_, source) ← matchDigits source
  let source ← matchUnit ',' source
  let (_, source) ← matchDigits source
  return (width, height, source)

def paneLeaf (env : Env ι σ ρ) (width height paneId : Text) : TmuxLayoutCell ι σ ρ where
  node := .leaf env.newId (env.toSessionId paneId) (some (env.number width))
    (some (env.number height))
  width := env.number width
  height := env.number height

mutual

/-- A cell and what follows it. `none` is an error. -/
def parseTmuxLayoutCell (env : Env ι σ ρ) : Nat → Text → Option (TmuxLayoutCell ι σ ρ × Text)
  | 0, _ => none
  | fuel + 1, source =>
    match matchDims source with
    | some (width, height, next :: source) =>
      if next = unit '\x7b' then
        parseTmuxLayoutContainer env fuel '\x7d' .horizontal (env.number width) (env.number height)
          [] source
      else if next = unit '[' then
        parseTmuxLayoutContainer env fuel ']' .vertical (env.number width) (env.number height)
          [] source
      else if next = unit ',' then
        (matchDigits source).map fun pane => (paneLeaf env width height pane.1, pane.2)
      else none
    | _ => none

def parseTmuxLayoutContainer (env : Env ι σ ρ) :
    Nat → Char → Axis → ρ → ρ → List (TmuxLayoutCell ι σ ρ) → Text →
      Option (TmuxLayoutCell ι σ ρ × Text)
  | 0, _, _, _, _, _, _ => none
  | fuel + 1, close, axis, width, height, children, source =>
    match parseTmuxLayoutCell env fuel source with
    | some (child, ch :: source) =>
      if ch = unit ',' then
        parseTmuxLayoutContainer env fuel close axis width height (children ++ [child]) source
      else if ch = unit close then
        match children ++ [child] with
        | [] => none
        | first :: rest => some (⟨buildTmuxLayoutBinary env axis first rest, width, height⟩, source)
      else none
    | _ => none

end

def dropChecksum (body : Text) : Text :=
  let token := body.takeWhile (· ≠ unit ',')
  if unit ',' ∈ body ∧ token ≠ [] ∧ unit 'x' ∉ token ∧ token.all isHex then
    body.drop (token.length + 1)
  else body

def parseTmuxLayout (env : Env ι σ ρ) (layout : Text) : Option (WorkspaceLayoutNode ι σ ρ) :=
  let body := dropChecksum (trim layout)
  match parseTmuxLayoutCell env (body.length + 1) body with
  | some (cell, []) => some cell.node
  | _ => none

end

/-! ### Cells -/

structure Digits where
  text : Text
  ne_nil : text ≠ []
  digits : ∀ c ∈ text, isDigit c = true

structure Dims where
  width : Digits
  height : Digits
  x : Digits
  y : Digits

mutual

inductive Cell where
  | pane (dims : Dims) (paneId : Digits)
  | split (dims : Dims) (axis : Axis) (cells : Cells)

inductive Cells where
  | last (cell : Cell)
  | more (cell : Cell) (cells : Cells)

end

def Dims.text (dims : Dims) : Text :=
  dims.width.text ++ unit 'x' :: (dims.height.text ++ unit ',' :: (dims.x.text ++ unit ',' ::
    dims.y.text))

def opening (axis : Axis) : Char := if axis = .horizontal then '\x7b' else '['

def closing (axis : Axis) : Char := if axis = .horizontal then '\x7d' else ']'

mutual

def Cell.text : Cell → Text
  | .pane dims paneId => dims.text ++ unit ',' :: paneId.text
  | .split dims axis cells => dims.text ++ unit (opening axis) :: (cells.text ++ [unit (closing axis)])

def Cells.text : Cells → Text
  | .last cell => cell.text
  | .more cell cells => cell.text ++ unit ',' :: cells.text

end

def Cell.dims : Cell → Dims
  | .pane dims _ => dims
  | .split dims _ _ => dims

section

variable {ι σ ρ : Type} [Zero ρ] [Add ρ] [Div ρ] [LT ρ] [DecidableLT ρ] (env : Env ι σ ρ)

def Cell.size (axis : Axis) (cell : Cell) : ρ :=
  env.number (if axis = .horizontal then cell.dims.width.text else cell.dims.height.text)

def Cells.sizes (axis : Axis) : Cells → List ρ
  | .last cell => [cell.size env axis]
  | .more cell cells => cell.size env axis :: cells.sizes axis

def share (first : ρ) (rest : List ρ) : ρ :=
  let total := first + rest.foldl (· + ·) 0
  if 0 < total then first / total else env.half

mutual

/-- The tree of a cell: panes are leaves, and of the cells of a split each stands beside all that
follow it. -/
def Cell.node : Cell → WorkspaceLayoutNode ι σ ρ
  | .pane dims paneId => .leaf env.newId (env.toSessionId paneId.text)
      (some (env.number dims.width.text)) (some (env.number dims.height.text))
  | .split _ axis cells => cells.node axis

def Cells.node (axis : Axis) : Cells → WorkspaceLayoutNode ι σ ρ
  | .last cell => cell.node
  | .more cell cells => .split env.newId axis (share env (cell.size env axis) (cells.sizes env axis))
      cell.node (cells.node axis)

end

end

mutual

def Cell.panes : Cell → List Text
  | .pane _ paneId => [paneId.text]
  | .split _ _ cells => cells.panes

def Cells.panes : Cells → List Text
  | .last cell => cell.panes
  | .more cell cells => cell.panes ++ cells.panes

end

/-! ### Numbers and separators -/

def Ends (rest : Text) : Prop := ∀ c ∈ rest.head?, isDigit c = false

theorem ends_cons {c : Char} (h : isDigit (unit c) = false) (rest : Text) : Ends (unit c :: rest) := by
  intro d hd
  rw [List.head?_cons, Option.mem_some] at hd
  rw [← hd]
  exact h

theorem matchDigits_append (digits : Digits) {rest : Text} (h : Ends rest) :
    matchDigits (digits.text ++ rest) = some (digits.text, rest) := by
  have hrest : rest.takeWhile isDigit = [] ∧ rest.dropWhile isDigit = rest := by
    cases rest with
    | nil => exact ⟨rfl, rfl⟩
    | cons c rest =>
      have hc : ¬ isDigit c = true := by
        rw [h c rfl]
        decide
      exact ⟨List.takeWhile_cons_of_neg hc, List.dropWhile_cons_of_neg hc⟩
  rw [matchDigits, List.takeWhile_append_of_pos digits.digits, List.dropWhile_append_of_pos digits.digits,
    hrest.1, hrest.2, List.append_nil, if_neg digits.ne_nil]

theorem of_matchDigits {source text rest : Text} (h : matchDigits source = some (text, rest)) :
    ∃ digits : Digits, digits.text = text ∧ source = text ++ rest := by
  rw [matchDigits] at h
  split at h
  · cases h
  · next hne =>
    obtain ⟨rfl, rfl⟩ := Prod.mk.inj (Option.some.inj h)
    exact ⟨⟨_, hne, fun c hc => List.mem_takeWhile_imp hc⟩, rfl,
      (List.takeWhile_append_dropWhile).symm⟩

theorem matchUnit_eq_some {c : Char} {source rest : Text} :
    matchUnit c source = some rest ↔ source = unit c :: rest := by
  cases source with
  | nil => exact ⟨fun h => (by cases h), fun h => (by cases h)⟩
  | cons d source =>
    rw [matchUnit, List.cons.injEq]
    split
    · next heq => exact ⟨fun h => ⟨heq, Option.some.inj h⟩, fun h => congrArg some h.2⟩
    · next hne => exact ⟨fun h => (by cases h), fun h => absurd h.1 hne⟩

theorem matchDims_append (dims : Dims) {rest : Text} (h : Ends rest) :
    matchDims (dims.text ++ rest) = some (dims.width.text, dims.height.text, rest) := by
  have hx : isDigit (unit 'x') = false := by decide
  have hcomma : isDigit (unit ',') = false := by decide
  have hunit : ∀ (c : Char) (rest : Text), matchUnit c (unit c :: rest) = some rest :=
    fun c rest => matchUnit_eq_some.mpr rfl
  have hsplit : dims.text ++ rest = dims.width.text ++ unit 'x' :: (dims.height.text ++ unit ',' ::
      (dims.x.text ++ unit ',' :: (dims.y.text ++ rest))) := by
    simp only [Dims.text, List.append_assoc, List.cons_append]
  rw [hsplit, matchDims, matchDigits_append dims.width (ends_cons hx _)]
  simp only [Option.bind_eq_bind, Option.bind_some, hunit,
    matchDigits_append dims.height (ends_cons hcomma _),
    matchDigits_append dims.x (ends_cons hcomma _), matchDigits_append dims.y h]
  rfl

theorem of_matchDims {source width height rest : Text}
    (h : matchDims source = some (width, height, rest)) :
    ∃ dims : Dims, source = dims.text ++ rest ∧ width = dims.width.text ∧
      height = dims.height.text := by
  rw [matchDims] at h
  obtain ⟨⟨w, s⟩, hw, h⟩ := Option.bind_eq_some_iff.mp h
  obtain ⟨s, hs, h⟩ := Option.bind_eq_some_iff.mp h
  obtain ⟨⟨v, t⟩, hv, h⟩ := Option.bind_eq_some_iff.mp h
  obtain ⟨t, ht, h⟩ := Option.bind_eq_some_iff.mp h
  obtain ⟨⟨x, u⟩, hx, h⟩ := Option.bind_eq_some_iff.mp h
  obtain ⟨u, hu, h⟩ := Option.bind_eq_some_iff.mp h
  obtain ⟨⟨y, r⟩, hy, h⟩ := Option.bind_eq_some_iff.mp h
  obtain ⟨hwidth, hpair⟩ := Prod.mk.inj (Option.some.inj h)
  obtain ⟨hheight, hrest⟩ := Prod.mk.inj hpair
  obtain ⟨width', rfl, rfl⟩ := of_matchDigits hw
  obtain ⟨height', rfl, rfl⟩ := of_matchDigits hv
  obtain ⟨x', rfl, rfl⟩ := of_matchDigits hx
  obtain ⟨y', rfl, rfl⟩ := of_matchDigits hy
  rw [matchUnit_eq_some] at hs ht hu
  refine ⟨⟨width', height', x', y'⟩, ?_, hwidth.symm, hheight.symm⟩
  simp only [hs, ht, hu, hrest, Dims.text, List.append_assoc, List.cons_append]

/-! ### What is written is read, and nothing else -/

section

variable {ι σ ρ : Type} [Zero ρ] [Add ρ] [Div ρ] [LT ρ] [DecidableLT ρ] (env : Env ι σ ρ)

def Cell.parsed (cell : Cell) : TmuxLayoutCell ι σ ρ where
  node := cell.node env
  width := env.number cell.dims.width.text
  height := env.number cell.dims.height.text

def Cells.list : Cells → List Cell
  | .last cell => [cell]
  | .more cell cells => cell :: cells.list

def finish (axis : Axis) (width height : ρ) (children : List (TmuxLayoutCell ι σ ρ)) (rest : Text) :
    Option (TmuxLayoutCell ι σ ρ × Text) :=
  match children with
  | [] => none
  | first :: others => some (⟨buildTmuxLayoutBinary env axis first others, width, height⟩, rest)

theorem measure_parsed (axis : Axis) (cell : Cell) :
    (cell.parsed env).measure axis = cell.size env axis := by
  unfold TmuxLayoutCell.measure Cell.size
  split
  · rfl
  · rfl

omit [Zero ρ] [Add ρ] [Div ρ] [LT ρ] [DecidableLT ρ] in
theorem sizes_eq (axis : Axis) (cells : Cells) :
    cells.sizes env axis = cells.list.map (Cell.size env axis) := by
  induction cells using Cells.list.induct with
  | case1 cell => rfl
  | case2 cell cells ih => rw [Cells.sizes, Cells.list, List.map_cons, ih]

theorem finish_cells (axis : Axis) (width height : ρ) (cells : Cells) (rest : Text) :
    finish env axis width height (cells.list.map (Cell.parsed env)) rest =
      some (⟨cells.node env axis, width, height⟩, rest) := by
  have hbuild : ∀ cells : Cells, ∃ first others, cells.list.map (Cell.parsed env) = first :: others ∧
      buildTmuxLayoutBinary env axis first others = cells.node env axis := by
    intro cells
    induction cells using Cells.list.induct with
    | case1 cell => exact ⟨cell.parsed env, [], rfl, rfl⟩
    | case2 cell cells ih =>
      obtain ⟨first, others, hlist, hnode⟩ := ih
      refine ⟨cell.parsed env, first :: others, ?_, ?_⟩
      · rw [Cells.list, List.map_cons, hlist]
      · have hsum : (first :: others).foldl (fun sum cell => sum + cell.measure axis) 0 =
            (cells.sizes env axis).foldl (· + ·) 0 := by
          rw [sizes_eq, ← hlist, List.foldl_map, List.foldl_map]
          simp only [measure_parsed]
        rw [buildTmuxLayoutBinary, hnode, hsum, measure_parsed, Cells.node, share]
        rfl
  obtain ⟨first, others, hlist, hnode⟩ := hbuild cells
  unfold finish
  rw [hlist]
  dsimp only
  rw [hnode]

theorem parse_text (fuel : Nat) :
    (∀ (cell : Cell) (rest : Text), Ends rest → cell.text.length ≤ fuel →
      parseTmuxLayoutCell env fuel (cell.text ++ rest) = some (cell.parsed env, rest)) ∧
    ∀ (cells : Cells) (axis : Axis) (width height : ρ) (children : List (TmuxLayoutCell ι σ ρ))
      (rest : Text), cells.text.length < fuel →
      parseTmuxLayoutContainer env fuel (closing axis) axis width height children
          (cells.text ++ unit (closing axis) :: rest) =
        finish env axis width height (children ++ cells.list.map (Cell.parsed env)) rest := by
  have hclosing : ∀ axis, isDigit (unit (closing axis)) = false := fun axis => by
    cases axis with
    | horizontal => decide
    | vertical => decide
  have hopening : ∀ axis, isDigit (unit (opening axis)) = false := fun axis => by
    cases axis with
    | horizontal => decide
    | vertical => decide
  have hcomma : isDigit (unit ',') = false := by decide
  induction fuel with
  | zero =>
    refine ⟨fun cell rest _ hlength => ?_, fun _ _ _ _ _ _ hlength => absurd hlength (Nat.not_lt_zero _)⟩
    have hpos : 0 < cell.text.length := by
      cases cell with
      | pane dims paneId => simp [Cell.text]
      | split dims axis cells => simp [Cell.text]
    omega
  | succ fuel ih =>
    obtain ⟨ihCell, ihCells⟩ := ih
    constructor
    · intro cell rest hends hlength
      cases cell with
      | pane dims paneId =>
        have hsplit : (Cell.pane dims paneId).text ++ rest =
            dims.text ++ unit ',' :: (paneId.text ++ rest) := by
          rw [Cell.text, List.append_assoc, List.cons_append]
        rw [hsplit, parseTmuxLayoutCell, matchDims_append dims (ends_cons hcomma _)]
        dsimp only
        rw [if_neg (by decide), if_neg (by decide), if_pos rfl, matchDigits_append paneId hends]
        rfl
      | split dims axis cells =>
        have hsplit : (Cell.split dims axis cells).text ++ rest = dims.text ++ unit (opening axis) ::
            (cells.text ++ unit (closing axis) :: rest) := by
          simp only [Cell.text, List.append_assoc, List.cons_append, List.nil_append]
        have hshort : cells.text.length < fuel := by
          rw [Cell.text, List.length_append, List.length_cons, List.length_append,
            List.length_singleton] at hlength
          omega
        have hcells := fun width height =>
          (ihCells cells axis width height [] rest hshort).trans
            (finish_cells env axis width height cells rest)
        rw [hsplit, parseTmuxLayoutCell, matchDims_append dims (ends_cons (hopening axis) _)]
        dsimp only
        cases axis with
        | horizontal =>
          have hbrace : unit (opening .horizontal) = unit '\x7b' := rfl
          rw [if_pos hbrace]
          exact hcells _ _
        | vertical =>
          have hbracket : unit (opening .vertical) = unit '[' := rfl
          rw [if_neg (by decide), if_pos hbracket]
          exact hcells _ _
    · intro cells axis width height children rest hlength
      cases cells with
      | last cell =>
        have hcell := ihCell cell (unit (closing axis) :: rest) (ends_cons (hclosing axis) rest)
          (Nat.le_of_lt_succ hlength)
        have hne : unit (closing axis) ≠ unit ',' := by
          cases axis with
          | horizontal => decide
          | vertical => decide
        rw [Cells.text, parseTmuxLayoutContainer, hcell]
        dsimp only
        rw [if_neg hne, if_pos rfl]
        rfl
      | more cell cells =>
        rw [Cells.text, List.length_append, List.length_cons] at hlength
        have hcell := ihCell cell (unit ',' :: (cells.text ++ unit (closing axis) :: rest))
          (ends_cons hcomma _) (by omega)
        rw [Cells.text, List.append_assoc, List.cons_append, parseTmuxLayoutContainer, hcell]
        dsimp only
        rw [if_pos rfl, ihCells cells axis width height _ rest (by omega), List.append_assoc,
          Cells.list, List.map_cons]
        rfl

theorem of_parse (fuel : Nat) :
    (∀ source cell rest, parseTmuxLayoutCell env fuel source = some (cell, rest) →
      ∃ written : Cell, source = written.text ++ rest ∧ cell = written.parsed env) ∧
    ∀ axis source width height children out,
      parseTmuxLayoutContainer env fuel (closing axis) axis width height children source = some out →
      ∃ (cells : Cells) (rest : Text), source = cells.text ++ unit (closing axis) :: rest ∧
        finish env axis width height (children ++ cells.list.map (Cell.parsed env)) rest =
          some out := by
  induction fuel with
  | zero => exact ⟨fun _ _ _ h => (by cases h), fun _ _ _ _ _ _ h => (by cases h)⟩
  | succ fuel ih =>
    obtain ⟨ihCell, ihCells⟩ := ih
    constructor
    · intro source cell rest h
      rw [parseTmuxLayoutCell] at h
      split at h
      · next width height next source' hdims =>
        obtain ⟨dims, rfl, rfl, rfl⟩ := of_matchDims hdims
        have hsplit : ∀ axis, next = unit (opening axis) →
            parseTmuxLayoutContainer env fuel (closing axis) axis (env.number dims.width.text)
              (env.number dims.height.text) [] source' = some (cell, rest) →
            ∃ written : Cell, dims.text ++ next :: source' = written.text ++ rest ∧
              cell = written.parsed env := by
          intro axis hnext hcontainer
          obtain ⟨cells, rest', rfl, hfinish⟩ := ihCells axis _ _ _ _ _ hcontainer
          rw [List.nil_append, finish_cells] at hfinish
          obtain ⟨rfl, rfl⟩ := Prod.mk.inj (Option.some.inj hfinish)
          refine ⟨.split dims axis cells, ?_, rfl⟩
          simp only [hnext, Cell.text, List.append_assoc, List.cons_append, List.nil_append]
        split at h
        · next hnext => exact hsplit .horizontal hnext h
        · split at h
          · next hnext => exact hsplit .vertical hnext h
          · split at h
            · next hnext =>
              obtain ⟨⟨pane, rest'⟩, hpane, hpair⟩ := Option.map_eq_some_iff.mp h
              obtain ⟨rfl, rfl⟩ := Prod.mk.inj hpair
              obtain ⟨paneId, rfl, rfl⟩ := of_matchDigits hpane
              refine ⟨.pane dims paneId, ?_, rfl⟩
              rw [hnext, Cell.text, List.append_assoc, List.cons_append]
            · cases h
      · cases h
    · intro axis source width height children out h
      rw [parseTmuxLayoutContainer] at h
      split at h
      · next child ch source' hchild =>
        obtain ⟨cell, rfl, rfl⟩ := ihCell _ _ _ hchild
        split at h
        · next hcomma =>
          obtain ⟨cells, rest, rfl, hfinish⟩ := ihCells axis _ _ _ _ _ h
          refine ⟨.more cell cells, rest, ?_, ?_⟩
          · rw [hcomma, Cells.text, List.append_assoc, List.cons_append]
          · rw [← hfinish, Cells.list, List.map_cons, List.append_assoc, List.singleton_append]
        · split at h
          · next hclose => exact ⟨.last cell, source', by rw [hclose, Cells.text], h⟩
          · cases h
      · cases h

/-! ### Layouts -/

structure Checksum where
  text : Text
  ne_nil : text ≠ []
  hex : ∀ c ∈ text, isHex c = true

theorem Cell.ends (cell : Cell) : ∃ first last middle, cell.text = first :: middle ∧
    isDigit first = true ∧ (∃ before, cell.text = before ++ [last]) ∧ isSpace last = false := by
  have hdigit : ∀ c, isDigit c = true → isSpace c = false := by
    intro c hc
    have hall : ∀ n : Fin 58, isDigit (UInt16.ofNat n) = true → isSpace (UInt16.ofNat n) = false := by
      decide
    simp only [isDigit, Bool.and_eq_true, decide_eq_true_eq, UInt16.le_iff_toNat_le] at hc
    have hle : c.toNat ≤ 57 := hc.2
    have hsame := hall ⟨c.toNat, by omega⟩
    rw [UInt16.ofNat_toNat] at hsame
    apply hsame
    simp only [isDigit, Bool.and_eq_true, decide_eq_true_eq, UInt16.le_iff_toNat_le]
    exact hc
  have hwidth : ∀ (dims : Dims) (rest : Text), ∃ first middle,
      dims.text ++ rest = first :: middle ∧ isDigit first = true := by
    intro dims rest
    obtain ⟨first, more, hcons⟩ := List.exists_cons_of_ne_nil dims.width.ne_nil
    have htext : ∃ middle, dims.text ++ rest = first :: middle := by
      rw [Dims.text, hcons]
      exact ⟨_, rfl⟩
    obtain ⟨middle, htext⟩ := htext
    exact ⟨first, middle, htext, dims.width.digits first (hcons ▸ List.mem_cons_self)⟩
  cases cell with
  | pane dims paneId =>
    obtain ⟨first, middle, hcons, hfirst⟩ := hwidth dims (unit ',' :: paneId.text)
    refine ⟨first, paneId.text.getLast paneId.ne_nil, middle, hcons, hfirst,
      ⟨dims.text ++ unit ',' :: paneId.text.dropLast, ?_⟩,
      hdigit _ (paneId.digits _ (List.getLast_mem paneId.ne_nil))⟩
    rw [Cell.text, List.append_assoc, List.cons_append, List.dropLast_append_getLast]
  | split dims axis cells =>
    obtain ⟨first, middle, hcons, hfirst⟩ :=
      hwidth dims (unit (opening axis) :: (cells.text ++ [unit (closing axis)]))
    refine ⟨first, unit (closing axis), middle, hcons, hfirst,
      ⟨dims.text ++ unit (opening axis) :: cells.text, ?_⟩, ?_⟩
    · rw [Cell.text, List.append_assoc, List.cons_append]
    · cases axis with
      | horizontal => decide
      | vertical => decide

theorem hex_not_separator {c : UInt16} (h : isHex c = true) :
    isSpace c = false ∧ c ≠ unit ',' ∧ c ≠ unit 'x' := by
  have hall : ∀ n : Fin 128, isHex (UInt16.ofNat n) = true →
      isSpace (UInt16.ofNat n) = false ∧ UInt16.ofNat n ≠ unit ',' ∧ UInt16.ofNat n ≠ unit 'x' := by
    decide
  have hlt : c.toNat < 128 := by
    have hc := h
    simp only [isHex, isDigit, Bool.or_eq_true, Bool.and_eq_true, decide_eq_true_eq,
      UInt16.le_iff_toNat_le] at hc
    rcases hc with (⟨-, h⟩ | ⟨-, h⟩) | ⟨-, h⟩
    · exact lt_of_le_of_lt h (by decide)
    · exact lt_of_le_of_lt h (by decide)
    · exact lt_of_le_of_lt h (by decide)
  have hsame := hall ⟨c.toNat, hlt⟩
  rw [UInt16.ofNat_toNat] at hsame
  exact hsame h

theorem trim_text {first last : UInt16} {text middle before : Text} (h : text = first :: middle)
    (hfirst : isSpace first = false) (h' : text = before ++ [last]) (hlast : isSpace last = false) :
    trim text = text := by
  have hhead : ¬ isSpace first = true := by
    rw [hfirst]
    decide
  have htail : ¬ isSpace last = true := by
    rw [hlast]
    decide
  rw [trim, h, List.dropWhile_cons_of_neg hhead, ← h, h', List.rdropWhile_concat_neg _ _ _ htail]

theorem dropChecksum_cell (cell : Cell) : dropChecksum cell.text = cell.text := by
  have hwidth : ∃ rest, cell.text = cell.dims.width.text ++ unit 'x' :: rest := by
    cases cell with
    | pane dims paneId =>
      refine ⟨dims.height.text ++ unit ',' :: (dims.x.text ++ unit ',' :: dims.y.text) ++
        unit ',' :: paneId.text, ?_⟩
      simp only [Cell.text, Cell.dims, Dims.text, List.append_assoc, List.cons_append]
    | split dims axis cells =>
      refine ⟨dims.height.text ++ unit ',' :: (dims.x.text ++ unit ',' :: dims.y.text) ++
        unit (opening axis) :: (cells.text ++ [unit (closing axis)]), ?_⟩
      simp only [Cell.text, Cell.dims, Dims.text, List.append_assoc, List.cons_append]
  obtain ⟨rest, hrest⟩ := hwidth
  have hdigits : ∀ c ∈ cell.dims.width.text, decide (c ≠ unit ',') = true := by
    intro c hc
    have hdigit := cell.dims.width.digits c hc
    refine decide_eq_true fun heq => ?_
    rw [heq] at hdigit
    exact absurd hdigit (by decide)
  have hx : unit 'x' ∈ cell.text.takeWhile (· ≠ unit ',') := by
    rw [hrest, List.takeWhile_append_of_pos hdigits, List.takeWhile_cons_of_pos (by decide)]
    exact List.mem_append_right _ List.mem_cons_self
  unfold dropChecksum
  dsimp only
  exact if_neg fun h => h.2.2.1 hx

theorem drop_separated (token rest : Text) (c : UInt16) :
    (token ++ c :: rest).drop (token.length + 1) = rest := by
  rw [List.drop_append, List.drop_of_length_le (Nat.le_succ _), Nat.add_sub_cancel_left]
  rfl

theorem dropChecksum_checksum (checksum : Checksum) (rest : Text) :
    dropChecksum (checksum.text ++ unit ',' :: rest) = rest := by
  have hnot : ∀ c ∈ checksum.text, decide (c ≠ unit ',') = true := fun c hc =>
    decide_eq_true (hex_not_separator (checksum.hex c hc)).2.1
  have htoken : (checksum.text ++ unit ',' :: rest).takeWhile (· ≠ unit ',') = checksum.text := by
    rw [List.takeWhile_append_of_pos hnot, List.takeWhile_cons_of_neg (by decide), List.append_nil]
  have hx : unit 'x' ∉ checksum.text := fun hmem =>
    (hex_not_separator (checksum.hex _ hmem)).2.2 rfl
  unfold dropChecksum
  dsimp only
  rw [htoken, if_pos ⟨List.mem_append_right _ List.mem_cons_self, checksum.ne_nil, hx,
    List.all_eq_true.mpr checksum.hex⟩, drop_separated]

theorem of_dropChecksum (body : Text) : dropChecksum body = body ∨
    ∃ checksum : Checksum, body = checksum.text ++ unit ',' :: dropChecksum body := by
  unfold dropChecksum
  dsimp only
  split
  · next h =>
    obtain ⟨hcomma, hne, -, hhex⟩ := h
    refine .inr ⟨⟨_, hne, List.all_eq_true.mp hhex⟩, ?_⟩
    have hsplit := @List.takeWhile_append_dropWhile _ (· ≠ unit ',') body
    cases hdrop : body.dropWhile (· ≠ unit ',') with
    | nil =>
      rw [hdrop, List.append_nil] at hsplit
      have hmem := List.mem_takeWhile_imp (hsplit ▸ hcomma)
      exact absurd rfl (of_decide_eq_true hmem)
    | cons c rest =>
      have hc := List.head_dropWhile_not (· ≠ unit ',') (l := body) (by rw [hdrop]; simp)
      simp only [hdrop, List.head_cons] at hc
      have heq : c = unit ',' := not_not.mp (of_decide_eq_false hc)
      rw [hdrop, heq] at hsplit
      have hrest := drop_separated (body.takeWhile (· ≠ unit ',')) rest (unit ',')
      rw [hsplit] at hrest
      rw [hrest, hsplit]
  · exact .inl rfl

theorem parseTmuxLayout_of_body {layout : Text} {cell : Cell}
    (h : dropChecksum (trim layout) = cell.text) : parseTmuxLayout env layout = some (cell.node env) := by
  have hparse := (parse_text env (cell.text.length + 1)).1 cell [] (fun c hc => by cases hc)
    (Nat.le_succ _)
  rw [List.append_nil] at hparse
  unfold parseTmuxLayout
  dsimp only
  rw [h, hparse]
  rfl

theorem parseTmuxLayout_eq_some {layout : Text} {node : WorkspaceLayoutNode ι σ ρ} :
    parseTmuxLayout env layout = some node ↔ ∃ cell : Cell, node = cell.node env ∧
      (trim layout = cell.text ∨
        ∃ checksum : Checksum, trim layout = checksum.text ++ unit ',' :: cell.text) := by
  constructor
  · intro h
    unfold parseTmuxLayout at h
    dsimp only at h
    split at h
    · next cell hparse =>
      obtain ⟨written, hbody, rfl⟩ := (of_parse env _).1 _ _ _ hparse
      rw [List.append_nil] at hbody
      refine ⟨written, (Option.some.inj h).symm, ?_⟩
      rw [← hbody]
      rcases of_dropChecksum (trim layout) with heq | hchecksum
      · exact .inl heq.symm
      · exact .inr hchecksum
    · cases h
  · rintro ⟨cell, rfl, htrim | ⟨checksum, htrim⟩⟩
    · exact parseTmuxLayout_of_body env (by rw [htrim, dropChecksum_cell])
    · exact parseTmuxLayout_of_body env (by rw [htrim, dropChecksum_checksum])

theorem sessions_node (cell : Cell) :
    listWorkspaceSessionIds (cell.node env) = cell.panes.map env.toSessionId := by
  refine @Cell.rec
    (fun cell => listWorkspaceSessionIds (cell.node env) = cell.panes.map env.toSessionId)
    (fun cells => ∀ axis, listWorkspaceSessionIds (cells.node env axis) =
      cells.panes.map env.toSessionId) ?_ ?_ ?_ ?_ cell
  · exact fun dims paneId => rfl
  · exact fun dims axis cells ih => ih axis
  · exact fun cell ih axis => ih
  · intro cell cells ih ihCells axis
    rw [Cells.node, listWorkspaceSessionIds, ih, ihCells axis, Cells.panes, List.map_append]

/-- What tmux writes becomes the tree of its cells, with the panes in their order. What else is read
has no checksum, or white space at its ends. -/
theorem parseTmuxLayout_exact :
    (∀ (checksum : Checksum) (cell : Cell),
      parseTmuxLayout env (checksum.text ++ unit ',' :: cell.text) = some (cell.node env)) ∧
    (∀ cell : Cell, listWorkspaceSessionIds (cell.node env) = cell.panes.map env.toSessionId) ∧
    ∀ layout node, parseTmuxLayout env layout = some node ↔ ∃ cell : Cell, node = cell.node env ∧
      (trim layout = cell.text ∨
        ∃ checksum : Checksum, trim layout = checksum.text ++ unit ',' :: cell.text) := by
  refine ⟨fun checksum cell => ?_, sessions_node env, fun layout node => parseTmuxLayout_eq_some env⟩
  obtain ⟨_, last, _, _, _, ⟨before, hbefore⟩, hlast⟩ := cell.ends
  obtain ⟨first, more, hcons⟩ := List.exists_cons_of_ne_nil checksum.ne_nil
  have htrim : trim (checksum.text ++ unit ',' :: cell.text) = checksum.text ++ unit ',' :: cell.text := by
    refine @trim_text first last _ (more ++ unit ',' :: cell.text)
      (checksum.text ++ unit ',' :: before) ?_
      (hex_not_separator (checksum.hex first (hcons ▸ List.mem_cons_self))).1 ?_ hlast
    · rw [hcons, List.cons_append]
    · rw [hbefore, List.append_assoc, List.cons_append]
  exact (parseTmuxLayout_eq_some env).mpr ⟨cell, rfl, .inr ⟨checksum, htrim⟩⟩

end

/-- A pane without a checksum before it is read. -/
theorem parseTmuxLayout_without_checksum :
    let env : Env Unit Text ℚ := ⟨(), id, fun _ => 0, 1 / 2⟩
    let layout := ScreenText.units "80x24,0,0,5"
    (parseTmuxLayout env layout).isSome = true ∧
      ¬ ∃ (checksum : Checksum) (cell : Cell), layout = checksum.text ++ unit ',' :: cell.text := by
  intro env layout
  refine ⟨rfl, ?_⟩
  rintro ⟨checksum, cell, h⟩
  have hsplit : layout = ScreenText.units "80x24" ++ unit ',' :: ScreenText.units "0,0,5" := rfl
  have hnot : unit ',' ∉ checksum.text := fun hmem =>
    (hex_not_separator (checksum.hex _ hmem)).2.1 rfl
  have hsame := Segments.eq_of_append_sep (by decide) hnot (hsplit.symm.trans h)
  have hx := checksum.hex (unit 'x') (hsame ▸ by decide)
  exact absurd hx (by decide)

end Dolgate.TmuxLayout
