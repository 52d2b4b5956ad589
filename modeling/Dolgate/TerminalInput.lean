import Dolgate.GroupPaths
import Dolgate.Utf16

set_option autoImplicit false

/-! The line that is being typed, as far as the input tells. -/

namespace Dolgate.TerminalInput

open GroupPaths (Text trim)
open Utf16

structure CommandBufferState where
  value : Text := []
  cursor : Nat := 0
  ambiguous : Bool := false
  deriving DecidableEq, Repr

def createEmptyCommandBuffer : CommandBufferState := {}

inductive Token where
  | paste
  | left
  | right
  | history
  | delete
  | home
  | toEnd
  | unknown
  | char (codePoint : Nat)
  deriving DecidableEq, Repr

def esc : UInt16 := 27

/-- `\x1b[` and a letter. -/
def csi (letter : UInt16) : Text := [esc, 91, letter]

/-- `\x1bO` and a letter. -/
def ss3 (letter : UInt16) : Text := [esc, 79, letter]

/-- `\x1b[`, a digit and `~`. -/
def tilde (digit : UInt16) : Text := [esc, 91, digit, 126]

/-- `\x1b[200~` and `\x1b[201~` -/
def pasteMark (digit : UInt16) : Text := [esc, 91, 50, 48, digit, 126]

def startsWith (rest : Text) (sequences : List Text) : Bool :=
  sequences.any fun sequence => sequence.isPrefixOf rest

def isLineTerminator (c : UInt16) : Bool := [10, 13, 0x2028, 0x2029].contains c

/-- The length of a sequence that is passed over. The classes of the first expression have no unit
in common, so each run of one goes as far as it can. -/
def unknownLength : Text → Nat
  | _ :: 91 :: tail =>
      let parameters := tail.takeWhile fun c => 0x30 ≤ c ∧ c ≤ 0x3f
      let between := (tail.drop parameters.length).takeWhile fun c => 0x20 ≤ c ∧ c ≤ 0x2f
      match tail.drop (parameters.length + between.length) with
      | final :: _ =>
          if 0x40 ≤ final ∧ final ≤ 0x7e then 2 + parameters.length + between.length + 1 else 1
      | [] => 1
  | _ :: 79 :: c :: _ => if isLineTerminator c then 1 else 3
  | _ => 1

def readToken (rest : Text) : Option (Token × Nat) :=
  if startsWith rest [pasteMark 48, pasteMark 49] then some (.paste, 6)
  else if startsWith rest [csi 68, ss3 68] then some (.left, 3)
  else if startsWith rest [csi 67, ss3 67] then some (.right, 3)
  else if startsWith rest [csi 65, csi 66, ss3 65, ss3 66] then some (.history, 3)
  else if startsWith rest [tilde 51] then some (.delete, 4)
  else if startsWith rest [csi 72, ss3 72, tilde 49] then
    some (.home, if startsWith rest [tilde 49] then 4 else 3)
  else if startsWith rest [csi 70, ss3 70, tilde 52] then
    some (.toEnd, if startsWith rest [tilde 52] then 4 else 3)
  else if startsWith rest [[esc]] then some (.unknown, unknownLength rest)
  else (codePointAt rest).map fun codePoint =>
    (.char codePoint, (fromCodePoint codePoint).length)

section

variable (next : CommandBufferState)

def backspace : CommandBufferState :=
  if next.cursor > 0 then
    { next with
      value := next.value.take (next.cursor - 1) ++ next.value.drop next.cursor
      cursor := next.cursor - 1 }
  else next

def typeChar (codePoint : Nat) : CommandBufferState :=
  if codePoint = 13 ∨ codePoint = 10 then { ambiguous := true }
  else if codePoint = 127 ∨ codePoint = 8 then backspace next
  else if codePoint = 1 then { next with cursor := 0 }
  else if codePoint = 5 then { next with cursor := next.value.length }
  else if codePoint = 21 then createEmptyCommandBuffer
  else if codePoint = 3 then { ambiguous := true }
  else if codePoint = 9 then { next with ambiguous := true }
  else if 32 ≤ codePoint ∧ codePoint ≠ 127 then
    { next with
      value := next.value.take next.cursor ++ fromCodePoint codePoint ++
        next.value.drop next.cursor
      cursor := next.cursor + (fromCodePoint codePoint).length }
  else { next with ambiguous := true }

def applyToken : Token → CommandBufferState
  | .paste => { next with ambiguous := true }
  | .left => { next with cursor := next.cursor - 1 }
  | .right => { next with cursor := min next.value.length (next.cursor + 1) }
  | .history => { ambiguous := true }
  | .delete =>
      if next.cursor < next.value.length then
        { next with value := next.value.take next.cursor ++ next.value.drop (next.cursor + 1) }
      else next
  | .home => { next with cursor := 0 }
  | .toEnd => { next with cursor := next.value.length }
  | .unknown => { next with ambiguous := true }
  | .char codePoint => typeChar next codePoint

def executedBy (executed : Option Text) : Token → Option Text
  | .char codePoint =>
      if codePoint = 13 ∨ codePoint = 10 then
        if trim next.value = [] then none else some (trim next.value)
      else executed
  | _ => executed

end

structure Result where
  state : CommandBufferState
  executed : Option Text
  deriving DecidableEq, Repr

/-- No turn of the loop leaves the index where it is, so there are not more than units. -/
def applyLoop : Nat → Text → Result → Result
  | 0, _, result => result
  | fuel + 1, rest, result =>
      match readToken rest with
      | none => result
      | some (token, length) =>
          applyLoop fuel (rest.drop length)
            { state := applyToken result.state token
              executed := executedBy result.state result.executed token }

def applyTerminalInput (state : CommandBufferState) (data : Text) : Result :=
  applyLoop data.length data { state, executed := none }

/-! ### Keys -/

inductive Form where
  | csi
  | ss3
  deriving DecidableEq, Repr

def Form.sequence : Form → UInt16 → Text
  | .csi => TerminalInput.csi
  | .ss3 => TerminalInput.ss3

inductive Key where
  | pasteBegins
  | pasteEnds
  | left (form : Form)
  | right (form : Form)
  | up (form : Form)
  | down (form : Form)
  | delete
  | home (form : Form)
  | homeTilde
  | toEnd (form : Form)
  | endTilde
  | char (c : Char) (h : c.toNat ≠ 27)

def Key.units : Key → Text
  | .pasteBegins => pasteMark 48
  | .pasteEnds => pasteMark 49
  | .left form => form.sequence 68
  | .right form => form.sequence 67
  | .up form => form.sequence 65
  | .down form => form.sequence 66
  | .delete => tilde 51
  | .home form => form.sequence 72
  | .homeTilde => tilde 49
  | .toEnd form => form.sequence 70
  | .endTilde => tilde 52
  | .char c _ => fromCodePoint c.toNat

def Key.token : Key → Token
  | .pasteBegins => .paste
  | .pasteEnds => .paste
  | .left _ => .left
  | .right _ => .right
  | .up _ => .history
  | .down _ => .history
  | .delete => .delete
  | .home _ => .home
  | .homeTilde => .home
  | .toEnd _ => .toEnd
  | .endTilde => .toEnd
  | .char c _ => .char c.toNat

variable {key : Key} {keys : List Key} {rest : Text} {s : CommandBufferState}

theorem startsWith_eq_false {sequences : List Text} (hhead : rest.head? ≠ some esc)
    (hsequences : ∀ sequence ∈ sequences, ∃ tail, sequence = esc :: tail) :
    startsWith rest sequences = false := by
  rw [startsWith, List.any_eq_false]
  intro sequence hsequence hprefix
  obtain ⟨tail, rfl⟩ := hsequences sequence hsequence
  obtain ⟨more, rfl⟩ := List.isPrefixOf_iff_prefix.mp hprefix
  exact hhead rfl

theorem readToken_char {c : Char} (hc : c.toNat ≠ 27) (rest : Text) :
    readToken (fromCodePoint c.toNat ++ rest) =
      some (.char c.toNat, (fromCodePoint c.toNat).length) := by
  have hhead : (fromCodePoint c.toNat ++ rest).head? ≠ some esc := by
    rw [List.head?_append_of_ne_nil _ fromCodePoint_ne_nil]
    intro hesc
    exact hc (head_fromCodePoint (by decide) hesc)
  unfold readToken
  simp only [startsWith_eq_false hhead, codePointAt_encode, Option.map_some, csi, ss3, tilde,
    pasteMark, List.mem_cons, List.not_mem_nil, or_false, forall_eq_or_imp, forall_eq,
    List.cons.injEq, true_and, exists_eq', and_self, Bool.false_eq_true, if_false]

theorem readToken_key (key : Key) (rest : Text) :
    readToken (key.units ++ rest) = some (key.token, key.units.length) := by
  cases key with
  | pasteBegins => rfl
  | pasteEnds => rfl
  | left form => cases form <;> rfl
  | right form => cases form <;> rfl
  | up form => cases form <;> rfl
  | down form => cases form <;> rfl
  | delete => rfl
  | home form => cases form <;> rfl
  | homeTilde => rfl
  | toEnd form => cases form <;> rfl
  | endTilde => rfl
  | char c h => exact readToken_char h rest

theorem Key.units_ne_nil (key : Key) : key.units ≠ [] := by
  cases key with
  | left form => cases form <;> exact List.cons_ne_nil _ _
  | right form => cases form <;> exact List.cons_ne_nil _ _
  | up form => cases form <;> exact List.cons_ne_nil _ _
  | down form => cases form <;> exact List.cons_ne_nil _ _
  | home form => cases form <;> exact List.cons_ne_nil _ _
  | toEnd form => cases form <;> exact List.cons_ne_nil _ _
  | char c h => exact fromCodePoint_ne_nil
  | _ => exact List.cons_ne_nil _ _

def unitsOf (keys : List Key) : Text := keys.flatMap Key.units

def press (s : CommandBufferState) (keys : List Key) : CommandBufferState :=
  keys.foldl (fun s key => applyToken s key.token) s

theorem applyLoop_keys {fuel : Nat} {result : Result} (hfuel : (unitsOf keys).length ≤ fuel) :
    (applyLoop fuel (unitsOf keys) result).state = press result.state keys := by
  induction keys generalizing fuel result with
  | nil =>
    cases fuel with
    | zero => rfl
    | succ fuel => rfl
  | cons key keys ih =>
    have hsplit : unitsOf (key :: keys) = key.units ++ unitsOf keys := List.flatMap_cons
    have hpos : 0 < key.units.length := List.length_pos_iff.mpr key.units_ne_nil
    rw [hsplit, List.length_append] at hfuel
    obtain ⟨fuel, rfl⟩ := Nat.exists_eq_add_one_of_ne_zero (by omega : fuel ≠ 0)
    rw [hsplit, applyLoop, readToken_key]
    dsimp only
    rw [List.drop_left, ih (by omega)]
    rfl

theorem applyTerminalInput_keys (s : CommandBufferState) (keys : List Key) :
    (applyTerminalInput s (unitsOf keys)).state = press s keys :=
  applyLoop_keys (Nat.le_refl _)

def typeParts (parts : List (List Key)) : CommandBufferState :=
  parts.foldl (fun s part => (applyTerminalInput s (unitsOf part)).state) createEmptyCommandBuffer

theorem typeParts_eq (parts : List (List Key)) :
    typeParts parts = press createEmptyCommandBuffer parts.flatten := by
  have hfold : ∀ s, parts.foldl (fun s part => (applyTerminalInput s (unitsOf part)).state) s =
      press s parts.flatten := by
    induction parts with
    | nil => exact fun _ => rfl
    | cons part parts ih =>
      intro s
      rw [List.foldl_cons, ih, applyTerminalInput_keys, List.flatten_cons, press, press, press,
        List.foldl_append]
  exact hfold createEmptyCommandBuffer

/-! ### An editor of characters -/

structure Line where
  before : List Char := []
  after : List Char := []
  deriving DecidableEq, Repr

def Line.backspace (line : Line) : Line := { line with before := line.before.dropLast }

def Line.delete (line : Line) : Line := { line with after := line.after.tail }

def Line.moveLeft (line : Line) : Line :=
  { before := line.before.dropLast, after := line.before.getLast?.toList ++ line.after }

def Line.moveRight (line : Line) : Line :=
  { before := line.before ++ line.after.head?.toList, after := line.after.tail }

def Line.toStart (line : Line) : Line := { before := [], after := line.before ++ line.after }

def Line.toEnd (line : Line) : Line := { before := line.before ++ line.after, after := [] }

def Line.insert (line : Line) (c : Char) : Line := { line with before := line.before ++ [c] }

def Line.type (line : Line) (c : Char) : Option Line :=
  if c.toNat = 8 ∨ c.toNat = 127 then some line.backspace
  else if c.toNat = 1 then some line.toStart
  else if c.toNat = 5 then some line.toEnd
  else if c.toNat < 32 then none
  else some (line.insert c)

def Line.press (line : Line) : Key → Option Line
  | .left _ => some line.moveLeft
  | .right _ => some line.moveRight
  | .delete => some line.delete
  | .home _ => some line.toStart
  | .homeTilde => some line.toStart
  | .toEnd _ => some line.toEnd
  | .endTilde => some line.toEnd
  | .char c _ => line.type c
  | _ => none

/-- The line, unless it is unknown. `^U` begins a new one. -/
def edit (line : Option Line) (key : Key) : Option Line :=
  if key.token = .char 21 then some {} else line.bind fun line => line.press key

def edited (keys : List Key) : Option Line := keys.foldl edit (some {})

def Line.state (line : Line) : CommandBufferState :=
  { value := encode (line.before ++ line.after)
    cursor := (encode line.before).length
    ambiguous := false }

def Line.Narrow (line : Line) (key : Key) : Prop :=
  match key.token with
  | .left => ∀ c ∈ line.before.getLast?, ¬ Wide c
  | .right => ∀ c ∈ line.after.head?, ¬ Wide c
  | .delete => ∀ c ∈ line.after.head?, ¬ Wide c
  | .char codePoint =>
      codePoint = 8 ∨ codePoint = 127 → ∀ c ∈ line.before.getLast?, ¬ Wide c
  | _ => True

variable {line line' : Line} {c : Char}

theorem width_pos (c : Char) : 0 < (fromCodePoint c.toNat).length :=
  List.length_pos_iff.mpr fromCodePoint_ne_nil

theorem moveLeft_iff : applyToken line.state .left = line.moveLeft.state ↔
    ∀ c ∈ line.before.getLast?, ¬ Wide c := by
  obtain ⟨before, after⟩ := line
  obtain rfl | ⟨before, c, rfl⟩ := List.eq_nil_or_concat' before
  · refine iff_of_true rfl ?_
    intro c hc
    cases hc
  · have hpos := width_pos c
    simp only [applyToken, Line.state, Line.moveLeft, List.dropLast_concat, List.getLast?_concat,
      Option.toList_some, List.append_assoc, CommandBufferState.mk.injEq, true_and, and_true,
      encode_append, encode_cons, encode_nil, List.append_nil, List.length_append,
      Option.mem_some_iff, forall_eq', ← length_eq_one_iff]
    omega

theorem moveRight_iff : applyToken line.state .right = line.moveRight.state ↔
    ∀ c ∈ line.after.head?, ¬ Wide c := by
  obtain ⟨before, after⟩ := line
  cases after with
  | nil =>
    refine iff_of_true ?_ ?_
    · simp [applyToken, Line.state, Line.moveRight]
    · intro c hc
      cases hc
  | cons c after =>
    have hpos := width_pos c
    simp only [applyToken, Line.state, Line.moveRight, List.head?_cons, List.tail_cons,
      Option.toList_some, List.append_assoc, List.singleton_append, CommandBufferState.mk.injEq,
      true_and, and_true, encode_append, encode_cons, encode_nil, List.append_nil,
      List.length_append, Option.mem_some_iff, forall_eq', ← length_eq_one_iff]
    omega

theorem delete_iff : applyToken line.state .delete = line.delete.state ↔
    ∀ c ∈ line.after.head?, ¬ Wide c := by
  obtain ⟨before, after⟩ := line
  cases after with
  | nil =>
    refine iff_of_true ?_ ?_
    · simp [applyToken, Line.state, Line.delete]
    · intro c hc
      cases hc
  | cons c after =>
    have hpos := width_pos c
    have hvalue : encode (before ++ c :: after) =
        encode before ++ (fromCodePoint c.toNat ++ encode after) := by
      rw [encode_append, encode_cons]
    have hinside : (encode before).length < (encode (before ++ c :: after)).length := by
      rw [hvalue, List.length_append, List.length_append]
      omega
    have hrest : (encode (before ++ c :: after)).take (encode before).length ++
        (encode (before ++ c :: after)).drop ((encode before).length + 1) =
        encode before ++ ((fromCodePoint c.toNat).drop 1 ++ encode after) := by
      rw [hvalue, List.take_left, List.drop_length_add_append,
        List.drop_append_of_le_length hpos]
    change (if (encode before).length < (encode (before ++ c :: after)).length then _ else _) = _ ↔ _
    rw [if_pos hinside]
    dsimp only [Line.state]
    rw [hrest]
    simp only [Line.delete, List.tail_cons, CommandBufferState.mk.injEq, and_true, encode_append,
      List.append_cancel_left_eq, List.append_left_eq_self, List.drop_eq_nil_iff, List.head?_cons,
      Option.mem_some_iff, forall_eq', ← length_eq_one_iff]
    omega

theorem backspace_iff : backspace line.state = line.backspace.state ↔
    ∀ c ∈ line.before.getLast?, ¬ Wide c := by
  obtain ⟨before, after⟩ := line
  obtain rfl | ⟨before, c, rfl⟩ := List.eq_nil_or_concat' before
  · refine iff_of_true rfl ?_
    intro c hc
    cases hc
  · have hpos := width_pos c
    have hlength : (encode (before ++ [c])).length =
        (encode before).length + (fromCodePoint c.toNat).length := by
      rw [encode_append, encode_cons, encode_nil, List.append_nil, List.length_append]
    have hinside : 0 < (encode (before ++ [c])).length := by omega
    change (if (encode (before ++ [c])).length > 0 then _ else _) = _ ↔ _
    rw [if_pos hinside]
    simp only [Line.state, Line.backspace, List.dropLast_concat, CommandBufferState.mk.injEq,
      and_true, hlength, List.getLast?_concat, Option.mem_some_iff, forall_eq',
      ← length_eq_one_iff]
    constructor
    · rintro ⟨-, hcursor⟩
      omega
    · intro hone
      have hback : (encode before).length + (fromCodePoint c.toNat).length - 1 =
        (encode before).length := by omega
      refine ⟨?_, hback⟩
      rw [hback, encode_append, encode_append, encode_append, encode_cons, encode_nil,
        List.append_nil, List.append_assoc, List.take_left, List.drop_length_add_append,
        List.drop_left]

theorem toStart_state : ({ line.state with cursor := 0 } : CommandBufferState) =
    line.toStart.state := rfl

theorem toEnd_state : ({ line.state with cursor := line.state.value.length } :
    CommandBufferState) = line.toEnd.state := by
  simp only [Line.state, Line.toEnd, List.append_nil]

theorem insert_state : ({ line.state with
    value := line.state.value.take line.state.cursor ++ fromCodePoint c.toNat ++
      line.state.value.drop line.state.cursor
    cursor := line.state.cursor + (fromCodePoint c.toNat).length } : CommandBufferState) =
      (line.insert c).state := by
  simp only [Line.state, Line.insert, encode_append, encode_cons, encode_nil, List.append_nil,
    List.take_left, List.drop_left, List.length_append]

/-- A step that the editor knows is the same on both sides unless a wide character is in its
way. -/
theorem step_iff (h : edit (some line) key = some line') :
    applyToken line.state key.token = line'.state ↔ line.Narrow key := by
  unfold edit at h
  split at h
  · next hclear =>
    obtain rfl := Option.some.inj h
    rw [Line.Narrow, hclear]
    exact iff_of_true rfl (fun hcases => absurd hcases (by decide))
  · next hclear =>
    change line.press key = some line' at h
    cases key with
    | left form =>
      obtain rfl := Option.some.inj h
      exact moveLeft_iff
    | right form =>
      obtain rfl := Option.some.inj h
      exact moveRight_iff
    | delete =>
      obtain rfl := Option.some.inj h
      exact delete_iff
    | home form =>
      obtain rfl := Option.some.inj h
      exact iff_of_true toStart_state trivial
    | homeTilde =>
      obtain rfl := Option.some.inj h
      exact iff_of_true toStart_state trivial
    | toEnd form =>
      obtain rfl := Option.some.inj h
      exact iff_of_true toEnd_state trivial
    | endTilde =>
      obtain rfl := Option.some.inj h
      exact iff_of_true toEnd_state trivial
    | char c hc =>
      change line.type c = some line' at h
      change typeChar line.state c.toNat = line'.state ↔ (c.toNat = 8 ∨ c.toNat = 127 → _)
      have hnotClear : c.toNat ≠ 21 := fun heq => hclear (congrArg Token.char heq)
      unfold Line.type at h
      unfold typeChar
      by_cases hback : c.toNat = 8 ∨ c.toNat = 127
      · rw [if_pos hback] at h
        obtain rfl := Option.some.inj h
        rw [if_neg (by omega), if_pos hback.symm, backspace_iff]
        exact ⟨fun hall _ => hall, fun hall => hall hback⟩
      · rw [if_neg hback] at h
        refine iff_of_true ?_ (fun hcases => absurd hcases hback)
        by_cases hstart : c.toNat = 1
        · rw [if_pos hstart] at h
          obtain rfl := Option.some.inj h
          rw [if_neg (by omega), if_neg (by omega), if_pos hstart]
          exact toStart_state
        · rw [if_neg hstart] at h
          by_cases hend : c.toNat = 5
          · rw [if_pos hend] at h
            obtain rfl := Option.some.inj h
            rw [if_neg (by omega), if_neg (by omega), if_neg hstart, if_pos hend]
            exact toEnd_state
          · rw [if_neg hend] at h
            split at h
            · cases h
            · next hprinted =>
              obtain rfl := Option.some.inj h
              rw [if_neg (by omega), if_neg (by omega), if_neg hstart, if_neg hend,
                if_neg hnotClear, if_neg (by omega), if_neg (by omega), if_pos (by omega)]
              exact insert_state
    | _ => cases h

theorem narrow_of_unknown (h : edit (some line) key = none) : line.Narrow key := by
  unfold edit at h
  split at h
  · cases h
  · change line.press key = none at h
    cases key with
    | left form => cases h
    | right form => cases h
    | delete => cases h
    | char c hc =>
      intro hcases
      change line.type c = none at h
      rw [Line.type, if_pos hcases] at h
      cases h
    | _ => trivial

theorem backspace_ambiguous (s : CommandBufferState) :
    (backspace s).ambiguous = s.ambiguous := by
  unfold backspace
  split <;> rfl

theorem typeChar_ambiguous {codePoint : Nat} (hclear : codePoint ≠ 21) :
    (typeChar s codePoint).ambiguous = true ↔ s.ambiguous = true ∨
      (codePoint < 32 ∧ codePoint ≠ 8 ∧ codePoint ≠ 1 ∧ codePoint ≠ 5) := by
  unfold typeChar
  split_ifs
  all_goals
    simp only [backspace_ambiguous, true_iff, iff_self_or]
    omega

theorem type_eq_none : line.type c = none ↔
    c.toNat < 32 ∧ c.toNat ≠ 8 ∧ c.toNat ≠ 1 ∧ c.toNat ≠ 5 := by
  unfold Line.type
  split_ifs
  all_goals
    simp only [true_iff, false_iff]
    omega

theorem applyToken_ambiguous (hclear : key.token ≠ .char 21) (hs : s.ambiguous = false) :
    (applyToken s key.token).ambiguous = true ↔ line.press key = none := by
  cases key with
  | delete =>
    refine iff_of_false ?_ (by intro h; cases h)
    change ¬ (if _ then _ else _ : CommandBufferState).ambiguous = true
    split <;> exact ne_true_of_eq_false hs
  | char c hc =>
    have hne : c.toNat ≠ 21 := fun heq => hclear (congrArg Token.char heq)
    change (typeChar s c.toNat).ambiguous = true ↔ line.type c = none
    rw [typeChar_ambiguous hne, type_eq_none, hs]
    exact or_iff_right Bool.false_ne_true
  | pasteBegins => exact iff_of_true rfl rfl
  | pasteEnds => exact iff_of_true rfl rfl
  | up form => exact iff_of_true rfl rfl
  | down form => exact iff_of_true rfl rfl
  | _ => exact iff_of_false (ne_true_of_eq_false hs) (by intro h; cases h)

theorem applyToken_stays_ambiguous (hclear : key.token ≠ .char 21) (hs : s.ambiguous = true) :
    (applyToken s key.token).ambiguous = true := by
  cases key with
  | delete =>
    change (if _ then _ else _ : CommandBufferState).ambiguous = true
    split <;> exact hs
  | char c hc =>
    have hne : c.toNat ≠ 21 := fun heq => hclear (congrArg Token.char heq)
    exact (typeChar_ambiguous hne).mpr (.inl hs)
  | pasteBegins => rfl
  | pasteEnds => rfl
  | up form => rfl
  | down form => rfl
  | _ => exact hs

theorem ambiguous_step {known : Option Line} (h : s.ambiguous = true ↔ known = none) :
    (applyToken s key.token).ambiguous = true ↔ edit known key = none := by
  unfold edit
  by_cases hclear : key.token = .char 21
  · rw [if_pos hclear, hclear]
    exact iff_of_false (ne_true_of_eq_false rfl) (by intro h; cases h)
  · rw [if_neg hclear]
    cases known with
    | none => exact iff_of_true (applyToken_stays_ambiguous hclear (h.mpr rfl)) rfl
    | some line =>
      refine applyToken_ambiguous hclear ?_
      rw [← Bool.not_eq_true, h]
      exact Option.some_ne_none line

theorem edited_concat (keys : List Key) (key : Key) :
    edited (keys ++ [key]) = edit (edited keys) key := by
  rw [edited, List.foldl_append]
  rfl

theorem press_concat (keys : List Key) (key : Key) :
    press s (keys ++ [key]) = applyToken (press s keys) key.token := by
  rw [press, List.foldl_append]
  rfl

theorem ambiguous_iff (keys : List Key) :
    (press createEmptyCommandBuffer keys).ambiguous = true ↔ edited keys = none := by
  induction keys using List.reverseRecOn with
  | nil => exact iff_of_false (by decide) (by intro h; cases h)
  | append_singleton keys key ih =>
    rw [press_concat, edited_concat]
    exact ambiguous_step ih

def NarrowRun (keys : List Key) : Prop :=
  ∀ done key more, keys = done ++ key :: more → ∀ line, edited done = some line →
    line.Narrow key

theorem NarrowRun.of_append {more : List Key} (h : NarrowRun (keys ++ more)) : NarrowRun keys := by
  rintro done key rest rfl
  exact h done key (rest ++ more) (by rw [List.append_assoc, List.cons_append])

theorem press_of_narrow (h : NarrowRun keys) (hline : edited keys = some line) :
    press createEmptyCommandBuffer keys = line.state := by
  induction keys using List.reverseRecOn generalizing line with
  | nil =>
    obtain rfl := Option.some.inj hline
    rfl
  | append_singleton keys key ih =>
    rw [press_concat]
    rw [edited_concat] at hline
    cases hbefore : edited keys with
    | none =>
      rw [hbefore, edit] at hline
      split at hline
      · next hclear =>
        obtain rfl := Option.some.inj hline
        rw [hclear]
        rfl
      · cases hline
    | some before =>
      rw [hbefore] at hline
      rw [ih h.of_append hbefore]
      exact (step_iff hline).mpr (h keys key [] rfl before hbefore)

/-- The parts give the state of the whole, and unless it is ambiguous it is the one of the editor:
text of whole characters, and a cursor in it. -/
structure Faithful (parts : List (List Key)) : Prop where
  whole : typeParts parts =
    (applyTerminalInput createEmptyCommandBuffer (unitsOf parts.flatten)).state
  tracked : (typeParts parts).ambiguous = false → ∃ line, edited parts.flatten = some line ∧
    (typeParts parts).value = encode (line.before ++ line.after) ∧
    (typeParts parts).cursor = (encode line.before).length
  inside : (typeParts parts).ambiguous = false →
    (typeParts parts).cursor ≤ (typeParts parts).value.length

theorem faithful_iff {parts : List (List Key)} : Faithful parts ↔
    ∀ line, edited parts.flatten = some line →
      press createEmptyCommandBuffer parts.flatten = line.state := by
  have hknown := ambiguous_iff parts.flatten
  constructor
  · intro h line hline
    have hambiguous : (press createEmptyCommandBuffer parts.flatten).ambiguous = false := by
      rw [← Bool.not_eq_true, hknown, hline]
      exact Option.some_ne_none line
    have htracked := h.tracked
    rw [typeParts_eq] at htracked
    obtain ⟨line', hline', hvalue, hcursor⟩ := htracked hambiguous
    obtain rfl := Option.some.inj (hline.symm.trans hline')
    rw [Line.state, ← hvalue, ← hcursor, ← hambiguous]
  · intro h
    have htracked : (typeParts parts).ambiguous = false → ∃ line,
        edited parts.flatten = some line ∧ typeParts parts = line.state := by
      intro hambiguous
      rw [typeParts_eq, ← Bool.not_eq_true, hknown] at hambiguous
      obtain ⟨line, hline⟩ := Option.ne_none_iff_exists'.mp hambiguous
      refine ⟨line, hline, ?_⟩
      rw [typeParts_eq, h line hline]
    constructor
    · rw [typeParts_eq, applyTerminalInput_keys]
    · intro hambiguous
      obtain ⟨line, hline, hstate⟩ := htracked hambiguous
      rw [hstate]
      exact ⟨line, hline, rfl, rfl⟩
    · intro hambiguous
      obtain ⟨line, -, hstate⟩ := htracked hambiguous
      rw [hstate, Line.state, encode_append, List.length_append]
      exact Nat.le_add_right _ _

/-- All that is typed on the way is tracked, in whatever parts it comes, if and only if no key has
a character of two units in its way. -/
theorem faithful_iff_narrow (keys : List Key) :
    (∀ done, done <+: keys → ∀ parts, parts.flatten = done → Faithful parts) ↔
      NarrowRun keys := by
  constructor
  · rintro h done key more rfl line hline
    have hbefore : Faithful [done] := h done (List.prefix_append _ _) [done] (by simp)
    have hafter : Faithful [done ++ [key]] := h (done ++ [key]) ⟨more, by simp⟩ [done ++ [key]]
      (by simp)
    rw [faithful_iff, List.flatten_singleton] at hbefore hafter
    cases hnext : edit (some line) key with
    | none => exact narrow_of_unknown hnext
    | some line' =>
      have hstate := hafter line' (by rw [edited_concat, hline, hnext])
      rw [press_concat, hbefore line hline] at hstate
      exact (step_iff hnext).mp hstate
  · rintro h done ⟨more, rfl⟩ parts rfl
    rw [faithful_iff]
    intro line hline
    exact press_of_narrow h.of_append hline

/-- A character of two units loses the second of them. -/
theorem backspace_splits :
    ¬ Faithful [[.char '😀' (by decide), .char '\x7f' (by decide)]] := by
  intro h
  obtain ⟨line, hline, hvalue, -⟩ := h.tracked (by decide)
  obtain rfl := Option.some.inj hline
  exact absurd hvalue (by decide)

end Dolgate.TerminalInput
