import Mathlib
import Dolgate.Base64
import Dolgate.Transition

set_option autoImplicit false

/-! Exchange codes, ceremonies and register tickets: a request reads the row and then deletes it, in
one transaction that locks nothing when it reads. -/

namespace Dolgate.OneTimeCodes
open Transition

/-- The table and the primary key. -/
inductive Key where
  | exchangeCode (codeHash : List Char)
  | ceremony (id : List Char)
  deriving DecidableEq, Repr

/-- An exchange code has no purpose. -/
structure Row where
  userID : List Char
  purpose : List Char
  expiresAt : Int
  deriving DecidableEq, Repr

/-- `ExchangeCode`, `consumeCeremony` and `ConsumeWebAuthnRegisterTicket`. -/
inductive Request where
  | exchange (codeHash : List Char)
  | ceremony (id purpose userID : List Char)
  | registerTicket (userID ticketID : List Char)
  deriving DecidableEq, Repr

def webAuthnPurposeRegisterTicket : List Char := "register-ticket".toList

def webauthnRegisterTicketCeremonyID (ticketID : List Char) : List Char :=
  "ticket:".toList ++ ticketID

namespace Request

def key : Request → Key
  | exchange codeHash => .exchangeCode codeHash
  | ceremony id _ _ => .ceremony id
  | registerTicket _ ticketID => .ceremony (webauthnRegisterTicketCeremonyID ticketID)

def isBlank : Request → Bool
  | ceremony id _ _ => Base64.trimSpace id = []
  | _ => false

def accepts (row : Row) (now : Int) : Request → Bool
  | exchange _ => now ≤ row.expiresAt
  | ceremony _ purpose userID =>
    (row.purpose = purpose ∧ now ≤ row.expiresAt) ∧ (userID = [] ∨ row.userID = userID)
  | registerTicket userID _ =>
    (row.purpose = webAuthnPurposeRegisterTicket ∧ row.userID = userID) ∧ now ≤ row.expiresAt

end Request

/-- How far a request is: it has read its row, and has either been served with it or refused. -/
inductive Handler where
  | taken (request : Request) (row : Row)
  | served (request : Request) (row : Row) (now : Int)
  | refused
  deriving DecidableEq, Repr

/-- `saved` are the rows that have been created. -/
structure System where
  rows : Key → Option Row := fun _ => none
  saved : List (Key × Row) := []
  handlers : List Handler := []

/-- Rows are also deleted by `sweepExpired` and with their user. -/
inductive Event where
  | save (key : Key) (row : Row) (fails : Bool)
  | delete (keys : List Key)
  | take (request : Request)
  | consume (handler : Nat) (now : Int) (fails : Bool)

def System.take (s : System) (request : Request) : Handler :=
  match if request.isBlank then none else s.rows request.key with
  | some row => .taken request row
  | none => .refused

/-- The row that was read may be gone, and a transaction that fails leaves it where it is. -/
def step (s : System) : Event → Option System
  | .save key row fails =>
    if fails ∨ (s.rows key).isSome then some s
    else
      some { s with rows := Function.update s.rows key (some row), saved := (key, row) :: s.saved }
  | .delete keys => some { s with rows := fun key => if key ∈ keys then none else s.rows key }
  | .take request => some { s with handlers := s.handlers ++ [s.take request] }
  | .consume i now fails =>
    match s.handlers[i]? with
    | some (.taken request row) =>
      if fails ∨ s.rows request.key = none then
        some { s with handlers := s.handlers.set i .refused }
      else
        let handler := if request.accepts row now then .served request row now else .refused
        some { s with
          rows := Function.update s.rows request.key none
          handlers := s.handlers.set i handler }
    | _ => none

def Handler.serves (key : Key) : Handler → Bool
  | served request _ _ => request.key = key
  | _ => false

def System.redeemed (s : System) (key : Key) : Nat := s.handlers.countP (·.serves key)

def System.issued (s : System) (key : Key) : Nat := s.saved.countP (·.1 = key)

/-- The row of a request has been created under its key, and a served one is accepted. -/
def Handler.Backed (saved : List (Key × Row)) : Handler → Prop
  | taken request row => (request.key, row) ∈ saved
  | served request row now => (request.key, row) ∈ saved ∧ request.accepts row now
  | refused => True

/-- A key that still has its row has been issued once more than redeemed. -/
structure Accounted (s : System) : Prop where
  redeemed_add_le (key : Key) : s.redeemed key + (s.rows key).toList.length ≤ s.issued key
  rows (key : Key) (row : Row) : s.rows key = some row → (key, row) ∈ s.saved
  backed : ∀ handler ∈ s.handlers, handler.Backed s.saved

section

variable {s s' : System} {key : Key} {request : Request}

theorem Handler.Backed.cons {handler : Handler} {saved : List (Key × Row)} {e : Key × Row}
    (h : handler.Backed saved) : handler.Backed (e :: saved) := by
  cases handler with
  | taken request row => exact List.mem_cons_of_mem _ h
  | served request row now => exact ⟨List.mem_cons_of_mem _ h.1, h.2⟩
  | refused => trivial

theorem redeemed_set {i : Nat} {handler : Handler} {row : Row}
    (h : s.handlers[i]? = some (.taken request row)) :
    (s.handlers.set i handler).countP (·.serves key) =
      s.redeemed key + if handler.serves key then 1 else 0 := by
  obtain ⟨hi, hget⟩ := List.getElem?_eq_some_iff.mp h
  rw [List.countP_set hi, hget]
  rfl

theorem Accounted.save (hs : Accounted s) {row : Row} (hnew : s.rows key = none) :
    Accounted { s with
      rows := Function.update s.rows key (some row), saved := (key, row) :: s.saved } := by
  refine ⟨fun k => ?_, fun k r hr => ?_, fun handler hmem => (hs.backed handler hmem).cons⟩
  · have hle := hs.redeemed_add_le k
    by_cases hk : key = k
    · subst hk
      rw [hnew] at hle
      simpa [System.redeemed, System.issued] using hle
    · simpa [System.redeemed, System.issued, hk, Function.update_of_ne (Ne.symm hk)] using hle
  · dsimp only at hr
    rw [Function.update_apply] at hr
    split at hr
    · next hk =>
      cases hr
      exact hk ▸ List.mem_cons_self
    · exact List.mem_cons_of_mem _ (hs.rows k r hr)

theorem Accounted.delete (hs : Accounted s) (keys : List Key) :
    Accounted { s with rows := fun key => if key ∈ keys then none else s.rows key } := by
  refine ⟨fun k => (Nat.add_le_add_left ?_ _).trans (hs.redeemed_add_le k), ?_, hs.backed⟩
  · dsimp only
    split
    · exact Nat.zero_le _
    · exact Nat.le_refl _
  · intro k r hr
    exact hs.rows k r (Option.ite_none_left_eq_some.mp hr).2

theorem Accounted.take (hs : Accounted s) (request : Request) :
    Accounted { s with handlers := s.handlers ++ [s.take request] } := by
  have htake : (s.take request).Backed s.saved ∧ ∀ key, (s.take request).serves key = false := by
    unfold System.take
    split
    · next row hrow =>
      exact ⟨hs.rows _ _ (Option.ite_none_left_eq_some.mp hrow).2, fun _ => rfl⟩
    · exact ⟨trivial, fun _ => rfl⟩
  refine ⟨fun k => ?_, hs.rows, fun handler hmem => ?_⟩
  · have hle := hs.redeemed_add_le k
    simpa [System.redeemed, System.issued, htake.2 k] using hle
  · rcases List.mem_append.mp hmem with hmem | hmem
    · exact hs.backed handler hmem
    · rw [List.mem_singleton.mp hmem]
      exact htake.1

/-- The one who deletes the row is served, if it still is what was asked for. -/
theorem Accounted.consume (hs : Accounted s) {i : Nat} {row : Row} (now : Int) {handler : Handler}
    (hi : s.handlers[i]? = some (.taken request row)) (hrow : s.rows request.key ≠ none)
    (hhandler : handler = .refused ∨
      request.accepts row now = true ∧ handler = .served request row now) :
    Accounted { s with
      rows := Function.update s.rows request.key none, handlers := s.handlers.set i handler } := by
  refine ⟨fun k => ?_, fun k r hr => ?_, fun h hmem => ?_⟩
  · have hle := hs.redeemed_add_le k
    rw [System.redeemed, redeemed_set hi]
    dsimp only
    by_cases hk : request.key = k
    · subst hk
      obtain ⟨row', hrow'⟩ := Option.ne_none_iff_exists'.mp hrow
      rw [hrow'] at hle
      rw [Function.update_self]
      have hone : (if handler.serves request.key then 1 else 0) ≤ 1 := by split <;> decide
      exact (Nat.add_le_add_left hone _).trans hle
    · have hserves : handler.serves k = false := by
        obtain rfl | ⟨-, rfl⟩ := hhandler
        · rfl
        · exact decide_eq_false hk
      rw [hserves, Function.update_of_ne (Ne.symm hk)]
      exact hle
  · dsimp only at hr
    by_cases hk : k = request.key
    · subst hk
      simp at hr
    · rw [Function.update_of_ne hk] at hr
      exact hs.rows k r hr
  · rcases List.mem_or_eq_of_mem_set hmem with hmem | rfl
    · exact hs.backed h hmem
    · obtain rfl | ⟨haccepts, rfl⟩ := hhandler
      · trivial
      · exact ⟨hs.backed _ (List.mem_of_getElem? hi), haccepts⟩

theorem accounted_step {e : Event} (hs : Accounted s) (h : step s e = some s') :
    Accounted s' := by
  cases e with
  | save key row fails =>
    simp only [step] at h
    split at h
    · cases h
      exact hs
    · next hnew =>
      cases h
      exact hs.save (Option.not_isSome_iff_eq_none.mp fun h => hnew (.inr h))
  | delete keys =>
    cases h
    exact hs.delete keys
  | take request =>
    cases h
    exact hs.take request
  | consume i now fails =>
    simp only [step] at h
    split at h
    · next request row hi =>
      split at h
      · cases h
        refine ⟨fun k => ?_, hs.rows, fun handler hmem => ?_⟩
        · rw [System.redeemed, redeemed_set hi]
          exact hs.redeemed_add_le k
        · rcases List.mem_or_eq_of_mem_set hmem with hmem | rfl
          · exact hs.backed handler hmem
          · trivial
      · next hrow =>
        cases h
        refine hs.consume now hi (fun h => hrow (.inr h)) ?_
        split
        · next haccepts => exact .inr ⟨haccepts, rfl⟩
        · exact .inl rfl
    · cases h

theorem accounted_empty : Accounted {} where
  redeemed_add_le _ := Nat.le_refl 0
  rows _ _ h := by cases h
  backed _ h := by cases h

/-- Whatever the requests that run at once: no code is redeemed more often than it has been issued,
and one that still is in its table less often. Who is served gets a row that was issued under the
key, and that is accepted. -/
theorem redeemed_le_issued {events : List Event} (hrun : run step {} events = some s) (key : Key) :
    s.redeemed key + (s.rows key).toList.length ≤ s.issued key ∧
      ∀ request row now, .served request row now ∈ s.handlers →
        (request.key, row) ∈ s.saved ∧ request.accepts row now = true := by
  have hs : Accounted s := run_invariant (fun _ _ _ => accounted_step) accounted_empty hrun
  exact ⟨hs.redeemed_add_le key, fun request row now hmem => hs.backed _ hmem⟩

end

/-- Two requests have read the row before one of them deletes it. -/
def race : List Event :=
  [.save (.exchangeCode ['a']) ⟨['u'], [], 9⟩ false, .take (.exchange ['a']),
    .take (.exchange ['a']), .consume 1 5 false, .consume 0 5 false]

theorem redeemed_le_issued_race : ∃ s, run step {} race = some s ∧
    s.handlers = [.refused, .served (.exchange ['a']) ⟨['u'], [], 9⟩ 5] ∧
    s.redeemed (.exchangeCode ['a']) + (s.rows (.exchangeCode ['a'])).toList.length ≤
      s.issued (.exchangeCode ['a']) := by
  have hrun : run step {} race = some _ := rfl
  exact ⟨_, hrun, rfl, (redeemed_le_issued hrun (.exchangeCode ['a'])).1⟩

end Dolgate.OneTimeCodes
