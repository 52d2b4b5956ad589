import Mathlib.Data.List.Nodup
import Dolgate.Transition

set_option autoImplicit false

/-! The questions that a port forward asks while it connects, their response channels, and who sends
on them and closes them. What is done under the lock is one step, and so is each send and close. -/

namespace Dolgate.Prompts

open Transition

/-- `shownFor` is the challenge that it was given to. -/
structure Answer where
  shownFor : Nat
  responses : List String
  deriving DecidableEq, Repr

inductive Phase where
  | waiting
  | received (answer : Answer)
  | gone
  deriving DecidableEq, Repr

structure Challenge where
  endpointID : String
  id : String
  buffer : Option Answer := none
  closed : Bool := false
  phase : Phase := .waiting
  deriving DecidableEq, Repr

/-- A run of `dialTarget`. `prompt` is the challenge that it has registered and not yet deleted. -/
structure Dial where
  endpointID : String
  attempt : Nat := 0
  prompt : Option Nat := none
  deriving DecidableEq, Repr

inductive Reader where
  | idle
  | sending (challenge : Nat) (answer : Answer)
  | closing (challenge : Nat)
  deriving DecidableEq, Repr

/-- An answer whose `RespondKeyboardInteractive` has returned without an error, with whether the
prompt waited for none any more. -/
structure Accepted where
  answer : Answer
  challenge : Nat
  ended : Bool
  deriving DecidableEq, Repr

/-- `closing` are the challenges that `Stop` and `Shutdown` have removed and not yet closed. -/
structure State where
  dials : List Dial := []
  challenges : List Challenge := []
  pendingChallenges : List (String × Nat) := []
  reader : Reader := .idle
  closing : List Nat := []
  accepted : List Accepted := []
  crashed : Bool := false
  deriving DecidableEq, Repr

inductive Event where
  | dial (endpointID : String)
  | ask (d : Nat)
  | respond (endpointID challengeID : String) (answer : Answer)
  | send
  | cancel (endpointID challengeID : String)
  | cancelCloses
  | stop (endpointID : String)
  | shutdown
  | closes (k : Nat)
  | receive (n : Nat)
  | giveUp (n : Nat)
  | cleanup (d : Nat)
  deriving DecidableEq, Repr

def challengeID (endpointID : String) (attempt : Nat) : String :=
  endpointID ++ "-" ++ toString attempt

/-- `delete(s.pendingChallenges, challengeID)` -/
def delete (pending : List (String × Nat)) (challengeID : String) : List (String × Nat) :=
  pending.filter fun entry => entry.1 ≠ challengeID

def State.find (s : State) (challengeID : String) : Option Nat :=
  (s.pendingChallenges.find? fun entry => entry.1 = challengeID).map Prod.snd

def State.findFor (s : State) (endpointID challengeID : String) : Option Nat :=
  (s.find challengeID).filter fun n =>
    s.challenges[n]?.any fun challenge => challenge.endpointID = endpointID

def State.belongs (s : State) (endpointID : String) (entry : String × Nat) : Bool :=
  s.challenges[entry.2]?.any fun challenge => challenge.endpointID = endpointID

/-- `close(challenge.responses)` -/
def State.close (s : State) (n : Nat) : Option State := do
  let challenge ← s.challenges[n]?
  return if challenge.closed then { s with crashed := true }
    else { s with challenges := s.challenges.set n { challenge with closed := true } }

/-- The `select` of `RespondKeyboardInteractive`. -/
def State.send (s : State) (n : Nat) (answer : Answer) : Option State := do
  let challenge ← s.challenges[n]?
  let s := { s with reader := .idle }
  return if challenge.closed then { s with crashed := true }
    else match challenge.buffer with
      | some _ => s
      | none =>
          { s with
            challenges := s.challenges.set n { challenge with buffer := some answer }
            accepted := s.accepted ++
              [{ answer, challenge := n, ended := challenge.phase ≠ .waiting }] }

/-- `WaitForHumanAnswer` reads the channel. -/
def State.receive (s : State) (n : Nat) : Option State := do
  let challenge ← s.challenges[n]?
  if challenge.phase = .waiting then
    match challenge.buffer with
    | some answer =>
        some { s with
          challenges := s.challenges.set n
            { challenge with buffer := none, phase := .received answer } }
    | none =>
        if challenge.closed then
          some { s with challenges := s.challenges.set n { challenge with phase := .gone } }
        else none
  else none

def State.giveUp (s : State) (n : Nat) : Option State := do
  let challenge ← s.challenges[n]?
  if challenge.phase = .waiting then
    some { s with challenges := s.challenges.set n { challenge with phase := .gone } }
  else none

def State.ask (s : State) (d : Nat) : Option State := do
  let dial ← s.dials[d]?
  if dial.prompt = none then
    let attempt := dial.attempt + 1
    let id := challengeID dial.endpointID attempt
    let n := s.challenges.length
    some { s with
      dials := s.dials.set d { dial with attempt, prompt := some n }
      challenges := s.challenges ++ [{ endpointID := dial.endpointID, id }]
      pendingChallenges := (id, n) :: delete s.pendingChallenges id }
  else none

def State.cleanup (s : State) (d : Nat) : Option State := do
  let dial ← s.dials[d]?
  let n ← dial.prompt
  let challenge ← s.challenges[n]?
  if challenge.phase = .waiting then none
  else
    some { s with
      dials := s.dials.set d { dial with prompt := none }
      pendingChallenges := delete s.pendingChallenges challenge.id }

/-- `RespondKeyboardInteractive` and `CancelKeyboardInteractive` are run by the reader. -/
def step (s : State) (e : Event) : Option State :=
  if s.crashed then none
  else match e with
    | .dial endpointID => some { s with dials := s.dials ++ [{ endpointID }] }
    | .ask d => s.ask d
    | .respond endpointID challengeID answer =>
        if s.reader = .idle then
          some (match s.findFor endpointID challengeID with
            | some n => { s with reader := .sending n answer }
            | none => s)
        else none
    | .send =>
        match s.reader with
        | .sending n answer => s.send n answer
        | _ => none
    | .cancel endpointID challengeID =>
        if s.reader = .idle then
          some (match s.findFor endpointID challengeID with
            | some n =>
                { s with
                  reader := .closing n
                  pendingChallenges := delete s.pendingChallenges challengeID }
            | none => s)
        else none
    | .cancelCloses =>
        match s.reader with
        | .closing n => { s with reader := .idle }.close n
        | _ => none
    | .stop endpointID =>
        some { s with
          pendingChallenges := s.pendingChallenges.filter fun entry => !s.belongs endpointID entry
          closing := s.closing ++
            (s.pendingChallenges.filter (s.belongs endpointID)).map Prod.snd }
    | .shutdown =>
        some { s with
          pendingChallenges := []
          closing := s.closing ++ s.pendingChallenges.map Prod.snd }
    | .closes k => do
        let n ← s.closing[k]?
        { s with closing := s.closing.eraseIdx k }.close n
    | .receive n => s.receive n
    | .giveUp n => s.giveUp n
    | .cleanup d => s.cleanup d

def Delivered (challenge : Challenge) (accepted : Accepted) : Prop :=
  accepted.ended = true ∨
    match challenge.phase with
    | .waiting => challenge.buffer = some accepted.answer
    | .received answer => answer = accepted.answer
    | .gone => True

/-- Nothing has been sent on a closed channel, no channel has been closed twice, and every accepted
answer has gone to its prompt. -/
def Safe (s : State) : Prop :=
  s.crashed = false ∧ ∀ accepted ∈ s.accepted, accepted.challenge = accepted.answer.shownFor ∧
    ∃ challenge, s.challenges[accepted.challenge]? = some challenge ∧ Delivered challenge accepted

def Challenge.Full (challenge : Challenge) : Prop :=
  challenge.buffer.isSome = true ∧ challenge.phase ≠ .waiting

instance (challenge : Challenge) : Decidable challenge.Full := inferInstanceAs (Decidable (_ ∧ _))

/-- A challenge is not closed between the lookup and the send of an answer, and what an answer is
looked up by has not passed on to another challenge. -/
def Apart (s : State) : Event → Prop
  | .closes k => ∀ (n : Nat) (answer : Answer), s.closing[k]? = some n →
      s.reader ≠ .sending n answer
  | .respond endpointID challengeID answer => s.reader = .idle → ∀ (n : Nat) (challenge : Challenge),
      s.findFor endpointID challengeID = some n → s.challenges[n]? = some challenge →
      n = answer.shownFor ∨ challenge.Full
  | _ => True

end Dolgate.Prompts
