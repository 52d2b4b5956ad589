import Dolgate.Transition

set_option autoImplicit false

/-! The autocomplete exchange of a proxied session: requests with an id over a socket whose server
answers one after the other, in snapshots that carry none. -/

namespace Dolgate.ProxyAutocomplete
open Transition

variable {α β : Type}

/-- A message of the session socket. `α` are the snapshots, `β` the capabilities. -/
inductive Message (α β : Type) where
  | snapshot (requestId : Option Nat) (payload : α)
  | capability (requestId : Option Nat) (payload : β)
  | shellState
  | other
deriving DecidableEq, Repr

/-- An entry of the map of open requests, which keeps the order in which they were made. -/
structure Pending (α : Type) where
  requestId : Nat
  snapshot : Option α
deriving DecidableEq, Repr

structure Result (α β : Type) where
  requestId : Nat
  capability : β
  snapshot : Option α
deriving DecidableEq, Repr

structure Exchange (α β : Type) where
  seq : Nat := 0
  pending : List (Pending α) := []
  resolved : List (Result α β) := []
  rejected : List Nat := []
deriving DecidableEq, Repr

def Exchange.remove (x : Exchange α β) (requestId : Nat) : Exchange α β :=
  { x with pending := x.pending.filter fun p => p.requestId ≠ requestId }

def Exchange.solePending (x : Exchange α β) : Option Nat :=
  match x.pending with
  | [p] => some p.requestId
  | _ => none

def Exchange.attach (x : Exchange α β) (requestId : Nat) (payload : α) : Exchange α β :=
  { x with pending := x.pending.map fun p =>
      if p.requestId = requestId then { p with snapshot := some payload } else p }

/-- `accept` -/
def Exchange.accept (x : Exchange α β) : Message α β → Exchange α β
  | .snapshot requestId payload =>
    match requestId.or x.solePending with
    | some owner => x.attach owner payload
    | none => x
  | .capability (some requestId) payload =>
    match x.pending.find? fun p => p.requestId = requestId with
    | some p =>
      { x.remove requestId with resolved := x.resolved ++ [⟨requestId, payload, p.snapshot⟩] }
    | none => x
  | .capability none _ => x
  | .shellState => x
  | .other => x

/-- The exchange, the server and the socket from it. Each message that is under way stands with the
request it is part of the answer to, and `sent` are the snapshots with theirs: neither is on the
wire. -/
structure Session (α β : Type) where
  exchange : Exchange α β := {}
  received : List Nat := []
  serving : Option (Nat × Bool) := none
  wire : List (Nat × Message α β) := []
  sent : List (Nat × α) := []
deriving DecidableEq, Repr

inductive Event (α β : Type) where
  | request
  | requestFails
  | timeout (requestId : Nat)
  | rejectAll
  | serve (probing : β)
  | sendSnapshot (payload : α)
  | finish (capability : β) (shellKnown : Bool)
  | arrive
deriving DecidableEq, Repr

/-- `request`: an id, an entry and a message to the server. -/
def Exchange.request (x : Exchange α β) : Exchange α β :=
  { x with seq := x.seq + 1, pending := x.pending ++ [⟨x.seq + 1, none⟩] }

def step (s : Session α β) : Event α β → Option (Session α β)
  | .request =>
    some { s with exchange := s.exchange.request, received := s.received ++ [s.exchange.seq + 1] }
  | .requestFails =>
    let x := s.exchange.request.remove (s.exchange.seq + 1)
    some { s with exchange := { x with rejected := x.rejected ++ [s.exchange.seq + 1] } }
  | .timeout requestId =>
    if s.exchange.pending.any fun p => p.requestId = requestId then
      some { s with exchange :=
        { s.exchange.remove requestId with rejected := s.exchange.rejected ++ [requestId] } }
    else none
  | .rejectAll =>
    some { s with exchange := { s.exchange with
      pending := []
      rejected := s.exchange.rejected ++ s.exchange.pending.map Pending.requestId } }
  | .serve probing =>
    match s.serving, s.received with
    | none, requestId :: received =>
      some { s with received := received, serving := some (requestId, false),
                    wire := s.wire ++ [(requestId, .capability none probing)] }
    | _, _ => none
  | .sendSnapshot payload =>
    match s.serving with
    | some (requestId, false) =>
      some { s with serving := some (requestId, true),
                    wire := s.wire ++ [(requestId, .snapshot none payload)],
                    sent := s.sent ++ [(requestId, payload)] }
    | _ => none
  | .finish capability shellKnown =>
    match s.serving with
    | some (requestId, _) =>
      some { s with serving := none,
                    wire := s.wire ++ (requestId, .capability (some requestId) capability) ::
                      (if shellKnown then [(requestId, .shellState)] else []) }
    | none => none
  | .arrive =>
    match s.wire with
    | [] => none
    | (_, message) :: wire => some { s with exchange := s.exchange.accept message, wire := wire }

def OwnSnapshots (s : Session α β) : Prop :=
  ∀ r ∈ s.exchange.resolved, ∀ payload, r.snapshot = some payload →
    (r.requestId, payload) ∈ s.sent

/-- A snapshot that arrives while one request only is open is part of the answer to an open
request. -/
def AnswersOpen (s : Session α β) : Event α β → Prop
  | .arrive => ∀ requestId payload, s.wire.head? = some (requestId, .snapshot none payload) →
      s.exchange.pending.length = 1 → ∃ p ∈ s.exchange.pending, p.requestId = requestId
  | _ => True

instance (s : Session α β) : DecidablePred (AnswersOpen s)
  | .arrive =>
    match hwire : s.wire.head? with
    | some (requestId, .snapshot none payload) =>
      decidable_of_iff (s.exchange.pending.length = 1 →
          ∃ p ∈ s.exchange.pending, p.requestId = requestId) <| by
        simp [AnswersOpen, hwire]
    | some (_, .snapshot (some _) _) => isTrue (by simp [AnswersOpen, hwire])
    | some (_, .capability _ _) => isTrue (by simp [AnswersOpen, hwire])
    | some (_, .shellState) => isTrue (by simp [AnswersOpen, hwire])
    | some (_, .other) => isTrue (by simp [AnswersOpen, hwire])
    | none => isTrue (by simp [AnswersOpen, hwire])
  | .request => isTrue trivial
  | .requestFails => isTrue trivial
  | .timeout _ => isTrue trivial
  | .rejectAll => isTrue trivial
  | .serve _ => isTrue trivial
  | .sendSnapshot _ => isTrue trivial
  | .finish _ _ => isTrue trivial

def Own (sent : List (Nat × α)) (requestId : Nat) (snapshot : Option α) : Prop :=
  ∀ payload, snapshot = some payload → (requestId, payload) ∈ sent

theorem Own.mono {sent more : List (Nat × α)} {requestId : Nat} {snapshot : Option α}
    (h : Own sent requestId snapshot) : Own (sent ++ more) requestId snapshot :=
  fun payload hpayload => List.mem_append_left more (h payload hpayload)

theorem Own.none (sent : List (Nat × α)) (requestId : Nat) : Own sent requestId none :=
  fun _ h => by cases h

structure Exchange.Honest (x : Exchange α β) (sent : List (Nat × α)) : Prop where
  pending : ∀ p ∈ x.pending, Own sent p.requestId p.snapshot
  resolved : ∀ r ∈ x.resolved, Own sent r.requestId r.snapshot

variable {x : Exchange α β} {sent : List (Nat × α)} {requestId : Nat}

theorem Exchange.Honest.mono (h : x.Honest sent) (more : List (Nat × α)) :
    x.Honest (sent ++ more) :=
  ⟨fun p hp => (h.pending p hp).mono, fun r hr => (h.resolved r hr).mono⟩

theorem Exchange.Honest.remove (h : x.Honest sent) (requestId : Nat) :
    (x.remove requestId).Honest sent :=
  ⟨fun p hp => h.pending p (List.mem_of_mem_filter hp), h.resolved⟩

theorem Exchange.Honest.request (h : x.Honest sent) : x.request.Honest sent := by
  refine ⟨fun p hp => ?_, h.resolved⟩
  simp only [Exchange.request, List.mem_append, List.mem_singleton] at hp
  rcases hp with hp | rfl
  · exact h.pending p hp
  · exact .none sent _

theorem Exchange.Honest.attach (h : x.Honest sent) {payload : α}
    (howner : (∃ p ∈ x.pending, p.requestId = requestId) → (requestId, payload) ∈ sent) :
    (x.attach requestId payload).Honest sent := by
  refine ⟨fun p hp => ?_, h.resolved⟩
  obtain ⟨q, hq, rfl⟩ := List.mem_map.mp hp
  split
  · next hid =>
    intro payload' hpayload
    obtain rfl := Option.some.inj hpayload
    simpa [hid] using howner ⟨q, hq, hid⟩
  · exact h.pending q hq

theorem Exchange.Honest.resolve (h : x.Honest sent) (payload : β) :
    (x.accept (.capability (some requestId) payload)).Honest sent := by
  simp only [Exchange.accept]
  cases hfind : x.pending.find? fun p => p.requestId = requestId with
  | none => exact h
  | some p =>
    have hid : p.requestId = requestId := by simpa using List.find?_some hfind
    have hp := h.pending p (List.mem_of_find?_eq_some hfind)
    refine ⟨(h.remove requestId).pending, fun r hr => ?_⟩
    simp only [List.mem_append, List.mem_singleton] at hr
    rcases hr with hr | rfl
    · exact h.resolved r hr
    · exact hid ▸ hp

def Marked (sent : List (Nat × α)) (m : Nat × Message α β) : Prop :=
  ∀ id payload, m.2 = .snapshot id payload → id = none ∧ (m.1, payload) ∈ sent

theorem Marked.mono {m : Nat × Message α β} (h : Marked sent m) (more : List (Nat × α)) :
    Marked (sent ++ more) m :=
  fun id payload hm => (h id payload hm).imp_right (List.mem_append_left more)

structure Honest (s : Session α β) : Prop where
  exchange : s.exchange.Honest s.sent
  wire : ∀ m ∈ s.wire, Marked s.sent m

variable {s s' : Session α β}

theorem Exchange.Honest.accept {message : Message α β} (h : x.Honest sent)
    (hmarked : Marked sent (requestId, message))
    (hopen : ∀ payload, message = .snapshot none payload → x.pending.length = 1 →
      ∃ p ∈ x.pending, p.requestId = requestId) : (x.accept message).Honest sent := by
  cases message with
  | snapshot id payload =>
    obtain ⟨rfl, hsent⟩ := hmarked id payload rfl
    simp only [Exchange.accept, Option.none_or, Exchange.solePending]
    split
    · next owner hsole =>
      split at hsole
      · next p hpending =>
        obtain rfl := Option.some.inj hsole
        obtain ⟨q, hq, rfl⟩ := hopen payload rfl (by simp [hpending])
        obtain rfl : q = p := by simpa [hpending] using hq
        exact h.attach fun _ => hsent
      · cases hsole
    · exact h
  | capability id payload =>
    cases id with
    | none => exact h
    | some id => exact h.resolve payload
  | shellState => exact h
  | other => exact h

theorem Honest.step {e : Event α β} (h : Honest s) (hok : AnswersOpen s e)
    (hstep : step s e = some s') : Honest s' := by
  cases e with
  | request =>
    obtain rfl := Option.some.inj hstep
    exact ⟨h.exchange.request, h.wire⟩
  | requestFails =>
    obtain rfl := Option.some.inj hstep
    have hremoved := h.exchange.request.remove (s.exchange.seq + 1)
    exact ⟨⟨hremoved.pending, hremoved.resolved⟩, h.wire⟩
  | timeout requestId =>
    simp only [ProxyAutocomplete.step, Option.ite_none_right_eq_some, Option.some.injEq] at hstep
    obtain ⟨-, rfl⟩ := hstep
    have hremoved := h.exchange.remove requestId
    exact ⟨⟨hremoved.pending, hremoved.resolved⟩, h.wire⟩
  | rejectAll =>
    obtain rfl := Option.some.inj hstep
    exact ⟨⟨by simp, h.exchange.resolved⟩, h.wire⟩
  | serve probing =>
    simp only [ProxyAutocomplete.step] at hstep
    split at hstep
    · obtain rfl := Option.some.inj hstep
      refine ⟨h.exchange, fun m hm => ?_⟩
      simp only [List.mem_append, List.mem_singleton] at hm
      rcases hm with hm | rfl
      · exact h.wire m hm
      · intro id payload hsnapshot
        cases hsnapshot
    · cases hstep
  | sendSnapshot payload =>
    simp only [ProxyAutocomplete.step] at hstep
    split at hstep
    · obtain rfl := Option.some.inj hstep
      refine ⟨h.exchange.mono _, fun m hm => ?_⟩
      simp only [List.mem_append, List.mem_singleton] at hm
      rcases hm with hm | rfl
      · exact (h.wire m hm).mono _
      · intro id payload' hsnapshot
        cases hsnapshot
        exact ⟨rfl, by simp⟩
    · cases hstep
  | finish capability shellKnown =>
    simp only [ProxyAutocomplete.step] at hstep
    split at hstep
    · obtain rfl := Option.some.inj hstep
      refine ⟨h.exchange, fun m hm => ?_⟩
      rcases List.mem_append.mp hm with hm | hm
      · exact h.wire m hm
      · intro id payload hsnapshot
        cases shellKnown <;> simp at hm
        · simp [hm] at hsnapshot
        · rcases hm with rfl | rfl <;> cases hsnapshot
    · cases hstep
  | arrive =>
    simp only [ProxyAutocomplete.step] at hstep
    split at hstep
    · cases hstep
    · next requestId message wire hwire =>
      obtain rfl := Option.some.inj hstep
      have hmarked := h.wire (requestId, message) (by simp [hwire])
      refine ⟨h.exchange.accept hmarked fun payload hmessage hone => ?_, fun m hm => ?_⟩
      · exact hok requestId payload (by simp [hwire, hmessage]) hone
      · exact h.wire m (by simp [hwire, hm])

/-- No result has another request's snapshot, in each run in which a snapshot that arrives at a
single open request is part of the answer to an open one. -/
theorem results_have_own_snapshots {es : List (Event α β)}
    (hanswers : Admissible AnswersOpen step {} es) (h : run step {} es = some s) :
    OwnSnapshots s := by
  have hhonest : Honest s :=
    run_invariant_of_admissible (I := Honest) (fun _ _ _ hhonest hok => hhonest.step hok)
      ⟨⟨by simp, by simp⟩, by simp⟩ hanswers h
  exact hhonest.exchange.resolved

def twoRequests : List (Event Nat Unit) :=
  [.request, .serve (), .arrive, .sendSnapshot 10, .arrive, .request, .finish () true, .arrive,
    .arrive, .serve (), .sendSnapshot 20, .arrive, .arrive, .finish () false, .arrive]

theorem results_have_own_snapshots_two :
    ∃ s, run step ({} : Session Nat Unit) twoRequests = some s ∧ OwnSnapshots s := by
  have hallowed : allows (fun s e => decide (AnswersOpen s e)) step {} twoRequests = true := by
    decide
  obtain ⟨s, hs⟩ := Option.isSome_iff_exists.mp
    (by decide : (run step ({} : Session Nat Unit) twoRequests).isSome = true)
  exact ⟨s, hs, results_have_own_snapshots
    (admissible_of_allows (fun _ _ => of_decide_eq_true) hallowed) hs⟩

/-- The first request times out before its snapshot comes, and a second one is open by then, to
which the server has no snapshot. -/
def lateSnapshot : List (Event Nat Unit) :=
  [.request, .timeout 1, .request, .serve (), .arrive, .sendSnapshot 10, .arrive,
    .finish () false, .arrive, .serve (), .arrive, .finish () false, .arrive]

theorem late_snapshot_is_another_requests :
    ¬ ∀ (es : List (Event Nat Unit)) (s : Session Nat Unit),
      run step {} es = some s → OwnSnapshots s := by
  intro h
  have hrun : (run step {} lateSnapshot).map (fun s => (s.exchange.resolved, s.sent)) =
      some ([⟨2, (), some 10⟩], [(1, 10)]) := by
    decide
  obtain ⟨s, hs, hsame⟩ := Option.map_eq_some_iff.mp hrun
  obtain ⟨hresolved, hsent⟩ := Prod.mk.inj hsame
  have hown := h lateSnapshot s hs ⟨2, (), some 10⟩ (by simp [hresolved]) 10 rfl
  simp [hsent] at hown

end Dolgate.ProxyAutocomplete
