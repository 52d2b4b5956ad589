import Dolgate.SocksHandshake
import Dolgate.PipeBridge

set_option autoImplicit false

/-! When the handshake is the one of the protocol. -/

namespace Dolgate.SocksHandshake
open GoReads
open GoBytes (ascii)
open PipeBridge (Bridge Event ClosesDrained flow_step FlowStep run_ordered run_whole)

variable {dial : Bytes → Bool} {reads : Reads UInt8} {rest : Bytes}

def served (dial : Bytes → Bool) (target : Bytes) (reads : Reads UInt8) : Outcome :=
  if dial target then ⟨[noAuthentication, reply 0x00], some target, .ok reads⟩
  else ⟨[noAuthentication, reply 0x05], some target, .error .dial⟩

structure Outcome.Undialed (o : Outcome) : Prop where
  dialed : o.dialed = none
  ended : ∃ failure, o.ended = .error failure
  replies : o.replies = [noAuthentication] ∨
    ∃ code, code ≠ 0 ∧ o.replies = [noAuthentication, reply code]

theorem undialed_silent (failure : Failure) :
    Outcome.Undialed ⟨[noAuthentication], none, .error failure⟩ :=
  ⟨rfl, ⟨failure, rfl⟩, .inl rfl⟩

theorem undialed_reply {code : UInt8} (hcode : code ≠ 0) (failure : Failure) :
    Outcome.Undialed ⟨[noAuthentication, reply code], none, .error failure⟩ :=
  ⟨rfl, ⟨failure, rfl⟩, .inr ⟨code, hcode, rfl⟩⟩

theorem serveRequest_request (dial : Bytes → Bool) (r : Request) (h : reads.flatten = r.bytes ++ rest) :
    ∃ reads', serveRequest dial reads = served dial r.target reads' ∧ reads'.flatten = rest := by
  rw [Request.bytes, List.append_assoc, List.append_assoc] at h
  obtain ⟨reads₁, hheader, h₁⟩ := readFull_append h
  obtain ⟨reads₂, haddress, h₂⟩ := readSOCKSAddress_host r.host h₁
  have hsplit : reads₂.flatten = [r.high, r.low] ++ rest := h₂
  obtain ⟨reads₃, hport, h₃⟩ := readFull_append hsplit
  have hfour : readFull 4 reads =
      some ([0x05, 0x01, r.reserved, r.host.atyp], reads₁) := hheader
  have htwo : readFull 2 reads₂ = some ([r.high, r.low], reads₃) := hport
  refine ⟨reads₃, ?_, h₃⟩
  simp [serveRequest, hfour, connect, haddress, htwo]
  rfl

theorem connect_cases (dial : Bytes → Bool) (reads : Reads UInt8) (atyp : UInt8) :
    (connect dial reads atyp).Undialed ∨
      ∃ (host : Host) (high low : UInt8) (reads' : Reads UInt8), host.atyp = atyp ∧
        reads.flatten = host.encoded ++ ([high, low] ++ reads'.flatten) ∧
        connect dial reads atyp =
          served dial (joinHostPort host.text (portText [high, low])) reads' := by
  unfold connect
  cases haddress : readSOCKSAddress reads atyp with
  | error failure => exact .inl (undialed_reply (by decide) failure)
  | ok read =>
    obtain ⟨address, reads₁⟩ := read
    obtain ⟨host, rfl, rfl, h₁⟩ := host_of_readSOCKSAddress haddress
    dsimp only
    cases hport : readFull 2 reads₁ with
    | none => exact .inl (undialed_silent .read)
    | some read =>
      obtain ⟨port, reads₂⟩ := read
      obtain ⟨h₂, htwo⟩ := readFull_eq_some hport
      obtain ⟨high, low, rfl⟩ := List.length_eq_two.mp htwo
      exact .inr ⟨host, high, low, reads₂, rfl, by rw [h₁, h₂], rfl⟩

theorem serveRequest_cases (dial : Bytes → Bool) (reads : Reads UInt8) :
    (serveRequest dial reads).Undialed ∨
      ∃ (r : Request) (reads' : Reads UInt8), reads.flatten = r.bytes ++ reads'.flatten ∧
        serveRequest dial reads = served dial r.target reads' := by
  unfold serveRequest
  cases hheader : readFull 4 reads with
  | none => exact .inl (undialed_silent .read)
  | some header =>
    obtain ⟨bytes, reads₁⟩ := header
    obtain ⟨h₁, hfour⟩ := readFull_eq_some hheader
    obtain ⟨version, command, reserved, atyp, rfl⟩ := List.length_eq_four.mp hfour
    dsimp only [List.getD_cons_zero, List.getD_cons_succ]
    split
    · exact .inl (undialed_reply (by decide) .command)
    · next hconnect =>
      obtain ⟨rfl, rfl⟩ : version = 0x05 ∧ command = 0x01 := by simpa using hconnect
      rcases connect_cases dial reads₁ atyp with
        hundialed | ⟨host, high, low, reads₂, rfl, h₂, hserved⟩
      · exact .inl hundialed
      · refine .inr ⟨⟨reserved, host, high, low⟩, reads₂, ?_, hserved⟩
        rw [h₁, h₂]
        simp [Request.bytes]

theorem handleSOCKS5_greeting (dial : Bytes → Bool) (g : Greeting) (h : reads.flatten = g.bytes ++ rest) :
    ∃ reads', handleSOCKS5 dial reads = serveRequest dial reads' ∧ reads'.flatten = rest := by
  rw [Greeting.bytes, List.append_assoc] at h
  obtain ⟨reads₁, hheader, h₁⟩ := readFull_append h
  obtain ⟨reads₂, hmethods, h₂⟩ := readFull_append h₁
  have htwo : readFull 2 reads =
      some ([0x05, UInt8.ofNat g.methods.length], reads₁) := hheader
  refine ⟨reads₂, ?_, h₂⟩
  simp [handleSOCKS5, htwo, ofNat_toNat g.bounded, hmethods]

theorem handleSOCKS5_cases (dial : Bytes → Bool) (reads : Reads UInt8) :
    (∃ failure, handleSOCKS5 dial reads = ⟨[], none, .error failure⟩) ∨
      ∃ (g : Greeting) (reads' : Reads UInt8), reads.flatten = g.bytes ++ reads'.flatten ∧
        handleSOCKS5 dial reads = serveRequest dial reads' := by
  unfold handleSOCKS5
  cases hheader : readFull 2 reads with
  | none => exact .inl ⟨_, rfl⟩
  | some header =>
    obtain ⟨bytes, reads₁⟩ := header
    obtain ⟨h₁, htwo⟩ := readFull_eq_some hheader
    obtain ⟨version, count, rfl⟩ := List.length_eq_two.mp htwo
    dsimp only [List.getD_cons_zero, List.getD_cons_succ]
    split
    · exact .inl ⟨_, rfl⟩
    · next hversion =>
      obtain rfl := not_not.mp hversion
      cases hmethods : readFull ([0x05, count].getD 1 0).toNat reads₁ with
      | none => exact .inl ⟨_, rfl⟩
      | some read =>
        obtain ⟨methods, reads₂⟩ := read
        obtain ⟨h₂, hlength⟩ := readFull_eq_some hmethods
        have hcount : methods.length = count.toNat := hlength
        have hbounded : methods.length ≤ 255 := by
          have := count.toNat_lt
          omega
        refine .inr ⟨⟨methods, hbounded⟩, reads₂, ?_, rfl⟩
        rw [h₁, h₂, Greeting.bytes, hcount, UInt8.ofNat_toNat, List.append_assoc]

theorem greeting_unique {g g' : Greeting} {more more' : Bytes}
    (h : g.bytes ++ more = g'.bytes ++ more') : g.methods = g'.methods ∧ more = more' := by
  simp only [Greeting.bytes, List.cons_append, List.nil_append, List.cons.injEq, true_and] at h
  have hlength : g.methods.length = g'.methods.length := by
    have hcount := congrArg UInt8.toNat h.1
    rwa [ofNat_toNat g.bounded, ofNat_toNat g'.bounded] at hcount
  exact List.append_inj h.2 hlength

theorem host_unique {host host' : Host} {more more' : Bytes} (hatyp : host.atyp = host'.atyp)
    (h : host.encoded ++ more = host'.encoded ++ more') : host = host' := by
  cases host with
  | ipv4 address hlength =>
    cases host' with
    | ipv4 address' hlength' =>
      obtain ⟨rfl, -⟩ := List.append_inj h (hlength.trans hlength'.symm)
      rfl
    | domain name' hlength' => simp [Host.atyp] at hatyp
    | ipv6 address' hlength' => simp [Host.atyp] at hatyp
  | domain name hlength =>
    cases host' with
    | ipv4 address' hlength' => simp [Host.atyp] at hatyp
    | domain name' hlength' =>
      simp only [Host.encoded, List.cons_append, List.cons.injEq] at h
      have hcount := congrArg UInt8.toNat h.1
      rw [ofNat_toNat hlength, ofNat_toNat hlength'] at hcount
      obtain ⟨rfl, -⟩ := List.append_inj h.2 hcount
      rfl
    | ipv6 address' hlength' => simp [Host.atyp] at hatyp
  | ipv6 address hlength =>
    cases host' with
    | ipv4 address' hlength' => simp [Host.atyp] at hatyp
    | domain name' hlength' => simp [Host.atyp] at hatyp
    | ipv6 address' hlength' =>
      obtain ⟨rfl, -⟩ := List.append_inj h (hlength.trans hlength'.symm)
      rfl

theorem request_host_unique {r r' : Request} {more more' : Bytes}
    (h : r.bytes ++ more = r'.bytes ++ more') : r.host = r'.host := by
  simp only [Request.bytes, List.append_assoc, List.cons_append, List.nil_append,
    List.cons.injEq, true_and] at h
  exact host_unique h.2.1 h.2.2

structure Follows (dial : Bytes → Bool) (reads : Reads UInt8) : Prop where
  offered : noAuthentication ∈ (handleSOCKS5 dial reads).replies →
    ∃ (g : Greeting) (more : Bytes), reads.flatten = g.bytes ++ more ∧ 0x00 ∈ g.methods
  dials : ∀ target, (handleSOCKS5 dial reads).dialed = some target ↔
    ∃ (g : Greeting) (r : Request) (more : Bytes),
      reads.flatten = g.bytes ++ (r.bytes ++ more) ∧ g.methods ≠ [] ∧ r.host.Named ∧
        r.target = target
  replies : (handleSOCKS5 dial reads).replies <+: [noAuthentication] ∨
    ∃ code, (handleSOCKS5 dial reads).replies = [noAuthentication, reply code] ∧
      (code = 0x00 ↔ ∃ reads', (handleSOCKS5 dial reads).ended = .ok reads')
  bridged : ∀ reads', (handleSOCKS5 dial reads).ended = .ok reads' →
    (handleSOCKS5 dial reads).replies = [noAuthentication, reply 0x00] ∧
      ∃ (g : Greeting) (r : Request), reads.flatten = g.bytes ++ (r.bytes ++ reads'.flatten)

/-- A greeting offers the method without authentication, and a request after it names its host. -/
def Acceptable (stream : Bytes) : Prop :=
  ∀ (g : Greeting) (more : Bytes), stream = g.bytes ++ more →
    0x00 ∈ g.methods ∧ ∀ (r : Request) (rest : Bytes), more = r.bytes ++ rest → r.host.Named

@[simp] theorem served_dialed (dial : Bytes → Bool) (target : Bytes) (reads : Reads UInt8) :
    (served dial target reads).dialed = some target := by
  unfold served
  split <;> rfl

theorem outcome_cases (dial : Bytes → Bool) (reads : Reads UInt8) :
    (∃ failure, handleSOCKS5 dial reads = ⟨[], none, .error failure⟩) ∨
      (∃ (g : Greeting) (more : Bytes), reads.flatten = g.bytes ++ more ∧
        (handleSOCKS5 dial reads).Undialed) ∨
      ∃ (g : Greeting) (r : Request) (reads' : Reads UInt8),
        reads.flatten = g.bytes ++ (r.bytes ++ reads'.flatten) ∧
        handleSOCKS5 dial reads = served dial r.target reads' := by
  rcases handleSOCKS5_cases dial reads with hfailed | ⟨g, reads₁, h₁, heq⟩
  · exact .inl hfailed
  · rw [heq]
    rcases serveRequest_cases dial reads₁ with hundialed | ⟨r, reads₂, h₂, hserved⟩
    · exact .inr (.inl ⟨g, reads₁.flatten, h₁, hundialed⟩)
    · exact .inr (.inr ⟨g, r, reads₂, by rw [h₁, h₂], hserved⟩)

theorem outcome_request (dial : Bytes → Bool) {g : Greeting} {r : Request} {more : Bytes}
    (h : reads.flatten = g.bytes ++ (r.bytes ++ more)) :
    ∃ reads', handleSOCKS5 dial reads = served dial r.target reads' ∧ reads'.flatten = more := by
  obtain ⟨reads₁, hgreeting, h₁⟩ := handleSOCKS5_greeting dial g h
  obtain ⟨reads₂, hrequest, h₂⟩ := serveRequest_request dial r h₁
  exact ⟨reads₂, hgreeting.trans hrequest, h₂⟩

theorem serveRequest_replies (dial : Bytes → Bool) (reads : Reads UInt8) :
    noAuthentication ∈ (serveRequest dial reads).replies := by
  rcases serveRequest_cases dial reads with hundialed | ⟨r, reads', -, hserved⟩
  · rcases hundialed.replies with hreplies | ⟨code, -, hreplies⟩ <;> simp [hreplies]
  · rw [hserved, served]
    split <;> simp

theorem acceptable_of_follows (h : Follows dial reads) : Acceptable reads.flatten := by
  intro g more hgreeting
  obtain ⟨reads₁, heq, h₁⟩ := handleSOCKS5_greeting dial g hgreeting
  constructor
  · have hreplied : noAuthentication ∈ (handleSOCKS5 dial reads).replies := by
      rw [heq]
      exact serveRequest_replies dial reads₁
    obtain ⟨g', more', hoffer, hzero⟩ := h.offered hreplied
    rwa [(greeting_unique (hgreeting.symm.trans hoffer)).1]
  · intro r rest hrequest
    rw [hrequest] at hgreeting
    obtain ⟨reads₂, hserved, -⟩ := outcome_request dial hgreeting
    have hdialed : (handleSOCKS5 dial reads).dialed = some r.target := by
      rw [hserved, served_dialed]
    obtain ⟨g', r', more', hstream, -, hnamed, -⟩ := (h.dials r.target).mp hdialed
    have hmore := (greeting_unique (hgreeting.symm.trans hstream)).2
    rwa [request_host_unique hmore]

theorem dialed_of_request {target : Bytes} (h : ∃ (g : Greeting) (r : Request) (more : Bytes),
    reads.flatten = g.bytes ++ (r.bytes ++ more) ∧ g.methods ≠ [] ∧ r.host.Named ∧
      r.target = target) : (handleSOCKS5 dial reads).dialed = some target := by
  obtain ⟨g, r, more, hstream, -, -, rfl⟩ := h
  obtain ⟨reads', hserved, -⟩ := outcome_request dial hstream
  rw [hserved, served_dialed]

theorem follows_of_acceptable (h : Acceptable reads.flatten) : Follows dial reads := by
  rcases outcome_cases dial reads with ⟨failure, heq⟩ | ⟨g, more, hgreeting, hundialed⟩ |
    ⟨g, r, reads', hstream, heq⟩
  · refine ⟨?_, fun target => ⟨?_, dialed_of_request⟩, ?_, ?_⟩ <;> simp [heq]
  · refine ⟨fun _ => ⟨g, more, hgreeting, (h g more hgreeting).1⟩,
      fun target => ⟨?_, dialed_of_request⟩, ?_, ?_⟩
    · simp [hundialed.dialed]
    · obtain ⟨failure, hended⟩ := hundialed.ended
      rcases hundialed.replies with hreplies | ⟨code, hcode, hreplies⟩
      · simp [hreplies]
      · exact .inr ⟨code, hreplies, by simp [hcode, hended]⟩
    · obtain ⟨failure, hended⟩ := hundialed.ended
      simp [hended]
  · obtain ⟨hzero, hnamed⟩ := h g _ hstream
    refine ⟨fun _ => ⟨g, _, hstream, hzero⟩, fun target => ⟨fun htarget => ?_, dialed_of_request⟩,
      ?_, ?_⟩
    · rw [heq, served_dialed] at htarget
      exact ⟨g, r, reads'.flatten, hstream, List.ne_nil_of_mem hzero,
        hnamed r reads'.flatten rfl, Option.some.inj htarget⟩
    · right
      rw [heq, served]
      split
      · exact ⟨0x00, by simp⟩
      · exact ⟨0x05, by simp⟩
    · intro reads'' hended
      rw [heq, served] at hended ⊢
      split at hended
      · next hdial =>
        obtain rfl := Except.ok.inj hended
        exact ⟨by simp [hdial], g, r, hstream⟩
      · cases hended

/-! The bridge starts with what the handshake has left of the client's stream. -/

def bridgeRun (bytes : Bytes) (es : List Event) : List Event := .peerWrites .left bytes :: es

theorem written_kept {f f' : PipeBridge.Flow} (h : FlowStep f f') : f.written <+: f'.written := by
  cases h with
  | written bytes _ => exact List.prefix_append _ _
  | _ => exact List.prefix_rfl

theorem bridgeRun_written {bytes : Bytes} {es : List Event} {b : Bridge}
    (h : Transition.run PipeBridge.step .start (bridgeRun bytes es) = some b) :
    bytes <+: (b.connection .left).written := by
  obtain ⟨b₁, hfirst, hrun⟩ := Transition.run_cons.mp h
  refine Transition.run_invariant (I := fun b => bytes <+: (b.flow .left).written) ?_ ?_ hrun
  · intro b e b' hsent hstep
    exact hsent.trans (written_kept (flow_step hstep .left).1)
  · cases hfirst
    exact List.prefix_rfl

structure Passed (bytes : Bytes) (b : Bridge) : Prop where
  sent : bytes <+: (b.connection .left).written
  ordered : (b.connection .right).delivered <+: (b.connection .left).written

end Dolgate.SocksHandshake
