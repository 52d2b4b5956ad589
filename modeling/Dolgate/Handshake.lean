import Dolgate.EchoFilter
import Dolgate.Transition
import Mathlib.Logic.Relation

set_option autoImplicit false

namespace Dolgate.Autocomplete
open GoBytes Relation Transition

/-- `idleEmit` tells whether there is a function to give a pending echo to when the output has
stopped. -/
structure Handshake where
  generation : UInt64 := 0
  filter : Option HandshakeFilter := none
  idleEmit : Bool := false
deriving DecidableEq, Repr

namespace Handshake

def setIdleFlush (h : Handshake) : Handshake := { h with idleEmit := true }

def stopIdleFlush (h : Handshake) : Handshake := { h with idleEmit := false }

def arm (h : Handshake) (preserveMotd : Bool) : Handshake × UInt64 :=
  let generation := h.generation + 1
  ({ h with generation := generation, filter := some (.arm preserveMotd) }, generation)

def armForCommand (h : Handshake) (preserveMotd : Bool) (commands : List (List UInt8)) :
    Handshake × UInt64 :=
  let generation := h.generation + 1
  ({ h with generation := generation, filter := some (.armForCommand preserveMotd commands) },
    generation)

def armForShellProbe (h : Handshake) (preserveMotd : Bool) (command : List UInt8) :
    Handshake × UInt64 :=
  let (h, generation) := h.armForCommand preserveMotd [command]
  (if h.generation = generation then
    { h with filter := h.filter.map fun f => { f with probeReply := true } } else h, generation)

section

variable (injectedCommandEchoes : List (List UInt8))

/-- What is forwarded of a chunk, and whether the chunk has completed the handshake. -/
def filterWithStatus (h : Handshake) (chunk : List UInt8) : Handshake × List UInt8 × Bool :=
  match h.filter with
  | none => (h, chunk, false)
  | some f =>
      let (f, forward, handshakeDone) := f.filter injectedCommandEchoes chunk
      ({ h with filter := some f }, forward, handshakeDone)

def flush (h : Handshake) : Handshake × List UInt8 :=
  match h.filter with
  | none => (h, [])
  | some f =>
      if f.done then (h, [])
      else
        let (f, out) := f.flush injectedCommandEchoes
        ({ h with filter := some f }, out)

def flushAttempt (h : Handshake) (generation : UInt64) : Handshake × List UInt8 :=
  if h.generation ≠ generation then (h, []) else h.flush injectedCommandEchoes

end

def flushIdleEcho (h : Handshake) : Handshake × List UInt8 :=
  match h.filter with
  | none => (h, [])
  | some f =>
      let (f, out) := f.drainPendingEcho
      ({ h with filter := some f }, if h.idleEmit then out else [])

def held (h : Handshake) : List UInt8 :=
  match h.filter with
  | none => []
  | some f => f.buffer ++ f.pendingEcho

def pendingEcho (h : Handshake) : List UInt8 :=
  match h.filter with
  | none => []
  | some f => f.pendingEcho

end Handshake

/-- What the output of a session has to do with the echoes: that a handshake was armed with these
texts, and whether the answer to a shell probe ends it, and that it was completed. -/
inductive Event where
  | armed (echoes : List (List UInt8)) (probeReply : Bool)
  | completed
deriving DecidableEq, Repr

def injectedTexts : List Event → List (List UInt8)
  | [] => []
  | .armed echoes _ :: _ => echoes
  | .completed :: log => injectedTexts log

def Suppressed (probeReply : Bool) (data rest : List UInt8) : Prop :=
  (probeReply = true ∧ parseShellProbeReply data = some rest) ∨
    ∃ idx, index data promptStartMarker = some idx ∧ rest = data.drop idx

def Takes (echoes : List (List UInt8)) (data rest : List UInt8) : Prop :=
  ∃ echo ∈ echoes, ∃ before after,
    findWrappedEcho data echo = some (before, after) ∧ rest = before ++ after

/-- How the received bytes are accounted for. They are held, and leave from the front to be
forwarded. The rest of them are those of a matched echo, and of one segment for each completed
handshake, which is what was held up to its end. -/
inductive Account : List Event → List UInt8 → List UInt8 → List UInt8 → Prop where
  | start : Account [] [] [] []
  | receive {log received forwarded held} (chunk : List UInt8) :
      Account log received forwarded held →
      Account log (received ++ chunk) forwarded (held ++ chunk)
  | forward {log received forwarded out held} :
      Account log received forwarded (out ++ held) → Account log received (forwarded ++ out) held
  | arm {log received forwarded held} (echoes : List (List UInt8)) (probeReply : Bool) :
      Account log received forwarded held →
      Account (.armed echoes probeReply :: log) received forwarded held
  | take {log received forwarded held rest} :
      Takes (injectedTexts log) held rest →
      Account log received forwarded held → Account log received forwarded rest
  | complete {log received forwarded held rest echoes probeReply} :
      Suppressed probeReply held rest →
      Account (.armed echoes probeReply :: log) received forwarded held →
      Account (.completed :: .armed echoes probeReply :: log) received forwarded rest

structure Session where
  handshake : Handshake := {}
  log : List Event := []
  received : List UInt8 := []
  forwarded : List UInt8 := []
deriving DecidableEq, Repr

inductive Call where
  | setIdleFlush
  | stopIdleFlush
  | arm (preserveMotd : Bool)
  | armForCommand (preserveMotd : Bool) (commands : List (List UInt8))
  | armForShellProbe (preserveMotd : Bool) (command : List UInt8)
  | filter (chunk : List UInt8)
  | flush
  | flushAttempt (generation : UInt64)
  | flushIdleEcho
deriving DecidableEq, Repr

namespace Session

section

variable (injectedCommandEchoes : List (List UInt8))

def armed (s : Session) (r : Handshake × UInt64) : Session :=
  { s with
    handshake := r.1
    log := (r.1.filter.map fun f =>
      Event.armed (f.echoTexts injectedCommandEchoes) f.probeReply).toList ++ s.log }

def emits (s : Session) (r : Handshake × List UInt8) : Session :=
  { s with handshake := r.1, forwarded := s.forwarded ++ r.2 }

def filters (s : Session) (chunk : List UInt8) (r : Handshake × List UInt8 × Bool) : Session :=
  { handshake := r.1
    log := if r.2.2 then .completed :: s.log else s.log
    received := s.received ++ chunk
    forwarded := s.forwarded ++ r.2.1 }

def call (s : Session) : Call → Session
  | .setIdleFlush => { s with handshake := s.handshake.setIdleFlush }
  | .stopIdleFlush => { s with handshake := s.handshake.stopIdleFlush }
  | .arm preserveMotd => s.armed injectedCommandEchoes (s.handshake.arm preserveMotd)
  | .armForCommand preserveMotd commands =>
      s.armed injectedCommandEchoes (s.handshake.armForCommand preserveMotd commands)
  | .armForShellProbe preserveMotd command =>
      s.armed injectedCommandEchoes (s.handshake.armForShellProbe preserveMotd command)
  | .filter chunk => s.filters chunk (s.handshake.filterWithStatus injectedCommandEchoes chunk)
  | .flush => s.emits (s.handshake.flush injectedCommandEchoes)
  | .flushAttempt generation =>
      s.emits (s.handshake.flushAttempt injectedCommandEchoes generation)
  | .flushIdleEcho => s.emits s.handshake.flushIdleEcho

def step (s : Session) (c : Call) : Option Session := some (s.call injectedCommandEchoes c)

end

/-- Nothing is held when the handshake is armed, and what the timer takes is emitted. -/
def Keeps (s : Session) : Call → Prop
  | .arm _ | .armForCommand _ _ | .armForShellProbe _ _ => s.handshake.held = []
  | .flushIdleEcho => s.handshake.idleEmit = false → s.handshake.pendingEcho = []
  | _ => True

def Conserved (s : Session) : Prop := Account s.log s.received s.forwarded []

end Session

variable {injected : List (List UInt8)} {log : List Event} {received forwarded held : List UInt8}

theorem Account.takes {rest : List UInt8} (h : Account log received forwarded held)
    (ht : ReflTransGen (Takes (injectedTexts log)) held rest) :
    Account log received forwarded rest := by
  induction ht with
  | refl => exact h
  | tail _ hstep ih => exact ih.take hstep

theorem takes_stripEcho {echoes : List (List UInt8)} {echo : List UInt8} (he : echo ∈ echoes)
    (data : List UInt8) : ReflTransGen (Takes echoes) data (stripEcho echo data) := by
  induction hn : data.length using Nat.strongRecOn generalizing data with
  | _ n ih =>
      cases hfind : findWrappedEcho data echo with
      | none => rw [stripEcho_none hfind]
      | some p =>
          have hlen := findWrappedEcho_length hfind
          have hrest := ih (p.1 ++ p.2).length (hn ▸ hlen) (p.1 ++ p.2) rfl
          rw [stripEcho]
          split
          · rename_i hnone
            cases hfind.symm.trans hnone
          · rename_i before after hsome
            cases hfind.symm.trans hsome
            exact .head ⟨echo, he, before, after, hsome, rfl⟩ hrest

theorem takes_foldl {echoes : List (List UInt8)} (es : List (List UInt8)) (hes : es ⊆ echoes)
    (data : List UInt8) :
    ReflTransGen (Takes echoes) data (es.foldl (fun data echo => stripEcho echo data) data) := by
  induction es generalizing data with
  | nil => exact .refl
  | cons echo es ih =>
      obtain ⟨he, hes⟩ := List.cons_subset.mp hes
      exact (takes_stripEcho he data).trans (ih hes _)

theorem takes_scrubEchoes {echoes : List (List UInt8)} (es : List (List UInt8)) (hes : es ⊆ echoes)
    (data : List UInt8) :
    ReflTransGen (Takes echoes) data (scrubEchoes es data).1 ∧ (scrubEchoes es data).2 ⊆ es := by
  induction es generalizing data with
  | nil => exact ⟨.refl, List.Subset.refl _⟩
  | cons echo es ih =>
      obtain ⟨he, hes⟩ := List.cons_subset.mp hes
      rw [scrubEchoes]
      split
      · exact ⟨(ih hes data).1, List.Subset.trans (ih hes data).2 (List.subset_cons_self _ _)⟩
      · split
        · rename_i before after hfind
          have hrest := ih hes (before ++ after)
          exact ⟨.head ⟨echo, he, before, after, hfind, rfl⟩ hrest.1,
            List.Subset.trans hrest.2 (List.subset_cons_self _ _)⟩
        · exact ⟨(ih hes data).1, List.cons_subset_cons _ (ih hes data).2⟩

namespace HandshakeFilter

variable {f : HandshakeFilter}

theorem takes_stripInjectedEcho (f : HandshakeFilter) (data : List UInt8) :
    ReflTransGen (Takes (f.echoTexts injected)) data (f.stripInjectedEcho injected data) :=
  takes_foldl _ (List.Subset.refl _) data

structure Sound (injected : List (List UInt8)) (f : HandshakeFilter) : Prop where
  waiting : f.done = false → f.pendingEcho = []
  finished : f.done = true → f.buffer = []
  streaming : f.pendingEcho ≠ [] → f.echoScrubDone = false ∧ f.echoTexts injected ≠ []
  pending : f.echoesScrubbed = true → f.echoesPending ⊆ f.echoTexts injected

theorem splitMotd_append {echoes : List (List UInt8)} {buffer motd rest : List UInt8}
    (h : splitMotd echoes buffer = some (motd, rest)) : motd ++ rest = buffer := by
  obtain ⟨echoIdx, -, h⟩ := Option.map_eq_some_iff.mp h
  cases h
  exact List.take_append_drop _ _

def takeMotd (injected : List (List UInt8)) (f : HandshakeFilter) (chunk : List UInt8) :
    HandshakeFilter × List UInt8 :=
  match (if f.preserveMotd && !f.motdSeen then
      splitMotd (f.echoTexts injected) (f.buffer ++ chunk) else none) with
  | none => ({ f with buffer := f.buffer ++ chunk }, [])
  | some (motd, buffer) => ({ f with buffer := buffer, motdSeen := true }, motd)

def conclude (injected : List (List UInt8)) (f : HandshakeFilter) (motd : List UInt8) :
    HandshakeFilter × List UInt8 × Bool :=
  let finish := fun data =>
    ({ f with done := true, buffer := [] }, motd ++ f.stripInjectedEcho injected data, true)
  match (if f.probeReply then parseShellProbeReply f.buffer else none) with
  | some data => finish data
  | none =>
      match index f.buffer promptStartMarker with
      | some idx => finish (f.buffer.drop idx)
      | none =>
          if motd ≠ [] then (f, motd, false)
          else if maxHandshakeBytes < f.buffer.length then
            ((f.flush injected).1, (f.flush injected).2, false)
          else (f, [], false)

theorem filter_eq (hf : f.done = false) (chunk : List UInt8) :
    f.filter injected chunk =
      conclude injected (takeMotd injected f chunk).1 (takeMotd injected f chunk).2 := by
  rw [filter, if_neg (by simp [hf])]
  rfl

theorem takeMotd_spec (injected : List (List UInt8)) (f : HandshakeFilter) (chunk : List UInt8) :
    ∃ seen motd data, f.buffer ++ chunk = motd ++ data ∧
      takeMotd injected f chunk = ({ f with motdSeen := seen, buffer := data }, motd) := by
  unfold takeMotd
  split
  · exact ⟨f.motdSeen, [], f.buffer ++ chunk, rfl, rfl⟩
  · rename_i motd buffer hmotd
    split at hmotd
    · exact ⟨true, motd, buffer, (splitMotd_append hmotd).symm, rfl⟩
    · cases hmotd

theorem conclude_spec (injected : List (List UInt8)) (hf : f.done = false) (motd : List UInt8) :
    (∃ rest, Suppressed f.probeReply f.buffer rest ∧
      conclude injected f motd = ({ f with done := true, buffer := [] },
        motd ++ f.stripInjectedEcho injected rest, true)) ∨
    conclude injected f motd = (f, motd, false) ∨
    conclude injected f motd = ({ f with done := true, buffer := [] },
      motd ++ f.stripInjectedEcho injected f.buffer, false) := by
  unfold conclude
  dsimp only
  split
  · rename_i rest hreply
    split at hreply
    · rename_i hprobe
      exact .inl ⟨rest, .inl ⟨hprobe, hreply⟩, rfl⟩
    · cases hreply
  · split
    · rename_i idx hmarker
      exact .inl ⟨_, .inr ⟨idx, hmarker, rfl⟩, rfl⟩
    · split
      · exact .inr (.inl rfl)
      · rename_i hmotd
        rw [Decidable.not_not.mp hmotd]
        split
        · refine .inr (.inr ?_)
          simp [flush, hf]
        · exact .inr (.inl rfl)

theorem filter_waiting (injected : List (List UInt8)) (hf : f.done = false) (chunk : List UInt8) :
    ∃ seen motd data, f.buffer ++ chunk = motd ++ data ∧
      ((∃ rest, Suppressed f.probeReply data rest ∧
        f.filter injected chunk = ({ f with motdSeen := seen, done := true, buffer := [] },
          motd ++ f.stripInjectedEcho injected rest, true)) ∨
      f.filter injected chunk = ({ f with motdSeen := seen, buffer := data }, motd, false) ∨
      f.filter injected chunk = ({ f with motdSeen := seen, done := true, buffer := [] },
        motd ++ f.stripInjectedEcho injected data, false)) := by
  obtain ⟨seen, motd, data, hsplit, htake⟩ := takeMotd_spec injected f chunk
  refine ⟨seen, motd, data, hsplit, ?_⟩
  rw [filter_eq hf, htake]
  exact conclude_spec (f := { f with motdSeen := seen, buffer := data }) injected hf motd

theorem stripInjectedEchoStreaming_spec (h : f.Sound injected) (hdone : f.done = true)
    (chunk : List UInt8) :
    (f.stripInjectedEchoStreaming injected chunk).1.Sound injected ∧
      (f.stripInjectedEchoStreaming injected chunk).1.done = true ∧
      (f.stripInjectedEchoStreaming injected chunk).1.echoTexts injected = f.echoTexts injected ∧
      ReflTransGen (Takes (f.echoTexts injected)) (f.pendingEcho ++ chunk)
        ((f.stripInjectedEchoStreaming injected chunk).2 ++
          (f.stripInjectedEchoStreaming injected chunk).1.pendingEcho) := by
  have hpass : f.pendingEcho = [] → ReflTransGen (Takes (f.echoTexts injected))
      (f.pendingEcho ++ chunk) (chunk ++ f.pendingEcho) := by
    intro hnone
    rw [hnone, List.append_nil, List.nil_append]
  have hleft : f.echoesLeft (f.echoTexts injected) ⊆ f.echoTexts injected := by
    unfold echoesLeft
    split
    · rename_i hscrubbed
      exact h.pending hscrubbed
    · exact List.Subset.refl _
  obtain ⟨htakes, hkept⟩ := takes_scrubEchoes _ hleft (f.pendingEcho ++ chunk)
  unfold stripInjectedEchoStreaming
  split
  · rename_i hclosed
    refine ⟨h, hdone, rfl, hpass (Decidable.byContradiction fun hne => ?_)⟩
    simp [(h.streaming hne).1] at hclosed
  · dsimp only
    split
    · rename_i htexts
      refine ⟨h, hdone, rfl, hpass (Decidable.byContradiction fun hne => ?_)⟩
      exact (h.streaming hne).2 htexts
    · rename_i hopen htexts
      split
      · refine ⟨⟨?_, ?_, ?_, ?_⟩, hdone, rfl, ?_⟩
        · exact fun _ => rfl
        · exact h.finished
        · exact fun hne => absurd rfl hne
        · exact fun _ => List.Subset.trans hkept hleft
        · rw [List.append_nil]
          exact htakes
      · refine ⟨⟨?_, ?_, ?_, ?_⟩, hdone, rfl, ?_⟩
        · intro hwait
          rw [hdone] at hwait
          cases hwait
        · exact h.finished
        · exact fun _ => ⟨by simpa using hopen, htexts⟩
        · exact fun _ => List.Subset.trans hkept hleft
        · rw [List.take_append_drop]
          exact htakes

end HandshakeFilter

structure Tracked (injected : List (List UInt8)) (s : Session) : Prop where
  account : Account s.log s.received s.forwarded s.handshake.held
  sound : ∀ f, s.handshake.filter = some f → f.Sound injected
  texts : ∀ f, s.handshake.filter = some f → injectedTexts s.log = f.echoTexts injected
  waiting : ∀ f, s.handshake.filter = some f → f.done = false →
    ∃ log, s.log = .armed (f.echoTexts injected) f.probeReply :: log

namespace Tracked

variable {s : Session}

theorem start : Tracked injected {} where
  account := .start
  sound _ hf := nomatch hf
  texts _ hf := nomatch hf
  waiting _ hf := nomatch hf

theorem of_filter {f : HandshakeFilter} (hf : s.handshake.filter = some f)
    (haccount : Account s.log s.received s.forwarded (f.buffer ++ f.pendingEcho))
    (hsound : f.Sound injected) (htexts : injectedTexts s.log = f.echoTexts injected)
    (hwaiting : f.done = false →
      ∃ log, s.log = .armed (f.echoTexts injected) f.probeReply :: log) : Tracked injected s := by
  refine ⟨?_, fun g hg => ?_, fun g hg => ?_, fun g hg => ?_⟩
  · simpa only [Handshake.held, hf] using haccount
  all_goals
    cases hf.symm.trans hg
    assumption

theorem arm (h : Tracked injected s) (hheld : s.handshake.held = []) {r : Handshake × UInt64}
    {f : HandshakeFilter} (hf : r.1.filter = some f) (hbuffer : f.buffer = [])
    (hpending : f.pendingEcho = []) (hscrubbed : f.echoesScrubbed = false) :
    Tracked injected (s.armed injected r) := by
  have haccount := h.account
  rw [hheld] at haccount
  have hlog : (s.armed injected r).log =
      .armed (f.echoTexts injected) f.probeReply :: s.log := by
    simp [Session.armed, hf]
  refine of_filter hf ?_ ?_ ?_ fun _ => ⟨s.log, hlog⟩
  · rw [hlog, hbuffer, hpending]
    exact haccount.arm _ _
  · refine ⟨fun _ => hpending, fun _ => hbuffer, fun hne => absurd hpending hne, fun hs => ?_⟩
    rw [hscrubbed] at hs
    cases hs
  · rw [hlog, injectedTexts]

theorem filter_waiting (h : Tracked injected s) {f : HandshakeFilter}
    (hf : s.handshake.filter = some f) (hdone : f.done = false) (chunk : List UInt8) :
    Tracked injected (s.filters chunk
      ({ s.handshake with filter := some (f.filter injected chunk).1 },
        (f.filter injected chunk).2.1, (f.filter injected chunk).2.2)) := by
  have hsound := h.sound f hf
  have hpending := hsound.waiting hdone
  have htexts := h.texts f hf
  obtain ⟨log, hlog⟩ := h.waiting f hf hdone
  obtain ⟨seen, motd, data, hsplit, hcases⟩ := HandshakeFilter.filter_waiting injected hdone chunk
  have hreceive := h.account.receive chunk
  simp only [Handshake.held, hf, hpending, List.append_nil, hsplit] at hreceive
  have hmotd := hreceive.forward
  have hover : ({ f with motdSeen := seen, done := true, buffer := [] } :
      HandshakeFilter).Sound injected :=
    ⟨fun _ => hpending, fun _ => rfl, hsound.streaming, hsound.pending⟩
  rcases hcases with ⟨rest, hrest, hfilter⟩ | hfilter | hfilter <;> rw [hfilter]
  · refine of_filter rfl ?_ hover htexts nofun
    rw [hlog] at hmotd htexts
    have htakes := @HandshakeFilter.takes_stripInjectedEcho injected f rest
    rw [← htexts] at htakes
    have hout := (hmotd.complete hrest).takes htakes
    rw [← List.append_nil (f.stripInjectedEcho injected rest)] at hout
    simp only [Session.filters, hpending, hlog, if_true, List.append_nil, ← List.append_assoc]
    exact hout.forward
  · refine of_filter rfl ?_ ?_ htexts fun _ => ⟨log, hlog⟩
    · simp only [Session.filters, hpending, List.append_nil]
      exact hmotd
    · refine ⟨fun _ => hpending, fun hd => ?_, hsound.streaming, hsound.pending⟩
      rw [hdone] at hd
      cases hd
  · refine of_filter rfl ?_ hover htexts nofun
    have htakes := @HandshakeFilter.takes_stripInjectedEcho injected f data
    rw [← htexts] at htakes
    have hout := hmotd.takes htakes
    rw [← List.append_nil (f.stripInjectedEcho injected data)] at hout
    simp only [Session.filters, hpending, List.append_nil, ← List.append_assoc]
    exact hout.forward

theorem filter_done (h : Tracked injected s) {f : HandshakeFilter}
    (hf : s.handshake.filter = some f) (hdone : f.done = true) (chunk : List UInt8) :
    Tracked injected (s.filters chunk
      ({ s.handshake with filter := some (f.filter injected chunk).1 },
        (f.filter injected chunk).2.1, (f.filter injected chunk).2.2)) := by
  have hsound := h.sound f hf
  have htexts := h.texts f hf
  have hreceive := h.account.receive chunk
  simp only [Handshake.held, hf, hsound.finished hdone, List.nil_append] at hreceive
  have hfilter : f.filter injected chunk =
      ((f.stripInjectedEchoStreaming injected chunk).1,
        (f.stripInjectedEchoStreaming injected chunk).2, false) := by
    simp [HandshakeFilter.filter, hdone]
  obtain ⟨hsound', hdone', htexts', htakes⟩ :=
    HandshakeFilter.stripInjectedEchoStreaming_spec hsound hdone chunk
  rw [← htexts] at htakes
  rw [hfilter]
  refine of_filter rfl ?_ hsound' (htexts.trans htexts'.symm) fun hwait => ?_
  · rw [hsound'.finished hdone', List.nil_append]
    exact (hreceive.takes htakes).forward
  · rw [hdone'] at hwait
    cases hwait

theorem filter (h : Tracked injected s) (chunk : List UInt8) :
    Tracked injected (s.call injected (.filter chunk)) := by
  simp only [Session.call, Handshake.filterWithStatus]
  cases hf : s.handshake.filter with
  | none =>
      have hreceive := h.account.receive chunk
      simp only [Handshake.held, hf, List.nil_append] at hreceive
      rw [← List.append_nil chunk] at hreceive
      refine ⟨?_, fun g hg => ?_, fun g hg => ?_, fun g hg => ?_⟩
      · simp only [Session.filters, Handshake.held, hf]
        simpa using hreceive.forward
      all_goals
        cases hf.symm.trans hg
  | some f =>
      cases hdone : f.done with
      | true => exact h.filter_done hf hdone chunk
      | false => exact h.filter_waiting hf hdone chunk

theorem emits_nothing (h : Tracked injected s) : Tracked injected (s.emits (s.handshake, [])) := by
  refine ⟨?_, h.sound, h.texts, h.waiting⟩
  simp only [Session.emits, List.append_nil]
  exact h.account

theorem flush (h : Tracked injected s) :
    Tracked injected (s.emits (s.handshake.flush injected)) := by
  unfold Handshake.flush
  cases hf : s.handshake.filter with
  | none => exact h.emits_nothing
  | some f =>
      cases hdone : f.done with
      | true => simpa [hdone] using h.emits_nothing
      | false =>
          have hsound := h.sound f hf
          have hpending := hsound.waiting hdone
          have htexts := h.texts f hf
          have haccount := h.account
          simp only [Handshake.held, hf, hpending, List.append_nil] at haccount
          have htakes := @HandshakeFilter.takes_stripInjectedEcho injected f f.buffer
          rw [← htexts] at htakes
          have hout := haccount.takes htakes
          rw [← List.append_nil (f.stripInjectedEcho injected f.buffer)] at hout
          simp only [hdone, Bool.false_eq_true, if_false, HandshakeFilter.flush]
          refine of_filter rfl ?_
            ⟨fun _ => hpending, fun _ => rfl, hsound.streaming, hsound.pending⟩ htexts nofun
          simp only [Session.emits, hpending, List.append_nil]
          exact hout.forward

theorem flushIdleEcho (h : Tracked injected s)
    (hemit : s.handshake.idleEmit = false → s.handshake.pendingEcho = []) :
    Tracked injected (s.emits s.handshake.flushIdleEcho) := by
  unfold Handshake.flushIdleEcho
  cases hf : s.handshake.filter with
  | none => exact h.emits_nothing
  | some f =>
      have hsound := h.sound f hf
      have haccount := h.account
      simp only [Handshake.held, hf] at haccount
      have hemitted : (if s.handshake.idleEmit then f.pendingEcho else []) = f.pendingEcho := by
        split
        · rfl
        · rename_i hnone
          have := hemit (by simpa using hnone)
          simp only [Handshake.pendingEcho, hf] at this
          exact this.symm
      simp only [HandshakeFilter.drainPendingEcho, hemitted]
      refine of_filter rfl ?_
        ⟨fun _ => rfl, hsound.finished, fun hne => absurd rfl hne, hsound.pending⟩
        (h.texts f hf) (h.waiting f hf)
      simp only [Session.emits, List.append_nil]
      cases hdone : f.done with
      | true =>
          rw [hsound.finished hdone, List.nil_append, ← List.append_nil f.pendingEcho] at haccount
          rw [hsound.finished hdone]
          exact haccount.forward
      | false =>
          rw [hsound.waiting hdone] at haccount ⊢
          simpa using haccount

theorem call (h : Tracked injected s) {c : Call} (hkeeps : s.Keeps c) :
    Tracked injected (s.call injected c) := by
  cases c with
  | setIdleFlush => exact ⟨h.account, h.sound, h.texts, h.waiting⟩
  | stopIdleFlush => exact ⟨h.account, h.sound, h.texts, h.waiting⟩
  | arm preserveMotd => exact h.arm hkeeps rfl rfl rfl rfl
  | armForCommand preserveMotd commands => exact h.arm hkeeps rfl rfl rfl rfl
  | armForShellProbe preserveMotd command =>
      refine h.arm (f := .armForShellProbe preserveMotd command) hkeeps ?_ rfl rfl rfl
      simp [Handshake.armForShellProbe, Handshake.armForCommand, HandshakeFilter.armForShellProbe]
  | filter chunk => exact h.filter chunk
  | flush => exact h.flush
  | flushAttempt generation =>
      simp only [Session.call, Handshake.flushAttempt]
      split
      · exact h.emits_nothing
      · exact h.flush
  | flushIdleEcho => exact h.flushIdleEcho hkeeps

theorem run {calls : List Call} {t : Session} (h : Tracked injected s)
    (hkeeps : Admissible Session.Keeps (Session.step injected) s calls)
    (hr : Transition.run (Session.step injected) s calls = some t) : Tracked injected t := by
  refine run_invariant_of_admissible (fun s c t h hkeeps hstep => ?_) h hkeeps hr
  cases hstep
  exact h.call hkeeps

theorem held_flush (h : Tracked injected s) (hpending : s.handshake.pendingEcho = []) :
    (s.handshake.flush injected).1.held = [] := by
  unfold Handshake.flush
  cases hf : s.handshake.filter with
  | none => simp [Handshake.held, hf]
  | some f =>
      simp only [Handshake.pendingEcho, hf] at hpending
      cases hdone : f.done with
      | true =>
          simp only [hdone, if_true, Handshake.held, hf, hpending, (h.sound f hf).finished hdone,
            List.append_nil]
      | false => simp [Handshake.held, HandshakeFilter.flush, hdone, hpending]

end Tracked

/-- A handshake that is only armed when it holds nothing, and whose timer emits what it takes,
accounts for every byte at every time. A flush that finds no pending echo then leaves none that is
not forwarded or suppressed. -/
theorem bytes_conserved {calls : List Call} {s : Session}
    (hkeeps : Admissible Session.Keeps (Session.step injected) {} calls)
    (hr : run (Session.step injected) {} calls = some s) :
    Account s.log s.received s.forwarded s.handshake.held ∧
      (s.handshake.pendingEcho = [] → (s.call injected .flush).Conserved) := by
  have htracked := Tracked.start.run hkeeps hr
  refine ⟨htracked.account, fun hpending => ?_⟩
  have hflushed := htracked.flush.account
  simp only [Session.emits, htracked.held_flush hpending] at hflushed
  exact hflushed

theorem admissible_call {s : Session} {c : Call} {calls : List Call} (hkeeps : s.Keeps c)
    (h : Admissible Session.Keeps (Session.step injected) (s.call injected c) calls) :
    Admissible Session.Keeps (Session.step injected) s (c :: calls) :=
  ⟨hkeeps, fun _ hstep => Option.some.inj hstep ▸ h⟩

/-- The probe gets no answer and what it held is flushed before the command is sent. -/
theorem bytes_conserved_unanswered : ∃ s,
    run (Session.step []) {} [.armForShellProbe false (ascii " printf dg\r"),
      .filter (ascii "last login"), .flush, .armForCommand false [ascii " . /tmp/init\r"],
      .filter (ascii "$ ")] = some s ∧ (s.call [] .flush).Conserved := by
  refine ⟨_, rfl, (@bytes_conserved [] [_, _, _, _, _] _ ?_ rfl).2 ?_⟩
  · refine admissible_call rfl (admissible_call trivial (admissible_call trivial
      (admissible_call ?_ (admissible_call trivial trivial))))
    show Handshake.held _ = []
    decide +kernel
  · decide

theorem mem_injectedTexts {echo : List UInt8} (h : echo ∈ injectedTexts log) :
    ∃ echoes probeReply, Event.armed echoes probeReply ∈ log ∧ echo ∈ echoes := by
  induction log with
  | nil => cases h
  | cons e log ih =>
      cases e with
      | armed echoes probeReply => exact ⟨echoes, probeReply, List.mem_cons_self, h⟩
      | completed =>
          obtain ⟨echoes, probeReply, hm, he⟩ := ih h
          exact ⟨echoes, probeReply, List.mem_cons_of_mem _ hm, he⟩

theorem findWrappedEcho_echo_length {data echo before after : List UInt8}
    (h : findWrappedEcho data echo = some (before, after)) : echo.length ≤ data.length := by
  obtain ⟨g, s, rfl, hat⟩ := findWrappedEcho_some.mp h
  have := matchEcho_length hat.matched
  simp only [List.length_append]
  omega

def Event.Longer (n : Nat) : Event → Prop
  | .armed echoes _ => ∀ echo ∈ echoes, n < echo.length
  | .completed => False

instance (n : Nat) : DecidablePred (Event.Longer n)
  | .armed echoes _ => inferInstanceAs (Decidable (∀ echo ∈ echoes, n < echo.length))
  | .completed => inferInstanceAs (Decidable False)

theorem Event.Longer.mono {n m : Nat} {e : Event} (h : e.Longer n) (hle : m ≤ n) : e.Longer m := by
  cases e with
  | armed echoes probeReply => exact fun echo he => Nat.lt_of_le_of_lt hle (h echo he)
  | completed => exact h

theorem Account.received_eq (h : Account log received forwarded held)
    (hlog : ∀ e ∈ log, e.Longer received.length) : received = forwarded ++ held := by
  induction h with
  | start => rfl
  | receive chunk _ ih =>
      rw [ih fun e he => (hlog e he).mono (by simp), List.append_assoc]
  | forward _ ih => rw [ih hlog, List.append_assoc]
  | arm echoes probeReply _ ih => exact ih fun e he => hlog e (List.mem_cons_of_mem _ he)
  | take htakes _ ih =>
      obtain ⟨echo, hecho, before, after, hfind, -⟩ := htakes
      obtain ⟨echoes, probeReply, hm, hecho⟩ := mem_injectedTexts hecho
      have hroom := findWrappedEcho_echo_length hfind
      have hshort := hlog _ hm echo hecho
      rw [ih hlog, List.length_append] at hshort
      omega
  | complete _ _ _ => exact absurd (hlog _ List.mem_cons_self) id

/-- Output that is held when the handshake is armed anew is gone. -/
theorem rearmed_handshake_drops_output : ∃ s,
    run (Session.step []) {} [.armForShellProbe false (ascii " printf dg-shell\r"),
      .filter (ascii "last login"), .armForCommand false [ascii " . /tmp/dolgate-init\r"],
      .flush] = some s ∧ ¬ s.Conserved := by
  refine ⟨_, rfl, fun h => ?_⟩
  have := h.received_eq (by decide +kernel)
  revert this
  decide +kernel

end Dolgate.Autocomplete
