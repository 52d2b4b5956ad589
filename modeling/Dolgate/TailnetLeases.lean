import Dolgate.TailnetLeased
import Dolgate.TailnetTeardown

set_option autoImplicit false

/-! Leases keep a node from being closed, as long as no teardown that respects them is begun of an
entry that has the mark of another one. -/

namespace Dolgate.Tailnet

open Transition

variable {α : Type} [DecidableEq α] {s t : Registry α} {id : α} {e : Entry α}

/-- A node that a step begins to tear down although it is being torn down has no other lease. -/
def SparesLeases (s : Registry α) (event : Event α) : Prop :=
  ∀ p, overlap s event = some p → ∀ i l, s.leases[i]? = some l → l.node = p.1 →
    l.released = false → p.2 = some i

theorem Leased.releaseLease {l : Nat} (h : Leased s)
    (hok : ∀ p, s.releaseOverlap l = some p → ∀ i k, s.leases[i]? = some k → k.node = p.1 →
      k.released = false → p.2 = some i)
    (ht : s.releaseLease l = some t) : Leased t := by
  obtain ⟨lease, hlease, rfl⟩ := Option.map_eq_some_iff.mp ht
  split
  · exact h
  · next hheld =>
      obtain ⟨hreleased, hone⟩ := h.released_set hlease (Bool.eq_false_iff.mpr hheld)
      have hname := (h.leases lease (List.mem_of_getElem? hlease)).1
      simp only [Registry.release]
      split
      · next hnone =>
          refine h.drop hreleased fun id e he heq => ?_
          rw [(h.entries id e he).named, hname] at heq
          have hid : id = lease.id := congrArg Node.id heq
          subst hid
          cases he.symm.trans hnone
      · next e he =>
          have he : s.entries.lookup lease.id = some e := he
          have hentry := h.entries lease.id e he
          split
          · next hgeneration =>
              refine h.drop hreleased fun id e' he' heq => ?_
              have hname' := (h.entries id e' he').named
              rw [hname', hname] at heq
              have hid : id = lease.id := congrArg Node.id heq
              subst hid
              cases he.symm.trans he'
              exact hgeneration (congrArg Node.serial heq)
          · next hgeneration =>
              have hgeneration := not_not.mp hgeneration
              have hnode : e.node = lease.node := by rw [hentry.named, hname, hgeneration]
              have hreleased : Released s e.node
                  (s.leases.set l { lease with released := true }) := hnode ▸ hreleased
              have hone : unreleased e.node s.leases =
                  unreleased e.node (s.leases.set l { lease with released := true }) + 1 := by
                rw [hnode]
                exact hone
              have hcount := hentry.refs
              split
              · next hmore =>
                  have hput : Leased { s.put lease.id { e with refs := e.refs - 1 } with
                      leases := s.leases.set l { lease with released := true }
                      log := s.log ++ [] } := by
                    refine h.update he rfl hreleased (fun hfree => ?_) (fun _ _ => hmore) id id
                      (List.forall_mem_nil _)
                    have hrefs := hcount hfree
                    simp only
                    omega
                  exact hput.congr rfl rfl rfl rfl rfl (List.append_nil _).symm
              · next hlast =>
                  split
                  · next r hr =>
                      have hbegin : Leased (({ s with
                          leases := s.leases.set l { lease with released := true }
                          log := s.log ++ [] } : Registry α).beginTeardown lease.id
                            { e with refs := 0, idle := none } .retire r.calls) := by
                        refine h.begin he rfl rfl hreleased (fun _ => ?_) (fun _ hforget => ?_)
                          (List.forall_mem_nil _)
                        · cases hteardown : e.teardown with
                          | false =>
                              have hrefs := hcount hteardown
                              omega
                          | true =>
                              have hsome : s.releaseOverlap l = some (e.node, some l) := by
                                simp only [Registry.releaseOverlap, hlease, he]
                                rw [if_neg hheld, if_pos ⟨hgeneration, hteardown, by rw [hr]; rfl,
                                  by omega⟩]
                              refine unreleased_set_zero lease fun i k hi hk hfree => ?_
                              exact (Option.some.inj (hok _ hsome i k hi hk hfree)).symm
                        · rw [hr] at hforget
                          cases hforget
                          decide
                      refine hbegin.congr rfl rfl rfl rfl rfl ?_
                      simp [Registry.beginTeardown]
                  · next hr =>
                      have hput : Leased { s.put lease.id
                            { e with refs := 0, idle := some s.timers.length } with
                          leases := s.leases.set l { lease with released := true }
                          log := s.log ++ [] } := by
                        refine h.update he rfl hreleased (fun hfree => ?_) (fun _ hsome => ?_) id id
                          (List.forall_mem_nil _)
                        · have hrefs := hcount hfree
                          simp only
                          omega
                        · rw [hr] at hsome
                          cases hsome
                      exact hput.congr rfl rfl rfl rfl rfl (List.append_nil _).symm

theorem Leased.tear {cause : Cause} {calls : List NodeCall} (e' : Entry α) (h : Leased s)
    (timers : List (Timer α)) (he : s.entries.lookup id = some e) (hcore : e'.core = e.core)
    (hweak : cause.Weak → unreleased e.node s.leases = 0)
    (hforget : e.teardown = false → e.retirement = some .forget → .purge ∈ calls) :
    Leased (({ s with timers } : Registry α).beginTeardown id e' cause calls) := by
  simp only [Entry.core, Prod.mk.injEq] at hcore
  have hbegin : Leased (({ s with leases := s.leases, log := s.log ++ [] } :
      Registry α).beginTeardown id e' cause calls) :=
    h.begin he hcore.1 hcore.2.1 (h.released_refl _) hweak hforget (List.forall_mem_nil _)
  refine hbegin.congr rfl rfl rfl rfl rfl ?_
  simp [Registry.beginTeardown]

theorem Leased.idleExpired (h : Leased s)
    (hok : ∀ e, s.entries.lookup id = some e → e.teardown = true → e.refs ≤ 0 →
      unreleased e.node s.leases = 0) : Leased (s.idleExpired id) := by
  rw [Registry.idleExpired]
  split
  · exact h
  · next e he =>
      split
      · exact h
      · next hunused =>
          have hentry := h.entries id e he
          refine h.tear _ s.timers he rfl (fun _ => ?_) fun hfree hforget => ?_
          · cases hteardown : e.teardown with
            | false =>
                have hrefs := hentry.refs hteardown
                omega
            | true => exact hok e he hteardown (Int.not_lt.mp hunused)
          · exact absurd (hentry.used hfree (by rw [hforget]; rfl)) hunused

theorem Leased.acquire {made : Bool} (h : Leased s) (ht : s.acquire id made = some t) :
    Leased t := by
  obtain ⟨existing, hlock, rfl⟩ := Option.map_eq_some_iff.mp ht
  obtain ⟨hfound, hfree⟩ := lockEntrySettled_cases hlock
  split
  · exact h
  · next hopen =>
      cases existing with
      | some e =>
          dsimp only
          split
          · exact h
          · next hretirement =>
              exact h.lend hfound (hfree e rfl) rfl
                (.inr ⟨rfl, by simpa using hretirement⟩)
      | none =>
          dsimp only
          split
          · have hmake := h.make (Bool.eq_false_iff.mpr hopen) hfound rfl
            have hlend := @Leased.lend α _ _ id _ (0 + 1)
              [.lent { id, serial := s.generations + 1 }] hmake
              (by rw [Registry.lookup_put, if_pos rfl]) rfl rfl (.inr ⟨rfl, rfl⟩)
            refine hlend.congr ?_ rfl rfl rfl rfl ?_
            · simp only [Registry.lease, Registry.put]
              rw [AList.insert_insert]
            · simp
          · exact h

theorem Leased.observe (h : Leased s) (ht : s.observe id = some t) : Leased t := by
  obtain ⟨existing, hlock, rfl⟩ := Option.map_eq_some_iff.mp ht
  obtain ⟨hfound, hfree⟩ := lockEntrySettled_cases hlock
  cases existing with
  | none => exact h
  | some e =>
      dsimp only
      split
      · exact h
      · next hcond =>
          have hrefs : e.refs = 0 := by
            by_contra hne
            exact hcond (.inr hne)
          have hlend : Leased { s.lease id e 1 with log := s.log ++ [] } :=
            h.lend hfound (hfree e rfl) (by rw [hrefs]; rfl) (.inl rfl)
          exact hlend.congr rfl rfl rfl rfl rfl (List.append_nil _).symm

theorem Retirement.join_forget (r : Retirement) (old : Option Retirement) :
    (r = .forget → r.join old = .forget) ∧ (old = some .forget → r.join old = .forget) := by
  constructor
  · rintro rfl
    cases old with
    | none => rfl
    | some r' => cases r' <;> rfl
  · rintro rfl
    rfl

theorem Leased.retire {retirement : Retirement} (h : Leased s)
    (ht : s.retire id retirement = some t) : Leased t := by
  obtain ⟨existing, hlock, rfl⟩ := Option.map_eq_some_iff.mp ht
  obtain ⟨hfound, hfree⟩ := lockEntrySettled_cases hlock
  cases existing with
  | none => exact h
  | some e =>
      obtain ⟨hnew, hold⟩ := retirement.join_forget e.retirement
      have hentry := h.entries id e hfound
      dsimp only
      split
      · exact h
      · split
        · next hused =>
            have hput : Leased { s.put id
                  { e with retirement := some (retirement.join e.retirement), idle := none } with
                leases := s.leases, log := s.log ++ [.retired e.node retirement] } := by
              refine h.update hfound rfl (h.released_refl _) hentry.refs (fun _ _ => hused)
                (fun _ => rfl) (fun hforget => congrArg some (hold hforget)) fun a ha => ?_
              exact ⟨retirement, List.mem_singleton.mp ha, hfree e rfl, rfl,
                fun hforget => congrArg some (hnew hforget)⟩
            exact hput.congr rfl rfl rfl rfl rfl rfl
        · next hunused =>
            have hbegin : Leased (({ s with
                leases := s.leases, log := s.log ++ [.retired e.node retirement] } :
                  Registry α).beginTeardown id
                    { e with retirement := some (retirement.join e.retirement), idle := none }
                    .retire (retirement.join e.retirement).calls) := by
              refine h.begin hfound rfl rfl (h.released_refl _) (fun _ => ?_) (fun _ hforget => ?_)
                fun a ha => ?_
              · have hrefs := hentry.refs (hfree e rfl)
                omega
              · rw [hold hforget]
                decide
              · refine ⟨retirement, List.mem_singleton.mp ha, fun hforget => ?_⟩
                rw [hnew hforget]
                decide
            exact hbegin.congr rfl rfl rfl rfl rfl rfl

theorem Leased.closeUnused {cause : Cause} (h : Leased s)
    (ht : s.closeUnused id cause = some t) : Leased t := by
  obtain ⟨existing, hlock, rfl⟩ := Option.map_eq_some_iff.mp ht
  obtain ⟨hfound, hfree⟩ := lockEntrySettled_cases hlock
  cases existing with
  | none => exact h
  | some e =>
      have hentry := h.entries id e hfound
      dsimp only
      split
      · exact h
      · next hunused =>
          refine h.tear _ _ hfound rfl (fun _ => ?_) fun hteardown hforget => ?_
          · have hrefs := hentry.refs (hfree e rfl)
            omega
          · exact absurd (hentry.used hteardown (by rw [hforget]; rfl)) hunused

theorem Leased.discard (h : Leased s) (ht : s.discard id = some t) : Leased t := by
  obtain ⟨existing, hlock, rfl⟩ := Option.map_eq_some_iff.mp ht
  obtain ⟨hfound, -⟩ := lockEntrySettled_cases hlock
  cases existing with
  | none => exact h
  | some e =>
      refine h.tear _ _ hfound rfl nofun fun _ hforget => ?_
      rw [hforget]
      decide

theorem Leased.forget (h : Leased s) (ht : s.forget id = some t) : Leased t := by
  obtain ⟨existing, hlock, rfl⟩ := Option.map_eq_some_iff.mp ht
  obtain ⟨hfound, -⟩ := lockEntrySettled_cases hlock
  cases existing with
  | none => exact h
  | some e => exact h.tear _ _ hfound rfl nofun fun _ _ => by decide

theorem Leased.replaceInvalidIdentity {invalid : Option Nat} {discarded : Bool} (h : Leased s)
    (ht : s.replaceInvalidIdentity id invalid = some (t, discarded)) : Leased t := by
  obtain ⟨existing, hlock, ht⟩ := Option.map_eq_some_iff.mp ht
  obtain ⟨hfound, -⟩ := lockEntrySettled_cases hlock
  split at ht
  · next e lease hlease =>
      split at ht
      · cases ht
        exact h
      · cases ht
        exact h.tear _ _ hfound rfl False.elim fun _ _ => by decide
  · cases ht
    exact h

theorem Leased.endTeardown {i : Nat} (h : Leased s) (ht : s.endTeardown i = some t) :
    Leased t := by
  rw [Registry.endTeardown] at ht
  split at ht
  · next j hj =>
      obtain ⟨as, bs, hs, herase, -⟩ := exists_split hj
      have hmem : j ∈ s.teardowns := hs ▸ List.mem_append_right _ List.mem_cons_self
      split at ht
      · next hcalls =>
          dsimp only at ht
          split at ht
          · next e he =>
              split at ht
              · next hremoves =>
                  cases ht
                  -- the entry has the mark of this teardown
                  have htorn : e.teardown = true := by
                    by_contra hfree
                    refine (h.entries j.id e he).working (Bool.eq_false_iff.mpr hfree) j hmem ?_
                    rw [(h.nodes j hmem).1, (h.entries j.id e he).named, hremoves.2]
                  refine h.ended hs hcalls herase rfl rfl rfl rfl (fun id e' he' => ?_)
                    fun id e' he' hfree => ?_
                  · by_cases hid : id = j.id
                    · subst hid
                      simp only [AList.lookup_erase] at he'
                      cases he'
                    · simpa only [AList.lookup_erase_ne hid] using he'
                  · by_cases hid : id = j.id
                    · subst hid
                      cases he.symm.trans he'
                      exact absurd (hfree.symm.trans htorn) Bool.false_ne_true
                    · simpa only [AList.lookup_erase_ne hid] using he'
              · cases ht
                exact h.ended hs hcalls herase rfl rfl rfl rfl (fun _ _ he' => he')
                  fun _ _ he' _ => he'
          · cases ht
            exact h.ended hs hcalls herase rfl rfl rfl rfl (fun _ _ he' => he')
              fun _ _ he' _ => he'
      · cases ht
  · cases ht

theorem leased_step (s : Registry α) (event : Event α) (t : Registry α) (h : Leased s)
    (hok : SparesLeases s event) (ht : step s event = some t) : Leased t := by
  cases event with
  | acquire id made => exact h.acquire ht
  | release l => exact h.releaseLease hok ht
  | fire i =>
      simp only [step] at ht
      split at ht
      · cases ht
        exact h.aside _ _
      · cases ht
  | expire i =>
      simp only [step] at ht
      split at ht
      · next id hi =>
          cases ht
          refine (h.aside _ s.checks).idleExpired fun e he hteardown hrefs => ?_
          have he' : s.entries.lookup id = some e := he
          have hsome : overlap s (.expire i) = some (e.node, none) := by
            simp only [overlap, hi, he']
            exact if_pos ⟨hteardown, hrefs⟩
          rw [unreleased, List.countP_eq_zero]
          intro k hk hheld
          obtain ⟨hnode, hreleased⟩ := of_decide_eq_true hheld
          obtain ⟨n, hn⟩ := List.getElem?_of_mem hk
          cases hok _ hsome n k hn hnode hreleased
      · cases ht
  | retire id retirement => exact h.retire ht
  | disconnect id => exact h.closeUnused ht
  | reset id => exact h.closeUnused ht
  | discard id => exact h.discard ht
  | replaceInvalidIdentity id invalid =>
      obtain ⟨⟨u, discarded⟩, hreplace, rfl⟩ := Option.map_eq_some_iff.mp ht
      exact h.replaceInvalidIdentity hreplace
  | observe id => exact h.observe ht
  | probed i invalid =>
      simp only [step] at ht
      split at ht
      · cases ht
        exact h.aside _ _
      · cases ht
  | check i =>
      simp only [step, Registry.check] at ht
      split at ht
      · split at ht
        · obtain ⟨⟨u, discarded⟩, hreplace, rfl⟩ := Option.map_eq_some_iff.mp ht
          exact (h.replaceInvalidIdentity hreplace).aside _ _
        · cases ht
      · next l hl =>
          refine (h.aside s.timers (s.checks.set i .returned)).releaseLease (fun p hp => ?_) ht
          refine hok p ?_
          simp only [overlap, hl]
          exact hp
      · cases ht
  | forget id => exact h.forget ht
  | close =>
      cases ht
      exact h.close
  | call i =>
      simp only [step, Registry.call] at ht
      split at ht
      · next j hj =>
          obtain ⟨as, bs, hs, -, hset⟩ := exists_split hj
          split at ht
          · next c calls hcalls =>
              cases ht
              rw [hset]
              exact h.call hs hcalls
          · cases ht
      · cases ht
  | ended i => exact h.endTeardown ht

/-! What leases are for. -/

structure Protected (s : Registry α) : Prop where
  refs : ∀ id e, s.entries.lookup id = some e → e.teardown = false →
    e.refs = (s.leases.countP fun l =>
      l.id = id ∧ l.generation = e.generation ∧ l.released = false : Nat)
  closing : ∀ n cause, .called n .close cause true ∈ s.log →
    cause = .discard ∨ cause = .replaceInvalidIdentity ∨ cause = .forget ∨ cause = .close
  earlier : ∀ l lease t, s.leases[l]? = some lease → step s (.release l) = some t →
    ∀ id e, s.entries.lookup id = some e → e.generation ≠ lease.generation →
      t.entries.lookup id = some e
  retired : ∀ before n r after, s.log = before ++ .retired n r :: after → .lent n ∉ after
  purged : ∀ n cause held, .retired n .forget ∈ s.log → .called n .close cause held ∈ s.log →
    Purged n s

theorem release_other {l : Nat} {lease : Lease α} (hl : s.leases[l]? = some lease)
    (ht : s.releaseLease l = some t) (he : s.entries.lookup id = some e)
    (hne : e.generation ≠ lease.generation) : t.entries.lookup id = some e := by
  rw [Registry.releaseLease, hl] at ht
  cases ht
  dsimp only
  split
  · exact he
  · simp only [Registry.release]
    split
    · exact he
    · next e' he' =>
        have he' : s.entries.lookup lease.id = some e' := he'
        split
        · exact he
        · next hgeneration =>
            have hid : id ≠ lease.id := by
              rintro rfl
              cases he.symm.trans he'
              exact hgeneration hne
            split
            · rw [Registry.lookup_put, if_neg hid]
              exact he
            · split
              · rw [Registry.lookup_beginTeardown, if_neg hid]
                exact he
              · rw [Registry.lookup_put, if_neg hid]
                exact he

theorem Leased.protects (h : Leased s) : Protected s where
  refs id e he hfree := by
    have hok := h.entries id e he
    rw [hok.refs hfree, unreleased]
    congr 1
    refine List.countP_congr fun l hl => ?_
    obtain ⟨hname, -⟩ := h.leases l hl
    rw [hname, hok.named]
    simp [and_assoc]
  closing n cause hc := by
    have hstrong := h.called n cause hc
    cases cause with
    | discard => exact .inl rfl
    | replaceInvalidIdentity => exact .inr (.inl rfl)
    | forget => exact .inr (.inr (.inl rfl))
    | close => exact .inr (.inr (.inr rfl))
    | idleExpired => exact absurd trivial hstrong
    | disconnect => exact absurd trivial hstrong
    | reset => exact absurd trivial hstrong
    | retire => exact absurd trivial hstrong
  earlier l lease t hl ht id e he hne := release_other hl ht he hne
  retired before n r after hlog hmem := by
    have hlent := h.lent
    rw [hlog] at hlent
    obtain ⟨-, hafter, -⟩ := List.pairwise_append.mp hlent
    exact (List.pairwise_cons.mp hafter).1 _ hmem n r rfl rfl
  purged n cause held hr hc := by
    rcases h.forgotten n hr with hpurged | ⟨id, e, he, rfl, hfree, -⟩
    · exact hpurged
    · exact absurd hc ((h.entries id e he).closed hfree cause held)

variable {events : List (Event α)}

/-- In every run in which no teardown is begun of a node that is being torn down and still leased,
the leases protect their nodes. -/
theorem leases_protect_nodes (hrun : run step ({} : Registry α) events = some s)
    (hok : Admissible SparesLeases step ({} : Registry α) events) : Protected s :=
  (run_invariant_of_admissible leased_step leased_nil hok hrun).protects

/-- A node is retired for being forgotten while it is used, and purged when it is released. -/
def retirement : List (Event Nat) :=
  [.acquire 0 true, .acquire 0 true, .retire 0 .forget, .acquire 0 true, .release 1, .release 0,
    .release 0, .call 0, .call 0, .call 0, .ended 0]

theorem retired_node_is_purged :
    ∃ s, run step ({} : Registry Nat) retirement = some s ∧ Protected s ∧
      Purged { id := 0, serial := 1 } s := by
  have hlog : (run step ({} : Registry Nat) retirement).map (fun s =>
      decide (.retired { id := 0, serial := 1 } .forget ∈ s.log ∧
        .called { id := 0, serial := 1 } .close .retire false ∈ s.log)) = some true := by
    decide
  obtain ⟨s, hs, hmem⟩ := Option.map_eq_some_iff.mp hlog
  have hallows : allows (fun s event => (overlap s event).isNone) step ({} : Registry Nat)
      retirement = true := by decide
  have hspares : ∀ (s : Registry Nat) (event : Event Nat), (overlap s event).isNone = true →
      SparesLeases s event := by
    intro s event hnone p hp
    rw [hp] at hnone
    cases hnone
  have hprotected := leases_protect_nodes hs (admissible_of_allows hspares hallows)
  obtain ⟨hretired, hclosed⟩ := of_decide_eq_true hmem
  exact ⟨s, hs, hprotected, hprotected.purged _ _ _ hretired hclosed⟩

/-- A timer has fired when a session acquires the node again. When `Discard` has taken the lock, the
callback takes it next, and closes the node before it. -/
def firedTimerLeased : List (Event Nat) :=
  [.acquire 0 true, .release 0, .fire 0, .acquire 0 true, .discard 0, .expire 0, .call 1]

theorem fired_timer_closes_leased_node :
    ∃ s, run step ({} : Registry Nat) firedTimerLeased = some s ∧ ¬ Protected s ∧
      .called { id := 0, serial := 1 } .close .idleExpired true ∈ s.log := by
  have hlog : (run step ({} : Registry Nat) firedTimerLeased).map (fun s =>
      decide (.called { id := 0, serial := 1 } .close .idleExpired true ∈ s.log)) =
        some true := by decide
  obtain ⟨s, hs, hmem⟩ := Option.map_eq_some_iff.mp hlog
  have hcalled := of_decide_eq_true hmem
  refine ⟨s, hs, fun hprotected => ?_, hcalled⟩
  rcases hprotected.closing _ _ hcalled with heq | heq | heq | heq <;> cases heq

end Dolgate.Tailnet
