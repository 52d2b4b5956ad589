import Dolgate.TailnetOwned

set_option autoImplicit false

/-! There is one node of a tailnet at a time, and one teardown of a node, as long as no teardown is
begun of an entry that has the mark of another one. -/

namespace Dolgate.Tailnet

open Transition

variable {α : Type} [DecidableEq α] {s t : Registry α}

/-! Steps. -/

section

variable (s : Registry α)

def Registry.releaseOverlap (l : Nat) : Option (Node α × Option Nat) :=
  match s.leases[l]? with
  | some lease =>
      if lease.released then none
      else
        match s.entries.lookup lease.id with
        | some e =>
            if e.generation = lease.generation ∧ e.teardown = true ∧ e.retirement.isSome = true ∧
                e.refs ≤ 1 then some (e.node, some l)
            else none
        | none => none
  | none => none

/-- The node that a step begins to tear down although it is being torn down, and the lease that is
released by this step. -/
def overlap : Event α → Option (Node α × Option Nat)
  | .release l => s.releaseOverlap l
  | .check i =>
      match s.checks[i]? with
      | some (.releasing l) => s.releaseOverlap l
      | _ => none
  | .expire i =>
      match s.timers[i]? with
      | some { id, state := .fired } =>
          match s.entries.lookup id with
          | some e => if e.teardown = true ∧ e.refs ≤ 0 then some (e.node, none) else none
          | none => none
      | _ => none
  | _ => none

end

theorem Owned.aside (h : Owned s) (timers : List (Timer α)) (leases : List (Lease α))
    (checks : List Check) : Owned { s with timers, leases, checks } :=
  h.frame (fun _ => rfl) rfl rfl rfl (List.append_nil _).symm nofun

theorem Owned.put {id : α} {e e' : Entry α} (h : Owned s) (he : s.entries.lookup id = some e)
    (hcore : e'.core = e.core) : Owned (s.put id e') := by
  refine h.frame (fun id' => ?_) rfl rfl rfl (List.append_nil _).symm nofun
  rw [Registry.lookup_put]
  split
  · next heq =>
      rw [heq, he, Option.map_some, Option.map_some, hcore]
  · rfl

theorem lockEntrySettled_cases {id : α} {existing : Option (Entry α)}
    (h : s.lockEntrySettled id = some existing) :
    s.entries.lookup id = existing ∧ ∀ e, existing = some e → e.teardown = false := by
  rw [Registry.lockEntrySettled] at h
  split at h
  · next hnone =>
      cases h
      exact ⟨hnone, nofun⟩
  · next e he =>
      split at h
      · cases h
      · next hfree =>
          cases h
          refine ⟨he, fun e' he' => ?_⟩
          cases he'
          exact Bool.eq_false_iff.mpr hfree

theorem Owned.acquire {id : α} {made : Bool} (h : Owned s) (ht : s.acquire id made = some t) :
    Owned t := by
  obtain ⟨existing, hlock, rfl⟩ := Option.map_eq_some_iff.mp ht
  obtain ⟨hfound, -⟩ := lockEntrySettled_cases hlock
  split
  · exact h
  · next hopen =>
      cases existing with
      | some e =>
          dsimp only
          split
          · exact h
          · have hput : Owned (s.put id { e with idle := none, refs := e.refs + 1 }) :=
              h.put hfound rfl
            obtain ⟨hname, hle⟩ := h.named id e hfound
            refine hput.frame (fun _ => rfl) rfl rfl rfl rfl fun a ha => ?_
            cases List.mem_singleton.mp ha
            exact ⟨trivial, by simp only [Action.node, hname]; exact hle⟩
      | none =>
          dsimp only
          split
          · have hmake := @Owned.make α _ s id
              { node := { id, serial := s.generations + 1 }, refs := 1
                generation := s.generations + 1 } h
              (Bool.eq_false_iff.mpr hopen) hfound rfl
            refine @Owned.frame α _ [.lent { id, serial := s.generations + 1 }] _ _ hmake
              (fun id' => ?_) rfl rfl rfl ?_ fun a ha => ?_
            · simp only [Registry.lookup_lease, Registry.lookup_put]
              split <;> rfl
            · simp
            · cases List.mem_singleton.mp ha
              exact ⟨trivial, Nat.le_refl _⟩
          · exact h

theorem Owned.release {id : α} {generation : Nat} (h : Owned s)
    (hok : ∀ e, s.entries.lookup id = some e → e.generation = generation → e.teardown = true →
      e.retirement.isSome = true → 1 < e.refs) : Owned (s.release id generation) := by
  rw [Registry.release]
  split
  · exact h
  · next e he =>
      split
      · exact h
      · next hgeneration =>
          split
          · exact h.put he rfl
          · next hlast =>
              cases hretirement : e.retirement with
              | some retirement =>
                  dsimp only
                  refine (h.aside (stopIdle s.timers e.idle) s.leases s.checks).begin he ?_ rfl ?_
                  · by_contra hteardown
                    have hrefs := hok e he (not_not.mp hgeneration)
                      (Bool.not_eq_false _ ▸ hteardown) (by rw [hretirement]; rfl)
                    omega
                  · cases retirement <;> decide
              | none =>
                  have hput : Owned (s.put id
                      { e with refs := 0, retirement := none, idle := some s.timers.length }) :=
                    h.put he rfl
                  dsimp only
                  exact hput.aside _ _ _

theorem Owned.idleExpired {id : α} (h : Owned s)
    (hok : ∀ e, s.entries.lookup id = some e → e.teardown = true → 0 < e.refs) :
    Owned (s.idleExpired id) := by
  rw [Registry.idleExpired]
  split
  · exact h
  · next e he =>
      split
      · exact h
      · next hunused =>
          refine h.begin he ?_ rfl (by decide)
          by_contra hteardown
          exact hunused (hok e he (Bool.not_eq_false _ ▸ hteardown))

theorem Owned.retire {id : α} {retirement : Retirement} (h : Owned s)
    (ht : s.retire id retirement = some t) : Owned t := by
  obtain ⟨existing, hlock, rfl⟩ := Option.map_eq_some_iff.mp ht
  obtain ⟨hfound, hfree⟩ := lockEntrySettled_cases hlock
  cases existing with
  | none => exact h
  | some e =>
      dsimp only
      split
      · exact h
      · obtain ⟨hname, hle⟩ := h.named id e hfound
        have hnoted : Owned { s with
            timers := stopIdle s.timers e.idle, log := s.log ++ [.retired e.node retirement] } := by
          refine h.frame (fun _ => rfl) rfl rfl rfl rfl fun a ha => ?_
          cases List.mem_singleton.mp ha
          exact ⟨trivial, by simp only [Action.node, hname]; exact hle⟩
        split
        · exact hnoted.put hfound rfl
        · refine hnoted.begin hfound (hfree e rfl) rfl ?_
          generalize retirement.join e.retirement = r
          cases r <;> decide

theorem Owned.tear {id : α} {e : Entry α} (e' : Entry α) {cause : Cause} {calls : List NodeCall}
    (h : Owned s) (timers : List (Timer α)) (he : s.entries.lookup id = some e)
    (hfree : e.teardown = false) (hcore : e'.core = e.core) (hcalls : calls.count .close ≤ 1) :
    Owned (({ s with timers } : Registry α).beginTeardown id e' cause calls) :=
  (h.aside timers s.leases s.checks).begin he hfree hcore hcalls

theorem Owned.closeUnused {id : α} {cause : Cause} (h : Owned s)
    (ht : s.closeUnused id cause = some t) : Owned t := by
  obtain ⟨existing, hlock, rfl⟩ := Option.map_eq_some_iff.mp ht
  obtain ⟨hfound, hfree⟩ := lockEntrySettled_cases hlock
  cases existing with
  | none => exact h
  | some e =>
      dsimp only
      split
      · exact h
      · exact h.tear _ _ hfound (hfree e rfl) rfl (by decide)

theorem Owned.discard {id : α} (h : Owned s) (ht : s.discard id = some t) : Owned t := by
  obtain ⟨existing, hlock, rfl⟩ := Option.map_eq_some_iff.mp ht
  obtain ⟨hfound, hfree⟩ := lockEntrySettled_cases hlock
  cases existing with
  | none => exact h
  | some e =>
      refine h.tear _ _ hfound (hfree e rfl) rfl ?_
      cases e.retirement with
      | none => decide
      | some r => cases r <;> decide

theorem Owned.forget {id : α} (h : Owned s) (ht : s.forget id = some t) : Owned t := by
  obtain ⟨existing, hlock, rfl⟩ := Option.map_eq_some_iff.mp ht
  obtain ⟨hfound, hfree⟩ := lockEntrySettled_cases hlock
  cases existing with
  | none => exact h
  | some e => exact h.tear _ _ hfound (hfree e rfl) rfl (by decide)

theorem Owned.replaceInvalidIdentity {id : α} {invalid : Option Nat} {discarded : Bool}
    (h : Owned s) (ht : s.replaceInvalidIdentity id invalid = some (t, discarded)) : Owned t := by
  obtain ⟨existing, hlock, ht⟩ := Option.map_eq_some_iff.mp ht
  obtain ⟨hfound, hfree⟩ := lockEntrySettled_cases hlock
  split at ht
  · next e lease hlease =>
      split at ht
      · cases ht
        exact h
      · cases ht
        exact h.tear _ _ hfound (hfree e rfl) rfl (by decide)
  · cases ht
    exact h

theorem Owned.observe {id : α} (h : Owned s) (ht : s.observe id = some t) : Owned t := by
  obtain ⟨existing, hlock, rfl⟩ := Option.map_eq_some_iff.mp ht
  obtain ⟨hfound, hfree⟩ := lockEntrySettled_cases hlock
  cases existing with
  | none => exact h
  | some e =>
      dsimp only
      split
      · exact h
      · have hput : Owned (s.put id { e with idle := none, refs := 1 }) := h.put hfound rfl
        exact hput.aside _ _ _

theorem Owned.releaseLease {l : Nat} (h : Owned s) (hok : s.releaseOverlap l = none)
    (ht : s.releaseLease l = some t) : Owned t := by
  obtain ⟨lease, hlease, rfl⟩ := Option.map_eq_some_iff.mp ht
  split
  · exact h
  · next hheld =>
      refine (h.aside s.timers (s.leases.set l { lease with released := true })
        s.checks).release fun e he hgeneration hteardown hretirement => ?_
      by_contra hrefs
      have he' : s.entries.lookup lease.id = some e := he
      have hsome : s.releaseOverlap l = some (e.node, some l) := by
        simp only [Registry.releaseOverlap, hlease, he']
        rw [if_neg hheld, if_pos ⟨hgeneration, hteardown, hretirement, by omega⟩]
      rw [hok] at hsome
      cases hsome

theorem Owned.check {i : Nat} (h : Owned s) (hok : overlap s (.check i) = none)
    (ht : s.check i = some t) : Owned t := by
  rw [Registry.check] at ht
  split at ht
  · split at ht
    · obtain ⟨⟨u, discarded⟩, hreplace, rfl⟩ := Option.map_eq_some_iff.mp ht
      exact (h.replaceInvalidIdentity hreplace).aside _ _ _
    · cases ht
  · next l hl =>
      simp only [overlap, hl] at hok
      exact (h.aside s.timers s.leases (s.checks.set i .returned)).releaseLease hok ht
  · cases ht

theorem Owned.endTeardown {i : Nat} (h : Owned s) (ht : s.endTeardown i = some t) : Owned t := by
  rw [Registry.endTeardown] at ht
  split at ht
  · next j hj =>
      obtain ⟨as, bs, hs, herase, -⟩ := exists_split hj
      have hmem : j ∈ s.teardowns := hs ▸ List.mem_append_right _ List.mem_cons_self
      have hremoving := h.removing j hmem
      split at ht
      · -- a goroutine that removes its entry finds it under its identifier
        have hkept : (∀ e, s.entries.lookup j.id = some e →
              ¬ (j.removes = true ∧ e.generation = j.generation)) →
            ∀ id e, s.entries.lookup id = some e → e.node ≠ j.node := by
          intro hno id e he heq
          cases hclosed : s.closed with
          | true =>
              rw [h.shut hclosed id] at he
              cases he
          | false =>
              split at hremoving
              · next hremoves =>
                  obtain ⟨e', he', hnode, hgeneration⟩ := hremoving hclosed
                  exact hno e' he' ⟨hremoves, hgeneration⟩
              · rw [hclosed] at hremoving
                cases hremoving
        dsimp only at ht
        split at ht
        · next e he =>
            split at ht
            · next hremoves =>
                cases ht
                refine h.ended hs herase rfl rfl rfl fun id e' => ?_
                have hnode : e.node = j.node := by
                  rw [if_pos hremoves.1] at hremoving
                  cases hclosed : s.closed with
                  | true =>
                      have hnone : s.entries.lookup j.id = some e := he
                      rw [h.shut hclosed j.id] at hnone
                      cases hnone
                  | false =>
                      obtain ⟨e'', he'', hnode, -⟩ := hremoving hclosed
                      cases he.symm.trans he''
                      exact hnode
                have hname := (h.named j.id e he).1
                by_cases hid : id = j.id
                · subst hid
                  simp only [AList.lookup_erase]
                  constructor
                  · intro he'
                    cases he'
                  · rintro ⟨he', hne⟩
                    cases he.symm.trans he'
                    exact absurd hnode hne
                · simp only [AList.lookup_erase_ne hid]
                  refine ⟨fun he' => ⟨he', fun heq => hid ?_⟩, And.left⟩
                  have hname' := (h.named id e' he').1
                  rw [heq, ← hnode, hname] at hname'
                  exact (congrArg Node.id hname').symm
            · next hremoves =>
                cases ht
                refine h.ended hs herase rfl rfl rfl fun id e' => ⟨fun he' => ⟨he', ?_⟩, And.left⟩
                refine hkept (fun e'' he'' => ?_) id e' he'
                cases he.symm.trans he''
                exact hremoves
        · next hnone =>
            cases ht
            refine h.ended hs herase rfl rfl rfl fun id e' => ⟨fun he' => ⟨he', ?_⟩, And.left⟩
            refine hkept (fun e'' he'' => ?_) id e' he'
            cases hnone.symm.trans he''
      · cases ht
  · cases ht

theorem owned_step (s : Registry α) (event : Event α) (t : Registry α) (h : Owned s)
    (hok : overlap s event = none) (ht : step s event = some t) : Owned t := by
  cases event with
  | acquire id made => exact h.acquire ht
  | release l => exact h.releaseLease hok ht
  | fire i =>
      simp only [step] at ht
      split at ht
      · cases ht
        exact h.aside _ _ _
      · cases ht
  | expire i =>
      simp only [step] at ht
      split at ht
      · next id hi =>
          cases ht
          refine (h.aside _ s.leases s.checks).idleExpired fun e he hteardown => ?_
          by_contra hrefs
          have he' : s.entries.lookup id = some e := he
          have hsome : overlap s (.expire i) = some (e.node, none) := by
            simp only [overlap, hi, he']
            exact if_pos ⟨hteardown, by omega⟩
          rw [hok] at hsome
          cases hsome
      · cases ht
  | retire id retirement => exact h.retire ht
  | disconnect id => exact h.closeUnused ht
  | reset id => exact h.closeUnused ht
  | discard id => exact h.discard ht
  | replaceInvalidIdentity id invalid =>
      obtain ⟨⟨u, discarded⟩, hreplace, rfl⟩ := Option.map_eq_some_iff.mp ht
      exact h.replaceInvalidIdentity hreplace
  | observe id => exact h.observe ht
  | probed i invalid =>
      simp only [step] at ht
      split at ht
      · cases ht
        exact h.aside _ _ _
      · cases ht
  | check i => exact h.check hok ht
  | forget id => exact h.forget ht
  | close =>
      cases ht
      exact h.close
  | call i =>
      simp only [step, Registry.call] at ht
      split at ht
      · next j hj =>
          obtain ⟨as, bs, hs, -, hset⟩ := exists_split hj
          split at ht
          · next c calls hcalls =>
              cases ht
              rw [hset]
              exact h.call _ hs hcalls
          · cases ht
      · cases ht
  | ended i => exact h.endTeardown ht

/-! The log grows. -/

theorem log_release (id : α) (generation : Nat) : s.log <+: (s.release id generation).log := by
  rw [Registry.release]
  split
  · exact List.prefix_refl _
  · split
    · exact List.prefix_refl _
    · split
      · exact List.prefix_refl _
      · split
        · exact List.prefix_append _ _
        · exact List.prefix_refl _

theorem log_releaseLease {l : Nat} (ht : s.releaseLease l = some t) : s.log <+: t.log := by
  obtain ⟨lease, -, rfl⟩ := Option.map_eq_some_iff.mp ht
  split
  · exact List.prefix_refl _
  · exact @log_release α _ { s with leases := s.leases.set l { lease with released := true } } _ _

theorem log_replace {id : α} {invalid : Option Nat} {discarded : Bool}
    (ht : s.replaceInvalidIdentity id invalid = some (t, discarded)) : s.log <+: t.log := by
  obtain ⟨existing, -, ht⟩ := Option.map_eq_some_iff.mp ht
  split at ht
  · split at ht
    · cases ht
      exact List.prefix_refl _
    · cases ht
      exact List.prefix_append _ _
  · cases ht
    exact List.prefix_refl _

theorem log_step {event : Event α} (ht : step s event = some t) : s.log <+: t.log := by
  cases event with
  | acquire id made =>
      obtain ⟨existing, -, rfl⟩ := Option.map_eq_some_iff.mp ht
      split
      · exact List.prefix_refl _
      · split
        · split
          · exact List.prefix_refl _
          · exact List.prefix_append _ _
        · split
          · exact List.prefix_append _ _
          · exact List.prefix_refl _
  | release l => exact log_releaseLease ht
  | fire i =>
      simp only [step] at ht
      split at ht
      · cases ht
        exact List.prefix_refl _
      · cases ht
  | expire i =>
      simp only [step] at ht
      split at ht
      · cases ht
        rw [Registry.idleExpired]
        split
        · exact List.prefix_refl _
        · split
          · exact List.prefix_refl _
          · exact List.prefix_append _ _
      · cases ht
  | retire id retirement =>
      obtain ⟨existing, -, rfl⟩ := Option.map_eq_some_iff.mp ht
      split
      · exact List.prefix_refl _
      · split
        · exact List.prefix_refl _
        · dsimp only
          split
          · exact List.prefix_append _ _
          · exact (List.prefix_append _ _).trans (List.prefix_append _ _)
  | disconnect id =>
      obtain ⟨existing, -, rfl⟩ := Option.map_eq_some_iff.mp ht
      split
      · exact List.prefix_refl _
      · split
        · exact List.prefix_refl _
        · exact List.prefix_append _ _
  | reset id =>
      obtain ⟨existing, -, rfl⟩ := Option.map_eq_some_iff.mp ht
      split
      · exact List.prefix_refl _
      · split
        · exact List.prefix_refl _
        · exact List.prefix_append _ _
  | discard id =>
      obtain ⟨existing, -, rfl⟩ := Option.map_eq_some_iff.mp ht
      split
      · exact List.prefix_refl _
      · exact List.prefix_append _ _
  | replaceInvalidIdentity id invalid =>
      obtain ⟨⟨u, discarded⟩, hreplace, rfl⟩ := Option.map_eq_some_iff.mp ht
      exact log_replace hreplace
  | observe id =>
      obtain ⟨existing, -, rfl⟩ := Option.map_eq_some_iff.mp ht
      split
      · exact List.prefix_refl _
      · split <;> exact List.prefix_refl _
  | probed i invalid =>
      simp only [step] at ht
      split at ht
      · cases ht
        exact List.prefix_refl _
      · cases ht
  | check i =>
      simp only [step, Registry.check] at ht
      split at ht
      · split at ht
        · obtain ⟨⟨u, discarded⟩, hreplace, rfl⟩ := Option.map_eq_some_iff.mp ht
          have hlog := log_replace hreplace
          exact hlog
        · cases ht
      · have hlog := log_releaseLease ht
        exact hlog
      · cases ht
  | forget id =>
      obtain ⟨existing, -, rfl⟩ := Option.map_eq_some_iff.mp ht
      split
      · exact List.prefix_refl _
      · exact List.prefix_append _ _
  | close =>
      cases ht
      rw [Registry.close]
      split
      · exact List.prefix_refl _
      · exact List.prefix_append _ _
  | call i =>
      simp only [step, Registry.call] at ht
      split at ht
      · split at ht
        · cases ht
          exact List.prefix_append _ _
        · cases ht
      · cases ht
  | ended i =>
      simp only [step, Registry.endTeardown] at ht
      split at ht
      · split at ht
        · split at ht
          · split at ht
            · cases ht
              exact List.prefix_append _ _
            · cases ht
              exact List.prefix_append _ _
          · cases ht
            exact List.prefix_append _ _
        · cases ht
      · cases ht

theorem log_run {events : List (Event α)} (ht : run step s events = some t) : s.log <+: t.log :=
  run_relation (R := fun s t => s.log <+: t.log) (fun s => List.prefix_refl s.log)
    (fun _ _ _ => List.IsPrefix.trans) (fun _ _ _ => log_step) ht

/-! A step that overlaps. -/

theorem releaseOverlap_log {l : Nat} {p : Node α × Option Nat}
    (hoverlap : s.releaseOverlap l = some p) (ht : s.releaseLease l = some t) :
    ∃ id e, s.entries.lookup id = some e ∧ e.teardown = true ∧ e.node = p.1 ∧
      t.log = s.log ++ [.began p.1 .retire] := by
  obtain ⟨lease, hlease, rfl⟩ := Option.map_eq_some_iff.mp ht
  simp only [Registry.releaseOverlap, hlease] at hoverlap
  split at hoverlap
  · cases hoverlap
  · next hheld =>
      split at hoverlap
      · next e he =>
          split at hoverlap
          · next hcond =>
              obtain ⟨hgeneration, hteardown, hretirement, hrefs⟩ := hcond
              cases hoverlap
              refine ⟨lease.id, e, he, hteardown, rfl, ?_⟩
              obtain ⟨r, hr⟩ := Option.isSome_iff_exists.mp hretirement
              rw [if_neg hheld]
              simp only [Registry.release, he, hr]
              rw [if_neg (by simpa using hgeneration), if_neg (by omega)]
              rfl
          · cases hoverlap
      · cases hoverlap

theorem overlap_log {event : Event α} {p : Node α × Option Nat}
    (hoverlap : overlap s event = some p) (ht : step s event = some t) : ∃ id e cause, s.entries.lookup id = some e ∧
      e.teardown = true ∧ e.node = p.1 ∧ t.log = s.log ++ [.began p.1 cause] := by
  cases event with
  | release l =>
      obtain ⟨id, e, he, hteardown, hnode, hlog⟩ := releaseOverlap_log hoverlap ht
      exact ⟨id, e, .retire, he, hteardown, hnode, hlog⟩
  | check i =>
      simp only [overlap] at hoverlap
      split at hoverlap
      · next l hl =>
          simp only [step, Registry.check, hl] at ht
          obtain ⟨id, e, he, hteardown, hnode, hlog⟩ :=
            @releaseOverlap_log α _ { s with checks := s.checks.set i .returned } _ _ _ hoverlap ht
          exact ⟨id, e, .retire, he, hteardown, hnode, hlog⟩
      · cases hoverlap
  | expire i =>
      simp only [overlap] at hoverlap
      split at hoverlap
      · next id hi =>
          simp only [step, hi] at ht
          cases ht
          split at hoverlap
          · next e he =>
              split at hoverlap
              · next hcond =>
                  cases hoverlap
                  refine ⟨id, e, .idleExpired, he, hcond.1, rfl, ?_⟩
                  simp only [Registry.idleExpired, he]
                  rw [if_neg (by omega)]
                  rfl
              · cases hoverlap
          · cases hoverlap
      · cases hoverlap
  | _ => cases hoverlap

theorem Owned.not_orderly (h : Owned s) {event : Event α} {p : Node α × Option Nat}
    (hoverlap : overlap s event = some p) (ht : step s event = some t) : ¬ Orderly t.log := by
  obtain ⟨id, e, cause, he, hteardown, hnode, hlog⟩ := overlap_log hoverlap ht
  intro horderly
  have halone := horderly.alone s.log p.1 cause [] hlog
  have hcount := h.counts p.1
  have hpos : 0 < (s.teardowns.map Teardown.node).count p.1 :=
    List.count_pos_iff.mpr (hnode ▸ (h.torn id e he).mp hteardown)
  omega

variable {events : List (Event α)}

theorem orderly_iff (h : Owned s) (ht : run step s events = some t) :
    Orderly t.log ↔ Admissible (fun s event => overlap s event = none) step s events := by
  induction events generalizing s with
  | nil =>
      cases ht
      exact ⟨fun _ => trivial, fun _ => h.orderly⟩
  | cons event events ih =>
      obtain ⟨u, hu, ht⟩ := run_cons.mp ht
      cases hoverlap : overlap s event with
      | none =>
          rw [ih (owned_step s event u h hoverlap hu) ht]
          constructor
          · intro hrest
            refine ⟨hoverlap, fun v hv => ?_⟩
            cases hu.symm.trans hv
            exact hrest
          · exact fun hall => hall.2 u hu
      | some p =>
          constructor
          · intro horderly
            obtain ⟨more, hmore⟩ := log_run ht
            exact absurd (hmore ▸ horderly).of_append (h.not_orderly hoverlap hu)
          · intro hall
            rw [hall.1] at hoverlap
            cases hoverlap

/-- In a run of the registry there is one live node of a tailnet, torn down once, exactly if no
step begins to tear down a node of which a teardown has not ended. -/
theorem one_live_node_iff (hrun : run step ({} : Registry α) events = some s) :
    Orderly s.log ↔
      Admissible (fun s event => overlap s event = none) step ({} : Registry α) events :=
  orderly_iff owned_nil hrun

def expiry : List (Event Nat) :=
  [.acquire 0 true, .release 0, .fire 0, .expire 0, .call 0, .ended 0, .acquire 0 true]

/-- A node that has expired is torn down before the next one is made. -/
theorem expired_node_is_replaced :
    ∃ s, run step ({} : Registry Nat) expiry = some s ∧ Orderly s.log := by
  obtain ⟨s, hs⟩ : ∃ s, run step ({} : Registry Nat) expiry = some s :=
    Option.isSome_iff_exists.mp (by decide)
  have hallows : allows (fun s event => (overlap s event).isNone) step ({} : Registry Nat) expiry =
      true := by decide
  refine ⟨s, hs, (one_live_node_iff hs).mpr ?_⟩
  exact admissible_of_allows (fun _ _ h => Option.isNone_iff_eq_none.mp h) hallows

/-- A timer has fired when `Disconnect` takes the lock, and its callback takes it next. -/
def firedTimer : List (Event Nat) :=
  [.acquire 0 true, .release 0, .fire 0, .disconnect 0, .expire 0, .call 0, .call 1]

theorem fired_timer_closes_again :
    ∃ s, run step ({} : Registry Nat) firedTimer = some s ∧ ¬ Orderly s.log ∧
      closes { id := 0, serial := 1 } s.log = 2 := by
  have hcloses : (run step ({} : Registry Nat) firedTimer).map
      (fun s => closes { id := 0, serial := 1 } s.log) = some 2 := by decide
  obtain ⟨s, hs, htwo⟩ := Option.map_eq_some_iff.mp hcloses
  refine ⟨s, hs, fun horderly => ?_, htwo⟩
  have honce := horderly.once { id := 0, serial := 1 }
  omega

end Dolgate.Tailnet
