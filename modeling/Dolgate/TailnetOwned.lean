import Dolgate.Tailnet

set_option autoImplicit false

/-! What is said of the nodes of a log, and the invariant that says it. -/

namespace Dolgate.Tailnet

variable {α : Type} [DecidableEq α]

/-! What a log says of a node. -/

namespace Action

def node : Action α → Node α
  | .made n => n
  | .lent n => n
  | .retired n _ => n
  | .began n _ => n
  | .called n _ _ _ => n
  | .ended n => n

def begins (n : Node α) : Action α → Bool
  | .began m _ => m = n
  | _ => false

def ends (n : Node α) : Action α → Bool
  | .ended m => m = n
  | _ => false

def closes (n : Node α) : Action α → Bool
  | .called m .close _ _ => m = n
  | _ => false

end Action

def begun (n : Node α) (log : List (Action α)) : Nat := log.countP (Action.begins n)

def ended (n : Node α) (log : List (Action α)) : Nat := log.countP (Action.ends n)

def closes (n : Node α) (log : List (Action α)) : Nat := log.countP (Action.closes n)

/-- A node is made when the earlier ones of its tailnet have been torn down, a teardown begins when
the earlier ones of its node have ended, and a node is closed once. -/
structure Orderly (log : List (Action α)) : Prop where
  one : ∀ before n after, log = before ++ .made n :: after →
    ∀ m, .made m ∈ before → m.id = n.id → .ended m ∈ before
  alone : ∀ before n cause after, log = before ++ .began n cause :: after →
    begun n before = ended n before
  once : ∀ n, closes n log ≤ 1

theorem concat_split {β : Type} {log before after : List β} {a b : β}
    (h : log ++ [a] = before ++ b :: after) :
    (before = log ∧ b = a) ∨ ∃ after', log = before ++ b :: after' := by
  rcases List.eq_nil_or_concat' after with rfl | ⟨init, last, rfl⟩
  · obtain ⟨hlog, hab⟩ := List.append_inj' h rfl
    exact .inl ⟨hlog.symm, (List.cons.inj hab).1.symm⟩
  · rw [← List.cons_append, ← List.append_assoc] at h
    exact .inr ⟨init, (List.append_inj' h rfl).1⟩

variable {log more : List (Action α)} {a : Action α} {n : Node α}

theorem Orderly.concat (h : Orderly log)
    (hone : ∀ n, a = .made n → ∀ m, .made m ∈ log → m.id = n.id → .ended m ∈ log)
    (halone : ∀ n cause, a = .began n cause → begun n log = ended n log)
    (honce : ∀ n, a.closes n = true → closes n log = 0) : Orderly (log ++ [a]) where
  one before n after hlog := by
    rcases concat_split hlog with ⟨rfl, ha⟩ | ⟨after', hlog⟩
    · exact hone n ha.symm
    · exact h.one before n after' hlog
  alone before n cause after hlog := by
    rcases concat_split hlog with ⟨rfl, ha⟩ | ⟨after', hlog⟩
    · exact halone n cause ha.symm
    · exact h.alone before n cause after' hlog
  once n := by
    have hn := h.once n
    rw [closes, List.countP_append, List.countP_singleton]
    split
    · next ha =>
        have hzero := honce n ha
        rw [closes] at hzero
        omega
    · exact hn

theorem Orderly.of_append (h : Orderly (log ++ more)) : Orderly log where
  one before n after hlog := h.one before n (after ++ more) (by rw [hlog]; simp)
  alone before n cause after hlog := h.alone before n cause (after ++ more) (by rw [hlog]; simp)
  once n := by
    have hn := h.once n
    rw [closes, List.countP_append] at hn
    rw [closes]
    omega

theorem orderly_nil : Orderly ([] : List (Action α)) where
  one before n after h := by cases before <;> cases h
  alone before n cause after h := by cases before <;> cases h
  once n := Nat.zero_le 1

def Action.Quiet : Action α → Prop
  | .lent _ => True
  | .retired _ _ => True
  | _ => False

theorem Action.Quiet.counts (h : a.Quiet) (n : Node α) :
    a.begins n = false ∧ a.ends n = false ∧ a.closes n = false := by
  cases a with
  | lent m => exact ⟨rfl, rfl, rfl⟩
  | retired m r => exact ⟨rfl, rfl, rfl⟩
  | made m => exact h.elim
  | began m c => exact h.elim
  | called m k c b => exact h.elim
  | ended m => exact h.elim

theorem counts_quiet (h : ∀ a ∈ more, a.Quiet) (n : Node α) :
    begun n (log ++ more) = begun n log ∧ ended n (log ++ more) = ended n log ∧
      closes n (log ++ more) = closes n log := by
  have hzero : begun n more = 0 ∧ ended n more = 0 ∧ closes n more = 0 := by
    simp only [begun, ended, closes, List.countP_eq_zero]
    refine ⟨fun a ha => ?_, fun a ha => ?_, fun a ha => ?_⟩
    · rw [((h a ha).counts n).1]
      nofun
    · rw [((h a ha).counts n).2.1]
      nofun
    · rw [((h a ha).counts n).2.2]
      nofun
  simp only [begun, ended, closes, List.countP_append] at hzero ⊢
  omega

omit [DecidableEq α] in
theorem mem_quiet (h : ∀ a ∈ more, a.Quiet) (hloud : ¬ a.Quiet) :
    a ∈ log ++ more ↔ a ∈ log := by
  constructor
  · intro ha
    rcases List.mem_append.mp ha with ha | ha
    · exact ha
    · exact absurd (h a ha) hloud
  · exact List.mem_append_left _

theorem Orderly.quiet (h : Orderly log) (hmore : ∀ a ∈ more, a.Quiet) : Orderly (log ++ more) := by
  induction more generalizing log with
  | nil =>
      rw [List.append_nil]
      exact h
  | cons a more ih =>
      have ha := hmore a List.mem_cons_self
      have hconcat : Orderly (log ++ [a]) := by
        refine h.concat ?_ ?_ ?_
        · rintro n rfl
          exact ha.elim
        · rintro n c rfl
          exact ha.elim
        · intro n hn
          rw [(ha.counts n).2.2] at hn
          cases hn
      have hrest := ih hconcat fun b hb => hmore b (List.mem_cons_of_mem _ hb)
      rwa [List.append_assoc] at hrest

/-! The invariant. -/

def Entry.core (e : Entry α) : Node α × Nat × Bool × Bool :=
  (e.node, e.generation, e.teardown, e.teardownCloses)

structure Owned (s : Registry α) : Prop where
  named : ∀ id e, s.entries.lookup id = some e →
    e.node = { id, serial := e.generation } ∧ e.generation ≤ s.generations
  marked : ∀ id e, s.entries.lookup id = some e → e.teardownCloses = e.teardown
  shut : s.closed = true → ∀ id, s.entries.lookup id = none
  known : ∀ a ∈ s.log, a.node.serial ≤ s.generations
  torn : ∀ id e, s.entries.lookup id = some e →
    (e.teardown = true ↔ e.node ∈ s.teardowns.map Teardown.node)
  removing : ∀ t ∈ s.teardowns, if t.removes then
    s.closed = false → ∃ e, s.entries.lookup t.id = some e ∧ e.node = t.node ∧
      e.generation = t.generation
    else s.closed = true
  alone : (s.teardowns.map Teardown.node).Nodup
  counts : ∀ n, begun n s.log = ended n s.log + (s.teardowns.map Teardown.node).count n
  calls : ∀ t ∈ s.teardowns, closes t.node s.log + t.calls.count .close ≤ 1
  fresh : ∀ id e, s.entries.lookup id = some e → e.teardown = false → closes e.node s.log = 0
  made : s.closed = false → ∀ n, .made n ∈ s.log →
    .ended n ∈ s.log ∨ ∃ e, s.entries.lookup n.id = some e ∧ e.node = n
  orderly : Orderly s.log

variable {s t : Registry α}

theorem owned_nil : Owned ({} : Registry α) where
  named id e h := by cases h
  marked id e h := by cases h
  shut h := by cases h
  known := nofun
  torn id e h := by cases h
  removing := nofun
  alone := List.nodup_nil
  counts _ := rfl
  calls := nofun
  fresh id e h := by cases h
  made _ := nofun
  orderly := orderly_nil

theorem Owned.unknown (h : Owned s) (hn : s.generations < n.serial) :
    begun n s.log = 0 ∧ closes n s.log = 0 := by
  have hno : ∀ a ∈ s.log, a.node ≠ n := by
    rintro a ha rfl
    exact absurd (h.known a ha) (by omega)
  simp only [begun, closes, List.countP_eq_zero]
  constructor
  · intro a ha hbegins
    refine hno a ha ?_
    cases a with
    | began m c => exact of_decide_eq_true hbegins
    | _ => cases hbegins
  · intro a ha hcloses
    refine hno a ha ?_
    cases a with
    | called m call c b =>
        cases call with
        | close => exact of_decide_eq_true hcloses
        | _ => cases hcloses
    | _ => cases hcloses

theorem Owned.frame (h : Owned s)
    (hcore : ∀ id, (t.entries.lookup id).map Entry.core = (s.entries.lookup id).map Entry.core)
    (hclosed : t.closed = s.closed) (hgenerations : t.generations = s.generations)
    (hteardowns : t.teardowns = s.teardowns) (hlog : t.log = s.log ++ more)
    (hmore : ∀ a ∈ more, a.Quiet ∧ a.node.serial ≤ s.generations) : Owned t := by
  have hquiet := fun a ha => (hmore a ha).1
  have hback : ∀ id e, t.entries.lookup id = some e →
      ∃ e', s.entries.lookup id = some e' ∧ e'.core = e.core := by
    intro id e he
    have hid := hcore id
    rw [he, Option.map_some] at hid
    exact Option.map_eq_some_iff.mp hid.symm
  have hforth : ∀ id e, s.entries.lookup id = some e →
      ∃ e', t.entries.lookup id = some e' ∧ e'.core = e.core := by
    intro id e he
    have hid := hcore id
    rw [he, Option.map_some] at hid
    exact Option.map_eq_some_iff.mp hid
  refine ⟨?_, ?_, ?_, ?_, ?_, ?_, ?_, ?_, ?_, ?_, ?_, ?_⟩
  · intro id e he
    obtain ⟨e', he', hsame⟩ := hback id e he
    simp only [Entry.core, Prod.mk.injEq] at hsame
    obtain ⟨hnode, hgeneration, -, -⟩ := hsame
    rw [hgenerations, ← hnode, ← hgeneration]
    exact h.named id e' he'
  · intro id e he
    obtain ⟨e', he', hsame⟩ := hback id e he
    simp only [Entry.core, Prod.mk.injEq] at hsame
    obtain ⟨-, -, hteardown, hcloses⟩ := hsame
    rw [← hteardown, ← hcloses]
    exact h.marked id e' he'
  · intro hshut id
    have hnone := h.shut (hclosed ▸ hshut) id
    have hid := hcore id
    rw [hnone] at hid
    exact Option.map_eq_none_iff.mp hid
  · intro a ha
    rw [hlog] at ha
    rw [hgenerations]
    rcases List.mem_append.mp ha with ha | ha
    · exact h.known a ha
    · exact (hmore a ha).2
  · intro id e he
    obtain ⟨e', he', hsame⟩ := hback id e he
    simp only [Entry.core, Prod.mk.injEq] at hsame
    obtain ⟨hnode, -, hteardown, -⟩ := hsame
    rw [hteardowns, ← hnode, ← hteardown]
    exact h.torn id e' he'
  · intro j hj
    have hj' := h.removing j (hteardowns ▸ hj)
    split
    · next hremoves =>
        rw [if_pos hremoves] at hj'
        intro hopen
        obtain ⟨e, he, hnode, hgeneration⟩ := hj' (hclosed ▸ hopen)
        obtain ⟨e', he', hsame⟩ := hforth _ e he
        simp only [Entry.core, Prod.mk.injEq] at hsame
        exact ⟨e', he', hsame.1.trans hnode, hsame.2.1.trans hgeneration⟩
    · next hremoves =>
        rw [if_neg hremoves] at hj'
        exact hclosed.trans hj'
  · rw [hteardowns]
    exact h.alone
  · intro n
    obtain ⟨hbegun, hended, -⟩ := @counts_quiet α _ s.log more hquiet n
    rw [hlog, hteardowns, hbegun, hended]
    exact h.counts n
  · intro j hj
    rw [hlog, (counts_quiet hquiet j.node).2.2]
    exact h.calls j (hteardowns ▸ hj)
  · intro id e he hfalse
    obtain ⟨e', he', hsame⟩ := hback id e he
    simp only [Entry.core, Prod.mk.injEq] at hsame
    obtain ⟨hnode, -, hteardown, -⟩ := hsame
    rw [hlog, (counts_quiet hquiet e.node).2.2, ← hnode]
    exact h.fresh id e' he' (hteardown.trans hfalse)
  · intro hopen n hn
    rw [hlog, mem_quiet hquiet id] at hn
    rw [hlog, mem_quiet hquiet id]
    refine (h.made (hclosed ▸ hopen) n hn).imp_right ?_
    rintro ⟨e, he, hnode⟩
    obtain ⟨e', he', hsame⟩ := hforth _ e he
    simp only [Entry.core, Prod.mk.injEq] at hsame
    exact ⟨e', he', hsame.1.trans hnode⟩
  · rw [hlog]
    exact h.orderly.quiet hquiet

/-! The steps that matter. -/

section

variable (n : Node α) (log : List (Action α))

@[simp] theorem begun_began (m : Node α) (cause : Cause) :
    begun n (log ++ [.began m cause]) = begun n log + if m = n then 1 else 0 := by
  simp [begun, List.countP_append, List.countP_singleton, Action.begins]

@[simp] theorem begun_made (m : Node α) : begun n (log ++ [.made m]) = begun n log := by
  simp [begun, List.countP_append, Action.begins]

@[simp] theorem begun_called (m : Node α) (call : NodeCall) (cause : Cause) (held : Bool) :
    begun n (log ++ [.called m call cause held]) = begun n log := by
  simp [begun, List.countP_append, Action.begins]

@[simp] theorem begun_ended (m : Node α) : begun n (log ++ [.ended m]) = begun n log := by
  simp [begun, List.countP_append, Action.begins]

@[simp] theorem ended_ended (m : Node α) :
    ended n (log ++ [.ended m]) = ended n log + if m = n then 1 else 0 := by
  simp [ended, List.countP_append, List.countP_singleton, Action.ends]

@[simp] theorem ended_began (m : Node α) (cause : Cause) :
    ended n (log ++ [.began m cause]) = ended n log := by
  simp [ended, List.countP_append, Action.ends]

@[simp] theorem ended_made (m : Node α) : ended n (log ++ [.made m]) = ended n log := by
  simp [ended, List.countP_append, Action.ends]

@[simp] theorem ended_called (m : Node α) (call : NodeCall) (cause : Cause) (held : Bool) :
    ended n (log ++ [.called m call cause held]) = ended n log := by
  simp [ended, List.countP_append, Action.ends]

@[simp] theorem closes_called (m : Node α) (call : NodeCall) (cause : Cause) (held : Bool) :
    closes n (log ++ [.called m call cause held]) =
      closes n log + if call = .close ∧ m = n then 1 else 0 := by
  cases call <;> simp [closes, List.countP_append, List.countP_singleton, Action.closes]

@[simp] theorem closes_began (m : Node α) (cause : Cause) :
    closes n (log ++ [.began m cause]) = closes n log := by
  simp [closes, List.countP_append, Action.closes]

@[simp] theorem closes_made (m : Node α) : closes n (log ++ [.made m]) = closes n log := by
  simp [closes, List.countP_append, Action.closes]

@[simp] theorem closes_ended (m : Node α) : closes n (log ++ [.ended m]) = closes n log := by
  simp [closes, List.countP_append, Action.closes]

end

theorem Owned.begin {id : α} {e e' : Entry α} {cause : Cause} {calls : List NodeCall}
    (h : Owned s) (he : s.entries.lookup id = some e) (hfree : e.teardown = false)
    (hcore : e'.core = e.core) (hcalls : calls.count .close ≤ 1) :
    Owned (s.beginTeardown id e' cause calls) := by
  simp only [Entry.core, Prod.mk.injEq] at hcore
  obtain ⟨hnode, hgeneration, -, -⟩ := hcore
  obtain ⟨hname, hle⟩ := h.named id e he
  have habsent : e.node ∉ s.teardowns.map Teardown.node := by
    intro hmem
    rw [← h.torn id e he, hfree] at hmem
    cases hmem
  have hother : ∀ id' e'', s.entries.lookup id' = some e'' → id' ≠ id → e''.node ≠ e.node := by
    intro id' e'' he'' hne heq
    rw [(h.named id' e'' he'').1, hname] at heq
    exact hne (congrArg Node.id heq)
  refine ⟨?_, ?_, ?_, ?_, ?_, ?_, ?_, ?_, ?_, ?_, ?_, ?_⟩
  · intro id' e'' he''
    rw [Registry.lookup_beginTeardown] at he''
    split at he''
    · next heq =>
        cases he''
        subst heq
        exact ⟨by simp only [hnode, hgeneration, hname], hgeneration ▸ hle⟩
    · exact h.named id' e'' he''
  · intro id' e'' he''
    rw [Registry.lookup_beginTeardown] at he''
    split at he''
    · cases he''
      rfl
    · exact h.marked id' e'' he''
  · intro hshut
    have hnone := h.shut hshut id
    rw [he] at hnone
    cases hnone
  · intro a ha
    rcases List.mem_append.mp ha with ha | ha
    · exact h.known a ha
    · cases List.mem_singleton.mp ha
      simp only [Action.node, hnode, hname]
      exact hle
  · intro id' e'' he''
    rw [Registry.lookup_beginTeardown] at he''
    simp only [Registry.beginTeardown, List.map_append, List.mem_append, List.map_singleton,
      List.mem_singleton]
    split at he''
    · cases he''
      simp
    · next hne =>
        rw [h.torn id' e'' he'', hnode]
        simp [hother id' e'' he'' hne]
  · intro j hj
    rcases List.mem_append.mp hj with hj | hj
    · have hj' := h.removing j hj
      split
      · next hremoves =>
          rw [if_pos hremoves] at hj'
          intro hopen
          obtain ⟨e'', he'', hjnode, hjgen⟩ := hj' hopen
          rw [Registry.lookup_beginTeardown]
          split
          · next heq =>
              rw [heq, he] at he''
              cases he''
              exact ⟨_, rfl, hnode.trans hjnode, hgeneration.trans hjgen⟩
          · exact ⟨e'', he'', hjnode, hjgen⟩
      · next hremoves =>
          rw [if_neg hremoves] at hj'
          exact hj'
    · cases List.mem_singleton.mp hj
      simp only [if_true]
      intro _
      exact ⟨{ e' with teardown := true, teardownCloses := true },
        by rw [Registry.lookup_beginTeardown, if_pos rfl], rfl, rfl⟩
  · simp only [Registry.beginTeardown, List.map_append, List.map_singleton]
    rw [List.nodup_append]
    refine ⟨h.alone, List.nodup_singleton _, fun a ha b hb => ?_⟩
    rintro rfl
    cases List.mem_singleton.mp hb
    exact habsent (hnode ▸ ha)
  · intro n
    have hn := h.counts n
    simp only [Registry.beginTeardown, begun_began, ended_began, List.map_append,
      List.map_singleton, List.count_append, List.count_singleton, hn, beq_iff_eq]
    omega
  · intro j hj
    simp only [Registry.beginTeardown, closes_began] at hj ⊢
    rcases List.mem_append.mp hj with hj | hj
    · exact h.calls j hj
    · cases List.mem_singleton.mp hj
      rw [hnode, h.fresh id e he hfree, Nat.zero_add]
      exact hcalls
  · intro id' e'' he'' hfree'
    rw [Registry.lookup_beginTeardown] at he''
    simp only [Registry.beginTeardown, closes_began]
    split at he''
    · cases he''
      cases hfree'
    · exact h.fresh id' e'' he'' hfree'
  · intro hopen n hn
    have hn' : .made n ∈ s.log := by
      rcases List.mem_append.mp hn with hn | hn
      · exact hn
      · cases List.mem_singleton.mp hn
    rcases h.made hopen n hn' with hended | ⟨e'', he'', hnode'⟩
    · exact .inl (List.mem_append_left _ hended)
    · right
      rw [Registry.lookup_beginTeardown]
      split
      · next heq =>
          rw [heq, he] at he''
          cases he''
          exact ⟨_, rfl, hnode.trans hnode'⟩
      · exact ⟨e'', he'', hnode'⟩
  · refine h.orderly.concat nofun ?_ nofun
    rintro n cause' heq
    cases heq
    rw [hnode, h.counts, List.count_eq_zero.mpr habsent, Nat.add_zero]

theorem Owned.make {id : α} {e : Entry α} (h : Owned s) (hopen : s.closed = false)
    (hnone : s.entries.lookup id = none)
    (he : e.core = ({ id, serial := s.generations + 1 }, s.generations + 1, false, false)) :
    Owned { s.put id e with
      generations := s.generations + 1
      log := s.log ++ [.made { id, serial := s.generations + 1 }] } := by
  simp only [Entry.core, Prod.mk.injEq] at he
  obtain ⟨hnode, hgeneration, hteardown, hcloses⟩ := he
  obtain ⟨hbegun, hclosed⟩ := @Owned.unknown α _ { id, serial := s.generations + 1 } s h
    (Nat.lt_succ_self _)
  have habsent : e.node ∉ s.teardowns.map Teardown.node := by
    rw [← List.count_eq_zero, hnode]
    have hcount := h.counts { id, serial := s.generations + 1 }
    omega
  refine ⟨?_, ?_, ?_, ?_, ?_, ?_, h.alone, ?_, ?_, ?_, ?_, ?_⟩
  · intro id' e' he'
    rw [Registry.lookup_put] at he'
    split at he'
    · next heq =>
        cases he'
        subst heq
        exact ⟨by rw [hnode, hgeneration], Nat.le_of_eq hgeneration⟩
    · obtain ⟨hname, hle⟩ := h.named id' e' he'
      exact ⟨hname, Nat.le_succ_of_le hle⟩
  · intro id' e' he'
    rw [Registry.lookup_put] at he'
    split at he'
    · cases he'
      rw [hteardown, hcloses]
    · exact h.marked id' e' he'
  · intro hshut
    exact absurd (hopen.symm.trans hshut) Bool.false_ne_true
  · intro a ha
    rcases List.mem_append.mp ha with ha | ha
    · exact Nat.le_succ_of_le (h.known a ha)
    · cases List.mem_singleton.mp ha
      exact Nat.le_refl _
  · intro id' e' he'
    rw [Registry.lookup_put] at he'
    split at he'
    · cases he'
      simpa [hteardown, Registry.put] using habsent
    · exact h.torn id' e' he'
  · intro j hj
    have hj' := h.removing j hj
    split
    · next hremoves =>
        rw [if_pos hremoves] at hj'
        intro _
        obtain ⟨e', he', hjnode, hjgen⟩ := hj' hopen
        rw [Registry.lookup_put, if_neg]
        · exact ⟨e', he', hjnode, hjgen⟩
        · intro heq
          rw [heq, hnone] at he'
          cases he'
    · next hremoves =>
        rw [if_neg hremoves] at hj'
        exact hj'
  · intro n
    have hn := h.counts n
    simpa [Registry.put] using hn
  · intro j hj
    have hj' := h.calls j hj
    simpa using hj'
  · intro id' e' he' hfree
    rw [Registry.lookup_put] at he'
    simp only [closes_made]
    split at he'
    · cases he'
      rw [hnode]
      exact hclosed
    · exact h.fresh id' e' he' hfree
  · intro _ n hn
    rcases List.mem_append.mp hn with hn | hn
    · rcases h.made hopen n hn with hended | ⟨e', he', hnode'⟩
      · exact .inl (List.mem_append_left _ hended)
      · refine .inr ⟨e', ?_, hnode'⟩
        rw [Registry.lookup_put, if_neg]
        · exact he'
        · intro heq
          rw [heq, hnone] at he'
          cases he'
    · cases List.mem_singleton.mp hn
      exact .inr ⟨e, by rw [Registry.lookup_put, if_pos rfl], hnode⟩
  · refine h.orderly.concat (fun n heq m hm hid => ?_) (fun _ _ heq => ?_) fun _ heq => ?_
    · cases heq
      rcases h.made hopen m hm with hended | ⟨e', he', -⟩
      · exact hended
      · rw [hid, hnone] at he'
        cases he'
    · cases heq
    · cases heq

theorem exists_split {β : Type} {l : List β} {i : Nat} {b : β} (h : l[i]? = some b) :
    ∃ as bs, l = as ++ b :: bs ∧ l.eraseIdx i = as ++ bs ∧ ∀ c, l.set i c = as ++ c :: bs := by
  obtain ⟨hlt, hget⟩ := List.getElem?_eq_some_iff.mp h
  refine ⟨l.take i, l.drop (i + 1), ?_, List.eraseIdx_eq_take_drop_succ l i, fun c => ?_⟩
  · rw [← hget, List.getElem_cons_drop, List.take_append_drop]
  · rw [List.set_eq_take_append_cons_drop, if_pos hlt]

theorem Owned.call {j : Teardown α} {as bs : List (Teardown α)} {c : NodeCall}
    {calls : List NodeCall} (held : Bool) (h : Owned s) (hs : s.teardowns = as ++ j :: bs)
    (hcalls : j.calls = c :: calls) : Owned { s with
      teardowns := as ++ { j with calls } :: bs
      log := s.log ++ [.called j.node c j.cause held] } := by
  have hnodes :
      (as ++ { j with calls } :: bs).map Teardown.node = s.teardowns.map Teardown.node := by
    rw [hs]
    simp
  have hj := h.calls j (hs ▸ List.mem_append_right _ List.mem_cons_self)
  rw [hcalls, List.count_cons] at hj
  have hapart : ∀ k, k ∈ as ∨ k ∈ bs → k ∈ s.teardowns ∧ k.node ≠ j.node := by
    intro k hk
    have hnodup := h.alone
    rw [hs] at hnodup ⊢
    refine ⟨by simp; tauto, ?_⟩
    rw [List.map_append, List.map_cons, List.nodup_append, List.nodup_cons] at hnodup
    obtain ⟨-, ⟨hjbs, -⟩, has⟩ := hnodup
    intro heq
    rcases hk with hk | hk
    · exact has _ (List.mem_map_of_mem hk) _ List.mem_cons_self heq
    · exact hjbs (heq ▸ List.mem_map_of_mem hk)
  have hmem : ∀ k ∈ as ++ { j with calls } :: bs, k = { j with calls } ∨ k ∈ as ∨ k ∈ bs := by
    intro k hk
    simp only [List.mem_append, List.mem_cons] at hk
    tauto
  refine ⟨h.named, h.marked, h.shut, ?_, ?_, ?_, ?_, ?_, ?_, ?_, ?_, ?_⟩
  · intro a ha
    rcases List.mem_append.mp ha with ha | ha
    · exact h.known a ha
    · cases List.mem_singleton.mp ha
      have hcount := h.counts j.node
      have hpos : 0 < (s.teardowns.map Teardown.node).count j.node :=
        List.count_pos_iff.mpr (by rw [hs]; simp)
      by_contra hlt
      have hunknown := (h.unknown (Nat.lt_of_not_le hlt)).1
      simp only [Action.node] at hunknown
      omega
  · intro id e he
    simp only [hnodes]
    exact h.torn id e he
  · intro k hk
    rcases hmem k hk with rfl | hk
    · exact h.removing j (hs ▸ List.mem_append_right _ List.mem_cons_self)
    · exact h.removing k (hapart k hk).1
  · simp only [hnodes]
    exact h.alone
  · intro n
    simp only [hnodes, begun_called, ended_called]
    exact h.counts n
  · intro k hk
    rw [closes_called]
    rcases hmem k hk with rfl | hk
    · simp only [beq_iff_eq] at hj
      simp only [and_true]
      omega
    · obtain ⟨hk, hne⟩ := hapart k hk
      rw [if_neg fun heq => hne heq.2.symm]
      exact h.calls k hk
  · intro id e he hfree
    have habsent : e.node ∉ s.teardowns.map Teardown.node := by
      intro hmem
      rw [← h.torn id e he, hfree] at hmem
      cases hmem
    rw [closes_called, h.fresh id e he hfree, if_neg]
    rintro ⟨-, heq⟩
    exact habsent (by rw [hs, ← heq]; simp)
  · intro hopen n hn
    have hn' : .made n ∈ s.log := by
      rcases List.mem_append.mp hn with hn | hn
      · exact hn
      · cases List.mem_singleton.mp hn
    exact (h.made hopen n hn').imp_left (List.mem_append_left _)
  · refine h.orderly.concat (fun _ h => by cases h) (fun _ _ h => by cases h) ?_
    intro n hn
    cases c with
    | close =>
        cases of_decide_eq_true hn
        simp only [beq_self_eq_true, if_true] at hj
        omega
    | logout => cases hn
    | purge => cases hn

theorem Owned.ended {j : Teardown α} {as bs : List (Teardown α)} (h : Owned s)
    (hs : s.teardowns = as ++ j :: bs) (ht : t.teardowns = as ++ bs)
    (hlog : t.log = s.log ++ [.ended j.node]) (hclosed : t.closed = s.closed)
    (hgenerations : t.generations = s.generations)
    (hentries : ∀ id e, t.entries.lookup id = some e ↔
      s.entries.lookup id = some e ∧ e.node ≠ j.node) : Owned t := by
  have hmem : ∀ k ∈ t.teardowns, k ∈ s.teardowns ∧ k.node ≠ j.node := by
    intro k hk
    have hnodup := h.alone
    rw [hs, List.map_append, List.map_cons, List.nodup_append, List.nodup_cons] at hnodup
    obtain ⟨-, ⟨hjbs, -⟩, has⟩ := hnodup
    rw [ht] at hk
    refine ⟨by rw [hs]; simp only [List.mem_append, List.mem_cons] at hk ⊢; tauto, fun heq => ?_⟩
    rcases List.mem_append.mp hk with hk | hk
    · exact has _ (List.mem_map_of_mem hk) _ List.mem_cons_self heq
    · exact hjbs (heq ▸ List.mem_map_of_mem hk)
  refine ⟨?_, ?_, ?_, ?_, ?_, ?_, ?_, ?_, ?_, ?_, ?_, ?_⟩
  · intro id e he
    rw [hgenerations]
    exact h.named id e ((hentries id e).mp he).1
  · exact fun id e he => h.marked id e ((hentries id e).mp he).1
  · intro hshut id
    cases he : t.entries.lookup id with
    | none => rfl
    | some e =>
        have hsome := ((hentries id e).mp he).1
        rw [h.shut (hclosed ▸ hshut) id] at hsome
        cases hsome
  · intro a ha
    rw [hlog] at ha
    rw [hgenerations]
    rcases List.mem_append.mp ha with ha | ha
    · exact h.known a ha
    · cases List.mem_singleton.mp ha
      by_contra hlt
      have hunknown := (h.unknown (Nat.lt_of_not_le hlt)).1
      have hcount := h.counts j.node
      have hpos : 0 < (s.teardowns.map Teardown.node).count j.node :=
        List.count_pos_iff.mpr (by rw [hs]; simp)
      simp only [Action.node] at hunknown
      omega
  · intro id e he
    obtain ⟨he, hne⟩ := (hentries id e).mp he
    rw [h.torn id e he, hs, ht]
    simp only [List.map_append, List.map_cons, List.mem_append, List.mem_cons]
    tauto
  · intro k hk
    obtain ⟨hk, hne⟩ := hmem k hk
    have hk' := h.removing k hk
    split
    · next hremoves =>
        rw [if_pos hremoves] at hk'
        intro hopen
        obtain ⟨e, he, hnode, hgeneration⟩ := hk' (hclosed ▸ hopen)
        exact ⟨e, (hentries _ e).mpr ⟨he, hnode ▸ hne⟩, hnode, hgeneration⟩
    · next hremoves =>
        rw [if_neg hremoves] at hk'
        exact hclosed.trans hk'
  · have hnodup := h.alone
    rw [hs] at hnodup
    rw [ht]
    exact hnodup.sublist (((List.sublist_cons_self j bs).append_left as).map _)
  · intro n
    have hn := h.counts n
    rw [hs] at hn
    rw [hlog, ht]
    simp only [begun_ended, ended_ended, List.map_append, List.map_cons, List.count_append,
      List.count_cons, beq_iff_eq] at hn ⊢
    omega
  · intro k hk
    rw [hlog, closes_ended]
    exact h.calls k (hmem k hk).1
  · intro id e he hfree
    rw [hlog, closes_ended]
    exact h.fresh id e ((hentries id e).mp he).1 hfree
  · intro hopen n hn
    rw [hlog] at hn ⊢
    have hn' : .made n ∈ s.log := by
      rcases List.mem_append.mp hn with hn | hn
      · exact hn
      · cases List.mem_singleton.mp hn
    rcases h.made (hclosed ▸ hopen) n hn' with hended | ⟨e, he, hnode⟩
    · exact .inl (List.mem_append_left _ hended)
    · by_cases heq : n = j.node
      · exact .inl (List.mem_append_right _ (heq ▸ List.mem_cons_self))
      · exact .inr ⟨e, (hentries _ e).mpr ⟨he, hnode ▸ heq⟩, hnode⟩
  · rw [hlog]
    exact h.orderly.concat (fun _ h => by cases h) (fun _ _ h => by cases h)
      fun _ h => absurd h Bool.false_ne_true

/-! `Close` -/

theorem counts_targets (n : Node α) (log : List (Action α)) (ts : List (Teardown α)) :
    begun n (log ++ ts.map fun t => .began t.node t.cause) =
        begun n log + (ts.map Teardown.node).count n ∧
      ended n (log ++ ts.map fun t => .began t.node t.cause) = ended n log ∧
        closes n (log ++ ts.map fun t => .began t.node t.cause) = closes n log := by
  induction ts generalizing log with
  | nil => simp
  | cons t ts ih =>
      obtain ⟨hbegun, hended, hcloses⟩ := ih (log ++ [.began t.node t.cause])
      have hsplit : (log ++ (t :: ts).map fun t => Action.began t.node t.cause) =
          log ++ [.began t.node t.cause] ++ ts.map fun t => .began t.node t.cause := by simp
      rw [hsplit, hbegun, hended, hcloses, begun_began, ended_began, closes_began]
      refine ⟨?_, rfl, rfl⟩
      rw [List.map_cons, List.count_cons]
      simp only [beq_iff_eq]
      omega

theorem Orderly.targets {ts : List (Teardown α)} (h : Orderly log)
    (hnodup : (ts.map Teardown.node).Nodup)
    (hended : ∀ t ∈ ts, begun t.node log = ended t.node log) :
    Orderly (log ++ ts.map fun t => .began t.node t.cause) := by
  induction ts generalizing log with
  | nil =>
      rw [List.map_nil, List.append_nil]
      exact h
  | cons t ts ih =>
      rw [List.map_cons, List.nodup_cons] at hnodup
      have hconcat : Orderly (log ++ [.began t.node t.cause]) := by
        refine h.concat nofun ?_ nofun
        rintro n c heq
        cases heq
        exact hended t List.mem_cons_self
      have hrest := ih hconcat hnodup.2 fun k hk => by
        have hne : t.node ≠ k.node := fun heq => hnodup.1 (heq ▸ List.mem_map_of_mem hk)
        rw [begun_began, ended_began, if_neg hne]
        exact hended k (List.mem_cons_of_mem _ hk)
      rwa [List.append_assoc] at hrest

omit [DecidableEq α] in
theorem targets_ids (l : List (Sigma fun _ : α => Entry α)) :
    ((l.filterMap Registry.closeTarget).map Teardown.id).Sublist (l.map Sigma.fst) := by
  induction l with
  | nil => exact List.Sublist.refl _
  | cons p l ih =>
      rw [List.filterMap_cons]
      split
      · exact ih.cons _
      · next t ht =>
          rw [Registry.closeTarget] at ht
          split at ht
          · cases ht
          · cases ht
            exact ih.cons_cons _

theorem Owned.target (h : Owned s) {k : Teardown α}
    (hk : k ∈ s.entries.entries.filterMap Registry.closeTarget) :
    ∃ e, s.entries.lookup k.id = some e ∧ e.teardown = false ∧ k.node = e.node ∧
      k.removes = false ∧ k.calls.count .close = 1 := by
  obtain ⟨⟨id, e⟩, he, hk⟩ := List.mem_filterMap.mp hk
  rw [← AList.mem_lookup_iff] at he
  rw [Registry.closeTarget] at hk
  split at hk
  · cases hk
  · next hfree =>
      cases hk
      rw [h.marked id e he] at hfree
      refine ⟨e, he, Bool.eq_false_iff.mpr hfree, rfl, rfl, ?_⟩
      dsimp only
      split <;> rfl

theorem Owned.close (h : Owned s) : Owned s.close := by
  rw [Registry.close]
  split
  · exact h
  · next hopen =>
      have hopen : s.closed = false := Bool.eq_false_iff.mpr hopen
      have htarget := fun k hk => @Owned.target α _ s h k hk
      revert htarget
      have hids := (targets_ids s.entries.entries).nodup s.entries.nodupKeys
      generalize s.entries.entries.filterMap Registry.closeTarget = targets at hids ⊢
      intro htarget
      have hnode : ∀ k ∈ targets, k.node.id = k.id ∧ k.node ∉ s.teardowns.map Teardown.node ∧
          k.node.serial ≤ s.generations := by
        intro k hk
        obtain ⟨e, he, hfree, hknode, -, -⟩ := htarget k hk
        obtain ⟨hname, hle⟩ := h.named _ e he
        refine ⟨by rw [hknode, hname], fun hmem => ?_, by rw [hknode, hname]; exact hle⟩
        rw [hknode, ← h.torn _ e he, hfree] at hmem
        cases hmem
      have hnodup : (targets.map Teardown.node).Nodup := by
        refine List.Nodup.of_map Node.id ?_
        have hsame : (targets.map Teardown.node).map Node.id = targets.map Teardown.id := by
          rw [List.map_map]
          exact List.map_congr_left fun k hk => (hnode k hk).1
        rw [hsame]
        exact hids
      refine ⟨nofun, nofun, fun _ _ => rfl, ?_, nofun, ?_, ?_, ?_, ?_, nofun, nofun, ?_⟩
      · intro a ha
        rcases List.mem_append.mp ha with ha | ha
        · exact h.known a ha
        · obtain ⟨k, hk, rfl⟩ := List.mem_map.mp ha
          exact (hnode k hk).2.2
      · intro k hk
        split
        · next hremoves =>
            nofun
        · rfl
      · rw [List.map_append, List.nodup_append]
        refine ⟨h.alone, hnodup, fun a ha b hb heq => ?_⟩
        obtain ⟨k, hk, rfl⟩ := List.mem_map.mp hb
        exact (hnode k hk).2.1 (heq ▸ ha)
      · intro n
        obtain ⟨hbegun, hended, -⟩ := counts_targets n s.log targets
        have hn := h.counts n
        simp only [hbegun, hended, List.map_append, List.count_append]
        omega
      · intro k hk
        simp only [(counts_targets k.node s.log targets).2.2]
        rcases List.mem_append.mp hk with hk | hk
        · exact h.calls k hk
        · obtain ⟨e, he, hfree, hknode, -, hcount⟩ := htarget k hk
          rw [hknode, h.fresh _ e he hfree, hcount]
      · refine h.orderly.targets hnodup fun k hk => ?_
        rw [h.counts, List.count_eq_zero.mpr (hnode k hk).2.1, Nat.add_zero]

end Dolgate.Tailnet
