import Dolgate.TailnetOwned

set_option autoImplicit false

/-! The invariant that relates the references of an entry, its leases and its retirement. -/

namespace Dolgate.Tailnet

variable {α : Type} [DecidableEq α]

def Cause.Weak : Cause → Prop
  | .idleExpired => True
  | .disconnect => True
  | .reset => True
  | .retire => True
  | _ => False

def unreleased (n : Node α) (leases : List (Lease α)) : Nat :=
  leases.countP fun l => l.node = n ∧ l.released = false

def NotLentAgain (log : List (Action α)) : Prop :=
  log.Pairwise fun a b => ∀ n r, a = .retired n r → b ≠ .lent n

def Purged (n : Node α) (s : Registry α) : Prop :=
  (∃ cause held, .called n .purge cause held ∈ s.log) ∨
    ∃ j ∈ s.teardowns, j.node = n ∧ .purge ∈ j.calls

structure EntryOk (s : Registry α) (id : α) (e : Entry α) : Prop where
  named : e.node = { id, serial := e.generation }
  bound : e.generation ≤ s.generations
  marked : e.teardownCloses = e.teardown
  refs : e.teardown = false → e.refs = unreleased e.node s.leases
  used : e.teardown = false → e.retirement.isSome = true → 0 < e.refs
  working : e.teardown = false → ∀ j ∈ s.teardowns, j.node ≠ e.node
  retired : e.teardown = false → ∀ r, .retired e.node r ∈ s.log → e.retirement.isSome = true
  closed : e.teardown = false → ∀ cause held, .called e.node .close cause held ∉ s.log

structure Leased (s : Registry α) : Prop where
  entries : ∀ id e, s.entries.lookup id = some e → EntryOk s id e
  shut : s.closed = true → ∀ id, s.entries.lookup id = none
  leases : ∀ l ∈ s.leases, l.node = { id := l.id, serial := l.generation } ∧
    l.generation ≤ s.generations
  known : ∀ a ∈ s.log, a.node.serial ≤ s.generations
  nodes : ∀ j ∈ s.teardowns, j.node = { id := j.id, serial := j.generation } ∧
    j.generation ≤ s.generations
  weak : ∀ j ∈ s.teardowns, j.cause.Weak → unreleased j.node s.leases = 0
  lent : NotLentAgain s.log
  called : ∀ n cause, .called n .close cause true ∈ s.log → ¬ cause.Weak
  forgotten : ∀ n, .retired n .forget ∈ s.log → Purged n s ∨
    ∃ id e, s.entries.lookup id = some e ∧ e.node = n ∧ e.teardown = false ∧
      e.retirement = some .forget

variable {s t : Registry α} {id : α} {e e' : Entry α} {n : Node α}

theorem leased_nil : Leased ({} : Registry α) where
  entries id e h := by cases h
  shut h := by cases h
  leases := nofun
  known := nofun
  nodes := nofun
  weak := nofun
  lent := List.Pairwise.nil
  called := nofun
  forgotten := nofun

theorem Leased.aside (h : Leased s) (timers : List (Timer α)) (checks : List Check) :
    Leased { s with timers, checks } where
  entries id e he :=
    have hok := h.entries id e he
    ⟨hok.named, hok.bound, hok.marked, hok.refs, hok.used, hok.working, hok.retired, hok.closed⟩
  shut := h.shut
  leases := h.leases
  known := h.known
  nodes := h.nodes
  weak := h.weak
  lent := h.lent
  called := h.called
  forgotten := h.forgotten

theorem Leased.congr (h : Leased s) (hentries : t.entries = s.entries)
    (hclosed : t.closed = s.closed) (hgenerations : t.generations = s.generations)
    (hleases : t.leases = s.leases) (hteardowns : t.teardowns = s.teardowns)
    (hlog : t.log = s.log) : Leased t := by
  cases s
  cases t
  cases hentries
  cases hclosed
  cases hgenerations
  cases hleases
  cases hteardowns
  cases hlog
  exact h.aside _ _

theorem EntryOk.keep (h : EntryOk s id e) (hgenerations : s.generations ≤ t.generations)
    (hleases : unreleased e.node t.leases = unreleased e.node s.leases)
    (hteardowns : ∀ j ∈ t.teardowns, j.node = e.node → ∃ k ∈ s.teardowns, k.node = e.node)
    (hlog : ∀ a ∈ t.log, a.node = e.node → a ∈ s.log) : EntryOk t id e where
  named := h.named
  bound := Nat.le_trans h.bound hgenerations
  marked := h.marked
  refs hfree := by rw [hleases, h.refs hfree]
  used := h.used
  working hfree j hj heq := by
    obtain ⟨k, hk, hnode⟩ := hteardowns j hj heq
    exact h.working hfree k hk hnode
  retired hfree r hr := h.retired hfree r (hlog _ hr rfl)
  closed hfree cause held hc := h.closed hfree cause held (hlog _ hc rfl)

theorem EntryOk.torn (hnamed : e.node = { id, serial := e.generation })
    (hbound : e.generation ≤ s.generations) (hmarked : e.teardownCloses = e.teardown)
    (htorn : e.teardown = true) : EntryOk s id e := by
  have hno : ∀ {p : Prop}, e.teardown = false → p := fun hfree => by
    rw [htorn] at hfree
    cases hfree
  exact ⟨hnamed, hbound, hmarked, hno, hno, hno, hno, hno⟩

theorem Leased.apart (h : Leased s) (he : s.entries.lookup id = some e) {id' : α} {e'' : Entry α}
    (he'' : s.entries.lookup id' = some e'') (hne : id' ≠ id) : e''.node ≠ e.node := by
  intro heq
  rw [(h.entries id' e'' he'').named, (h.entries id e he).named] at heq
  exact hne (congrArg Node.id heq)

omit [DecidableEq α] in
theorem NotLentAgain.append {log more : List (Action α)} (h : NotLentAgain log)
    (hmore : ∀ n, .lent n ∉ more) : NotLentAgain (log ++ more) := by
  refine List.pairwise_append.mpr ⟨h, ?_, ?_⟩
  · refine List.pairwise_of_forall_mem_list fun a _ b hb n r _ heq => ?_
    exact hmore n (heq ▸ hb)
  · intro a _ b hb n r _ heq
    exact hmore n (heq ▸ hb)

omit [DecidableEq α] in
theorem NotLentAgain.concat {log : List (Action α)} (h : NotLentAgain log)
    (hn : ∀ r, .retired n r ∉ log) : NotLentAgain (log ++ [.lent n]) := by
  refine List.pairwise_append.mpr ⟨h, List.pairwise_singleton _ _, ?_⟩
  intro a ha b hb m r hretired heq
  cases List.mem_singleton.mp hb
  cases heq
  exact hn r (hretired ▸ ha)

/-! Counting leases. -/

section

variable {leases : List (Lease α)} {l : Nat} {lease : Lease α}

theorem unreleased_append (n : Node α) (lease : Lease α) (hheld : lease.released = false) :
    unreleased n (leases ++ [lease]) = unreleased n leases + if lease.node = n then 1 else 0 := by
  simp [unreleased, List.countP_append, List.countP_singleton, hheld]

theorem unreleased_set (n : Node α) (hl : leases[l]? = some lease)
    (hheld : lease.released = false) :
    unreleased n leases = unreleased n (leases.set l { lease with released := true }) +
      if lease.node = n then 1 else 0 := by
  obtain ⟨as, bs, hs, -, hset⟩ := exists_split hl
  rw [hset, hs]
  simp only [unreleased, List.countP_append, List.countP_cons, hheld, decide_eq_true_eq, and_true,
    Bool.true_eq_false, and_false, if_false, Nat.add_zero]
  omega

theorem unreleased_set_zero (lease : Lease α)
    (h : ∀ i k, leases[i]? = some k → k.node = n → k.released = false → i = l) :
    unreleased n (leases.set l { lease with released := true }) = 0 := by
  rw [unreleased, List.countP_eq_zero]
  intro k hk hheld
  obtain ⟨i, hi⟩ := List.getElem?_of_mem hk
  obtain ⟨hnode, hreleased⟩ := of_decide_eq_true hheld
  rw [List.getElem?_set] at hi
  split at hi
  · split at hi
    · cases hi
      cases hreleased
    · cases hi
  · next hne => exact hne (h i k hi hnode hreleased).symm

theorem held_iff : s.held n = true ↔ 0 < unreleased n s.leases := by
  rw [Registry.held, unreleased, List.countP_pos_iff, List.any_eq_true]

end

/-! The steps. -/

theorem Leased.lend {refs : Int} {more : List (Action α)} (h : Leased s)
    (he : s.entries.lookup id = some e) (hfree : e.teardown = false) (hrefs : refs = e.refs + 1)
    (hmore : more = [] ∨ (more = [.lent e.node] ∧ e.retirement = none)) :
    Leased { s.lease id e refs with log := s.log ++ more } := by
  have hok := h.entries id e he
  have hcount := fun n => @unreleased_append α _ s.leases n
    { node := e.node, id, generation := e.generation } rfl
  have hmem : ∀ a ∈ s.log ++ more, a ∈ s.log ∨ a = .lent e.node := by
    intro a ha
    rcases List.mem_append.mp ha with ha | ha
    · exact .inl ha
    · rcases hmore with rfl | ⟨rfl, -⟩
      · cases ha
      · exact .inr (List.mem_singleton.mp ha)
  have hretired : ∀ n r, .retired n r ∈ s.log ++ more → .retired n r ∈ s.log := by
    intro n r hr
    rcases hmem _ hr with hr | heq
    · exact hr
    · cases heq
  have hcalled : ∀ n call cause held, .called n call cause held ∈ s.log ++ more →
      .called n call cause held ∈ s.log := by
    intro n call cause held hc
    rcases hmem _ hc with hc | heq
    · exact hc
    · cases heq
  refine ⟨?_, ?_, ?_, ?_, h.nodes, ?_, ?_, ?_, ?_⟩
  · intro id' e'' he''
    rw [Registry.lookup_lease] at he''
    split at he''
    · next hid =>
        cases he''
        subst hid
        refine ⟨hok.named, hok.bound, hok.marked, fun _ => ?_, fun _ _ => ?_, hok.working,
          fun _ r hr => ?_, fun _ cause held hc => ?_⟩
        · simp only [Registry.lease, hcount, if_true, hrefs, hok.refs hfree]
          push_cast
          rfl
        · have := hok.refs hfree
          simp only
          omega
        · exact hok.retired hfree r (hretired _ _ hr)
        · exact hok.closed hfree cause held (hcalled _ _ _ _ hc)
    · next hid =>
        have hne := h.apart he he'' hid
        refine (h.entries id' e'' he'').keep (Nat.le_refl _) ?_ (fun j hj heq => ⟨j, hj, heq⟩) ?_
        · rw [Registry.lease, hcount, if_neg hne.symm, Nat.add_zero]
        · intro a ha heq
          rcases hmem a ha with ha | rfl
          · exact ha
          · exact absurd heq.symm hne
  · intro hshut
    have hnone := h.shut hshut id
    rw [he] at hnone
    cases hnone
  · intro l hl
    rcases List.mem_append.mp hl with hl | hl
    · exact h.leases l hl
    · cases List.mem_singleton.mp hl
      exact ⟨hok.named, hok.bound⟩
  · intro a ha
    rcases hmem a ha with ha | rfl
    · exact h.known a ha
    · simp only [Action.node, hok.named]
      exact hok.bound
  · intro j hj hweak
    rw [Registry.lease, hcount, h.weak j hj hweak, if_neg (hok.working hfree j hj).symm]
  · rcases hmore with rfl | ⟨rfl, hretirement⟩
    · simp only [List.append_nil]
      exact h.lent
    · refine h.lent.concat fun r hr => ?_
      have hsome := hok.retired hfree r hr
      rw [hretirement] at hsome
      cases hsome
  · exact fun n cause hc => h.called n cause (hcalled _ _ _ _ hc)
  · intro n hn
    rcases h.forgotten n (hretired _ _ hn) with hpurged |
      ⟨id', e'', he'', hnode, hf, hr⟩
    · refine .inl (hpurged.imp_left ?_)
      rintro ⟨cause, held, hc⟩
      exact ⟨cause, held, List.mem_append_left _ hc⟩
    · right
      by_cases hid : id' = id
      · rw [hid, he] at he''
        cases he''
        exact ⟨id, { e with idle := none, refs := refs },
          by rw [Registry.lookup_lease, if_pos rfl], hnode, hf, hr⟩
      · exact ⟨id', e'', by rw [Registry.lookup_lease, if_neg hid]; exact he'', hnode, hf, hr⟩

structure Released (s : Registry α) (n : Node α) (leases : List (Lease α)) : Prop where
  named : ∀ l ∈ leases, l.node = { id := l.id, serial := l.generation } ∧
    l.generation ≤ s.generations
  others : ∀ m, m ≠ n → unreleased m leases = unreleased m s.leases
  fewer : unreleased n leases ≤ unreleased n s.leases

theorem Leased.released_refl (h : Leased s) (n : Node α) : Released s n s.leases :=
  ⟨h.leases, fun _ _ => rfl, Nat.le_refl _⟩

theorem Leased.released_set (h : Leased s) {l : Nat} {lease : Lease α}
    (hl : s.leases[l]? = some lease) (hheld : lease.released = false) :
    Released s lease.node (s.leases.set l { lease with released := true }) ∧
      unreleased lease.node s.leases =
        unreleased lease.node (s.leases.set l { lease with released := true }) + 1 := by
  have hcount := fun n => unreleased_set n hl hheld
  have hone := hcount lease.node
  rw [if_pos rfl] at hone
  refine ⟨⟨fun k hk => ?_, fun m hm => ?_, by omega⟩, hone⟩
  · rcases List.mem_or_eq_of_mem_set hk with hk | rfl
    · exact h.leases k hk
    · exact h.leases lease (List.mem_of_getElem? hl)
  · rw [hcount m, if_neg hm.symm, Nat.add_zero]

section

variable {leases : List (Lease α)} {more : List (Action α)} {cause : Cause}
  {calls : List NodeCall}

theorem Leased.update (h : Leased s) (he : s.entries.lookup id = some e)
    (hcore : e'.core = e.core) (hleases : Released s e.node leases)
    (hrefs : e.teardown = false → e'.refs = unreleased e.node leases)
    (hused : e.teardown = false → e'.retirement.isSome = true → 0 < e'.refs)
    (hretired : e.retirement.isSome = true → e'.retirement.isSome = true)
    (hforget : e.retirement = some .forget → e'.retirement = some .forget)
    (hmore : ∀ a ∈ more, ∃ r, a = .retired e.node r ∧ e.teardown = false ∧
      e'.retirement.isSome = true ∧ (r = .forget → e'.retirement = some .forget)) :
    Leased { s.put id e' with leases, log := s.log ++ more } := by
  simp only [Entry.core, Prod.mk.injEq] at hcore
  obtain ⟨hnode, hgeneration, hteardown, hcloses⟩ := hcore
  have hok := h.entries id e he
  have hmem : ∀ a ∈ s.log ++ more, a ∈ s.log ∨ ∃ r, a = .retired e.node r ∧
      e.teardown = false ∧ e'.retirement.isSome = true ∧
        (r = .forget → e'.retirement = some .forget) := by
    intro a ha
    rcases List.mem_append.mp ha with ha | ha
    · exact .inl ha
    · exact .inr (hmore a ha)
  have hcalled : ∀ m call cause held, .called m call cause held ∈ s.log ++ more →
      .called m call cause held ∈ s.log := by
    intro m call cause held hc
    rcases hmem _ hc with hc | ⟨r, heq, -⟩
    · exact hc
    · cases heq
  refine ⟨?_, ?_, hleases.named, ?_, h.nodes, ?_, ?_, ?_, ?_⟩
  · intro id' e'' he''
    rw [Registry.lookup_put] at he''
    split at he''
    · next hid =>
        cases he''
        subst hid
        refine ⟨by rw [hnode, hgeneration, hok.named], hgeneration ▸ hok.bound,
          by rw [hcloses, hteardown, hok.marked], ?_, ?_, ?_, ?_, ?_⟩
        · intro hfree
          rw [hrefs (hteardown ▸ hfree), hnode]
        · exact fun hfree hsome => hused (hteardown ▸ hfree) hsome
        · intro hfree j hj
          rw [hnode]
          exact hok.working (hteardown ▸ hfree) j hj
        · intro hfree r hr
          rw [hnode] at hr
          rcases hmem _ hr with hr | ⟨r', -, -, hsome, -⟩
          · exact hretired (hok.retired (hteardown ▸ hfree) r hr)
          · exact hsome
        · intro hfree cause held hc
          rw [hnode] at hc
          exact hok.closed (hteardown ▸ hfree) cause held (hcalled _ _ _ _ hc)
    · next hid =>
        have hne := h.apart he he'' hid
        refine (h.entries id' e'' he'').keep (Nat.le_refl _) (hleases.others _ hne)
          (fun j hj heq => ⟨j, hj, heq⟩) fun a ha heq => ?_
        rcases hmem a ha with ha | ⟨r, rfl, -⟩
        · exact ha
        · exact absurd heq.symm hne
  · intro hshut
    have hnone := h.shut hshut id
    rw [he] at hnone
    cases hnone
  · intro a ha
    rcases hmem a ha with ha | ⟨r, rfl, -⟩
    · exact h.known a ha
    · simp only [Action.node, hok.named]
      exact hok.bound
  · intro j hj hweak
    by_cases heq : j.node = e.node
    · have hzero := h.weak j hj hweak
      have hfewer := hleases.fewer
      rw [heq] at hzero ⊢
      simp only
      omega
    · exact (hleases.others _ heq).trans (h.weak j hj hweak)
  · refine h.lent.append fun n hn => ?_
    obtain ⟨r, heq, -⟩ := hmore _ hn
    cases heq
  · exact fun n cause hc => h.called n cause (hcalled _ _ _ _ hc)
  · intro n hn
    rcases hmem _ hn with hn | ⟨r, heq, hfree, -, hforget'⟩
    · rcases h.forgotten n hn with hpurged | ⟨id', e'', he'', hn, hf, hr⟩
      · refine .inl (hpurged.imp_left ?_)
        rintro ⟨cause, held, hc⟩
        exact ⟨cause, held, List.mem_append_left _ hc⟩
      · right
        by_cases hid : id' = id
        · rw [hid, he] at he''
          cases he''
          exact ⟨id, e', by rw [Registry.lookup_put, if_pos rfl], hnode.trans hn,
            hteardown.trans hf, hforget hr⟩
        · exact ⟨id', e'', by rw [Registry.lookup_put, if_neg hid]; exact he'', hn, hf, hr⟩
    · cases heq
      exact .inr ⟨id, e', by rw [Registry.lookup_put, if_pos rfl], hnode, hteardown.trans hfree,
        hforget' rfl⟩

theorem Leased.begin (h : Leased s) (he : s.entries.lookup id = some e)
    (hnode : e'.node = e.node) (hgeneration : e'.generation = e.generation)
    (hleases : Released s e.node leases)
    (hweak : cause.Weak → unreleased e.node leases = 0)
    (hforget : e.teardown = false → e.retirement = some .forget → .purge ∈ calls)
    (hmore : ∀ a ∈ more, ∃ r, a = .retired e.node r ∧ (r = .forget → .purge ∈ calls)) :
    Leased (({ s with leases, log := s.log ++ more } : Registry α).beginTeardown id e' cause
      calls) := by
  have hok := h.entries id e he
  have hmem : ∀ a ∈ s.log ++ more ++ [.began e'.node cause], a ∈ s.log ∨
      a = .began e.node cause ∨ ∃ r, a = .retired e.node r ∧ (r = .forget → .purge ∈ calls) := by
    intro a ha
    rcases List.mem_append.mp ha with ha | ha
    · rcases List.mem_append.mp ha with ha | ha
      · exact .inl ha
      · exact .inr (.inr (hmore a ha))
    · rw [List.mem_singleton.mp ha, hnode]
      exact .inr (.inl rfl)
  have hcalled : ∀ m call cause' held,
      .called m call cause' held ∈ s.log ++ more ++ [.began e'.node cause] →
        .called m call cause' held ∈ s.log := by
    intro m call cause' held hc
    rcases hmem _ hc with hc | heq | ⟨r, heq, -⟩
    · exact hc
    · cases heq
    · cases heq
  refine ⟨?_, ?_, hleases.named, ?_, ?_, ?_, ?_, ?_, ?_⟩
  · intro id' e'' he''
    rw [Registry.lookup_beginTeardown] at he''
    split at he''
    · next hid =>
        cases he''
        subst hid
        exact .torn (by simp only [hnode, hgeneration, hok.named]) (hgeneration ▸ hok.bound) rfl rfl
    · next hid =>
        have hne := h.apart he he'' hid
        refine (h.entries id' e'' he'').keep (Nat.le_refl _) (hleases.others _ hne) ?_ ?_
        · intro j hj heq
          rcases List.mem_append.mp hj with hj | hj
          · exact ⟨j, hj, heq⟩
          · cases List.mem_singleton.mp hj
            exact absurd (heq.symm.trans hnode) hne
        · intro a ha heq
          rcases hmem a ha with ha | rfl | ⟨r, rfl, -⟩
          · exact ha
          · exact absurd heq.symm hne
          · exact absurd heq.symm hne
  · intro hshut
    have hnone := h.shut hshut id
    rw [he] at hnone
    cases hnone
  · intro a ha
    rcases hmem a ha with ha | rfl | ⟨r, rfl, -⟩
    · exact h.known a ha
    · simp only [Action.node, hok.named]
      exact hok.bound
    · simp only [Action.node, hok.named]
      exact hok.bound
  · intro j hj
    rcases List.mem_append.mp hj with hj | hj
    · exact h.nodes j hj
    · cases List.mem_singleton.mp hj
      exact ⟨by simp only [hnode, hgeneration, hok.named], hgeneration ▸ hok.bound⟩
  · intro j hj hweak'
    rcases List.mem_append.mp hj with hj | hj
    · by_cases heq : j.node = e.node
      · have hzero := h.weak j hj hweak'
        have hfewer := hleases.fewer
        rw [heq] at hzero ⊢
        simp only [Registry.beginTeardown, Registry.put]
        omega
      · exact (hleases.others _ heq).trans (h.weak j hj hweak')
    · cases List.mem_singleton.mp hj
      rw [hnode]
      exact hweak hweak'
  · refine NotLentAgain.append (h.lent.append fun n hn => ?_) fun n hn => ?_
    · obtain ⟨r, heq, -⟩ := hmore _ hn
      cases heq
    · cases List.mem_singleton.mp hn
  · exact fun n cause' hc => h.called n cause' (hcalled _ _ _ _ hc)
  · intro n hn
    have hpurge : .purge ∈ calls → Purged e.node (({ s with leases, log := s.log ++ more } :
        Registry α).beginTeardown id e' cause calls) := fun hp =>
      .inr ⟨_, List.mem_append_right _ List.mem_cons_self, hnode, hp⟩
    rcases hmem _ hn with hn | heq | ⟨r, heq, hr⟩
    · rcases h.forgotten n hn with hpurged | ⟨id', e'', he'', hn, hf, hr⟩
      · left
        rcases hpurged with ⟨cause', held, hc⟩ | ⟨j, hj, hjn, hp⟩
        · exact .inl ⟨cause', held, List.mem_append_left _ (List.mem_append_left _ hc)⟩
        · exact .inr ⟨j, List.mem_append_left _ hj, hjn, hp⟩
      · by_cases hid : id' = id
        · rw [hid, he] at he''
          cases he''
          exact .inl (hn ▸ hpurge (hforget hf hr))
        · right
          exact ⟨id', e'', by rw [Registry.lookup_beginTeardown, if_neg hid]; exact he'', hn, hf,
            hr⟩
    · cases heq
    · cases heq
      exact .inl (hpurge (hr rfl))

end

theorem Leased.drop {leases : List (Lease α)} (h : Leased s) (hleases : Released s n leases)
    (habsent : ∀ id e, s.entries.lookup id = some e → e.node ≠ n) :
    Leased { s with leases } := by
  refine ⟨fun id e he => ?_, h.shut, hleases.named, h.known, h.nodes, ?_, h.lent, h.called,
    h.forgotten⟩
  · exact (h.entries id e he).keep (Nat.le_refl _) (hleases.others _ (habsent id e he))
      (fun j hj heq => ⟨j, hj, heq⟩) fun a ha _ => ha
  · intro j hj hweak
    have hzero := h.weak j hj hweak
    have hfewer := hleases.fewer
    by_cases heq : j.node = n
    · rw [heq] at hzero ⊢
      simp only
      omega
    · exact (hleases.others _ heq).trans hzero

theorem Leased.make (h : Leased s) (hopen : s.closed = false)
    (hnone : s.entries.lookup id = none)
    (he : e = { node := { id, serial := s.generations + 1 }, generation := s.generations + 1 }) :
    Leased { s.put id e with
      generations := s.generations + 1
      log := s.log ++ [.made { id, serial := s.generations + 1 }] } := by
  have hunknown : ∀ a ∈ s.log ++ [.made { id, serial := s.generations + 1 }],
      a.node = ({ id, serial := s.generations + 1 } : Node α) →
        a = .made { id, serial := s.generations + 1 } := by
    intro a ha heq
    rcases List.mem_append.mp ha with ha | ha
    · have hknown := h.known a ha
      rw [heq] at hknown
      exact absurd hknown (Nat.not_succ_le_self _)
    · exact List.mem_singleton.mp ha
  have hfresh : unreleased { id, serial := s.generations + 1 } s.leases = 0 := by
    rw [unreleased, List.countP_eq_zero]
    intro l hl hheld
    obtain ⟨hnode, -⟩ := of_decide_eq_true hheld
    obtain ⟨hname, hbound⟩ := h.leases l hl
    rw [hname] at hnode
    have hserial := congrArg Node.serial hnode
    simp only at hserial
    omega
  refine ⟨?_, ?_, ?_, ?_, ?_, h.weak, ?_, ?_, ?_⟩
  · intro id' e'' he''
    rw [Registry.lookup_put] at he''
    split at he''
    · next hid =>
        cases he''
        subst hid he
        refine ⟨rfl, Nat.le_refl _, rfl, fun _ => ?_, fun _ hr => ?_, fun _ j hj heq => ?_,
          fun _ r hr => ?_, fun _ cause held hc => ?_⟩
        · simp only [Registry.put, hfresh]
          rfl
        · cases hr
        · obtain ⟨hname, hbound⟩ := h.nodes j hj
          rw [hname] at heq
          have hserial := congrArg Node.serial heq
          simp only at hserial
          omega
        · have heq := hunknown _ hr rfl
          cases heq
        · have heq := hunknown _ hc rfl
          cases heq
    · next hid =>
        have hok := h.entries id' e'' he''
        refine hok.keep (Nat.le_succ _) rfl (fun j hj heq => ⟨j, hj, heq⟩) fun a ha heq => ?_
        rcases List.mem_append.mp ha with ha | ha
        · exact ha
        · cases List.mem_singleton.mp ha
          rw [hok.named] at heq
          exact absurd (congrArg Node.id heq).symm hid
  · intro hshut
    exact absurd (hopen.symm.trans hshut) Bool.false_ne_true
  · intro l hl
    obtain ⟨hname, hbound⟩ := h.leases l hl
    exact ⟨hname, Nat.le_succ_of_le hbound⟩
  · intro a ha
    rcases List.mem_append.mp ha with ha | ha
    · exact Nat.le_succ_of_le (h.known a ha)
    · cases List.mem_singleton.mp ha
      exact Nat.le_refl _
  · intro j hj
    obtain ⟨hname, hbound⟩ := h.nodes j hj
    exact ⟨hname, Nat.le_succ_of_le hbound⟩
  · refine h.lent.append fun n hn => ?_
    cases List.mem_singleton.mp hn
  · intro n cause hc
    rcases List.mem_append.mp hc with hc | hc
    · exact h.called n cause hc
    · cases List.mem_singleton.mp hc
  · intro n hn
    have hn' : .retired n .forget ∈ s.log := by
      rcases List.mem_append.mp hn with hn | hn
      · exact hn
      · cases List.mem_singleton.mp hn
    rcases h.forgotten n hn' with hpurged | ⟨id', e'', he'', hrest⟩
    · refine .inl (hpurged.imp_left ?_)
      rintro ⟨cause, held, hc⟩
      exact ⟨cause, held, List.mem_append_left _ hc⟩
    · refine .inr ⟨id', e'', ?_, hrest⟩
      rw [Registry.lookup_put, if_neg]
      · exact he''
      · rintro rfl
        rw [hnone] at he''
        cases he''

theorem EntryOk.of_torn (h : EntryOk s id e) (hgenerations : s.generations ≤ t.generations)
    (htorn : e.teardown = true) : EntryOk t id e :=
  .torn h.named (Nat.le_trans h.bound hgenerations) h.marked htorn

theorem Leased.call {j : Teardown α} {as bs : List (Teardown α)} {c : NodeCall}
    {calls : List NodeCall} (h : Leased s) (hs : s.teardowns = as ++ j :: bs)
    (hcalls : j.calls = c :: calls) : Leased { s with
      teardowns := as ++ { j with calls } :: bs
      log := s.log ++ [.called j.node c j.cause (s.held j.node)] } := by
  have hj : j ∈ s.teardowns := hs ▸ List.mem_append_right _ List.mem_cons_self
  have hmem : ∀ k ∈ as ++ { j with calls } :: bs, ∃ k' ∈ s.teardowns, k'.node = k.node ∧
      k'.id = k.id ∧ k'.generation = k.generation ∧ k'.cause = k.cause := by
    intro k hk
    simp only [List.mem_append, List.mem_cons] at hk
    rcases hk with hk | rfl | hk
    · exact ⟨k, by rw [hs]; simp [hk], rfl, rfl, rfl, rfl⟩
    · exact ⟨j, hj, rfl, rfl, rfl, rfl⟩
    · exact ⟨k, by rw [hs]; simp [hk], rfl, rfl, rfl, rfl⟩
  refine ⟨?_, h.shut, h.leases, ?_, ?_, ?_, h.lent.append (fun n hn => by cases List.mem_singleton.mp hn), ?_, ?_⟩
  · intro id e he
    have hok := h.entries id e he
    cases hteardown : e.teardown with
    | true => exact hok.of_torn (Nat.le_refl _) hteardown
    | false =>
        refine hok.keep (Nat.le_refl _) rfl (fun k hk heq => ?_) fun a ha heq => ?_
        · obtain ⟨k', hk', hnode, -⟩ := hmem k hk
          exact ⟨k', hk', hnode.trans heq⟩
        · rcases List.mem_append.mp ha with ha | ha
          · exact ha
          · cases List.mem_singleton.mp ha
            exact absurd heq (hok.working hteardown j hj)
  · intro a ha
    rcases List.mem_append.mp ha with ha | ha
    · exact h.known a ha
    · cases List.mem_singleton.mp ha
      obtain ⟨hname, hbound⟩ := h.nodes j hj
      simp only [Action.node, hname]
      exact hbound
  · intro k hk
    obtain ⟨k', hk', hnode, hid, hgeneration, -⟩ := hmem k hk
    rw [← hnode, ← hid, ← hgeneration]
    exact h.nodes k' hk'
  · intro k hk hweak
    obtain ⟨k', hk', hnode, -, -, hcause⟩ := hmem k hk
    rw [← hnode]
    exact h.weak k' hk' (hcause ▸ hweak)
  · intro n cause hc
    rcases List.mem_append.mp hc with hc | hc
    · exact h.called n cause hc
    · obtain ⟨rfl, -, rfl, hheld⟩ := Action.called.inj (List.mem_singleton.mp hc)
      intro hweak
      have hpos := held_iff.mp hheld.symm
      rw [h.weak j hj hweak] at hpos
      cases hpos
  · intro n hn
    have hn' : .retired n .forget ∈ s.log := by
      rcases List.mem_append.mp hn with hn | hn
      · exact hn
      · cases List.mem_singleton.mp hn
    refine (h.forgotten n hn').imp_left fun hpurged => ?_
    rcases hpurged with ⟨cause, held, hc⟩ | ⟨k, hk, hnode, hp⟩
    · exact .inl ⟨cause, held, List.mem_append_left _ hc⟩
    · rw [hs] at hk
      rcases List.mem_append.mp hk with hk | hk
      · exact .inr ⟨k, List.mem_append_left _ hk, hnode, hp⟩
      · rcases List.mem_cons.mp hk with rfl | hk
        · rw [hcalls] at hp
          rcases List.mem_cons.mp hp with rfl | hp
          · refine .inl ⟨k.cause, s.held k.node, List.mem_append_right _ ?_⟩
            rw [hnode]
            exact List.mem_cons_self
          · exact .inr ⟨{ k with calls }, by simp, hnode, hp⟩
        · exact .inr ⟨k, by simp [hk], hnode, hp⟩

theorem Leased.ended {j : Teardown α} {as bs : List (Teardown α)} (h : Leased s)
    (hs : s.teardowns = as ++ j :: bs) (hcalls : j.calls = []) (ht : t.teardowns = as ++ bs)
    (hlog : t.log = s.log ++ [.ended j.node]) (hclosed : t.closed = s.closed)
    (hgenerations : t.generations = s.generations) (hleases : t.leases = s.leases)
    (hback : ∀ id e, t.entries.lookup id = some e → s.entries.lookup id = some e)
    (hforth : ∀ id e, s.entries.lookup id = some e → e.teardown = false →
      t.entries.lookup id = some e) : Leased t := by
  have hj : j ∈ s.teardowns := hs ▸ List.mem_append_right _ List.mem_cons_self
  have hmem : ∀ k ∈ t.teardowns, k ∈ s.teardowns := by
    intro k hk
    rw [ht] at hk
    rw [hs]
    simp only [List.mem_append, List.mem_cons] at hk ⊢
    tauto
  refine ⟨?_, ?_, ?_, ?_, ?_, ?_, ?_, ?_, ?_⟩
  · intro id e he
    have hok := h.entries id e (hback id e he)
    cases hteardown : e.teardown with
    | true => exact hok.of_torn (Nat.le_of_eq hgenerations.symm) hteardown
    | false =>
        refine hok.keep (Nat.le_of_eq hgenerations.symm) (by rw [hleases])
          (fun k hk heq => ⟨k, hmem k hk, heq⟩) fun a ha heq => ?_
        rw [hlog] at ha
        rcases List.mem_append.mp ha with ha | ha
        · exact ha
        · cases List.mem_singleton.mp ha
          exact absurd heq (hok.working hteardown j hj)
  · intro hshut id
    cases he : t.entries.lookup id with
    | none => rfl
    | some e =>
        have hsome := hback id e he
        rw [h.shut (hclosed ▸ hshut) id] at hsome
        cases hsome
  · rw [hleases, hgenerations]
    exact h.leases
  · intro a ha
    rw [hlog] at ha
    rw [hgenerations]
    rcases List.mem_append.mp ha with ha | ha
    · exact h.known a ha
    · cases List.mem_singleton.mp ha
      obtain ⟨hname, hbound⟩ := h.nodes j hj
      simp only [Action.node, hname]
      exact hbound
  · intro k hk
    rw [hgenerations]
    exact h.nodes k (hmem k hk)
  · intro k hk hweak
    rw [hleases]
    exact h.weak k (hmem k hk) hweak
  · rw [hlog]
    refine h.lent.append fun n hn => ?_
    cases List.mem_singleton.mp hn
  · intro n cause hc
    rw [hlog] at hc
    rcases List.mem_append.mp hc with hc | hc
    · exact h.called n cause hc
    · cases List.mem_singleton.mp hc
  · intro n hn
    rw [hlog] at hn
    have hn' : .retired n .forget ∈ s.log := by
      rcases List.mem_append.mp hn with hn | hn
      · exact hn
      · cases List.mem_singleton.mp hn
    rcases h.forgotten n hn' with (⟨cause, held, hc⟩ | ⟨k, hk, hnode, hp⟩) |
      ⟨id, e, he, hnode, hf, hr⟩
    · exact .inl (.inl ⟨cause, held, hlog ▸ List.mem_append_left _ hc⟩)
    · refine .inl (.inr ⟨k, ?_, hnode, hp⟩)
      rw [hs] at hk
      rw [ht]
      rcases List.mem_append.mp hk with hk | hk
      · exact List.mem_append_left _ hk
      · rcases List.mem_cons.mp hk with rfl | hk
        · rw [hcalls] at hp
          cases hp
        · exact List.mem_append_right _ hk
    · exact .inr ⟨id, e, hforth id e he hf, hnode, hf, hr⟩

theorem Leased.close (h : Leased s) : Leased s.close := by
  rw [Registry.close]
  split
  · exact h
  · have htarget : ∀ k ∈ s.entries.entries.filterMap Registry.closeTarget, ∃ e,
        s.entries.lookup k.id = some e ∧ k.node = e.node ∧ k.generation = e.generation ∧
          k.cause = .close := by
      intro k hk
      obtain ⟨⟨id, e⟩, he, hk⟩ := List.mem_filterMap.mp hk
      rw [← AList.mem_lookup_iff] at he
      rw [Registry.closeTarget] at hk
      split at hk
      · cases hk
      · cases hk
        exact ⟨e, he, rfl, rfl, rfl⟩
    refine ⟨?_, fun _ _ => rfl, h.leases, ?_, ?_, ?_, ?_, ?_, ?_⟩
    · intro id e he
      cases he
    · intro a ha
      rcases List.mem_append.mp ha with ha | ha
      · exact h.known a ha
      · obtain ⟨k, hk, rfl⟩ := List.mem_map.mp ha
        obtain ⟨e, he, hnode, -⟩ := htarget k hk
        have hok := h.entries _ e he
        simp only [Action.node, hnode, hok.named]
        exact hok.bound
    · intro j hj
      rcases List.mem_append.mp hj with hj | hj
      · exact h.nodes j hj
      · obtain ⟨e, he, hnode, hgeneration, -⟩ := htarget j hj
        have hok := h.entries _ e he
        rw [hnode, hgeneration]
        exact ⟨hok.named, hok.bound⟩
    · intro j hj hweak
      rcases List.mem_append.mp hj with hj | hj
      · exact h.weak j hj hweak
      · obtain ⟨e, -, -, -, hcause⟩ := htarget j hj
        rw [hcause] at hweak
        exact hweak.elim
    · refine h.lent.append fun n hn => ?_
      obtain ⟨k, -, heq⟩ := List.mem_map.mp hn
      cases heq
    · intro n cause hc
      rcases List.mem_append.mp hc with hc | hc
      · exact h.called n cause hc
      · obtain ⟨k, -, heq⟩ := List.mem_map.mp hc
        cases heq
    · intro n hn
      have hn' : .retired n .forget ∈ s.log := by
        rcases List.mem_append.mp hn with hn | hn
        · exact hn
        · obtain ⟨k, -, heq⟩ := List.mem_map.mp hn
          cases heq
      left
      rcases h.forgotten n hn' with (⟨cause, held, hc⟩ | ⟨k, hk, hnode, hp⟩) |
        ⟨id, e, he, hnode, hf, hr⟩
      · exact .inl ⟨cause, held, List.mem_append_left _ hc⟩
      · exact .inr ⟨k, List.mem_append_left _ hk, hnode, hp⟩
      · have hcloses : e.teardownCloses = false := (h.entries id e he).marked.trans hf
        have hmem : (⟨id, e⟩ : Sigma fun _ : α => Entry α) ∈ s.entries.entries :=
          AList.mem_lookup_iff.mp he
        refine .inr ⟨{ id, node := e.node, generation := e.generation, cause := .close
                       calls := Retirement.forget.calls, removes := false },
          List.mem_append_right _ (List.mem_filterMap.mpr ⟨_, hmem, ?_⟩), hnode,
          by simp [Retirement.calls]⟩
        simp [Registry.closeTarget, hcloses, hr]

end Dolgate.Tailnet
