import Mathlib.Data.List.Perm.Basic
import Dolgate.Prompts

set_option autoImplicit false

/-! When answers and closed prompts do not meet. -/

namespace Dolgate.Prompts

open Transition

variable {s t : State} {e : Event} {n k d : Nat} {challenge : Challenge} {answer : Answer}

structure Held (s : State) : Prop where
  pending : ∀ entry ∈ s.pendingChallenges, ∃ challenge, s.challenges[entry.2]? = some challenge ∧
    challenge.id = entry.1 ∧ challenge.closed = false ∧ entry.2 ∉ s.closing ∧
      s.reader ≠ .closing entry.2
  distinct : (s.pendingChallenges.map Prod.snd).Nodup
  closing : ∀ n ∈ s.closing, ∃ challenge, s.challenges[n]? = some challenge ∧
    challenge.closed = false ∧ s.reader ≠ .closing n
  once : s.closing.Nodup
  cancelling : ∀ n, s.reader = .closing n → ∃ challenge, s.challenges[n]? = some challenge ∧
    challenge.closed = false
  sending : ∀ n answer, s.reader = .sending n answer → ∃ challenge,
    s.challenges[n]? = some challenge ∧ challenge.closed = false ∧
      (n = answer.shownFor ∨ challenge.Full)
  safe : Safe s

theorem held_nil : Held {} where
  pending := nofun
  distinct := List.nodup_nil
  closing := nofun
  once := List.nodup_nil
  cancelling := nofun
  sending := nofun
  safe := ⟨rfl, nofun⟩

theorem set_some (h : s.challenges[n]? = some challenge) (challenge' : Challenge) :
    (s.challenges.set n challenge')[k]? =
      if k = n then some challenge' else s.challenges[k]? := by
  have hn := (List.getElem?_eq_some_iff.mp h).1
  by_cases hk : k = n
  · simp [hk, hn]
  · simp [hk, List.getElem?_set_ne (Ne.symm hk)]

structure Follows (challenge challenge' : Challenge) : Prop where
  id : challenge'.id = challenge.id
  closed : challenge'.closed = challenge.closed
  full : challenge.Full → challenge'.Full
  delivered : ∀ accepted, Delivered challenge accepted → Delivered challenge' accepted

theorem Held.follow {challenge' : Challenge} (h : Held s) (hn : s.challenges[n]? = some challenge)
    (hf : Follows challenge challenge') :
    Held { s with challenges := s.challenges.set n challenge' } where
  pending entry he := by
    obtain ⟨c, hc, hid, hclosed, hrest⟩ := h.pending entry he
    simp only [set_some hn]
    split
    next heq =>
      rw [heq] at hc
      cases hn.symm.trans hc
      exact ⟨challenge', rfl, hf.id.trans hid, hf.closed.trans hclosed, hrest⟩
    next => exact ⟨c, hc, hid, hclosed, hrest⟩
  distinct := h.distinct
  closing k hk := by
    obtain ⟨c, hc, hclosed, hrest⟩ := h.closing k hk
    simp only [set_some hn]
    split
    next heq =>
      rw [heq] at hc
      cases hn.symm.trans hc
      exact ⟨challenge', rfl, hf.closed.trans hclosed, hrest⟩
    next => exact ⟨c, hc, hclosed, hrest⟩
  once := h.once
  cancelling k hk := by
    obtain ⟨c, hc, hclosed⟩ := h.cancelling k hk
    simp only [set_some hn]
    split
    next heq =>
      rw [heq] at hc
      cases hn.symm.trans hc
      exact ⟨challenge', rfl, hf.closed.trans hclosed⟩
    next => exact ⟨c, hc, hclosed⟩
  sending k answer hk := by
    obtain ⟨c, hc, hclosed, hshown⟩ := h.sending k answer hk
    simp only [set_some hn]
    split
    next heq =>
      rw [heq] at hc
      cases hn.symm.trans hc
      exact ⟨challenge', rfl, hf.closed.trans hclosed, hshown.imp_right hf.full⟩
    next => exact ⟨c, hc, hclosed, hshown⟩
  safe := by
    refine ⟨h.safe.1, ?_⟩
    intro accepted ha
    obtain ⟨hshown, c, hc, hdelivered⟩ := h.safe.2 accepted ha
    refine ⟨hshown, ?_⟩
    simp only [set_some hn]
    split
    next heq =>
      rw [heq] at hc
      cases hn.symm.trans hc
      exact ⟨challenge', rfl, hf.delivered accepted hdelivered⟩
    next => exact ⟨c, hc, hdelivered⟩

theorem Held.receive (h : Held s) (he : s.receive n = some t) : Held t := by
  simp only [State.receive, Option.bind_eq_bind, Option.bind_eq_some_iff] at he
  obtain ⟨challenge, hn, he⟩ := he
  split at he
  next hwaiting =>
    split at he
    next answer hbuffer =>
      cases he
      refine h.follow hn ⟨rfl, rfl, fun hfull => absurd hwaiting hfull.2, ?_⟩
      intro accepted hdelivered
      refine hdelivered.imp_right fun hd => ?_
      rw [hwaiting] at hd
      exact Option.some.inj (hbuffer.symm.trans hd)
    next hbuffer =>
      split at he
      next =>
        cases he
        refine h.follow hn ⟨rfl, rfl, fun hfull => absurd hwaiting hfull.2, ?_⟩
        exact fun accepted _ => Or.inr trivial
      next => cases he
  next => cases he

theorem Held.giveUp (h : Held s) (he : s.giveUp n = some t) : Held t := by
  simp only [State.giveUp, Option.bind_eq_bind, Option.bind_eq_some_iff] at he
  obtain ⟨challenge, hn, he⟩ := he
  split at he
  next hwaiting =>
    cases he
    refine h.follow hn ⟨rfl, rfl, fun hfull => absurd hwaiting hfull.2, ?_⟩
    exact fun accepted _ => Or.inr trivial
  next => cases he

theorem Held.close (h : Held s) (hn : s.challenges[n]? = some challenge)
    (hclosed : challenge.closed = false) (hpending : ∀ entry ∈ s.pendingChallenges, entry.2 ≠ n)
    (hclosing : n ∉ s.closing) (hcancelling : s.reader ≠ .closing n)
    (hsending : ∀ answer, s.reader ≠ .sending n answer) (he : s.close n = some t) : Held t := by
  simp only [State.close, Option.bind_eq_bind, Option.bind_eq_some_iff] at he
  obtain ⟨c, hc, he⟩ := he
  cases hn.symm.trans hc
  rw [if_neg (by simp [hclosed])] at he
  cases he
  have hother : ∀ k, k ≠ n →
      (s.challenges.set n { challenge with closed := true })[k]? = s.challenges[k]? := by
    intro k hk
    simp [set_some hn, hk]
  refine ⟨?_, h.distinct, ?_, h.once, ?_, ?_, h.safe.1, ?_⟩
  · intro entry hentry
    simp only [hother entry.2 (hpending entry hentry)]
    exact h.pending entry hentry
  · intro k hk
    have hne : k ≠ n := by
      rintro rfl
      exact hclosing hk
    simp only [hother k hne]
    exact h.closing k hk
  · intro k hk
    have hne : k ≠ n := by
      rintro rfl
      exact hcancelling hk
    simp only [hother k hne]
    exact h.cancelling k hk
  · intro k answer hk
    have hne : k ≠ n := by
      rintro rfl
      exact hsending answer hk
    simp only [hother k hne]
    exact h.sending k answer hk
  · intro accepted ha
    obtain ⟨hshown, c, hc, hdelivered⟩ := h.safe.2 accepted ha
    refine ⟨hshown, ?_⟩
    by_cases heq : accepted.challenge = n
    · rw [heq] at hc
      cases hn.symm.trans hc
      exact ⟨{ challenge with closed := true }, by simp [set_some hn, heq], hdelivered⟩
    · exact ⟨c, by simp [heq, set_some hn, hc], hdelivered⟩

theorem Held.idle (h : Held s) : Held { s with reader := .idle } where
  pending entry he := by
    obtain ⟨c, hc, hid, hclosed, hclosing, -⟩ := h.pending entry he
    exact ⟨c, hc, hid, hclosed, hclosing, by simp⟩
  distinct := h.distinct
  closing k hk := by
    obtain ⟨c, hc, hclosed, -⟩ := h.closing k hk
    exact ⟨c, hc, hclosed, by simp⟩
  once := h.once
  cancelling := nofun
  sending := nofun
  safe := h.safe

theorem Held.send (h : Held s) (hr : s.reader = .sending n answer)
    (he : s.send n answer = some t) : Held t := by
  obtain ⟨challenge, hn, hclosed, hshown⟩ := h.sending n answer hr
  simp only [State.send, Option.bind_eq_bind, Option.bind_eq_some_iff] at he
  obtain ⟨c, hc, he⟩ := he
  cases hn.symm.trans hc
  rw [if_neg (by simp [hclosed])] at he
  split at he
  next =>
    cases he
    exact h.idle
  next hbuffer =>
    cases he
    have hshown : n = answer.shownFor :=
      hshown.resolve_right fun hfull => by simp [Challenge.Full, hbuffer] at hfull
    have hf : Follows challenge { challenge with buffer := some answer } := by
      refine ⟨rfl, rfl, fun hfull => by simp [Challenge.Full, hbuffer] at hfull, ?_⟩
      intro accepted hd
      refine hd.imp_right fun hd => ?_
      cases hphase : challenge.phase with
      | waiting => simp [hphase, hbuffer] at hd
      | received answer => simpa [hphase] using hd
      | gone => trivial
    have hfollow := h.idle.follow (n := n) hn hf
    refine ⟨hfollow.pending, hfollow.distinct, hfollow.closing, hfollow.once, hfollow.cancelling,
      hfollow.sending, hfollow.safe.1, ?_⟩
    intro accepted ha
    obtain ha | ha := List.mem_append.mp ha
    · exact hfollow.safe.2 accepted ha
    · cases List.mem_singleton.mp ha
      refine ⟨hshown, _, by rw [set_some hn, if_pos rfl], ?_⟩
      unfold Delivered
      cases hphase : challenge.phase with
      | waiting => simp
      | received answer => simp
      | gone => simp

theorem mem_delete {pending : List (String × Nat)} {id : String} {entry : String × Nat} :
    entry ∈ delete pending id ↔ entry ∈ pending ∧ entry.1 ≠ id := by
  simp [delete]

theorem delete_sublist (pending : List (String × Nat)) (id : String) :
    (delete pending id).Sublist pending := List.filter_sublist

theorem Held.fewer {pending : List (String × Nat)} (h : Held s)
    (hsub : pending.Sublist s.pendingChallenges) : Held { s with pendingChallenges := pending } where
  pending entry he := h.pending entry (hsub.subset he)
  distinct := h.distinct.sublist (hsub.map Prod.snd)
  closing := h.closing
  once := h.once
  cancelling := h.cancelling
  sending := h.sending
  safe := h.safe

theorem Held.ask (h : Held s) (he : s.ask d = some t) : Held t := by
  simp only [State.ask, Option.bind_eq_bind, Option.bind_eq_some_iff] at he
  obtain ⟨dial, -, he⟩ := he
  split at he
  next =>
    cases he
    have hlt : ∀ {k : Nat} {c : Challenge}, s.challenges[k]? = some c → k < s.challenges.length :=
      fun hk => (List.getElem?_eq_some_iff.mp hk).1
    have hget : ∀ {k : Nat} {c c' : Challenge}, s.challenges[k]? = some c →
        (s.challenges ++ [c'])[k]? = some c := by
      intro k c c' hk
      rw [List.getElem?_append_left (hlt hk)]
      exact hk
    refine ⟨?_, ?_, ?_, h.once, ?_, ?_, h.safe.1, ?_⟩
    · intro entry hentry
      obtain rfl | hentry := List.mem_cons.mp hentry
      · refine ⟨_, List.getElem?_concat_length, rfl, rfl, ?_, ?_⟩
        · intro hclosing
          obtain ⟨c, hc, -⟩ := h.closing _ hclosing
          exact Nat.lt_irrefl _ (hlt hc)
        · intro hreader
          obtain ⟨c, hc, -⟩ := h.cancelling _ hreader
          exact Nat.lt_irrefl _ (hlt hc)
      · obtain ⟨c, hc, hrest⟩ := h.pending entry (mem_delete.mp hentry).1
        exact ⟨c, hget hc, hrest⟩
    · rw [List.map_cons, List.nodup_cons]
      refine ⟨?_, h.distinct.sublist ((delete_sublist _ _).map Prod.snd)⟩
      intro hmem
      obtain ⟨entry, hentry, heq⟩ := List.mem_map.mp hmem
      obtain ⟨c, hc, -⟩ := h.pending entry (mem_delete.mp hentry).1
      rw [heq] at hc
      exact Nat.lt_irrefl _ (hlt hc)
    · intro k hk
      obtain ⟨c, hc, hrest⟩ := h.closing k hk
      exact ⟨c, hget hc, hrest⟩
    · intro k hk
      obtain ⟨c, hc, hrest⟩ := h.cancelling k hk
      exact ⟨c, hget hc, hrest⟩
    · intro k answer hk
      obtain ⟨c, hc, hrest⟩ := h.sending k answer hk
      exact ⟨c, hget hc, hrest⟩
    · intro accepted ha
      obtain ⟨hshown, c, hc, hdelivered⟩ := h.safe.2 accepted ha
      exact ⟨hshown, c, hget hc, hdelivered⟩
  next => cases he

theorem find_mem {id : String} (h : s.find id = some n) : (id, n) ∈ s.pendingChallenges := by
  simp only [State.find, Option.map_eq_some_iff] at h
  obtain ⟨⟨id', n'⟩, hfind, rfl⟩ := h
  have hid : id' = id := by simpa using List.find?_some hfind
  exact hid ▸ List.mem_of_find?_eq_some hfind

theorem findFor_mem {endpointID id : String} (h : s.findFor endpointID id = some n) :
    (id, n) ∈ s.pendingChallenges :=
  find_mem (Option.filter_eq_some_iff.mp h).1

theorem Held.take {pending taken : List (String × Nat)} (h : Held s)
    (hsub : pending.Sublist s.pendingChallenges) (htaken : taken.Sublist s.pendingChallenges)
    (hapart : ∀ entry ∈ pending, entry ∉ taken) :
    Held { s with
      pendingChallenges := pending, closing := s.closing ++ taken.map Prod.snd } := by
  have hfewer := h.fewer hsub
  refine ⟨?_, hfewer.distinct, ?_, ?_, h.cancelling, h.sending, h.safe⟩
  · intro entry hentry
    obtain ⟨c, hc, hid, hclosed, hclosing, hreader⟩ := hfewer.pending entry hentry
    refine ⟨c, hc, hid, hclosed, ?_, hreader⟩
    intro hmem
    obtain hmem | hmem := List.mem_append.mp hmem
    · exact hclosing hmem
    · obtain ⟨entry', hentry', heq⟩ := List.mem_map.mp hmem
      have hsame := List.inj_on_of_nodup_map h.distinct (htaken.subset hentry')
        (hsub.subset hentry) heq
      exact hapart entry hentry (hsame ▸ hentry')
  · intro k hk
    obtain hk | hk := List.mem_append.mp hk
    · exact h.closing k hk
    · obtain ⟨entry, hentry, rfl⟩ := List.mem_map.mp hk
      obtain ⟨c, hc, -, hclosed, -, hreader⟩ := h.pending entry (htaken.subset hentry)
      exact ⟨c, hc, hclosed, hreader⟩
  · rw [List.nodup_append]
    refine ⟨h.once, h.distinct.sublist (htaken.map Prod.snd), ?_⟩
    rintro k hk k' hk' rfl
    obtain ⟨entry, hentry, rfl⟩ := List.mem_map.mp hk'
    obtain ⟨c, hc, -, -, hclosing, -⟩ := h.pending entry (htaken.subset hentry)
    exact hclosing hk

theorem Held.closes (h : Held s) (hok : Apart s (.closes k)) (hk : s.closing[k]? = some n)
    (he : ({ s with closing := s.closing.eraseIdx k } : State).close n = some t) : Held t := by
  have hmem := List.mem_of_getElem? hk
  have hsub := List.eraseIdx_sublist s.closing k
  have hleft : n ∉ s.closing.eraseIdx k := by
    obtain ⟨hlt, rfl⟩ := List.getElem?_eq_some_iff.mp hk
    have hperm := List.getElem_cons_eraseIdx_perm hlt
    exact (List.nodup_cons.mp (hperm.nodup_iff.mpr h.once)).1
  have hless : Held { s with closing := s.closing.eraseIdx k } := by
    refine ⟨?_, h.distinct, fun m hm => h.closing m (hsub.subset hm), h.once.sublist hsub,
      h.cancelling, h.sending, h.safe⟩
    intro entry hentry
    obtain ⟨c, hc, hid, hclosed, hclosing, hreader⟩ := h.pending entry hentry
    exact ⟨c, hc, hid, hclosed, fun hm => hclosing (hsub.subset hm), hreader⟩
  obtain ⟨c, hc, hclosed, hreader⟩ := h.closing n hmem
  refine hless.close hc hclosed ?_ hleft hreader (fun answer => hok n answer hk) he
  rintro entry hentry rfl
  obtain ⟨c, -, -, -, hclosing, -⟩ := h.pending entry hentry
  exact hclosing hmem

theorem Held.step (h : Held s) (hok : Apart s e) (he : step s e = some t) : Held t := by
  unfold Prompts.step at he
  rw [if_neg (by simp [h.safe.1])] at he
  cases e with
  | dial endpointID =>
      cases he
      exact ⟨h.pending, h.distinct, h.closing, h.once, h.cancelling, h.sending, h.safe⟩
  | ask d => exact h.ask he
  | respond endpointID id answer =>
      dsimp only at he
      split at he
      next hidle =>
        cases he
        split
        next n hfind =>
          obtain ⟨c, hc, -, hclosed, hclosing, -⟩ := h.pending _ (findFor_mem hfind)
          refine ⟨?_, h.distinct, ?_, h.once, (fun _ hn => by cases hn), ?_, h.safe⟩
          · intro entry hentry
            obtain ⟨c, hc, hid, hclosed, hclosing, -⟩ := h.pending entry hentry
            exact ⟨c, hc, hid, hclosed, hclosing, by simp⟩
          · intro k hk
            obtain ⟨c, hc, hclosed, -⟩ := h.closing k hk
            exact ⟨c, hc, hclosed, by simp⟩
          · intro k answer' hk
            cases hk
            exact ⟨c, hc, hclosed, hok hidle n c hfind hc⟩
        next => exact h
      next => cases he
  | send =>
      dsimp only at he
      split at he
      next n answer hr => exact h.send hr he
      next => cases he
  | cancel endpointID id =>
      dsimp only at he
      split at he
      next hidle =>
        cases he
        split
        next n hfind =>
          have hmem := findFor_mem hfind
          have hfewer := h.fewer (delete_sublist s.pendingChallenges id)
          obtain ⟨c, hc, hcid, hclosed, hclosing, -⟩ := h.pending _ hmem
          refine ⟨?_, hfewer.distinct, ?_, h.once, ?_, (fun _ _ hk => by cases hk), h.safe⟩
          · intro entry hentry
            obtain ⟨c', hc', hid, hclosed', hclosing', -⟩ := hfewer.pending entry hentry
            refine ⟨c', hc', hid, hclosed', hclosing', ?_⟩
            intro heq
            cases heq
            cases hc.symm.trans hc'
            exact (mem_delete.mp hentry).2 (hid.symm.trans hcid)
          · intro k hk
            obtain ⟨c', hc', hclosed', -⟩ := h.closing k hk
            refine ⟨c', hc', hclosed', ?_⟩
            rintro heq
            cases heq
            exact hclosing hk
          · intro k hk
            cases hk
            exact ⟨c, hc, hclosed⟩
        next => exact h
      next => cases he
  | cancelCloses =>
      dsimp only at he
      split at he
      next n hr =>
        obtain ⟨c, hc, hclosed⟩ := h.cancelling n hr
        refine h.idle.close hc hclosed ?_ ?_ (by simp) (by simp) he
        · rintro entry hentry rfl
          obtain ⟨-, -, -, -, -, hreader⟩ := h.pending entry hentry
          exact hreader hr
        · intro hmem
          obtain ⟨-, -, -, hreader⟩ := h.closing n hmem
          exact hreader hr
      next => cases he
  | stop endpointID =>
      cases he
      refine h.take List.filter_sublist List.filter_sublist ?_
      intro entry hentry hentry'
      simp only [List.mem_filter] at hentry hentry'
      simp [hentry'.2] at hentry
  | shutdown =>
      cases he
      exact h.take (List.nil_sublist _) (List.Sublist.refl _) fun _ hentry => by cases hentry
  | closes k =>
      simp only [Option.bind_eq_bind, Option.bind_eq_some_iff] at he
      obtain ⟨n, hk, he⟩ := he
      exact h.closes hok hk he
  | receive n => exact h.receive he
  | giveUp n => exact h.giveUp he
  | cleanup d =>
      simp only [State.cleanup, Option.bind_eq_bind, Option.bind_eq_some_iff] at he
      obtain ⟨dial, -, n, -, c, -, he⟩ := he
      split at he
      next => cases he
      next =>
        cases he
        have hfewer := h.fewer (delete_sublist s.pendingChallenges c.id)
        exact ⟨hfewer.pending, hfewer.distinct, hfewer.closing, hfewer.once, hfewer.cancelling,
          hfewer.sending, hfewer.safe⟩

theorem respond_eq {endpointID id : String} (hidle : s.reader = .idle)
    (hfind : s.findFor endpointID id = some n)
    (he : step s (.respond endpointID id answer) = some t) :
    t = { s with reader := .sending n answer } := by
  unfold step at he
  split at he
  next => cases he
  next =>
    simpa [hidle, hfind, eq_comm] using he

theorem wrong_send (hr : s.reader = .sending n answer) (hn : s.challenges[n]? = some challenge)
    (hwrong : challenge.closed = true ∨ n ≠ answer.shownFor ∧ challenge.buffer = none) :
    ∃ events u, run step s events = some u ∧ ¬ Safe u := by
  cases hcrashed : s.crashed with
  | true => exact ⟨[], s, rfl, fun hsafe => by simp [hsafe.1] at hcrashed⟩
  | false =>
      cases hclosed : challenge.closed with
      | true =>
          refine ⟨[.send], { s with reader := .idle, crashed := true }, ?_, ?_⟩
          · simp [run, step, hcrashed, hr, State.send, hn, hclosed]
          · exact fun hsafe => by simpa using hsafe.1
      | false =>
          obtain ⟨hne, hbuffer⟩ := hwrong.resolve_left (by simp [hclosed])
          refine ⟨[.send], { s with
            reader := .idle
            challenges := s.challenges.set n { challenge with buffer := some answer }
            accepted := s.accepted ++
              [{ answer, challenge := n, ended := challenge.phase ≠ .waiting }] }, ?_, ?_⟩
          · simp [run, step, hcrashed, hr, State.send, hn, hclosed, hbuffer]
          · intro hsafe
            exact hne (hsafe.2 _ (List.mem_append_right _ (List.mem_singleton_self _))).1

theorem goes_wrong_of_not_apart (he : step s e = some t) (hnot : ¬ Apart s e) :
    ∃ events u, run step t events = some u ∧ ¬ Safe u := by
  cases e with
  | closes k =>
      simp only [Apart, not_forall, ne_eq, not_not] at hnot
      obtain ⟨n, answer, hk, hr⟩ := hnot
      unfold step at he
      split at he
      next => cases he
      next hcrashed =>
        simp only [hk, Option.bind_eq_bind, Option.bind_some, State.close,
          Option.bind_eq_some_iff] at he
        obtain ⟨c, hc, he⟩ := he
        split at he
        next =>
          cases he
          exact ⟨[], _, rfl, fun hsafe => by simpa using hsafe.1⟩
        next =>
          cases he
          exact wrong_send hr (by rw [set_some hc, if_pos rfl]) (Or.inl rfl)
  | respond endpointID id answer =>
      simp only [Apart, not_forall, not_or] at hnot
      obtain ⟨hidle, n, challenge, hfind, hn, hne, hfull⟩ := hnot
      obtain rfl := respond_eq hidle hfind he
      by_cases hbuffer : challenge.buffer = none
      · exact wrong_send rfl hn (Or.inr ⟨hne, hbuffer⟩)
      · -- The prompt still waits, so it can read what is in the channel first.
        obtain ⟨first, hbuffer⟩ := Option.ne_none_iff_exists'.mp hbuffer
        have hwaiting : challenge.phase = .waiting := by
          by_contra hphase
          exact hfull ⟨by simp [hbuffer], hphase⟩
        have hcrashed : s.crashed = false := by
          by_contra hc
          simp [step, hc] at he
        obtain ⟨events, u, hrun, hu⟩ := wrong_send (s := { s with
            reader := .sending n answer
            challenges := s.challenges.set n
              { challenge with buffer := none, phase := .received first } })
          rfl (by rw [set_some hn, if_pos rfl]) (Or.inr ⟨hne, rfl⟩)
        refine ⟨.receive n :: events, u, run_cons.mpr ⟨_, ?_, hrun⟩, hu⟩
        simp [step, hcrashed, State.receive, hn, hwaiting, hbuffer]
  | _ => exact absurd trivial hnot

/-- Answers and the ends of prompts go together as long as none is closed while an answer for it is
on its way, and no answer is looked up under an ID that has passed on. Else the next step of the
reader can be a wrong one. -/
theorem answers_reach_their_prompts (events : List Event) :
    (Admissible Apart step {} events → Always Safe step {} events) ∧
      ∀ (s t : State) (e : Event), run step {} events = some s → step s e = some t →
        ¬ Apart s e → ∃ more u, run step t more = some u ∧ ¬ Safe u := by
  constructor
  · exact always_of_admissible (fun _ h => h.safe) (fun _ _ _ h hok he => h.step hok he) held_nil
  · exact fun s t e _ he hnot => goes_wrong_of_not_apart he hnot

def given : Answer := { shownFor := 0, responses := ["123456"] }

def stopped : List Event :=
  [.dial "rule", .ask 0, .respond "rule" "rule-1" given, .stop "rule", .closes 0, .send]

theorem stop_crashes_answer : ¬ ∀ (events : List Event) (s : State),
    run step {} events = some s → Safe s := by
  intro h
  have hview : (run step {} stopped).map State.crashed = some true := by decide
  obtain ⟨s, hs, hcrashed⟩ := Option.map_eq_some_iff.mp hview
  simp [(h stopped s hs).1] at hcrashed

/-- `Apart`, as it can be computed. -/
def apart (s : State) : Event → Bool
  | .closes k => match s.closing[k]?, s.reader with
      | some n, .sending m _ => n ≠ m
      | _, _ => true
  | .respond endpointID id answer => (s.findFor endpointID id).all fun n =>
      s.challenges[n]?.all fun challenge => n = answer.shownFor || decide challenge.Full
  | _ => true

theorem apart_of_check (h : apart s e = true) : Apart s e := by
  cases e with
  | closes k =>
      intro n answer hk hr
      simp [apart, hk, hr] at h
  | respond endpointID id answer =>
      intro _ n challenge hfind hn
      simpa [apart, hfind, hn] using h
  | _ => trivial

def answeredFirst : List Event :=
  [.dial "rule", .ask 0, .respond "rule" "rule-1" given, .send, .stop "rule", .closes 0, .receive 0,
   .cleanup 0]

theorem answer_before_stop_is_safe : Always Safe step {} answeredFirst :=
  (answers_reach_their_prompts answeredFirst).1
    (admissible_of_allows (fun _ _ => apart_of_check) (by decide))

end Dolgate.Prompts
