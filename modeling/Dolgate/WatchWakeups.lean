import Mathlib
import Dolgate.WatchHub

set_option autoImplicit false

namespace Dolgate.WatchHub

open Transition

variable {U : Type} [DecidableEq U]

def holders (requests : List (Request U)) (e : Nat) : Nat :=
  requests.countP fun r => r.held = some e

/-- Open channels are those of mapped entries, one for a user, and none is closed twice. -/
structure Hub.Sound (h : Hub U) : Prop where
  mapped : ∀ u e, h.users.lookup u = some e → e < h.next ∧ (h.heap e).closes = 0
  apart : ∀ u u' e, h.users.lookup u = some e → h.users.lookup u' = some e → u = u'
  once : ∀ e, (h.heap e).closes ≤ 1
  closedOnce : h.closedCloses = if h.closed then 1 else 0

def Holds (h : Hub U) (r : Request U) : Prop :=
  ∀ e, r.held = some e → e < h.next ∧ (h.heap e).since ≤ r.since ∧
    ((h.heap e).closes = 0 → h.users.lookup r.user = some e)

def Counted (h : Hub U) (requests : List (Request U)) : Prop :=
  ∀ e, e < h.next → (h.heap e).waiters = holders requests e

structure Looping (h : Hub U) (loops : List (Phase U)) : Prop where
  one : loops.length = if h.checking then 1 else 0
  waiting : h.closed = false → h.checking = false → ∀ u, h.users.lookup u = none

structure Consistent (s : System U) : Prop where
  sound : s.hub.Sound
  held : ∀ r ∈ s.requests, Holds s.hub r
  counted : Counted s.hub s.requests
  known : ∀ r ∈ s.requests, r.since ≤ (s.rows r.user).revision
  looping : Looping s.hub s.loops

theorem consistent_init (rows : U → Row) : Consistent (System.init rows) where
  sound := ⟨by simp [System.init, Hub.new], by simp [System.init, Hub.new],
    by simp [System.init, Hub.new], rfl⟩
  held := by simp [System.init]
  counted := by simp [Counted, System.init, Hub.new]
  known := by simp [System.init]
  looping := ⟨rfl, by simp [System.init, Hub.new]⟩

/-! What the locked sections do to the map and the heap. -/

namespace Hub

variable (h : Hub U) (user : U) (since : Int) (e : Nat)

theorem lookup_erase (t : Table U Nat) (u : U) :
    (t.erase user).lookup u = if u = user then none else t.lookup u := by
  split
  · next heq => rw [heq, AList.lookup_erase]
  · next hne => exact AList.lookup_erase_ne hne

theorem notify_heap (e : Nat) : (h.notify user).heap e =
    if h.users.lookup user = some e then { h.heap e with closes := (h.heap e).closes + 1 }
    else h.heap e := by
  rw [notify]
  split
  · next hn => simp [hn]
  · next e' he =>
      by_cases heq : e' = e
      · simp [update, he, heq]
      · simp [update, he, heq, Function.update_of_ne (Ne.symm heq)]

theorem notify_lookup (u : U) :
    (h.notify user).users.lookup u = if u = user then none else h.users.lookup u := by
  rw [notify]
  split
  · next hn =>
      split
      · next heq => rw [heq, hn]
      · rfl
  · exact lookup_erase user h.users u

@[simp] theorem notify_next : (h.notify user).next = h.next := by
  rw [notify]
  split <;> rfl

@[simp] theorem notify_checking : (h.notify user).checking = h.checking := by
  rw [notify]
  split <;> rfl

@[simp] theorem notify_closed : (h.notify user).closed = h.closed := by
  rw [notify]
  split <;> rfl

@[simp] theorem notify_closedCloses : (h.notify user).closedCloses = h.closedCloses := by
  rw [notify]
  split <;> rfl

theorem release_heap (e' : Nat) : (h.release user e).heap e' =
    if e' = e then { h.heap e with waiters := (h.heap e).waiters - 1 } else h.heap e' := by
  have hheap : (h.release user e).heap =
      (h.update e fun x => { x with waiters := x.waiters - 1 }).heap := by
    simp only [release]
    split <;> rfl
  rw [hheap]
  split
  · next heq => simp [update, heq]
  · next hne => simp [update, Function.update_of_ne hne]

theorem release_lookup (u : U) : (h.release user e).users.lookup u =
    if u = user ∧ (h.heap e).waiters ≤ 1 ∧ h.users.lookup user = some e then none
    else h.users.lookup u := by
  have hle : (h.heap e).waiters - 1 ≤ 0 ↔ (h.heap e).waiters ≤ 1 := by omega
  simp only [release, update, Function.update_self, hle]
  by_cases hc : (h.heap e).waiters ≤ 1 ∧ h.users.lookup user = some e
  · rw [if_pos hc]
    simp [lookup_erase, hc]
  · rw [if_neg hc]
    simp [hc]

@[simp] theorem release_next : (h.release user e).next = h.next := by
  simp only [release]
  split <;> rfl

@[simp] theorem release_checking : (h.release user e).checking = h.checking := by
  simp only [release]
  split <;> rfl

@[simp] theorem release_closed : (h.release user e).closed = h.closed := by
  simp only [release]
  split <;> rfl

@[simp] theorem release_closedCloses : (h.release user e).closedCloses = h.closedCloses := by
  simp only [release]
  split <;> rfl

variable {h user since e}

theorem subscribe_closed (hc : h.closed = true) : h.subscribe user since = (h, none, false) := by
  simp [subscribe, hc]

theorem subscribe_new (hc : h.closed = false) (hn : h.users.lookup user = none) :
    h.subscribe user since = ({ h with
      heap := Function.update h.heap h.next ⟨0, 1, since⟩
      next := h.next + 1
      users := h.users.insert user h.next
      checking := true }, some h.next, !h.checking) := by
  simp [subscribe, hc, entryFor, hn, update]

theorem subscribe_old (hc : h.closed = false) (he : h.users.lookup user = some e) :
    h.subscribe user since = ({ h with
      heap := Function.update h.heap e ⟨(h.heap e).closes, (h.heap e).waiters + 1,
        min since (h.heap e).since⟩
      checking := true }, some e, !h.checking) := by
  by_cases hlt : since < (h.heap e).since
  · simp [subscribe, hc, entryFor, he, update, hlt, Int.min_eq_left (Int.le_of_lt hlt)]
  · simp [subscribe, hc, entryFor, he, update, hlt, Int.min_eq_right (Int.not_lt.mp hlt)]

/-! Each section keeps the hub sound. -/

theorem Sound.notify (hs : h.Sound) (user : U) : (h.notify user).Sound := by
  have hlookup : ∀ u e, (h.notify user).users.lookup u = some e →
      u ≠ user ∧ h.users.lookup u = some e := by
    intro u e hu
    rw [notify_lookup] at hu
    split at hu
    · cases hu
    · next hne => exact ⟨hne, hu⟩
  refine ⟨?_, ?_, ?_, ?_⟩
  · intro u e hu
    obtain ⟨hne, hu⟩ := hlookup u e hu
    have hother : h.users.lookup user ≠ some e := fun hue => hne (hs.apart u user e hu hue)
    rw [notify_next, notify_heap, if_neg hother]
    exact hs.mapped u e hu
  · intro u u' e hu hu'
    exact hs.apart u u' e (hlookup u e hu).2 (hlookup u' e hu').2
  · intro e
    rw [notify_heap]
    split
    · next hue => simp [(hs.mapped user e hue).2]
    · exact hs.once e
  · rw [notify_closedCloses, notify_closed]
    exact hs.closedOnce

theorem Sound.close (hs : h.Sound) : h.close.Sound := by
  rw [Hub.close]
  split
  · exact hs
  · next hc =>
      refine ⟨hs.mapped, hs.apart, hs.once, ?_⟩
      simp [hs.closedOnce, hc]

theorem Sound.release (hs : h.Sound) (user : U) (e : Nat) : (h.release user e).Sound := by
  have hcloses : ∀ e', ((h.release user e).heap e').closes = (h.heap e').closes := by
    intro e'
    rw [release_heap]
    split
    · next heq => rw [heq]
    · rfl
  have hlookup : ∀ u e', (h.release user e).users.lookup u = some e' →
      h.users.lookup u = some e' := by
    intro u e' hu
    rw [release_lookup] at hu
    split at hu
    · cases hu
    · exact hu
  refine ⟨?_, ?_, ?_, ?_⟩
  · intro u e' hu
    rw [release_next, hcloses]
    exact hs.mapped u e' (hlookup u e' hu)
  · intro u u' e' hu hu'
    exact hs.apart u u' e' (hlookup u e' hu) (hlookup u' e' hu')
  · intro e'
    rw [hcloses]
    exact hs.once e'
  · rw [release_closedCloses, release_closed]
    exact hs.closedOnce

theorem Sound.subscribe (hs : h.Sound) (user : U) (since : Int) :
    (h.subscribe user since).1.Sound := by
  cases hc : h.closed with
  | true =>
      rw [subscribe_closed hc]
      exact hs
  | false =>
      cases hl : h.users.lookup user with
      | none =>
          rw [subscribe_new hc hl]
          have hfresh : ∀ u, h.users.lookup u ≠ some h.next := fun u hu =>
            absurd (hs.mapped u h.next hu).1 (Nat.lt_irrefl _)
          have hlookup : ∀ u e, (h.users.insert user h.next).lookup u = some e →
              u = user ∧ e = h.next ∨ u ≠ user ∧ h.users.lookup u = some e := by
            intro u e hu
            by_cases heq : u = user
            · subst heq
              rw [AList.lookup_insert] at hu
              exact .inl ⟨rfl, (Option.some.inj hu).symm⟩
            · rw [AList.lookup_insert_ne heq] at hu
              exact .inr ⟨heq, hu⟩
          refine ⟨?_, ?_, ?_, hs.closedOnce⟩
          · intro u e hu
            cases hlookup u e hu with
            | inl hnew => simp [hnew.2]
            | inr hold =>
                have hne : e ≠ h.next := fun heq => hfresh u (heq ▸ hold.2)
                have hmap := hs.mapped u e hold.2
                simp only [Function.update_of_ne hne]
                exact ⟨Nat.lt_succ_of_lt hmap.1, hmap.2⟩
          · intro u u' e hu hu'
            cases hlookup u e hu with
            | inl hnew =>
                cases hlookup u' e hu' with
                | inl hnew' => rw [hnew.1, hnew'.1]
                | inr hold' => exact absurd (hnew.2 ▸ hold'.2) (hfresh u')
            | inr hold =>
                cases hlookup u' e hu' with
                | inl hnew' => exact absurd (hnew'.2 ▸ hold.2) (hfresh u)
                | inr hold' => exact hs.apart u u' e hold.2 hold'.2
          · intro e
            by_cases heq : e = h.next
            · simp [heq]
            · simpa [Function.update_of_ne heq] using hs.once e
      | some e =>
          rw [subscribe_old hc hl]
          have hcloses : ∀ e', (Function.update h.heap e ⟨(h.heap e).closes, (h.heap e).waiters + 1,
              min since (h.heap e).since⟩ e').closes = (h.heap e').closes := by
            intro e'
            by_cases heq : e' = e
            · simp [heq]
            · simp [Function.update_of_ne heq]
          refine ⟨?_, hs.apart, ?_, hs.closedOnce⟩
          · intro u e' hu
            simp only [hcloses]
            exact hs.mapped u e' hu
          · intro e'
            simp only [hcloses]
            exact hs.once e'

end Hub

/-! Each step keeps the system consistent. -/

omit [DecidableEq U] in
theorem holders_append (requests : List (Request U)) (user : U) (since : Int) (e : Nat) :
    holders (requests ++ [⟨user, since, none⟩]) e = holders requests e := by
  simp [holders]

omit [DecidableEq U] in
theorem holders_set {requests : List (Request U)} {i : Nat} {r : Request U}
    (hr : requests[i]? = some r) (held : Option Nat) (e : Nat) :
    holders (requests.set i { r with held := held }) e + (if r.held = some e then 1 else 0) =
      holders requests e + if held = some e then 1 else 0 := by
  obtain ⟨hi, rfl⟩ := List.getElem?_eq_some_iff.mp hr
  have hpos : (if requests[i].held = some e then 1 else 0) ≤ holders requests e := by
    split
    · next hheld =>
        exact List.countP_pos_iff.mpr ⟨requests[i], List.getElem_mem hi, by simpa using hheld⟩
    · exact Nat.zero_le _
  have hset := List.countP_set (p := fun r : Request U => decide (r.held = some e))
    (a := { requests[i] with held := held }) hi
  simp only [decide_eq_true_eq] at hset
  rw [holders, hset]
  simp only [holders] at hpos ⊢
  omega

omit [DecidableEq U] in
theorem mem_set_request {requests : List (Request U)} {i : Nat} {r r' : Request U}
    (h : r ∈ requests.set i r') : r = r' ∨ r ∈ requests := by
  cases List.mem_or_eq_of_mem_set h with
  | inl hmem => exact .inr hmem
  | inr heq => exact .inl heq

theorem Holds.notify {h : Hub U} {r : Request U} (hr : Holds h r) (user : U) :
    Holds (h.notify user) r := by
  intro e he
  obtain ⟨hlt, hsince, hopen⟩ := hr e he
  rw [Hub.notify_next, Hub.notify_heap]
  split
  · exact ⟨hlt, hsince, nofun⟩
  · next hother =>
      refine ⟨hlt, hsince, fun hzero => ?_⟩
      have hmap := hopen hzero
      rw [Hub.notify_lookup, if_neg, hmap]
      intro heq
      exact hother (heq ▸ hmap)

theorem Counted.notify {h : Hub U} {requests : List (Request U)} (hc : Counted h requests)
    (user : U) : Counted (h.notify user) requests := by
  intro e he
  rw [Hub.notify_next] at he
  rw [Hub.notify_heap]
  split
  · exact hc e he
  · exact hc e he

theorem Looping.notify {h : Hub U} {loops : List (Phase U)} (hl : Looping h loops) (user : U) :
    Looping (h.notify user) loops := by
  refine ⟨by rw [Hub.notify_checking]; exact hl.one, ?_⟩
  intro hc hk u
  rw [Hub.notify_closed] at hc
  rw [Hub.notify_checking] at hk
  rw [Hub.notify_lookup, hl.waiting hc hk u]
  split <;> rfl

theorem Looping.congr {h : Hub U} {loops loops' : List (Phase U)} (hl : Looping h loops)
    (hlen : loops'.length = loops.length) : Looping h loops' :=
  ⟨hlen.trans hl.one, hl.waiting⟩

/-- A request other than the one that lets go keeps what it relies on: while it counts, the entry
is not deleted. -/
theorem Consistent.holds_release {s : System U} (h : Consistent s) {i : Nat} {r q : Request U}
    {e : Nat} (hr : s.requests[i]? = some r) (he : r.held = some e)
    (hq : q ∈ s.requests.set i { r with held := none }) : Holds (s.hub.release r.user e) q := by
  intro e' he'
  have hmem : q ∈ s.requests := by
    cases mem_set_request hq with
    | inl heq =>
        rw [heq] at he'
        cases he'
    | inr hmem => exact hmem
  obtain ⟨hlt, hsince, hopen⟩ := h.held q hmem e' he'
  refine ⟨by rwa [Hub.release_next], ?_, ?_⟩
  · rw [Hub.release_heap]
    split
    · next heq => rwa [heq] at hsince
    · exact hsince
  · intro hzero
    have hzero' : (s.hub.heap e').closes = 0 := by
      rw [Hub.release_heap] at hzero
      split at hzero
      · next heq => rwa [heq]
      · exact hzero
    have hmap := hopen hzero'
    rw [Hub.release_lookup, if_neg, hmap]
    rintro ⟨huser, hfew, hue⟩
    rw [huser, hue] at hmap
    cases hmap
    -- both requests are counted
    have hset := holders_set hr none e
    rw [he, if_pos rfl] at hset
    have hpos : 0 < holders (s.requests.set i { r with held := none }) e :=
      List.countP_pos_iff.mpr ⟨q, hq, by simpa using he'⟩
    have hcount := h.counted e hlt
    simp only [reduceCtorEq, if_false] at hset
    omega

theorem Consistent.release {s t : System U} (h : Consistent s) {i : Nat}
    (hstep : s.step (.release i) = some t) : Consistent t := by
  simp only [System.step] at hstep
  split at hstep
  · next user since e hr =>
      cases hstep
      refine ⟨h.sound.release user e, fun q hq => h.holds_release hr rfl hq, ?_, ?_, ?_⟩
      · intro e' hlt
        rw [Hub.release_next] at hlt
        have hset := holders_set hr none e'
        have hcount := h.counted e' hlt
        simp only [Option.some.injEq, reduceCtorEq, if_false, Nat.add_zero] at hset
        rw [Hub.release_heap]
        by_cases heq : e' = e
        · subst heq
          rw [if_pos rfl] at hset ⊢
          simp only
          omega
        · rw [if_neg (Ne.symm heq)] at hset
          rw [if_neg heq]
          simp only
          omega
      · intro q hq
        cases mem_set_request hq with
        | inl heq =>
            rw [heq]
            exact h.known ⟨user, since, some e⟩ (List.mem_of_getElem? hr)
        | inr hmem => exact h.known q hmem
      · refine ⟨by rw [Hub.release_checking]; exact h.looping.one, ?_⟩
        intro hc hk u
        rw [Hub.release_closed] at hc
        rw [Hub.release_checking] at hk
        rw [Hub.release_lookup, h.looping.waiting hc hk u]
        split <;> rfl
  · cases hstep

theorem Consistent.holds_subscribe {s : System U} (h : Consistent s) {i : Nat} {user : U}
    {since : Int} {q : Request U}
    (hq : q ∈ s.requests.set i ⟨user, since, (s.hub.subscribe user since).2.1⟩) :
    Holds (s.hub.subscribe user since).1 q := by
  cases hc : s.hub.closed with
  | true =>
      rw [Hub.subscribe_closed hc] at hq ⊢
      cases mem_set_request hq with
      | inl heq =>
          rw [heq]
          nofun
      | inr hmem => exact h.held q hmem
  | false =>
      cases hl : s.hub.users.lookup user with
      | none =>
          rw [Hub.subscribe_new hc hl] at hq ⊢
          cases mem_set_request hq with
          | inl heq =>
              intro e he
              rw [heq] at he ⊢
              cases he
              simp
          | inr hmem =>
              intro e he
              obtain ⟨hlt, hsince, hopen⟩ := h.held q hmem e he
              have hne : e ≠ s.hub.next := Nat.ne_of_lt hlt
              simp only [Function.update_of_ne hne]
              refine ⟨Nat.lt_succ_of_lt hlt, hsince, fun hzero => ?_⟩
              have hmap := hopen hzero
              rw [AList.lookup_insert_ne, hmap]
              intro heq
              rw [heq, hl] at hmap
              cases hmap
      | some e =>
          have hlt := (h.sound.mapped user e hl).1
          rw [Hub.subscribe_old hc hl] at hq ⊢
          cases mem_set_request hq with
          | inl heq =>
              intro e' he
              rw [heq] at he ⊢
              cases he
              simp [hlt, hl]
          | inr hmem =>
              intro e' he
              obtain ⟨hlt', hsince, hopen⟩ := h.held q hmem e' he
              by_cases heq : e' = e
              · subst heq
                simp only [Function.update_self]
                exact ⟨hlt', Int.le_trans (Int.min_le_right _ _) hsince, hopen⟩
              · simp only [Function.update_of_ne heq]
                exact ⟨hlt', hsince, hopen⟩

theorem Consistent.counted_subscribe {s : System U} (h : Consistent s) {i : Nat} {user : U}
    {since : Int} (hr : s.requests[i]? = some ⟨user, since, none⟩) :
    Counted (s.hub.subscribe user since).1
      (s.requests.set i ⟨user, since, (s.hub.subscribe user since).2.1⟩) := by
  have hset := fun held e => holders_set hr held e
  simp only [reduceCtorEq, if_false, Nat.add_zero] at hset
  cases hc : s.hub.closed with
  | true =>
      rw [Hub.subscribe_closed hc]
      intro e hlt
      rw [hset]
      simpa using h.counted e hlt
  | false =>
      cases hl : s.hub.users.lookup user with
      | none =>
          rw [Hub.subscribe_new hc hl]
          intro e hlt
          rw [hset]
          by_cases heq : e = s.hub.next
          · have hnone : holders s.requests e = 0 := by
              refine List.countP_eq_zero.mpr fun q hq hheld => ?_
              have := (h.held q hq e (by simpa using hheld)).1
              omega
            simp [heq ▸ hnone, heq]
          · have hcount := h.counted e (by
              simp only at hlt
              omega)
            simpa [Function.update_of_ne heq, Ne.symm heq] using hcount
      | some e' =>
          rw [Hub.subscribe_old hc hl]
          intro e hlt
          have hcount := h.counted e hlt
          rw [hset]
          by_cases heq : e = e'
          · subst heq
            simp [hcount]
          · simpa [Function.update_of_ne heq, Ne.symm heq] using hcount

theorem Consistent.looping_subscribe {s : System U} (h : Consistent s) (user : U) (since : Int) :
    Looping (s.hub.subscribe user since).1
      (if (s.hub.subscribe user since).2.2 then s.loops ++ [.selecting] else s.loops) := by
  have hone := h.looping.one
  cases hc : s.hub.closed with
  | true =>
      rw [Hub.subscribe_closed hc]
      exact h.looping
  | false =>
      cases hl : s.hub.users.lookup user with
      | none =>
          rw [Hub.subscribe_new hc hl]
          refine ⟨?_, nofun⟩
          cases hk : s.hub.checking <;> simp [hk] at hone ⊢ <;> simp [hone]
      | some e =>
          rw [Hub.subscribe_old hc hl]
          refine ⟨?_, nofun⟩
          cases hk : s.hub.checking <;> simp [hk] at hone ⊢ <;> simp [hone]

theorem Consistent.subscribe {s t : System U} (h : Consistent s) {i : Nat}
    (hstep : s.step (.subscribe i) = some t) : Consistent t := by
  simp only [System.step] at hstep
  split at hstep
  · next user since hr =>
      cases hstep
      refine ⟨h.sound.subscribe user since, fun q hq => h.holds_subscribe hq,
        h.counted_subscribe hr, ?_, h.looping_subscribe user since⟩
      intro q hq
      cases mem_set_request hq with
      | inl heq =>
          rw [heq]
          exact h.known ⟨user, since, none⟩ (List.mem_of_getElem? hr)
      | inr hmem => exact h.known q hmem
  · cases hstep

theorem Consistent.notify {s : System U} (h : Consistent s) (user : U) :
    Consistent { s with hub := s.hub.notify user } :=
  ⟨h.sound.notify user, fun r hr => (h.held r hr).notify user, h.counted.notify user,
    h.known, h.looping.notify user⟩

theorem Consistent.setLoop {s : System U} (h : Consistent s) (l : Nat) (phase : Phase U) :
    Consistent (s.setLoop l phase) :=
  ⟨h.sound, h.held, h.counted, h.known, h.looping.congr (by simp [System.setLoop])⟩

theorem Consistent.endLoop {s : System U} (h : Consistent s) {l : Nat} {phase : Phase U}
    (hl : s.loops[l]? = some phase)
    (hw : s.hub.closed = false → ∀ u, s.hub.users.lookup u = none) :
    Consistent { s with
      hub := { s.hub with checking := false }, loops := s.loops.eraseIdx l } := by
  obtain ⟨hlt, -⟩ := List.getElem?_eq_some_iff.mp hl
  have hone := h.looping.one
  refine ⟨⟨h.sound.mapped, h.sound.apart, h.sound.once, h.sound.closedOnce⟩, h.held, h.counted,
    h.known, ⟨?_, fun hc _ => hw hc⟩⟩
  rw [List.length_eraseIdx_of_lt hlt]
  cases hk : s.hub.checking with
  | true => simp [hone, hk]
  | false =>
      rw [hk] at hone
      simp at hone
      simp [hone] at hlt

theorem Consistent.loop {s t : System U} (h : Consistent s) {l : Nat} {phase : Phase U}
    {event : LoopEvent U} (hl : s.loops[l]? = some phase)
    (hstep : s.stepLoop l phase event = some t) : Consistent t := by
  unfold System.stepLoop at hstep
  split at hstep
  · cases hstep
    exact h.setLoop l _
  · split at hstep
    · next hc =>
        cases hstep
        exact h.endLoop hl (by simp [hc])
    · cases hstep
  · rw [Hub.waitingSince] at hstep
    by_cases hempty : s.hub.users.entries = []
    · simp only [hempty, if_true] at hstep
      cases hstep
      exact h.endLoop hl fun _ => Table.entries_eq_nil.mp hempty
    · simp only [hempty, if_false] at hstep
      cases hstep
      exact h.setLoop l _
  · cases hstep
    exact h.setLoop l _
  · cases hstep
    exact h.setLoop l _
  · split at hstep
    · cases hstep
      exact h.setLoop l _
    · cases hstep
  · split at hstep
    · cases hstep
      exact (h.notify _).setLoop l _
    · cases hstep
  · cases hstep
    exact h.setLoop l _
  · cases hstep

theorem consistent_step (s : System U) (event : Event U) (t : System U) (h : Consistent s)
    (hstep : s.step event = some t) : Consistent t := by
  cases event with
  | gate user =>
      simp only [System.step] at hstep
      split at hstep
      · next revision hread =>
          cases hstep
          refine ⟨h.sound, ?_, ?_, ?_, h.looping⟩
          · intro r hr
            cases List.mem_append.mp hr with
            | inl hold => exact h.held r hold
            | inr hnew =>
                rw [List.mem_singleton.mp hnew]
                nofun
          · intro e he
            rw [holders_append]
            exact h.counted e he
          · intro r hr
            cases List.mem_append.mp hr with
            | inl hold => exact h.known r hold
            | inr hnew =>
                rw [List.mem_singleton.mp hnew]
                rw [Row.read] at hread
                split at hread
                · cases hread
                  exact Int.le_refl _
                · cases hread
      · cases hstep
  | subscribe i => exact h.subscribe hstep
  | release i => exact h.release hstep
  | notify user =>
      cases hstep
      exact h.notify user
  | close =>
      cases hstep
      refine ⟨h.sound.close, ?_, ?_, h.known, ?_⟩
      · intro r hr
        simp only [Hub.close]
        split
        · exact h.held r hr
        · exact h.held r hr
      · simp only [Hub.close]
        split
        · exact h.counted
        · exact h.counted
      · simp only [Hub.close]
        split
        · exact h.looping
        · exact ⟨h.looping.one, nofun⟩
  | commit user revision =>
      simp only [System.step] at hstep
      split at hstep
      · next hlt =>
          cases hstep
          refine ⟨h.sound, h.held, h.counted, fun r hr => ?_, h.looping⟩
          have hknown := h.known r hr
          by_cases heq : r.user = user
          · rw [heq] at hknown ⊢
            simp only [Function.update_self]
            omega
          · simpa only [Function.update_of_ne heq] using hknown
      · cases hstep
  | remove user =>
      cases hstep
      refine ⟨h.sound, h.held, h.counted, fun r hr => ?_, h.looping⟩
      have hknown := h.known r hr
      by_cases heq : r.user = user
      · rw [heq] at hknown ⊢
        simpa only [Function.update_self] using hknown
      · simpa only [Function.update_of_ne heq] using hknown
  | loop l event =>
      simp only [System.step, Option.bind_eq_some_iff] at hstep
      obtain ⟨phase, hl, hstep⟩ := hstep
      exact h.loop hl hstep

theorem consistent_run {rows : U → Row} {events : List (Event U)} {s : System U}
    (h : run System.step (System.init rows) events = some s) : Consistent s :=
  run_invariant consistent_step (consistent_init rows) h

/-! A round of the check loop. -/

/-- The loop is going to wake the waiters of a user: the row it reads or has read differs from the
revision it has copied, or the user is among those to notify. -/
def Notices (rows : U → Row) (user : U) : Phase U → Prop
  | .reading waiting current => ∃ c, (user, c) ∈ waiting ∧ c ≤ (rows user).revision ∧
      (rows user).read ≠ some c ∧ ∀ v, current user = some v → v ≠ some c
  | .notifying users => user ∈ users
  | _ => False

def Woken (s : System U) (e : Nat) : Prop := (s.hub.heap e).closes ≠ 0

structure Waking (s : System U) (i : Nat) (r : Request U) (e : Nat) : Prop where
  request : s.requests[i]? = some r
  held : r.held = some e
  noticed : Woken s e ∨ ∃ (l : Nat) (phase : Phase U), s.loops[l]? = some phase ∧
    Notices s.rows r.user phase

def InRound (i : Nat) (event : Event U) : Prop :=
  event ≠ .release i ∧ ∀ l, event ≠ .loop l .tick ∧ event ≠ .loop l .readFailed

omit [DecidableEq U] in
theorem Row.read_eq_some {row : Row} {c : Int} :
    row.read = some c ↔ row.stored = true ∧ row.revision = c := by
  rw [Row.read]
  split
  · next h => simp [h]
  · next h => simp [h]

theorem closes_subscribe (h : Hub U) (user : U) (since : Int) {e : Nat} (he : e < h.next) :
    ((h.subscribe user since).1.heap e).closes = (h.heap e).closes := by
  cases hc : h.closed with
  | true => rw [Hub.subscribe_closed hc]
  | false =>
      cases hl : h.users.lookup user with
      | none =>
          rw [Hub.subscribe_new hc hl]
          simp only [Function.update_of_ne (Nat.ne_of_lt he)]
      | some e' =>
          rw [Hub.subscribe_old hc hl]
          by_cases heq : e = e'
          · simp [heq]
          · simp [Function.update_of_ne heq]

theorem closes_release (h : Hub U) (user : U) (e' e : Nat) :
    ((h.release user e').heap e).closes = (h.heap e).closes := by
  rw [Hub.release_heap]
  split
  · next heq => rw [heq]
  · rfl

theorem closes_notify (h : Hub U) (user : U) (e : Nat) :
    (h.heap e).closes ≤ ((h.notify user).heap e).closes := by
  rw [Hub.notify_heap]
  split
  · exact Nat.le_succ _
  · exact Nat.le_refl _

theorem Notices.commit {rows : U → Row} {user : U} {phase : Phase U}
    (h : Notices rows user phase) {user' : U} {revision : Int}
    (hlt : (rows user').revision < revision) :
    Notices (Function.update rows user' ⟨true, revision⟩) user phase := by
  cases phase with
  | reading waiting current =>
      obtain ⟨c, hmem, hle, hne, hread⟩ := h
      refine ⟨c, hmem, ?_⟩
      by_cases heq : user = user'
      · subst heq
        simp only [Function.update_self]
        refine ⟨by omega, fun hc => ?_, hread⟩
        have := (Row.read_eq_some.mp hc).2
        simp only at this
        omega
      · simp only [Function.update_of_ne heq]
        exact ⟨hle, hne, hread⟩
  | notifying users => exact h
  | selecting => exact h.elim
  | copying => exact h.elim

theorem Notices.remove {rows : U → Row} {user : U} {phase : Phase U}
    (h : Notices rows user phase) (user' : U) :
    Notices (Function.update rows user' { rows user' with stored := false }) user phase := by
  cases phase with
  | reading waiting current =>
      obtain ⟨c, hmem, hle, hne, hread⟩ := h
      refine ⟨c, hmem, ?_⟩
      by_cases heq : user = user'
      · subst heq
        simp only [Function.update_self]
        exact ⟨hle, by simp [Row.read], hread⟩
      · simp only [Function.update_of_ne heq]
        exact ⟨hle, hne, hread⟩
  | notifying users => exact h
  | selecting => exact h.elim
  | copying => exact h.elim

theorem Waking.copy {s t : System U} (h : Consistent s) {i l : Nat} {r : Request U} {e : Nat}
    (hr : s.requests[i]? = some r) (he : r.held = some e)
    (hdiff : (s.rows r.user).read ≠ some r.since)
    (hstep : s.step (.loop l .copy) = some t) : Waking t i r e := by
  obtain ⟨hlt, hsince, hopen⟩ := h.held r (List.mem_of_getElem? hr) e he
  have hknown := h.known r (List.mem_of_getElem? hr)
  simp only [System.step, Option.bind_eq_some_iff] at hstep
  obtain ⟨phase, hl, hstep⟩ := hstep
  obtain ⟨hlen, -⟩ := List.getElem?_eq_some_iff.mp hl
  cases phase with
  | copying =>
      simp only [System.stepLoop, Hub.waitingSince] at hstep
      by_cases hzero : (s.hub.heap e).closes = 0
      · have hmap := Table.mem_entries.mpr (hopen hzero)
        have hne : s.hub.users.entries ≠ [] := List.ne_nil_of_mem hmap
        simp only [hne, if_false] at hstep
        cases hstep
        refine ⟨hr, he, .inr ⟨l, _, List.getElem?_set_self hlen, (s.hub.heap e).since, ?_, ?_, ?_,
          nofun⟩⟩
        · exact List.mem_map.mpr ⟨_, hmap, rfl⟩
        · exact Int.le_trans hsince hknown
        · intro hread
          have hrow := Row.read_eq_some.mp hread
          refine hdiff (Row.read_eq_some.mpr ⟨hrow.1, ?_⟩)
          have hrev := hrow.2
          simp only [System.setLoop] at hrev
          omega
      · by_cases hempty : s.hub.users.entries = []
        · simp only [hempty, if_true] at hstep
          cases hstep
          exact ⟨hr, he, .inl hzero⟩
        · simp only [hempty, if_false] at hstep
          cases hstep
          exact ⟨hr, he, .inl hzero⟩
  | selecting => cases hstep
  | reading waiting current => cases hstep
  | notifying users => cases hstep

theorem Consistent.loop_unique {s : System U} (h : Consistent s) {l l' : Nat} {p p' : Phase U}
    (hl : s.loops[l]? = some p) (hl' : s.loops[l']? = some p') : l = l' := by
  obtain ⟨hlt, -⟩ := List.getElem?_eq_some_iff.mp hl
  obtain ⟨hlt', -⟩ := List.getElem?_eq_some_iff.mp hl'
  have hone := h.looping.one
  split at hone
  · omega
  · omega

theorem requests_loop {s t : System U} {l : Nat} {phase : Phase U} {event : LoopEvent U}
    (hstep : s.stepLoop l phase event = some t) : t.requests = s.requests := by
  unfold System.stepLoop at hstep
  split at hstep <;> (try split at hstep) <;> cases hstep <;> rfl

omit [DecidableEq U] in
theorem waitingSince_heap (h : Hub U) : h.waitingSince.1.heap = h.heap := by
  rw [Hub.waitingSince]
  split <;> rfl

theorem closes_loop {s t : System U} {l : Nat} {phase : Phase U} {event : LoopEvent U}
    (hstep : s.stepLoop l phase event = some t) (e : Nat) :
    (s.hub.heap e).closes ≤ (t.hub.heap e).closes := by
  have hheap := waitingSince_heap s.hub
  unfold System.stepLoop at hstep
  split at hstep
  all_goals try split at hstep
  all_goals cases hstep
  all_goals first
    | exact Nat.le_refl _
    | exact closes_notify s.hub _ e
    | skip
  all_goals
    rename_i heq
    rw [heq] at hheap
    exact Nat.le_of_eq (congrArg (fun heap => (heap e).closes) hheap.symm)

omit [DecidableEq U] in
theorem Woken.mono {s t : System U} {e : Nat} (h : Woken s e)
    (hle : (s.hub.heap e).closes ≤ (t.hub.heap e).closes) : Woken t e := by
  rw [Woken] at h ⊢
  omega

theorem Waking.loop {s t : System U} (h : Consistent s) {i l : Nat} {r : Request U} {e : Nat}
    (hw : Waking s i r e) {phase : Phase U} {event : LoopEvent U} (hl : s.loops[l]? = some phase)
    (hevent : InRound i (.loop l event)) (hstep : s.stepLoop l phase event = some t) :
    Waking t i r e := by
  obtain ⟨hr, he, hnotice⟩ := hw
  obtain ⟨hlen, -⟩ := List.getElem?_eq_some_iff.mp hl
  have hr' : t.requests[i]? = some r := by rw [requests_loop hstep, hr]
  by_cases hzero : Woken s e
  · exact ⟨hr', he, .inl (hzero.mono (closes_loop hstep e))⟩
  obtain ⟨l', phase', hl', hnotice⟩ := hnotice.resolve_left hzero
  cases h.loop_unique hl hl'
  cases Option.some.inj (hl.symm.trans hl')
  cases phase with
  | selecting => exact hnotice.elim
  | copying => exact hnotice.elim
  | reading waiting current =>
      obtain ⟨c, hmem, hle, hne, hread⟩ := hnotice
      cases event with
      | readRow user =>
          cases hstep
          refine ⟨hr', he, .inr ⟨l, _, List.getElem?_set_self hlen, c, hmem, hle, hne, ?_⟩⟩
          intro v hv
          by_cases heq : r.user = user
          · subst heq
            rw [Function.update_self] at hv
            cases hv
            exact hne
          · rw [Function.update_of_ne heq] at hv
            exact hread v hv
      | compare =>
          simp only [System.stepLoop] at hstep
          split at hstep
          · next hall =>
              cases hstep
              refine ⟨hr', he, .inr ⟨l, _, List.getElem?_set_self hlen, ?_⟩⟩
              obtain ⟨v, hv⟩ := Option.ne_none_iff_exists'.mp (hall _ hmem)
              refine List.mem_map.mpr ⟨(r.user, c), List.mem_filter.mpr ⟨hmem, ?_⟩, rfl⟩
              simpa [hv] using hread v hv
          · cases hstep
      | readFailed => exact absurd rfl (hevent.2 l).2
      | tick => cases hstep
      | stop => cases hstep
      | copy => cases hstep
      | notify user => cases hstep
      | rest => cases hstep
  | notifying users =>
      cases event with
      | notify user =>
          simp only [System.stepLoop] at hstep
          split at hstep
          · cases hstep
            by_cases heq : r.user = user
            · -- the entry is still the one in the map
              have hmap := (h.held r (List.mem_of_getElem? hr) e he).2.2 (not_not.mp hzero)
              rw [heq] at hmap
              refine ⟨hr', he, .inl ?_⟩
              simp only [Woken, System.setLoop, Hub.notify_heap, hmap, if_true]
              omega
            · exact ⟨hr', he, .inr ⟨l, _, List.getElem?_set_self hlen,
                (List.mem_erase_of_ne heq).mpr hnotice⟩⟩
          · cases hstep
      | rest =>
          cases users with
          | nil => cases hnotice
          | cons user users => cases hstep
      | tick => cases hstep
      | stop => cases hstep
      | copy => cases hstep
      | readRow user => cases hstep
      | readFailed => cases hstep
      | compare => cases hstep

theorem getElem?_of_prefix {α : Type} {xs ys : List α} {i : Nat} {x : α} (h : xs <+: ys)
    (hx : xs[i]? = some x) : ys[i]? = some x := by
  obtain ⟨hlt, rfl⟩ := List.getElem?_eq_some_iff.mp hx
  exact List.prefix_iff_getElem?.mp h i hlt

omit [DecidableEq U] in
theorem Waking.frame {s t : System U} {i : Nat} {r : Request U} {e : Nat} (hw : Waking s i r e)
    (hr : t.requests[i]? = some r) (hloops : s.loops <+: t.loops) (hrows : t.rows = s.rows)
    (hcloses : (s.hub.heap e).closes ≤ (t.hub.heap e).closes) : Waking t i r e := by
  refine ⟨hr, hw.held, ?_⟩
  cases hw.noticed with
  | inl hwoken => exact .inl (hwoken.mono hcloses)
  | inr hnotice =>
      obtain ⟨l, phase, hl, hnotice⟩ := hnotice
      exact .inr ⟨l, phase, getElem?_of_prefix hloops hl, hrows ▸ hnotice⟩

theorem Waking.step {s t : System U} (h : Consistent s) {i : Nat} {r : Request U} {e : Nat}
    (hw : Waking s i r e) {event : Event U} (hevent : InRound i event)
    (hstep : s.step event = some t) : Waking t i r e := by
  have hr := hw.request
  have hlt := (h.held r (List.mem_of_getElem? hr) e hw.held).1
  cases event with
  | gate user =>
      simp only [System.step] at hstep
      split at hstep
      · cases hstep
        exact hw.frame ( getElem?_of_prefix (List.prefix_append _ _) hr) (List.prefix_refl _) rfl
          (Nat.le_refl _)
      · cases hstep
  | subscribe j =>
      simp only [System.step] at hstep
      split at hstep
      · next user since hj =>
          cases hstep
          have hne : j ≠ i := by
            rintro rfl
            rw [hr] at hj
            cases hj
            cases hw.held
          refine hw.frame ((List.getElem?_set_ne hne).trans hr) ?_ rfl
            (Nat.le_of_eq (closes_subscribe s.hub user since hlt).symm)
          split
          · exact List.prefix_append _ _
          · exact List.prefix_refl _
      · cases hstep
  | release j =>
      simp only [System.step] at hstep
      split at hstep
      · next user since e' hj =>
          cases hstep
          have hne : j ≠ i := fun heq => hevent.1 (by rw [heq])
          exact hw.frame ((List.getElem?_set_ne hne).trans hr) (List.prefix_refl _) rfl
            (Nat.le_of_eq (closes_release s.hub user e' e).symm)
      · cases hstep
  | notify user =>
      cases hstep
      exact hw.frame hr (List.prefix_refl _) rfl (closes_notify s.hub user e)
  | close =>
      cases hstep
      refine hw.frame hr (List.prefix_refl _) rfl ?_
      simp only [Hub.close]
      split <;> exact Nat.le_refl _
  | commit user revision =>
      simp only [System.step] at hstep
      split at hstep
      · next hrow =>
          cases hstep
          refine ⟨hr, hw.held, hw.noticed.imp_right ?_⟩
          intro ⟨l, phase, hl, hnotice⟩
          exact ⟨l, phase, hl, hnotice.commit hrow⟩
      · cases hstep
  | remove user =>
      cases hstep
      refine ⟨hr, hw.held, hw.noticed.imp_right ?_⟩
      intro ⟨l, phase, hl, hnotice⟩
      exact ⟨l, phase, hl, hnotice.remove user⟩
  | loop l event =>
      simp only [System.step, Option.bind_eq_some_iff] at hstep
      obtain ⟨phase, hl, hstep⟩ := hstep
      exact hw.loop h hl hevent hstep

theorem Waking.run {s v : System U} (h : Consistent s) {i : Nat} {r : Request U} {e : Nat}
    (hw : Waking s i r e) {events : List (Event U)} (hround : ∀ event ∈ events, InRound i event)
    (hrun : run System.step s events = some v) : Waking v i r e := by
  have hboth : Consistent v ∧ Waking v i r e := by
    have hadmissible : Admissible (fun _ event => InRound i event) System.step s events :=
      admissible_of_mem fun event he _ => hround event he
    refine run_invariant_of_admissible (I := fun s => Consistent s ∧ Waking s i r e)
      ?_ ⟨h, hw⟩ hadmissible hrun
    intro s event t hs hok hstep
    exact ⟨consistent_step s event t hs.1 hstep, hs.2.step hs.1 hok hstep⟩
  exact hboth.2

/-- In every state that any interleaving reaches: one check loop while anybody waits and the hub is
open; an entry waits on no later revision than its waiters; no channel is closed twice; a release
deletes no other entry. And a waiter whose row differs when the loop copies the waiting set is awake
when that round is over. -/
theorem hub_loses_no_wakeup {rows : U → Row} {events : List (Event U)} {s : System U}
    (h : run System.step (System.init rows) events = some s) :
    (s.hub.closed = false → s.hub.users.entries ≠ [] → s.loops.length = 1) ∧
    (∀ r ∈ s.requests, ∀ e, r.held = some e → (s.hub.heap e).since ≤ r.since) ∧
    (∀ e, (s.hub.heap e).closes ≤ 1) ∧ s.hub.closedCloses ≤ 1 ∧
    (∀ i r t, s.requests[i]? = some r → s.step (.release i) = some t →
      ∀ u e, s.hub.users.lookup u = some e → r.held ≠ some e →
        t.hub.users.lookup u = some e) ∧
    (∀ i r e l t round v, s.requests[i]? = some r → r.held = some e →
      (s.rows r.user).read ≠ some r.since → s.step (.loop l .copy) = some t →
      (∀ event ∈ round, InRound i event) → run System.step t round = some v →
      (∀ phase ∈ v.loops, phase = .selecting) → Woken v e) := by
  have hs := consistent_run h
  refine ⟨?_, fun r hr e he => (hs.held r hr e he).2.1, hs.sound.once, ?_, ?_, ?_⟩
  · intro hc hne
    have hone := hs.looping.one
    cases hk : s.hub.checking with
    | true => simpa [hk] using hone
    | false => exact absurd (Table.entries_eq_nil.mpr (hs.looping.waiting hc hk)) hne
  · rw [hs.sound.closedOnce]
    split <;> omega
  · intro i r t hr hstep u e hu hne
    simp only [System.step] at hstep
    split at hstep
    · next user since e' hi =>
        cases hstep
        cases Option.some.inj (hr.symm.trans hi)
        rw [Hub.release_lookup, if_neg]
        · exact hu
        · rintro ⟨heq, -, huser⟩
          rw [heq, huser] at hu
          exact hne hu
    · cases hstep
  · intro i r e l t round v hr he hdiff hcopy hround hrun hrest
    have hw := Waking.copy hs hr he hdiff hcopy
    cases (hw.run (consistent_step s _ t hs hcopy) hround hrun).noticed with
    | inl hwoken => exact hwoken
    | inr hnotice =>
        obtain ⟨l', phase, hl, hnotice⟩ := hnotice
        rw [hrest phase (List.mem_of_getElem? hl)] at hnotice
        exact hnotice.elim

/-- Somebody waits at revision 7, another server commits 8, and a round finds it. -/
theorem other_server_commit_wakes :
    ∃ s t v : System Nat, run System.step (System.init fun _ => ⟨true, 7⟩)
        [.gate 0, .subscribe 0, .commit 0 8, .loop 0 .tick] = some s ∧
      s.step (.loop 0 .copy) = some t ∧ run System.step t
        [.loop 0 (.readRow 0), .loop 0 .compare, .loop 0 (.notify 0), .loop 0 .rest] = some v ∧
      Woken v 0 := by
  obtain ⟨s, t, v, hs, hr, hrow, hcopy, hrun, hrest⟩ : ∃ s t v : System Nat,
      run System.step (System.init fun _ => ⟨true, 7⟩)
        [.gate 0, .subscribe 0, .commit 0 8, .loop 0 .tick] = some s ∧
      s.requests[0]? = some ⟨0, 7, some 0⟩ ∧ (s.rows 0).read = some 8 ∧
      s.step (.loop 0 .copy) = some t ∧ run System.step t
        [.loop 0 (.readRow 0), .loop 0 .compare, .loop 0 (.notify 0), .loop 0 .rest] = some v ∧
      v.loops = [.selecting] := ⟨_, _, _, rfl, rfl, rfl, rfl, rfl, rfl⟩
  obtain ⟨-, -, -, -, -, hwake⟩ := hub_loses_no_wakeup hs
  refine ⟨s, t, v, hs, hcopy, hrun, ?_⟩
  refine hwake 0 _ 0 0 t _ v hr rfl ?_ hcopy ?_ hrun ?_
  · rw [hrow]
    decide
  · simp [InRound]
  · simp [hrest]

end Dolgate.WatchHub
