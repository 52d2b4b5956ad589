import Mathlib.Order.MinMax
import Dolgate.EchoFilter

set_option autoImplicit false

namespace Dolgate.Autocomplete
open Chunking GoBytes

variable {es₁ es₂ : List (List UInt8)} {echo x w y : List UInt8}

namespace HandshakeFilter

variable {injected : List (List UInt8)} {f : HandshakeFilter}

def Begun (echoes : List (List UInt8)) (t : List UInt8) : Prop :=
  t = [] ∨ ∃ e ∈ echoes, beginsEcho e t = true ∧ t.length ≤ e.length * maxEchoInflation

theorem begun_filter (echoes : List (List UInt8)) :
    Begun (echoes.filter fun e => e ≠ []) = Begun echoes := by
  funext t
  refine propext (or_congr_right (exists_congr fun e => ?_))
  simp only [List.mem_filter, decide_eq_true_eq]
  constructor
  · rintro ⟨⟨he, -⟩, hbegins⟩
    exact ⟨he, hbegins⟩
  · rintro ⟨he, hbegins⟩
    refine ⟨⟨he, ?_⟩, hbegins⟩
    rintro rfl
    simp [beginsEcho] at hbegins

/-- The longest piece at the end of a text that may be the beginning of one of the echoes. -/
structure Longest (echoes : List (List UInt8)) (data piece : List UInt8) : Prop where
  begun : Begun echoes piece
  suffix : piece <:+ data
  longest : ∀ t, t <:+ data → Begun echoes t → t <:+ piece

theorem foldl_max_spec (l : List Nat) (init : Nat) :
    (∀ n ∈ l, n ≤ l.foldl max init) ∧ init ≤ l.foldl max init ∧
      (l.foldl max init = init ∨ l.foldl max init ∈ l) := by
  induction l generalizing init with
  | nil => simp
  | cons m l ih =>
      obtain ⟨hall, hinit, hmem⟩ := ih (max init m)
      rw [List.foldl_cons]
      refine ⟨?_, (le_max_left _ _).trans hinit, ?_⟩
      · rintro n (_ | ⟨_, hn⟩)
        · exact (le_max_right _ _).trans hinit
        · exact hall n hn
      · rcases hmem with hmem | hmem
        · rw [hmem]
          rcases max_choice init m with h | h
          · exact .inl h
          · rw [h]
            exact .inr List.mem_cons_self
        · exact .inr (List.mem_cons_of_mem m hmem)

theorem longest_overlap (kept : List (List UInt8)) (cleaned : List UInt8) :
    Longest kept cleaned
      (cleaned.drop (cleaned.length - (kept.map (prefixOverlap cleaned)).foldl max 0)) := by
  obtain ⟨hall, -, hmem⟩ := foldl_max_spec (kept.map (prefixOverlap cleaned)) 0
  generalize (kept.map (prefixOverlap cleaned)).foldl max 0 = hold at hall hmem ⊢
  have hlen : hold ≤ cleaned.length := by
    rcases hmem with rfl | hmem
    · exact Nat.zero_le _
    · obtain ⟨e, -, rfl⟩ := List.mem_map.mp hmem
      exact prefixOverlap_le cleaned e
  refine ⟨?_, List.drop_suffix _ _, fun t ht hbegun => ?_⟩
  · by_cases hzero : hold = 0
    · exact .inl (by simp [hzero])
    · obtain ⟨e, he, rfl⟩ := List.mem_map.mp (hmem.resolve_left hzero)
      obtain ⟨hbegins, hlimit⟩ := beginsEcho_of_prefixOverlap hzero
      refine .inr ⟨e, he, hbegins, ?_⟩
      rw [List.length_drop]
      omega
  · refine List.suffix_of_suffix_length_le ht (List.drop_suffix _ _) ?_
    rw [List.length_drop]
    rcases hbegun with rfl | ⟨e, he, hbegins, hlimit⟩
    · exact Nat.zero_le _
    · have hle := hall _ (List.mem_map_of_mem he)
      have := le_prefixOverlap ht hbegins hlimit
      omega

structure Scrubbed (injected : List (List UInt8)) (f : HandshakeFilter) (chunk : List UInt8)
    (g : HandshakeFilter) (out cleaned : List UInt8) (kept : List (List UInt8)) : Prop where
  done : g.done = f.done
  texts : g.echoTexts injected = f.echoTexts injected
  left : ∀ l, g.echoesLeft l = kept
  budget : g.echoScrubBudget = f.echoScrubBudget + chunk.length
  split : out ++ g.pendingEcho = cleaned
  closed : g.echoScrubDone = true → g.pendingEcho = []
  held : f.echoScrubBudget + chunk.length < maxEchoScrubBytes → kept ≠ [] →
    g.echoScrubDone = false ∧ Longest kept cleaned g.pendingEcho

theorem scrubbed_of_streaming (hopen : f.echoScrubDone = false)
    (htexts : f.echoTexts injected ≠ []) {chunk cleaned : List UInt8} {kept : List (List UInt8)}
    (hscrub : scrubEchoes (f.echoesLeft (f.echoTexts injected)) (f.pendingEcho ++ chunk) =
      (cleaned, kept)) :
    Scrubbed injected f chunk (f.stripInjectedEchoStreaming injected chunk).1
      (f.stripInjectedEchoStreaming injected chunk).2 cleaned kept := by
  unfold stripInjectedEchoStreaming
  simp only [hopen, Bool.false_eq_true, if_false, htexts, hscrub]
  split
  · rename_i hstop
    refine ⟨rfl, rfl, fun _ => rfl, rfl, List.append_nil _, fun _ => rfl, fun hb hkept => ?_⟩
    rcases hstop with hstop | hstop
    · exact absurd hstop hkept
    · omega
  · exact ⟨rfl, rfl, fun _ => rfl, rfl, List.take_append_drop _ _, fun hdone => (by cases hdone),
      fun _ _ => ⟨rfl, longest_overlap kept cleaned⟩⟩

structure Streaming (injected : List (List UInt8)) (f : HandshakeFilter) : Prop where
  done : f.done = true
  held : f.pendingEcho ≠ [] → f.echoScrubDone = false ∧ f.echoTexts injected ≠ []

theorem Streaming.feed_eq (h : Streaming injected f) (chunk : List UInt8) :
    feed injected f chunk = f.stripInjectedEchoStreaming injected chunk := by
  simp [HandshakeFilter.feed, filter, h.done]

theorem Streaming.scrubbed (h : Streaming injected f) (hopen : f.echoScrubDone = false)
    (htexts : f.echoTexts injected ≠ []) {chunk cleaned : List UInt8} {kept : List (List UInt8)}
    (hscrub : scrubEchoes (f.echoesLeft (f.echoTexts injected)) (f.pendingEcho ++ chunk) =
      (cleaned, kept)) :
    Scrubbed injected f chunk (feed injected f chunk).1 (feed injected f chunk).2 cleaned kept := by
  rw [h.feed_eq]
  exact scrubbed_of_streaming hopen htexts hscrub

theorem Scrubbed.streaming {chunk out cleaned : List UInt8} {kept : List (List UInt8)}
    {g : HandshakeFilter} (hs : Scrubbed injected f chunk g out cleaned kept)
    (hdone : f.done = true) (htexts : f.echoTexts injected ≠ []) : Streaming injected g where
  done := hs.done.trans hdone
  held hpending := by
    refine ⟨?_, hs.texts ▸ htexts⟩
    cases hclosed : g.echoScrubDone with
    | false => rfl
    | true => exact absurd (hs.closed hclosed) hpending

theorem forwards_cons (f : HandshakeFilter) (chunk : List UInt8) (chunks : List (List UInt8)) :
    f.forwards injected (chunk :: chunks) =
      (feed injected f chunk).2 ++ (feed injected f chunk).1.forwards injected chunks := by
  simp [forwards, feedAll]

theorem Streaming.pass (h : Streaming injected f)
    (hquiet : f.echoScrubDone = true ∨ f.echoTexts injected = []) (chunk : List UInt8) :
    feed injected f chunk = (f, chunk) ∧ f.pendingEcho = [] := by
  constructor
  · rw [h.feed_eq]
    unfold stripInjectedEchoStreaming
    split
    · rfl
    · rename_i hopen
      simp [hquiet.resolve_left hopen]
  · by_contra hne
    obtain ⟨hopen, htexts⟩ := h.held hne
    rcases hquiet with hq | hq
    · rw [hopen] at hq
      cases hq
    · exact htexts hq

theorem Streaming.forwards_quiet (h : Streaming injected f)
    (hquiet : f.echoScrubDone = true ∨ f.echoTexts injected = []) (chunks : List (List UInt8)) :
    f.forwards injected chunks = f.pendingEcho ++ chunks.flatten := by
  induction chunks with
  | nil => simp [forwards, feedAll, drainPendingEcho]
  | cons chunk chunks ih =>
      obtain ⟨hpass, hnil⟩ := h.pass hquiet chunk
      rw [forwards_cons, hpass, ih, hnil]
      rfl

theorem Scrubbed.free {chunk out cleaned t : List UInt8} {kept : List (List UInt8)}
    {g : HandshakeFilter} (hs : Scrubbed injected f chunk g out cleaned kept)
    (hfree : Free kept (cleaned ++ t)) (l : List (List UInt8)) :
    Free (g.echoesLeft l) (g.pendingEcho ++ t) := by
  rw [hs.left]
  rw [← hs.split, List.append_assoc] at hfree
  exact Free.part (a := out) (c := []) (by simpa using hfree)

theorem Streaming.forwards_free (h : Streaming injected f) (chunks : List (List UInt8))
    (hfree : Free (f.echoesLeft (f.echoTexts injected)) (f.pendingEcho ++ chunks.flatten)) :
    f.forwards injected chunks = f.pendingEcho ++ chunks.flatten := by
  induction chunks generalizing f with
  | nil => simp [forwards, feedAll, drainPendingEcho]
  | cons chunk chunks ih =>
      by_cases hquiet : f.echoScrubDone = true ∨ f.echoTexts injected = []
      · exact h.forwards_quiet hquiet (chunk :: chunks)
      · obtain ⟨hopen, htexts⟩ := not_or.mp hquiet
        rw [List.flatten_cons, ← List.append_assoc] at hfree
        have hscrub := (Free.part (a := []) (b := f.pendingEcho ++ chunk) (c := chunks.flatten)
          (by simpa using hfree)).scrub
        have hs := h.scrubbed (Bool.eq_false_iff.mpr hopen) htexts hscrub
        have hrest := hs.free (fun e he => hfree e (List.mem_of_mem_filter he))
          ((feed injected f chunk).1.echoTexts injected)
        rw [forwards_cons, ih (hs.streaming h.done htexts) hrest, ← List.append_assoc, hs.split,
          List.flatten_cons, List.append_assoc]

theorem Scrubbed.forwards_free {chunk out cleaned : List UInt8} {kept : List (List UInt8)}
    {g : HandshakeFilter} (hs : Scrubbed injected f chunk g out cleaned kept)
    (hdone : f.done = true) (htexts : f.echoTexts injected ≠ []) {chunks : List (List UInt8)}
    (hfree : Free kept (cleaned ++ chunks.flatten)) :
    out ++ g.forwards injected chunks = cleaned ++ chunks.flatten := by
  rw [(hs.streaming hdone htexts).forwards_free chunks (hs.free hfree _), ← List.append_assoc,
    hs.split]

theorem append_split {a b c d : List UInt8} (h : a ++ b = c ++ d) (hlen : c.length ≤ a.length) :
    ∃ m, a = c ++ m ∧ d = m ++ b := by
  rcases List.append_eq_append_iff.mp h with ⟨m, hc, hb⟩ | hm
  · rw [hc, List.length_append] at hlen
    obtain rfl : m = [] := List.eq_nil_of_length_eq_zero (by omega)
    exact ⟨[], by simpa using hc.symm, by simpa using hb.symm⟩
  · exact hm

/-- A piece that the filter may hold back after the chunks, where `pending` was held before. -/
def HeldBack (echoes : List (List UInt8)) : List (List UInt8) → List UInt8 → List UInt8 → Prop
  | [], pending, t => t = pending
  | chunk :: chunks, pending, t =>
      ∃ s, s <:+ pending ++ chunk ∧ Begun echoes s ∧ HeldBack echoes chunks s t

theorem HeldBack.mono {echoes chunks : List (List UInt8)} {p p' t : List UInt8}
    (h : HeldBack echoes chunks p t) (hp : p <:+ p') :
    ∃ t', HeldBack echoes chunks p' t' ∧ t.length ≤ t'.length := by
  cases chunks with
  | nil =>
      cases h
      exact ⟨p', rfl, hp.length_le⟩
  | cons chunk chunks =>
      obtain ⟨s, hs, hbegun, h⟩ := h
      obtain ⟨z, rfl⟩ := hp
      exact ⟨t, ⟨s, hs.trans ⟨z, by simp⟩, hbegun, h⟩, le_rfl⟩

/-- Wherever the chunks end inside of the echo `w`, all there is of it is held back. What comes
before `pending` in the text has been let through. -/
def Held (echoes : List (List UInt8)) (x w through pending : List UInt8)
    (chunks : List (List UInt8)) : Prop :=
  ∀ a b w₁ w₂, chunks = a ++ b → through ++ (pending ++ a.flatten) = x ++ w₁ → w = w₁ ++ w₂ →
    w₁ ≠ [] → w₂ ≠ [] → ∃ t, HeldBack echoes a pending t ∧ w₁.length ≤ t.length

theorem held_filter (es₁ : List (List UInt8)) {echo : List UInt8} (hecho : echo ≠ [])
    (es₂ : List (List UInt8)) :
    Held (es₁.filter (fun e => e ≠ []) ++ echo :: es₂.filter fun e => e ≠ []) =
      Held (es₁ ++ echo :: es₂) := by
  have hfilter : es₁.filter (fun e => e ≠ []) ++ echo :: es₂.filter (fun e => e ≠ []) =
      (es₁ ++ echo :: es₂).filter fun e => e ≠ [] := by
    rw [List.filter_append, List.filter_cons_of_pos (by simpa using hecho)]
  have hback : HeldBack ((es₁ ++ echo :: es₂).filter fun e => e ≠ []) =
      HeldBack (es₁ ++ echo :: es₂) := by
    funext chunks
    induction chunks with
    | nil => rfl
    | cons chunk chunks ih =>
        funext pending t
        simp only [HeldBack, begun_filter, ih]
  unfold Held
  rw [hfilter, hback]

theorem held_before {echoes : List (List UInt8)} {through pending w₁ : List UInt8}
    (hcut : through ++ (pending ++ ([] : List (List UInt8)).flatten) = x ++ w₁)
    (hx : through.length ≤ x.length) :
    ∃ t, HeldBack echoes [] pending t ∧ w₁.length ≤ t.length := by
  refine ⟨pending, rfl, ?_⟩
  have := congrArg List.length hcut
  simp only [List.flatten_nil, List.append_nil, List.length_append] at this
  omega

theorem uncut {data more w₁ w₂ : List UInt8} (hend : (x ++ w).length ≤ data.length)
    (hcut : data ++ more = x ++ w₁) (hw : w = w₁ ++ w₂) : w₂ = [] := by
  have := congrArg List.length hcut
  rw [hw] at hend
  simp only [List.length_append] at this hend
  exact List.eq_nil_of_length_eq_zero (by omega)

theorem held_cons {echoes chunks : List (List UInt8)} {through pending chunk out p' : List UInt8}
    (hlong : Longest echoes (pending ++ chunk) p') (hsplit : out ++ p' = pending ++ chunk)
    (hx : through.length ≤ x.length) :
    Held echoes x w through pending (chunk :: chunks) ↔
      Held echoes x w (through ++ out) p' chunks := by
  have htext : ∀ a : List (List UInt8), through ++ (pending ++ (chunk :: a).flatten) =
      through ++ out ++ (p' ++ a.flatten) := fun a => by
    rw [List.flatten_cons, ← List.append_assoc pending, ← hsplit]
    simp
  constructor
  · intro h a b w₁ w₂ hchunks hcut hw hne₁ hne₂
    obtain ⟨t, ⟨s, hs, hbegun, ht⟩, hlen⟩ :=
      h (chunk :: a) b w₁ w₂ (by rw [hchunks]; rfl) ((htext a).trans hcut) hw hne₁ hne₂
    obtain ⟨t', ht', hle⟩ := ht.mono (hlong.longest s hs hbegun)
    exact ⟨t', ht', hlen.trans hle⟩
  · intro h a b w₁ w₂ hchunks hcut hw hne₁ hne₂
    cases a with
    | nil => exact held_before hcut hx
    | cons d a =>
        obtain ⟨rfl, rfl⟩ := List.cons.inj hchunks
        obtain ⟨t, ht, hlen⟩ := h a b w₁ w₂ rfl ((htext a).symm.trans hcut) hw hne₁ hne₂
        exact ⟨t, ⟨p', hlong.suffix, hlong.begun, ht⟩, hlen⟩

theorem Streaming.scrubbed_none (h : Streaming injected f) (hopen : f.echoScrubDone = false)
    (htexts : f.echoTexts injected ≠ []) {chunk : List UInt8} (hecho : echo ≠ [])
    (hleft : f.echoesLeft (f.echoTexts injected) = es₁ ++ echo :: es₂)
    (hfree : Free (es₁ ++ echo :: es₂) (f.pendingEcho ++ chunk)) :
    Scrubbed injected f chunk (feed injected f chunk).1 (feed injected f chunk).2
      (f.pendingEcho ++ chunk)
      (es₁.filter (fun e => e ≠ []) ++ echo :: es₂.filter fun e => e ≠ []) := by
  have hscrub := hfree.scrub
  rw [← hleft] at hscrub
  have hs := h.scrubbed hopen htexts hscrub
  rwa [hleft, List.filter_append, List.filter_cons_of_pos (by simpa using hecho)] at hs

theorem Streaming.forwards_found (h : Streaming injected f) (hopen : f.echoScrubDone = false)
    (htexts : f.echoTexts injected ≠ []) {chunk w₀ w' before after : List UInt8}
    {chunks : List (List UInt8)}
    (hleft : f.echoesLeft (f.echoTexts injected) = es₁ ++ echo :: es₂)
    (hsingle : Single es₁ echo es₂ x (w₀ ++ w') y)
    (htext : f.pendingEcho ++ chunk ++ chunks.flatten = w' ++ y)
    (hfind : findWrappedEcho (f.pendingEcho ++ chunk) echo = some (before, after)) :
    f.forwards injected (chunk :: chunks) = before ++ y := by
  have hdata : x ++ (w₀ ++ w') ++ y =
      x ++ w₀ ++ (f.pendingEcho ++ chunk) ++ chunks.flatten := by
    rw [List.append_assoc (x ++ w₀), htext]
    simp
  obtain rfl := hsingle.once.found_part hdata hfind
  rw [← List.append_assoc w'] at htext
  have hpart := List.append_cancel_right htext
  obtain ⟨g, s, hfound, -⟩ := findWrappedEcho_some.mp hfind
  have hshort := findWrappedEcho_length hfind
  rw [hpart, List.append_assoc] at hfound
  simp only [hpart, List.length_append] at hshort
  obtain ⟨m, rfl, -⟩ := append_split hfound (by omega)
  have hothers := hsingle.others (w₀ ++ before) m (List.append_assoc _ _ _).symm
  have hbefore : Free es₁ (f.pendingEcho ++ chunk) := by
    have hall := hsingle.before
    rw [hdata] at hall
    exact (Free.append_iff.mp hall.part).1
  have hrest : Free (es₁ ++ es₂) (before ++ after ++ chunks.flatten) :=
    Free.part (a := x ++ w₀) (c := []) (by simpa using hothers)
  have hafter : Free es₂ (before ++ after) :=
    (Free.append_iff.mp (Free.part (a := []) (c := chunks.flatten) (by simpa using hrest))).2
  have hscrub := scrubEchoes_found hsingle.once.echo_ne_nil hfind hbefore hafter
  rw [← hleft] at hscrub
  rw [forwards_cons, (h.scrubbed hopen htexts hscrub).forwards_free h.done htexts
    fun e he => hrest e (List.mem_of_mem_filter he), List.append_assoc]

theorem Streaming.forwards_torn (h : Streaming injected f) (chunks : List (List UInt8))
    {w₀ w' : List UInt8} (hleft : f.echoesLeft (f.echoTexts injected) = es₁ ++ echo :: es₂)
    (hsingle : Single es₁ echo es₂ x (w₀ ++ w') y)
    (htext : f.pendingEcho ++ chunks.flatten = w' ++ y) :
    y.length ≤ (f.forwards injected chunks).length := by
  induction chunks generalizing f w₀ w' es₁ es₂ with
  | nil =>
      have hlen := congrArg List.length htext
      simp only [List.flatten_nil, List.append_nil, List.length_append] at hlen
      simp only [forwards, feedAll, drainPendingEcho, List.nil_append]
      omega
  | cons chunk chunks ih =>
      by_cases hquiet : f.echoScrubDone = true ∨ f.echoTexts injected = []
      · rw [h.forwards_quiet hquiet, htext, List.length_append]
        omega
      obtain ⟨hopen, htexts⟩ := not_or.mp hquiet
      rw [Bool.not_eq_true] at hopen
      rw [List.flatten_cons, ← List.append_assoc] at htext
      cases hfind : findWrappedEcho (f.pendingEcho ++ chunk) echo with
      | some found =>
          rw [h.forwards_found hopen htexts hleft hsingle htext hfind, List.length_append]
          omega
      | none =>
          have hdata : x ++ (w₀ ++ w') ++ y =
              x ++ w₀ ++ (f.pendingEcho ++ chunk) ++ chunks.flatten := by
            rw [List.append_assoc (x ++ w₀), htext]
            simp
          have hs := h.scrubbed_none hopen htexts hsingle.once.echo_ne_nil hleft
            (hsingle.free_of_none hdata hfind)
          rw [← hs.split, List.append_assoc] at htext
          rw [forwards_cons, List.length_append]
          by_cases hout : (feed injected f chunk).2.length ≤ w'.length
          · -- still inside of the echo
            obtain ⟨w'', rfl, hrest⟩ := append_split htext.symm hout
            rw [← List.append_assoc] at hsingle
            have := ih (hs.streaming h.done htexts) (hs.left _) hsingle.filter hrest
            omega
          · obtain ⟨y₁, hy₁, rfl⟩ := append_split htext (by omega)
            have hfree : Free (es₁.filter (fun e => e ≠ []) ++ echo :: es₂.filter fun e => e ≠ [])
                ((feed injected f chunk).1.pendingEcho ++ chunks.flatten) :=
              Free.part (a := x ++ y₁) (c := []) (by simpa using hsingle.filter.free_after)
            rw [(hs.streaming h.done htexts).forwards_free chunks (hs.left _ ▸ hfree), hy₁]
            simp only [List.length_append]
            omega

theorem Streaming.forwards_ne (h : Streaming injected f) (chunks : List (List UInt8))
    {through : List UInt8} (hleft : f.echoesLeft (f.echoTexts injected) = es₁ ++ echo :: es₂)
    (hsingle : Single es₁ echo es₂ x w y)
    (htext : through ++ (f.pendingEcho ++ chunks.flatten) = x ++ w ++ y)
    (hshort : (through ++ f.pendingEcho).length < (x ++ w).length)
    (htorn : x.length < through.length) :
    through ++ f.forwards injected chunks ≠ x ++ y ∧
      ¬ Held (es₁ ++ echo :: es₂) x w through f.pendingEcho chunks := by
  rw [List.append_assoc x] at htext
  obtain ⟨w₀, rfl, hmore⟩ := append_split htext htorn.le
  simp only [List.length_append] at hshort htorn
  obtain ⟨w', rfl, hrest⟩ := append_split hmore (by omega)
  rw [List.length_append] at hshort
  constructor
  · intro heq
    have hafter := h.forwards_torn chunks hleft hsingle hrest
    have hlen := congrArg List.length heq
    simp only [List.length_append] at hlen
    omega
  · intro hheld
    obtain ⟨w₂, rfl, -⟩ := append_split hrest.symm (by omega)
    have hne₁ : w₀ ++ f.pendingEcho ≠ [] := by
      intro hnil
      obtain ⟨rfl, -⟩ := List.append_eq_nil_iff.mp hnil
      simp at htorn
    have hne₂ : w₂ ≠ [] := by
      rintro rfl
      rw [List.append_nil] at hshort
      omega
    obtain ⟨t, ht, hle⟩ :=
      hheld [] chunks (w₀ ++ f.pendingEcho) w₂ rfl (by simp) (by simp) hne₁ hne₂
    cases ht
    rw [List.length_append] at hle
    omega

theorem Streaming.forwards_end (h : Streaming injected f) (hopen : f.echoScrubDone = false)
    (htexts : f.echoTexts injected ≠ []) {chunk through : List UInt8} {chunks : List (List UInt8)}
    (hleft : f.echoesLeft (f.echoTexts injected) = es₁ ++ echo :: es₂)
    (hsingle : Single es₁ echo es₂ x w y)
    (htext : through ++ (f.pendingEcho ++ chunk) ++ chunks.flatten = x ++ w ++ y)
    (hx : through.length ≤ x.length)
    (hend : (x ++ w).length ≤ (through ++ (f.pendingEcho ++ chunk)).length) :
    through ++ f.forwards injected (chunk :: chunks) = x ++ y ∧
      Held (es₁ ++ echo :: es₂) x w through f.pendingEcho (chunk :: chunks) := by
  constructor
  · obtain ⟨y₁, hdata, rfl⟩ := append_split htext hend
    rw [List.append_assoc x] at hdata
    obtain ⟨x', rfl, hpart⟩ := append_split hdata.symm hx
    rw [← List.append_assoc] at hpart
    have hscrub := hsingle.drop.strip.2
    rw [← hleft, ← hpart] at hscrub
    have hs := h.scrubbed hopen htexts hscrub
    have hrest : Free (es₁ ++ es₂) (x' ++ y₁ ++ chunks.flatten) := by
      simpa using hsingle.drop.after
    rw [forwards_cons, hs.forwards_free h.done htexts
      fun e he => hrest e (List.mem_of_mem_filter he)]
    simp
  · intro a b w₁ w₂ hchunks hcut hw hne₁ hne₂
    cases a with
    | nil => exact held_before hcut hx
    | cons d a =>
        obtain ⟨rfl, -⟩ := List.cons.inj hchunks
        rw [List.flatten_cons, ← List.append_assoc f.pendingEcho, ← List.append_assoc] at hcut
        exact absurd (uncut hend hcut hw) hne₂

/-- The one echo of the text is taken out, and nothing else, exactly when it is held back wherever
the chunks end inside of it. -/
theorem Streaming.forwards_single (h : Streaming injected f) (hopen : f.echoScrubDone = false)
    (htexts : f.echoTexts injected ≠ []) (chunks : List (List UInt8)) {through : List UInt8}
    (hleft : f.echoesLeft (f.echoTexts injected) = es₁ ++ echo :: es₂)
    (hsingle : Single es₁ echo es₂ x w y)
    (htext : through ++ (f.pendingEcho ++ chunks.flatten) = x ++ w ++ y)
    (hshort : (through ++ f.pendingEcho).length < (x ++ w).length)
    (hbudget : f.echoScrubBudget + (x ++ w).length ≤
      (through ++ f.pendingEcho).length + maxEchoScrubBytes) :
    through ++ f.forwards injected chunks = x ++ y ↔
      Held (es₁ ++ echo :: es₂) x w through f.pendingEcho chunks := by
  induction chunks generalizing f through es₁ es₂ with
  | nil =>
      have hlen := congrArg List.length htext
      simp only [List.flatten_nil, List.append_nil, List.length_append] at hlen hshort
      omega
  | cons chunk chunks ih =>
      by_cases htorn : x.length < through.length
      · have hfalse := h.forwards_ne (chunk :: chunks) hleft hsingle htext hshort htorn
        exact iff_of_false hfalse.1 hfalse.2
      rw [List.flatten_cons, ← List.append_assoc f.pendingEcho, ← List.append_assoc] at htext
      by_cases hend : (x ++ w).length ≤ (through ++ (f.pendingEcho ++ chunk)).length
      · have htrue := h.forwards_end hopen htexts hleft hsingle htext (Nat.not_lt.mp htorn) hend
        exact iff_of_true htrue.1 htrue.2
      · -- the echo is not complete, and the filter goes on with what it holds back
        have hlen := congrArg List.length htext
        simp only [List.length_append] at hlen hend hshort hbudget
        have hecho := hsingle.once.echo_ne_nil
        have hnone := hsingle.once.none_of_cut htext.symm (by omega)
        have hs := h.scrubbed_none hopen htexts hecho hleft
          (hsingle.free_of_none htext.symm hnone)
        obtain ⟨hopen', hlong⟩ := hs.held (by omega) (by simp)
        have hsplit := congrArg List.length hs.split
        have hbudget' := hs.budget
        have htext' : through ++ (feed injected f chunk).2 ++
            ((feed injected f chunk).1.pendingEcho ++ chunks.flatten) = x ++ w ++ y := by
          rw [← htext, ← hs.split]
          simp
        have hiff := ih (hs.streaming h.done htexts) hopen' (hs.texts ▸ htexts)
          (hs.left _) hsingle.filter htext'
          (by simp only [List.length_append] at hsplit ⊢; omega)
          (by simp only [List.length_append] at hsplit ⊢; omega)
        rw [forwards_cons, ← List.append_assoc, hiff,
          ← held_cons hlong hs.split (Nat.not_lt.mp htorn), held_filter es₁ hecho es₂]

/-- A filter that has not seen anything yet and does not show what comes before the marker. -/
def armed (echoes : List (List UInt8)) (probeReply : Bool) : HandshakeFilter where
  echoes := echoes
  probeReply := probeReply
  preserveMotd := false

example (commands : List (List UInt8)) :
    armForCommand false commands = armed (armForCommand false commands).echoes false := rfl

example (command : List UInt8) :
    armForShellProbe false command = armed (armForShellProbe false command).echoes true := rfl

structure Marked (probeReply : Bool) (pre post : List UInt8) : Prop where
  first : index (pre ++ promptStartMarker) promptStartMarker = some pre.length
  unanswered : probeReply = true → parseShellProbeReply (pre ++ promptStartMarker ++ post) = none
  buffered : (pre ++ promptStartMarker).length ≤ maxHandshakeBytes + 1

theorem parseShellProbeReply_append {a rest : List UInt8}
    (h : parseShellProbeReply a = some rest) (b : List UInt8) :
    parseShellProbeReply (a ++ b) = some (rest ++ b) := by
  unfold parseShellProbeReply at h
  split at h
  · cases h
  · rename_i start hstart
    obtain ⟨stop, hstop, rfl⟩ := Option.map_eq_some_iff.mp h
    have hlen := index_length hstart
    have hlen' := index_length hstop
    unfold parseShellProbeReply
    rw [index_append_right hstart b]
    simp only [List.drop_append_of_le_length hlen, index_append_right hstop b, Option.map_some,
      List.drop_append_of_le_length hlen']

variable {probeReply : Bool} {pre post b t : List UInt8} {echoes : List (List UInt8)}

theorem Marked.no_reply (h : Marked probeReply pre post)
    (ht : b ++ t = pre ++ promptStartMarker ++ post) (hp : probeReply = true) :
    parseShellProbeReply b = none := by
  cases hb : parseShellProbeReply b with
  | none => rfl
  | some rest =>
      have hwhole := h.unanswered hp
      rw [← ht, parseShellProbeReply_append hb] at hwhole
      cases hwhole

theorem Marked.no_marker (h : Marked probeReply pre post)
    (ht : b ++ t = pre ++ promptStartMarker ++ post)
    (hlen : b.length < (pre ++ promptStartMarker).length) : index b promptStartMarker = none := by
  cases hb : index b promptStartMarker with
  | none => rfl
  | some i =>
      obtain ⟨m, hm, -⟩ := append_split ht.symm hlen.le
      have hfirst := h.first
      rw [hm, index_append_right hb] at hfirst
      have := index_length hb
      cases hfirst
      rw [List.length_append] at hlen
      omega

theorem feed_waiting (h : Marked probeReply pre post) {buffer chunk : List UInt8}
    (ht : buffer ++ chunk ++ t = pre ++ promptStartMarker ++ post)
    (hlen : (buffer ++ chunk).length < (pre ++ promptStartMarker).length) :
    feed injected { armed echoes probeReply with buffer := buffer } chunk =
      ({ armed echoes probeReply with buffer := buffer ++ chunk }, []) := by
  have hbuffered := h.buffered
  have hreply : (if probeReply = true then parseShellProbeReply (buffer ++ chunk) else none) =
      none := by
    split
    · rename_i hp
      exact h.no_reply ht hp
    · rfl
  have hsmall : ¬ maxHandshakeBytes < (buffer ++ chunk).length := by omega
  rw [List.length_append] at hsmall
  simp [feed, filter, armed, hreply, h.no_marker ht hlen, hsmall]

theorem feed_marker (h : Marked probeReply pre post) {buffer chunk : List UInt8}
    (hb : buffer ++ chunk = pre ++ promptStartMarker ++ b) (hpost : post = b ++ t) :
    feed injected { armed echoes probeReply with buffer := buffer } chunk =
      ({ armed echoes probeReply with done := true },
        (armed echoes probeReply).stripInjectedEcho injected (promptStartMarker ++ b)) := by
  have hreply : (if probeReply = true then parseShellProbeReply (buffer ++ chunk) else none) =
      none := by
    split
    · rename_i hp
      refine h.no_reply (t := t) ?_ hp
      rw [hb, hpost]
      simp
    · rfl
  have hindex : index (buffer ++ chunk) promptStartMarker = some pre.length := by
    rw [hb]
    exact index_append_right h.first b
  have hdrop : (buffer ++ chunk).drop pre.length = promptStartMarker ++ b := by
    rw [hb, List.append_assoc, List.drop_left]
  simp only [feed, filter, armed, hreply, hindex, hdrop, Bool.false_eq_true, if_false,
    Bool.false_and, List.nil_append]
  rfl

theorem forwards_armed (h : Marked probeReply pre post) (injected echoes : List (List UInt8))
    {chunks : List (List UInt8)} {buffer : List UInt8}
    (hstream : buffer ++ chunks.flatten = pre ++ promptStartMarker ++ post)
    (hbuffer : buffer.length < (pre ++ promptStartMarker).length) :
    ∃ a c b rest, chunks = a ++ c :: rest ∧
      buffer ++ (a.flatten ++ c) = pre ++ promptStartMarker ++ b ∧ post = b ++ rest.flatten ∧
      (buffer ++ a.flatten).length < (pre ++ promptStartMarker).length ∧
      forwards injected { armed echoes probeReply with buffer := buffer } chunks =
        (armed echoes probeReply).stripInjectedEcho injected (promptStartMarker ++ b) ++
          forwards injected { armed echoes probeReply with done := true } rest := by
  induction chunks generalizing buffer with
  | nil =>
      rw [List.flatten_nil, List.append_nil] at hstream
      rw [hstream, List.length_append] at hbuffer
      omega
  | cons c chunks ih =>
      rw [List.flatten_cons, ← List.append_assoc] at hstream
      by_cases hlen : (buffer ++ c).length < (pre ++ promptStartMarker).length
      · obtain ⟨a, d, b, rest, rfl, hb, hpost, hbefore, hforwards⟩ := ih hstream hlen
        refine ⟨c :: a, d, b, rest, rfl, by simpa using hb, hpost, by simpa using hbefore, ?_⟩
        rw [forwards_cons, feed_waiting h hstream hlen, hforwards]
        rfl
      · obtain ⟨b, hb, hpost⟩ := append_split hstream (by omega)
        refine ⟨[], c, b, chunks, rfl, by simpa using hb, hpost, by simpa using hbuffer, ?_⟩
        rw [forwards_cons, feed_marker h hb hpost]

/-- After the chunk that the marker ends in nothing is held back. Wherever a chunk ends inside of
the echo from there on, all there is of the echo is held back. -/
def Untorn (echoes : List (List UInt8)) (pre x w : List UInt8) (chunks : List (List UInt8)) :
    Prop :=
  ∀ a c rest through, chunks = a ++ c :: rest → a.flatten ++ c = pre ++ through →
    a.flatten.length < (pre ++ promptStartMarker).length →
    promptStartMarker.length ≤ through.length → Held echoes x w through [] rest

/-- A stream is the text `x ++ y` and the echo `w` in between, if there is one. -/
inductive Removed (echoes : List (List UInt8)) (text : List UInt8) :
    List UInt8 → List UInt8 → List UInt8 → Prop where
  | free : Free echoes text → Removed echoes text text [] []
  | single {es₁ es₂ : List (List UInt8)} {echo x w y : List UInt8} :
      echoes = es₁ ++ echo :: es₂ → text = x ++ w ++ y → Single es₁ echo es₂ x w y →
      (x ++ w).length ≤ promptStartMarker.length + maxEchoScrubBytes →
      Removed echoes text x w y

theorem Removed.text_eq {text : List UInt8} (h : Removed echoes text x w y) :
    text = x ++ w ++ y := by
  cases h with
  | free => simp
  | single hechoes htext hsingle hbudget => exact htext

theorem cut_unique {a b rest rest' : List (List UInt8)} {c d : List UInt8} {n : Nat}
    (h : a ++ c :: rest = b ++ d :: rest') (ha : a.flatten.length < n)
    (hac : n ≤ (a.flatten ++ c).length) (hb : b.flatten.length < n)
    (hbd : n ≤ (b.flatten ++ d).length) : a = b ∧ c = d ∧ rest = rest' := by
  rcases List.append_eq_append_iff.mp h with ⟨m, rfl, hm⟩ | ⟨m, rfl, hm⟩
  · cases m with
    | nil => simpa using hm
    | cons e m =>
        obtain ⟨rfl, -⟩ := List.cons.inj hm
        simp only [List.flatten_append, List.flatten_cons, List.length_append] at hb hac
        omega
  · cases m with
    | nil =>
        obtain ⟨rfl, rfl⟩ := List.cons.inj hm
        simp
    | cons e m =>
        obtain ⟨rfl, -⟩ := List.cons.inj hm
        simp only [List.flatten_append, List.flatten_cons, List.length_append] at ha hbd
        omega

theorem untorn_iff {a rest : List (List UInt8)} {c through : List UInt8}
    (hcut : a.flatten ++ c = pre ++ through)
    (hbefore : a.flatten.length < (pre ++ promptStartMarker).length)
    (hmarker : promptStartMarker.length ≤ through.length) :
    Untorn echoes pre x w (a ++ c :: rest) ↔ Held echoes x w through [] rest := by
  have hlength : ∀ z : List UInt8, promptStartMarker.length ≤ z.length →
      (pre ++ promptStartMarker).length ≤ (pre ++ z).length := fun z hz => by
    simpa using hz
  constructor
  · intro h
    exact h a c rest through rfl hcut hbefore hmarker
  · intro h b d rest' z hchunks hcut' hbefore' hmarker'
    obtain ⟨rfl, rfl, rfl⟩ := cut_unique hchunks hbefore (hcut ▸ hlength _ hmarker) hbefore'
      (hcut' ▸ hlength _ hmarker')
    obtain rfl := List.append_cancel_left (hcut.symm.trans hcut')
    exact h

theorem untorn_singleton (echoes : List (List UInt8)) (pre x w y : List UInt8) :
    Untorn echoes pre x w [pre ++ (x ++ w ++ y)] := by
  intro a c rest through hchunks hcut hbefore hmarker a' b w₁ w₂ hrest hpiece hw hne₁ hne₂
  obtain ⟨rfl, hc⟩ : a = [] ∧ [pre ++ (x ++ w ++ y)] = c :: rest := by
    cases a with
    | nil => exact ⟨rfl, hchunks⟩
    | cons d a => simp at hchunks
  obtain ⟨rfl, rfl⟩ := List.cons.inj hc
  obtain ⟨rfl, -⟩ := List.append_eq_nil_iff.mp hrest.symm
  rw [List.flatten_nil, List.nil_append] at hcut
  rw [← List.append_cancel_left hcut, List.flatten_nil, List.append_nil, List.append_nil] at hpiece
  exact absurd (uncut le_rfl hpiece hw) hne₂

theorem streaming_marked : Streaming injected { armed echoes probeReply with done := true } where
  done := rfl
  held hne := absurd rfl hne

theorem forwards_marked {rest : List (List UInt8)}
    (hfree : Free ((armed echoes probeReply).echoTexts injected) rest.flatten) :
    forwards injected { armed echoes probeReply with done := true } rest = rest.flatten :=
  streaming_marked.forwards_free rest hfree

theorem forwards_free {through : List UInt8} {rest : List (List UInt8)}
    (hfree : Free ((armed echoes probeReply).echoTexts injected) (through ++ rest.flatten)) :
    (armed echoes probeReply).stripInjectedEcho injected through ++
      forwards injected { armed echoes probeReply with done := true } rest =
        through ++ rest.flatten := by
  have hstrip : (armed echoes probeReply).stripInjectedEcho injected through = through :=
    (Free.part (a := []) (c := rest.flatten) (by simpa using hfree)).foldl
  rw [hstrip, forwards_marked (Free.part (a := through) (c := []) (by simpa using hfree))]

theorem forwards_single {through : List UInt8} {rest : List (List UInt8)}
    (hechoes : (armed echoes probeReply).echoTexts injected = es₁ ++ echo :: es₂)
    (htext : through ++ rest.flatten = x ++ w ++ y) (hsingle : Single es₁ echo es₂ x w y)
    (hbudget : (x ++ w).length ≤ through.length + maxEchoScrubBytes) :
    (armed echoes probeReply).stripInjectedEcho injected through ++
      forwards injected { armed echoes probeReply with done := true } rest = x ++ y ↔
        Held (es₁ ++ echo :: es₂) x w through [] rest := by
  unfold stripInjectedEcho
  rw [hechoes]
  by_cases hend : (x ++ w).length ≤ through.length
  · refine iff_of_true ?_ ?_
    · obtain ⟨y₁, rfl, rfl⟩ := append_split htext hend
      have hfree : Free ((armed echoes probeReply).echoTexts injected) rest.flatten := by
        rw [hechoes]
        exact Free.part (a := x ++ y₁) (c := []) (by simpa using hsingle.free_after)
      rw [hsingle.strip.1, forwards_marked hfree, List.append_assoc]
    · intro a b w₁ w₂ hrest hcut hw hne₁ hne₂
      exact absurd (uncut hend hcut hw) hne₂
  · have hlen := congrArg List.length htext
    simp only [List.length_append] at hlen hend hbudget
    rw [(hsingle.free htext.symm (by omega)).foldl]
    have htexts : (armed echoes probeReply).echoTexts injected ≠ [] := by
      rw [hechoes]
      simp
    have hshort : (through ++ []).length < (x ++ w).length := by
      simp only [List.append_nil, List.length_append]
      omega
    have hbudget' : 0 + (x ++ w).length ≤ (through ++ []).length + maxEchoScrubBytes := by
      simp only [List.append_nil, List.length_append]
      omega
    exact streaming_marked.forwards_single rfl htexts rest hechoes hsingle htext hshort hbudget'

theorem forwards_removed (h : Marked probeReply pre post) {chunks : List (List UInt8)}
    (hstream : chunks.flatten = pre ++ promptStartMarker ++ post)
    (hr : Removed ((armed echoes probeReply).echoTexts injected) (promptStartMarker ++ post)
      x w y) :
    (armed echoes probeReply).forwards injected chunks = x ++ y ↔
      Untorn ((armed echoes probeReply).echoTexts injected) pre x w chunks := by
  have hbuffer : ([] : List UInt8).length < (pre ++ promptStartMarker).length := by
    have hmarker : promptStartMarker ≠ [] := by decide
    rw [List.length_append, List.length_nil]
    exact Nat.add_pos_right _ (List.length_pos_iff.mpr hmarker)
  obtain ⟨a, c, b, rest, rfl, hb, rfl, hbefore, hforwards⟩ :=
    forwards_armed h injected echoes hstream hbuffer
  rw [List.nil_append, List.append_assoc] at hb
  rw [untorn_iff hb hbefore (by simp)]
  refine Iff.trans (Eq.congr_left hforwards) ?_
  rw [← List.append_assoc] at hr
  cases hr with
  | free hfree =>
      refine iff_of_true (by rw [forwards_free hfree, List.append_nil]) ?_
      intro a' b' w₁ w₂ hrest hcut hw hne₁ hne₂
      exact absurd (List.append_eq_nil_iff.mp hw.symm).1 hne₁
  | single hechoes htext hsingle hbudget =>
      have hmarker : promptStartMarker.length ≤ (promptStartMarker ++ b).length := by simp
      rw [hechoes]
      exact forwards_single hechoes htext hsingle (by omega)

/-- What the filter forwards of a stream does not depend on how the stream is cut, and is the
stream from the marker on without the injected echo, exactly when every piece of the echo that a
chunk ends with is held back. -/
theorem forwards_eq_iff_untorn (injected echoes : List (List UInt8)) (probeReply : Bool)
    {pre post x w y : List UInt8} {chunks : List (List UInt8)} (h : Marked probeReply pre post)
    (hstream : chunks.flatten = pre ++ promptStartMarker ++ post)
    (hr : Removed ((armed echoes probeReply).echoTexts injected) (promptStartMarker ++ post)
      x w y) :
    (armed echoes probeReply).forwards injected [pre ++ promptStartMarker ++ post] = x ++ y ∧
      ((armed echoes probeReply).forwards injected chunks = x ++ y ↔
        Untorn ((armed echoes probeReply).echoTexts injected) pre x w chunks) := by
  refine ⟨?_, forwards_removed h hstream hr⟩
  rw [forwards_removed h (by simp) hr, List.append_assoc, hr.text_eq]
  exact untorn_singleton _ pre x w y

theorem forwards_eq_iff_untorn_later_cut :
    let f := armForCommand false [ascii " printf x\r"]
    let chunks := [promptStartMarker ++ ascii "$ ", ascii "printf", ascii " x\n"]
    f.forwards [] chunks = promptStartMarker ++ ascii "$ \n" ∧
      Untorn f.echoes [] (promptStartMarker ++ ascii "$ ") (ascii "printf x") chunks := by
  have hunique : (promptStartMarker ++ ascii "$ printf x\n").tails.filter
      (fun s => decide (Starts (ascii "printf x") s)) = [ascii "printf x\n"] := by decide +kernel
  have hsingle : Single [] (ascii "printf x") [] (promptStartMarker ++ ascii "$ ")
      (ascii "printf x") (ascii "\n") :=
    ⟨⟨by decide +kernel, starts_unique hunique, by decide +kernel⟩, fun _ _ _ _ he => by cases he⟩
  have hmarked : Marked false [] (ascii "$ printf x\n") :=
    ⟨by decide, fun hp => (by cases hp), by decide⟩
  have hrun : (armForCommand false [ascii " printf x\r"]).forwards []
      [promptStartMarker ++ ascii "$ ", ascii "printf", ascii " x\n"] =
        promptStartMarker ++ ascii "$ \n" := by decide +kernel
  refine ⟨hrun, (forwards_eq_iff_untorn [] [ascii "printf x"] false hmarked ?_
    (.single rfl ?_ hsingle ?_)).2.mp hrun⟩
  · decide
  · decide
  · decide

/-- The chunk of the marker may end with a piece of the echo, and nothing of it is held back. -/
theorem marker_chunk_leaks_echo :
    let f := armForCommand false [ascii " printf x\r"]
    f.forwards [] [promptStartMarker ++ ascii "$ p", ascii "rintf x\n"] =
        promptStartMarker ++ ascii "$ printf x\n" ∧
      f.forwards [] [promptStartMarker ++ ascii "$ printf x\n"] =
        promptStartMarker ++ ascii "$ \n" := by
  constructor
  · decide +kernel
  · decide +kernel

end HandshakeFilter

end Dolgate.Autocomplete
