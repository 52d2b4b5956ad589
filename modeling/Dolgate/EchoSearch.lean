import Mathlib
import Dolgate.EchoFilter

set_option autoImplicit false

/-! Which texts an echo is found in: those that are the echo with noise between its bytes. -/

namespace Dolgate.Autocomplete

structure Unended (text : List UInt8) : Prop where
  no_bel : 7 ∉ text
  no_st : ¬ [27, 92] <:+: text

inductive Noise : List UInt8 → Prop where
  | carriage : Noise [13]
  | blank : Noise [32, 13]
  | csi {parameters : List UInt8} {final : UInt8}
      (hparameters : ∀ b ∈ parameters, ¬ (0x40 ≤ b ∧ b ≤ 0x7e))
      (hfinal : 0x40 ≤ final ∧ final ≤ 0x7e) : Noise (27 :: 91 :: parameters ++ [final])
  | oscBel {text : List UInt8} (h : Unended text) : Noise (27 :: 93 :: text ++ [7])
  | oscSt {text : List UInt8} (h : Unended text) : Noise (27 :: 93 :: text ++ [27, 92])
  | escape {b : UInt8} (hosc : b ≠ 93) (hcsi : b ≠ 91) : Noise [27, b]

variable {text rest n data echo run lead before after : List UInt8} {b e : UInt8}

theorem unended_cons : Unended (b :: text) ↔
    b ≠ 7 ∧ ¬ (b = 27 ∧ text.head? = some 92) ∧ Unended text := by
  constructor
  · rintro ⟨hbel, hst⟩
    rw [List.mem_cons, not_or] at hbel
    refine ⟨Ne.symm hbel.1, ?_, hbel.2, fun h => hst (List.infix_cons h)⟩
    rintro ⟨rfl, hhead⟩
    obtain ⟨tail, rfl⟩ := List.head?_eq_some_iff.mp hhead
    exact hst ⟨[], tail, rfl⟩
  · rintro ⟨hb, hpair, hbel, hst⟩
    refine ⟨?_, ?_⟩
    · rw [List.mem_cons, not_or]
      exact ⟨Ne.symm hb, hbel⟩
    · intro h
      obtain hprefix | hinfix := List.infix_cons_iff.mp h
      · obtain ⟨tail, htail⟩ := hprefix
        obtain ⟨rfl, rfl⟩ := List.cons.inj htail
        exact hpair ⟨rfl, rfl⟩
      · exact hst hinfix

theorem afterOsc_bel (h : Unended text) (rest : List UInt8) :
    afterOsc (text ++ 7 :: rest) = rest := by
  induction text with
  | nil => rfl
  | cons b text ih =>
    obtain ⟨hb, hpair, htail⟩ := unended_cons.mp h
    rw [List.cons_append, afterOsc, if_neg hb, if_neg, ih htail]
    rintro ⟨rfl, hhead⟩
    cases text with
    | nil => exact absurd (Option.some.inj hhead) (by decide)
    | cons c text => exact hpair ⟨rfl, hhead⟩

theorem afterOsc_st (h : Unended text) (rest : List UInt8) :
    afterOsc (text ++ 27 :: 92 :: rest) = rest := by
  induction text with
  | nil => rfl
  | cons b text ih =>
    obtain ⟨hb, hpair, htail⟩ := unended_cons.mp h
    rw [List.cons_append, afterOsc, if_neg hb, if_neg, ih htail]
    rintro ⟨rfl, hhead⟩
    cases text with
    | nil => exact absurd (Option.some.inj hhead) (by decide)
    | cons c text => exact hpair ⟨rfl, hhead⟩

theorem afterOsc_cases (data : List UInt8) : afterOsc data = [] ∨ ∃ text, Unended text ∧
    (data = text ++ 7 :: afterOsc data ∨ data = text ++ 27 :: 92 :: afterOsc data) := by
  induction data with
  | nil => exact .inl rfl
  | cons b data ih =>
    have hempty : Unended [] := ⟨List.not_mem_nil, by simp⟩
    rw [afterOsc]
    split
    · next hb => exact .inr ⟨[], hempty, .inl (by rw [hb]; rfl)⟩
    · next hb =>
      split
      · next hpair =>
        obtain ⟨rfl, hhead⟩ := hpair
        obtain ⟨tail, rfl⟩ := List.head?_eq_some_iff.mp hhead
        exact .inr ⟨[], hempty, .inr rfl⟩
      · next hpair =>
        refine ih.imp_right ?_
        rintro ⟨text, htext, hdata⟩
        refine ⟨b :: text, unended_cons.mpr ⟨hb, ?_, htext⟩, ?_⟩
        · rintro ⟨rfl, hhead⟩
          obtain ⟨tail, rfl⟩ := List.head?_eq_some_iff.mp hhead
          refine hpair ⟨rfl, ?_⟩
          obtain hdata | hdata := hdata <;> rw [hdata] <;> rfl
        · exact hdata.imp (congrArg (b :: ·)) (congrArg (b :: ·))

theorem afterCsi_final {parameters : List UInt8} {final : UInt8}
    (hparameters : ∀ b ∈ parameters, ¬ (0x40 ≤ b ∧ b ≤ 0x7e))
    (hfinal : 0x40 ≤ final ∧ final ≤ 0x7e) (rest : List UInt8) :
    afterCsi (parameters ++ final :: rest) = rest := by
  induction parameters with
  | nil => rw [List.nil_append, afterCsi, if_pos hfinal]
  | cons b parameters ih =>
    rw [List.cons_append, afterCsi, if_neg (hparameters b List.mem_cons_self)]
    exact ih fun c hc => hparameters c (List.mem_cons_of_mem b hc)

theorem afterCsi_cases (data : List UInt8) : afterCsi data = [] ∨ ∃ parameters final,
    (∀ b ∈ parameters, ¬ (0x40 ≤ b ∧ b ≤ 0x7e)) ∧ (0x40 ≤ final ∧ final ≤ 0x7e) ∧
      data = parameters ++ final :: afterCsi data := by
  induction data with
  | nil => exact .inl rfl
  | cons b data ih =>
    rw [afterCsi]
    split
    · next hfinal => exact .inr ⟨[], b, by simp, hfinal, rfl⟩
    · next hb =>
      refine ih.imp_right ?_
      rintro ⟨parameters, final, hparameters, hfinal, hdata⟩
      refine ⟨b :: parameters, final, ?_, hfinal, congrArg (b :: ·) hdata⟩
      exact List.forall_mem_cons.mpr ⟨hb, hparameters⟩

theorem Noise.skip (h : Noise n) (rest : List UInt8) : skipEchoNoise (n ++ rest) = some rest := by
  cases h with
  | carriage => rfl
  | blank => rfl
  | csi hparameters hfinal =>
    change some (afterCsi ((_ ++ [_]) ++ rest)) = _
    rw [List.append_assoc, List.singleton_append, afterCsi_final hparameters hfinal]
  | oscBel h =>
    change some (afterOsc ((_ ++ [7]) ++ rest)) = _
    rw [List.append_assoc, List.singleton_append, afterOsc_bel h]
  | oscSt h =>
    change some (afterOsc ((_ ++ [27, 92]) ++ rest)) = _
    rw [List.append_assoc, List.cons_append, List.singleton_append, afterOsc_st h]
  | escape hosc hcsi =>
    change some (skipEscapeSequence (_ :: rest)) = _
    rw [skipEscapeSequence, if_neg hosc, if_neg hcsi]

theorem Noise.ne_nil (h : Noise n) : n ≠ [] := by
  rintro rfl
  cases h

theorem noise_of_skip (h : skipEchoNoise data = some rest) :
    rest = [] ∨ ∃ n, Noise n ∧ data = n ++ rest := by
  cases data with
  | nil => cases h
  | cons b data =>
    rw [skipEchoNoise] at h
    split at h
    · next hb =>
      obtain rfl := hb
      obtain rfl := Option.some.inj h
      cases data with
      | nil => exact .inl rfl
      | cons c data =>
        rw [skipEscapeSequence]
        split
        · next hosc =>
          obtain rfl := hosc
          refine (afterOsc_cases data).imp_right ?_
          rintro ⟨text, htext, hdata | hdata⟩
          · refine ⟨27 :: 93 :: text ++ [7], .oscBel htext, ?_⟩
            conv_lhs => rw [hdata]
            simp
          · refine ⟨27 :: 93 :: text ++ [27, 92], .oscSt htext, ?_⟩
            conv_lhs => rw [hdata]
            simp
        · next hosc =>
          split
          · next hcsi =>
            obtain rfl := hcsi
            refine (afterCsi_cases data).imp_right ?_
            rintro ⟨parameters, final, hparameters, hfinal, hdata⟩
            refine ⟨27 :: 91 :: parameters ++ [final], .csi hparameters hfinal, ?_⟩
            conv_lhs => rw [hdata]
            simp
          · next hcsi => exact .inr ⟨[27, c], .escape hosc hcsi, rfl⟩
    · split at h
      · next hb =>
        obtain rfl := hb
        obtain rfl := Option.some.inj h
        exact .inr ⟨[13], .carriage, rfl⟩
      · split at h
        · next hblank =>
          obtain ⟨rfl, hhead⟩ := hblank
          obtain ⟨tail, rfl⟩ := List.head?_eq_some_iff.mp hhead
          obtain rfl := Option.some.inj h
          exact .inr ⟨[32, 13], .blank, rfl⟩
        · cases h

/-! ### The echo with noise between its bytes -/

/-- Noise may stand before a byte of the echo where `ok` says so. -/
inductive Interleaved (ok : List UInt8 → UInt8 → Prop) : List UInt8 → List UInt8 → Prop where
  | nil : Interleaved ok [] []
  | byte {e : UInt8} {run echo : List UInt8} (h : Interleaved ok run echo) :
      Interleaved ok (e :: run) (e :: echo)
  | noise {n : List UInt8} {e : UInt8} {run echo : List UInt8} (hn : Noise n) (hok : ok n e)
      (h : Interleaved ok run (e :: echo)) : Interleaved ok (n ++ run) (e :: echo)

def Anywhere (_ : List UInt8) (_ : UInt8) : Prop := True

def Distinct (n : List UInt8) (e : UInt8) : Prop := n.head? ≠ some e

theorem Interleaved.mono {ok ok' : List UInt8 → UInt8 → Prop} (h : Interleaved ok run echo)
    (hok : ∀ n e, ok n e → ok' n e) : Interleaved ok' run echo := by
  induction h with
  | nil => exact .nil
  | byte _ ih => exact .byte ih
  | noise hn hn' _ ih => exact .noise hn (hok _ _ hn') ih

theorem matchEcho_interleaved (h : Interleaved Distinct run echo) (after : List UInt8) :
    matchEcho (run ++ after) echo = some after := by
  induction h with
  | nil => exact matchEcho_nil after
  | byte _ ih => rwa [List.cons_append, matchEcho_cons, if_pos rfl]
  | @noise n e run echo hn hdistinct _ ih =>
    obtain ⟨b, n, rfl⟩ := List.exists_cons_of_ne_nil hn.ne_nil
    have hb : b ≠ e := fun heq => hdistinct (congrArg some heq)
    have hskip := hn.skip (run ++ after)
    rw [← List.append_assoc, List.cons_append, List.cons_append] at hskip
    rw [List.cons_append, List.cons_append, matchEcho_cons, if_neg hb, hskip, Option.bind_some, ih]

theorem interleaved_of_matchEcho (h : matchEcho data echo = some after) :
    ∃ run, data = run ++ after ∧ Interleaved Distinct run echo := by
  induction hlength : data.length using Nat.strongRecOn generalizing data echo with
  | _ length ih =>
    cases echo with
    | nil =>
      rw [matchEcho_nil] at h
      obtain rfl := Option.some.inj h
      exact ⟨[], rfl, .nil⟩
    | cons e echo =>
      cases data with
      | nil =>
        rw [matchEcho_nil_cons] at h
        cases h
      | cons d data =>
        rw [List.length_cons] at hlength
        rw [matchEcho_cons] at h
        split at h
        · next hd =>
          obtain rfl := hd
          obtain ⟨run, rfl, hrun⟩ := ih data.length (by omega) h rfl
          exact ⟨d :: run, rfl, .byte hrun⟩
        · next hd =>
          obtain ⟨rest, hskip, h⟩ := Option.bind_eq_some_iff.mp h
          have hshorter := skipEchoNoise_length hskip
          rw [List.length_cons] at hshorter
          obtain rfl | ⟨n, hn, hdata⟩ := noise_of_skip hskip
          · rw [matchEcho_nil_cons] at h
            cases h
          · obtain ⟨run, rfl, hrun⟩ := ih rest.length (by omega) h rfl
            refine ⟨n ++ run, by rw [hdata, List.append_assoc], .noise hn ?_ hrun⟩
            obtain ⟨b, n, rfl⟩ := List.exists_cons_of_ne_nil hn.ne_nil
            obtain ⟨rfl, -⟩ := List.cons.inj hdata
            exact fun hhead => hd (Option.some.inj hhead)

def Contains (ok : List UInt8 → UInt8 → Prop) (data echo : List UInt8) : Prop :=
  ∃ before run after, data = before ++ run ++ after ∧ Interleaved ok run echo

theorem interleaved_trim {ok : List UInt8 → UInt8 → Prop} (h : Interleaved ok run (e :: echo)) :
    ∃ lead rest, run = lead ++ e :: rest ∧ Interleaved ok (e :: rest) (e :: echo) := by
  generalize hecho : e :: echo = full at h
  induction h with
  | nil => cases hecho
  | @byte e' run echo' h ih =>
    obtain ⟨rfl, rfl⟩ := List.cons.inj hecho
    exact ⟨[], run, rfl, .byte h⟩
  | @noise n e' run echo' hn hok h ih =>
    obtain ⟨lead, rest, rfl, hrest⟩ := ih hecho
    obtain ⟨rfl, rfl⟩ := List.cons.inj hecho
    exact ⟨n ++ lead, rest, (List.append_assoc _ _ _).symm, hrest⟩

theorem findWrappedEcho_isSome_iff (hecho : echo ≠ []) :
    (∃ found, findWrappedEcho data echo = some found) ↔ Contains Distinct data echo := by
  constructor
  · rintro ⟨⟨before, after⟩, hfound⟩
    obtain ⟨lead, rest, hdata, hat⟩ := findWrappedEcho_some.mp hfound
    obtain ⟨run, rfl, hrun⟩ := interleaved_of_matchEcho hat.matched
    exact ⟨before ++ lead, run, after, by rw [hdata, List.append_assoc (before ++ lead)], hrun⟩
  · rintro ⟨before, run, after, rfl, hrun⟩
    rw [← Option.ne_none_iff_exists', Ne, findWrappedEcho_none]
    intro hnone
    obtain ⟨e, echo, rfl⟩ := List.exists_cons_of_ne_nil hecho
    obtain ⟨lead, rest, rfl, hrest⟩ := interleaved_trim hrun
    refine hnone (before ++ lead) (e :: rest ++ after) (by simp) ⟨by simp, rfl, ?_⟩
    rw [matchEcho_interleaved hrest]
    rfl

/-! ### The colours in front -/

def Inner (b : UInt8) : Prop := b = 91 ∨ b = 59 ∨ (48 ≤ b ∧ b ≤ 57)

def colour (body : List UInt8) : List UInt8 := 27 :: 91 :: body ++ [109]

theorem sgrStart_some {fuel : Nat} {next : UInt8} (h : sgrStart fuel next data = some before) :
    ∃ inner, data = inner ++ 27 :: before ∧ (∀ b ∈ inner, Inner b) ∧
      (next :: inner).getLast? = some 91 := by
  induction fuel generalizing next data with
  | zero => cases h
  | succ fuel ih =>
    cases data with
    | nil => cases h
    | cons b data =>
      rw [sgrStart] at h
      split at h
      · next hb =>
        obtain rfl := hb
        split at h
        · next hnext =>
          obtain rfl := Option.some.inj h
          exact ⟨[], rfl, by simp, by rw [hnext]; rfl⟩
        · cases h
      · split at h
        · next hb =>
          obtain ⟨inner, rfl, hinner, hlast⟩ := ih h
          exact ⟨b :: inner, rfl, List.forall_mem_cons.mpr ⟨hb, hinner⟩, hlast⟩
        · cases h

theorem expandLeadingSGR_colours (h : expandLeadingSGR data = rest) :
    ∃ bodies : List (List UInt8), (∀ body ∈ bodies, ∀ b ∈ body, Inner b) ∧
      data = (bodies.flatMap colour).reverse ++ rest := by
  induction hlength : data.length using Nat.strongRecOn generalizing data with
  | _ length ih =>
    have hnone : data = rest → ∃ bodies : List (List UInt8),
        (∀ body ∈ bodies, ∀ b ∈ body, Inner b) ∧
          data = (bodies.flatMap colour).reverse ++ rest := by
      intro heq
      exact ⟨[], by simp, heq⟩
    cases data with
    | nil =>
      rw [expandLeadingSGR] at h
      exact hnone h
    | cons b data =>
      rw [expandLeadingSGR_cons] at h
      split at h
      · next hb =>
        obtain rfl := hb
        cases hstart : sgrStart 16 109 data with
        | none =>
          rw [hstart] at h
          exact hnone h
        | some before =>
          rw [hstart, Option.elim_some] at h
          have hshorter := sgrStart_length hstart
          rw [List.length_cons] at hlength
          obtain ⟨bodies, hbodies, rfl⟩ := ih before.length (by omega) h rfl
          obtain ⟨inner, rfl, hinner, hlast⟩ := sgrStart_some hstart
          obtain rfl | ⟨inner, last, rfl⟩ := List.eq_nil_or_concat' inner
          · exact absurd (Option.some.inj hlast) (by decide)
          · rw [List.getLast?_cons, List.getLast?_concat, Option.getD_some] at hlast
            obtain rfl := Option.some.inj hlast
            refine ⟨bodies ++ [inner.reverse], ?_, ?_⟩
            · intro body hbody b hb
              obtain hbody | hbody := List.mem_append.mp hbody
              · exact hbodies body hbody b hb
              · obtain rfl := List.mem_singleton.mp hbody
                exact hinner b (List.mem_append_left _ (List.mem_reverse.mp hb))
            · simp [colour]
      · exact hnone h

inductive NoiseRun : List UInt8 → Prop where
  | nil : NoiseRun []
  | cons {n run : List UInt8} (hn : Noise n) (h : NoiseRun run) : NoiseRun (n ++ run)

theorem NoiseRun.skip (h : NoiseRun run) :
    run = [] ∨ ∃ rest, skipEchoNoise run = some rest ∧ NoiseRun rest := by
  cases h with
  | nil => exact .inl rfl
  | cons hn h => exact .inr ⟨_, hn.skip _, h⟩

theorem Inner.ne_escape (h : Inner b) : b ≠ 27 := by
  rintro rfl
  exact absurd h (by unfold Inner; decide)

theorem not_noise_of_inner (h : Inner b ∨ b = 109) : ¬ NoiseRun (b :: rest) := by
  intro hrun
  have hnone : skipEchoNoise (b :: rest) = none := by
    have hb : b ≠ 27 ∧ b ≠ 13 ∧ b ≠ 32 := by
      obtain (rfl | rfl | ⟨hlow, -⟩) | rfl := h
      · decide
      · decide
      · refine ⟨?_, ?_, ?_⟩ <;> rintro rfl <;> exact absurd hlow (by decide)
      · decide
    rw [skipEchoNoise, if_neg hb.1, if_neg hb.2.1, if_neg (fun hblank => hb.2.2 hblank.1)]
  obtain hnil | ⟨rest', hskip, -⟩ := hrun.skip
  · cases hnil
  · rw [hnone] at hskip
    cases hskip

theorem Inner.not_final (h : Inner b) (hb : b ≠ 91) : ¬ (0x40 ≤ b ∧ b ≤ 0x7e) := by
  obtain rfl | rfl | ⟨-, hhigh⟩ := h
  · exact absurd rfl hb
  · decide
  · intro hletter
    exact absurd (UInt8.le_trans hletter.1 hhigh) (by decide)

theorem noise_colour {body : List UInt8} (hbody : ∀ b ∈ body, Inner b) (h : 91 ∉ body) :
    Noise (colour body) := by
  refine .csi (fun b hb => (hbody b hb).not_final ?_) (by decide)
  rintro rfl
  exact h hb

theorem not_mem_of_noiseRun {body : List UInt8} (hbody : ∀ b ∈ body, Inner b)
    (h : NoiseRun (colour body ++ rest)) : 91 ∉ body ∧ NoiseRun rest := by
  have hsplit : colour body ++ rest = 27 :: 91 :: (body ++ 109 :: rest) := by simp [colour]
  rw [hsplit] at h
  obtain hnil | ⟨after, hskip, hafter⟩ := h.skip
  · cases hnil
  · have hcsi : after = afterCsi (body ++ 109 :: rest) := (Option.some.inj hskip).symm
    have hbracket : 91 ∉ body := by
      intro hmem
      obtain ⟨p, q, rfl, hp⟩ := List.eq_append_cons_of_mem hmem
      have hparameters : ∀ b ∈ p, ¬ (0x40 ≤ b ∧ b ≤ 0x7e) := by
        intro b hb
        refine (hbody b (List.mem_append_left _ hb)).not_final ?_
        rintro rfl
        exact hp hb
      rw [List.append_assoc, List.cons_append, afterCsi_final hparameters (by decide)] at hcsi
      rw [hcsi] at hafter
      cases q with
      | nil => exact not_noise_of_inner (.inr rfl) hafter
      | cons c q =>
        exact not_noise_of_inner (.inl (hbody c (by simp))) hafter
    refine ⟨hbracket, ?_⟩
    have hparameters : ∀ b ∈ body, ¬ (0x40 ≤ b ∧ b ≤ 0x7e) := by
      intro b hb
      refine (hbody b hb).not_final ?_
      rintro rfl
      exact hbracket hb
    rwa [hcsi, afterCsi_final hparameters (by decide)] at hafter

def Brackets (text : List UInt8) : Prop := text.IsChain fun a b => b = 91 → a = 27

theorem brackets_inner {body : List UInt8} (hbody : ∀ b ∈ body, Inner b) (ha : b ≠ 27) :
    Brackets (b :: body ++ [109]) ↔ 91 ∉ body := by
  induction body generalizing b with
  | nil => exact iff_of_true (by simp [Brackets]) List.not_mem_nil
  | cons c body ih =>
    obtain ⟨hc, hbody⟩ := List.forall_mem_cons.mp hbody
    have hrest := ih hbody hc.ne_escape
    unfold Brackets at hrest ⊢
    rw [List.cons_append, List.cons_append, List.isChain_cons_cons, ← List.cons_append, hrest,
      List.mem_cons, not_or]
    refine and_congr_left fun _ => ⟨?_, ?_⟩
    · rintro h rfl
      exact ha (h rfl)
    · intro h hbracket
      exact absurd hbracket.symm h

theorem brackets_colour {body : List UInt8} (hbody : ∀ b ∈ body, Inner b) :
    Brackets (colour body) ↔ 91 ∉ body := by
  have hinner := brackets_inner hbody (show (91 : UInt8) ≠ 27 by decide)
  unfold Brackets at hinner ⊢
  rw [colour, List.cons_append, List.cons_append, List.isChain_cons_cons, ← List.cons_append,
    hinner]
  exact and_iff_right fun _ => rfl

theorem noiseRun_colours {bodies : List (List UInt8)}
    (hbodies : ∀ body ∈ bodies, ∀ b ∈ body, Inner b) :
    NoiseRun (bodies.flatMap colour) ↔ Brackets (bodies.flatMap colour) := by
  induction bodies with
  | nil => exact iff_of_true .nil List.isChain_nil
  | cons body bodies ih =>
    obtain ⟨hbody, hbodies⟩ := List.forall_mem_cons.mp hbodies
    have hsplit : Brackets (colour body ++ bodies.flatMap colour) ↔
        91 ∉ body ∧ Brackets (bodies.flatMap colour) := by
      rw [← brackets_colour hbody, Brackets, List.isChain_append, ← and_assoc]
      refine and_iff_left ?_
      rintro a - b hb rfl
      cases bodies with
      | nil => cases hb
      | cons next bodies => exact absurd (Option.some.inj hb) (by decide)
    rw [List.flatMap_cons, hsplit, ← ih hbodies]
    constructor
    · exact not_mem_of_noiseRun hbody
    · rintro ⟨hbracket, hrun⟩
      exact .cons (noise_colour hbody hbracket) hrun

/-! ### The search as a whole -/

def Removes (echo data data' : List UInt8) : Prop :=
  ∃ before after, findWrappedEcho data echo = some (before, after) ∧ data' = before ++ after

theorem stripEcho_some (h : findWrappedEcho data echo = some (before, after)) :
    stripEcho echo data = stripEcho echo (before ++ after) := by
  rw [stripEcho]
  split
  · next hfind =>
    rw [h] at hfind
    cases hfind
  · next hfind =>
    rw [h] at hfind
    cases hfind
    rfl

theorem stripEcho_cleared (echo data : List UInt8) :
    Relation.ReflTransGen (Removes echo) data (stripEcho echo data) ∧
      findWrappedEcho (stripEcho echo data) echo = none := by
  induction hlength : data.length using Nat.strongRecOn generalizing data with
  | _ length ih =>
    cases hfind : findWrappedEcho data echo with
    | none =>
      rw [stripEcho_none hfind]
      exact ⟨.refl, hfind⟩
    | some found =>
      obtain ⟨before, after⟩ := found
      have hshorter := findWrappedEcho_length hfind
      rw [hlength] at hshorter
      rw [stripEcho_some hfind]
      obtain ⟨hturns, hnone⟩ := ih _ hshorter (before ++ after) rfl
      exact ⟨.head ⟨before, after, hfind, rfl⟩ hturns, hnone⟩

/-- What is reported is the first match and the noise that leads to it. Whatever has the echo with
noise between its bytes is reported, and the loop ends when nothing is. -/
structure Exact (data echo : List UInt8) : Prop where
  sound : ∀ before after, findWrappedEcho data echo = some (before, after) → ∃ lead run,
    data = before ++ lead ++ (run ++ after) ∧ FoundAt echo before lead (run ++ after) after ∧
      NoiseRun lead ∧ Interleaved Anywhere run echo
  complete : Contains Anywhere data echo → ∃ found, findWrappedEcho data echo = some found
  cleared : Relation.ReflTransGen (Removes echo) data (stripEcho echo data) ∧
    findWrappedEcho (stripEcho echo data) echo = none

theorem first_unique {lead' rest' after' before' : List UInt8}
    (h : FoundAt echo before lead rest after) (h' : FoundAt echo before' lead' rest' after')
    (hdata : before ++ lead ++ rest = before' ++ lead' ++ rest') :
    before ++ lead = before' ++ lead' := by
  obtain ⟨d, heq, hrest⟩ | ⟨d, heq, hrest⟩ := List.append_eq_append_iff.mp hdata
  · by_cases hd : d = []
    · rw [heq, hd, List.append_nil]
    · exact absurd (hrest ▸ h.starts) (h'.first _ d heq hd)
  · by_cases hd : d = []
    · rw [heq, hd, List.append_nil]
    · exact absurd (hrest ▸ h'.starts) (h.first _ d heq hd)

theorem FoundAt.unique {lead' rest' after' before' : List UInt8}
    (h : FoundAt echo before lead rest after) (h' : FoundAt echo before' lead' rest' after')
    (hdata : before ++ lead ++ rest = before' ++ lead' ++ rest') : lead = lead' := by
  have hsame := first_unique h h' hdata
  have hbefore : before = before' := by
    rw [← List.reverse_inj, ← h.colours, ← h'.colours, hsame]
  rw [hbefore] at hsame
  exact List.append_cancel_left hsame

theorem FoundAt.noise_iff (h : FoundAt echo before lead rest after) :
    NoiseRun lead ↔ Brackets lead := by
  obtain ⟨bodies, hbodies, hdata⟩ := expandLeadingSGR_colours h.colours
  rw [List.reverse_append, List.append_left_inj] at hdata
  obtain rfl := List.reverse_injective hdata
  exact noiseRun_colours hbodies

/-- The search is exact where no bracket stands among the parameters of the colours before the first
match, and where noise that looks like the byte that is waited for hides no echo. -/
theorem exact_iff (data echo : List UInt8) (hecho : echo ≠ []) :
    Exact data echo ↔
      (∀ before lead rest after, data = before ++ lead ++ rest →
        FoundAt echo before lead rest after → Brackets lead) ∧
      (Contains Anywhere data echo → Contains Distinct data echo) := by
  constructor
  · intro h
    refine ⟨?_, fun hin => (findWrappedEcho_isSome_iff hecho).mp (h.complete hin)⟩
    intro before lead rest after hdata hat
    have hfound := findWrappedEcho_some.mpr ⟨lead, rest, hdata, hat⟩
    obtain ⟨lead', run, hdata', hat', hnoise, -⟩ := h.sound before after hfound
    obtain rfl := hat.unique hat' (hdata ▸ hdata')
    exact hat.noise_iff.mp hnoise
  · rintro ⟨hbrackets, hhidden⟩
    refine ⟨?_, fun hin => (findWrappedEcho_isSome_iff hecho).mpr (hhidden hin),
      stripEcho_cleared echo data⟩
    intro before after hfound
    obtain ⟨lead, rest, hdata, hat⟩ := findWrappedEcho_some.mp hfound
    obtain ⟨run, rfl, hrun⟩ := interleaved_of_matchEcho hat.matched
    exact ⟨lead, run, hdata, hat, hat.noise_iff.mpr (hbrackets _ _ _ _ hdata hat),
      hrun.mono fun _ _ _ => trivial⟩

theorem brackets_of_not_mem (h : 91 ∉ text) : Brackets text := by
  refine List.Pairwise.isChain (List.pairwise_iff_forall_sublist.mpr ?_)
  rintro a b hsub rfl
  exact absurd (hsub.subset (by simp)) h

/-- `ab` with a carriage return in it. -/
theorem exact_wrapped : Exact [97, 13, 98] [97, 98] := by
  refine (exact_iff [97, 13, 98] [97, 98] (by decide)).mpr ⟨?_, fun _ => ?_⟩
  · intro before lead rest after hdata hat
    refine brackets_of_not_mem fun hmem => ?_
    have hin : (91 : UInt8) ∈ [97, 13, 98] := by
      rw [hdata]
      exact List.mem_append_left _ (List.mem_append_right _ hmem)
    exact absurd hin (by decide)
  · have hdistinct : Distinct [13] 98 := by
      unfold Distinct
      decide
    exact ⟨[], [97, 13, 98], [], rfl, .byte (.noise .carriage hdistinct (.byte .nil))⟩

/-- `a b` wrapped before its blank: the blank of the noise is taken for that of the echo. -/
theorem wrapped_blank_missed : ¬ Exact [97, 32, 13, 32, 98] [97, 32, 98] := by
  intro h
  have hin : Contains Anywhere [97, 32, 13, 32, 98] [97, 32, 98] :=
    ⟨[], [97, 32, 13, 32, 98], [], rfl, .byte (.noise .blank trivial (.byte (.byte .nil)))⟩
  have hnone : findWrappedEcho [97, 32, 13, 32, 98] [97, 32, 98] = none := by
    simp [findWrappedEcho, findEchoFrom, matchEcho_cons, skipEchoNoise]
  obtain ⟨found, hfound⟩ := h.complete hin
  rw [hnone] at hfound
  cases hfound

end Dolgate.Autocomplete
