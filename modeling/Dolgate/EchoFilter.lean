import Mathlib.Data.List.DropRight
import Dolgate.Chunking
import Dolgate.EchoMatch

set_option autoImplicit false

namespace Dolgate.Autocomplete
open Chunking GoBytes

def promptStartMarker : List UInt8 := 27 :: ascii "]133;A" ++ [7]

def maxHandshakeBytes : Nat := 64 * 1024

def maxEchoScrubBytes : Nat := 8 * 1024

def shellProbeReplyPrefix : List UInt8 := 27 :: ascii "]1337;dg-shell="

def shellProbeReplyEnd : List UInt8 := [7]

def parseShellProbeReply (data : List UInt8) : Option (List UInt8) :=
  match index data shellProbeReplyPrefix with
  | none => none
  | some start =>
      let body := data.drop (start + shellProbeReplyPrefix.length)
      (index body shellProbeReplyEnd).map fun stop => body.drop (stop + shellProbeReplyEnd.length)

/-- What a command shows on the screen: without its first blank and its carriage return. -/
def visibleInjectedEcho (command : List UInt8) : List UInt8 :=
  trimSuffix (if hasPrefix command (ascii " ") then command.drop 1 else command) (ascii "\r")

structure HandshakeFilter where
  echoes : List (List UInt8)
  probeReply : Bool
  preserveMotd : Bool
  echoesPending : List (List UInt8) := []
  echoesScrubbed : Bool := false
  pendingEcho : List UInt8 := []
  echoScrubDone : Bool := false
  echoScrubBudget : Nat := 0
  motdSeen : Bool := false
  done : Bool := false
  buffer : List UInt8 := []
deriving DecidableEq, Repr

theorem findWrappedEcho_length {data echo x y : List UInt8}
    (h : findWrappedEcho data echo = some (x, y)) : (x ++ y).length < data.length := by
  obtain ⟨g, s, rfl, hat⟩ := findWrappedEcho_some.mp h
  have hlen := matchEcho_length hat.matched
  have hecho : echo ≠ [] := fun he => not_starts_nil s (he ▸ hat.starts)
  have hpos := List.length_pos_iff.mpr hecho
  simp only [List.length_append]
  omega

def stripEcho (echo data : List UInt8) : List UInt8 :=
  match _ : findWrappedEcho data echo with
  | none => data
  | some (before, after) => stripEcho echo (before ++ after)
termination_by data.length
decreasing_by
  rename_i hfind
  exact findWrappedEcho_length hfind

def scrubEchoes : List (List UInt8) → List UInt8 → List UInt8 × List (List UInt8)
  | [], data => (data, [])
  | echo :: echoes, data =>
      if echo = [] then scrubEchoes echoes data
      else
        match findWrappedEcho data echo with
        | some (before, after) => scrubEchoes echoes (before ++ after)
        | none =>
            let (cleaned, kept) := scrubEchoes echoes data
            (cleaned, echo :: kept)

namespace HandshakeFilter

def arm (preserveMotd : Bool) : HandshakeFilter where
  echoes := []
  probeReply := false
  preserveMotd := preserveMotd

def armForCommand (preserveMotd : Bool) (commands : List (List UInt8)) : HandshakeFilter :=
  { arm preserveMotd with
    echoes := (commands.map visibleInjectedEcho).filter fun echo => echo ≠ [] }

def armForShellProbe (preserveMotd : Bool) (command : List UInt8) : HandshakeFilter :=
  { armForCommand preserveMotd [command] with probeReply := true }

section

-- the commands that a session may have been given before it was armed
variable (injectedCommandEchoes : List (List UInt8))

def echoTexts (f : HandshakeFilter) : List (List UInt8) :=
  if f.echoes ≠ [] then f.echoes else injectedCommandEchoes

def stripInjectedEcho (f : HandshakeFilter) (data : List UInt8) : List UInt8 :=
  (f.echoTexts injectedCommandEchoes).foldl (fun data echo => stripEcho echo data) data

def echoesLeft (f : HandshakeFilter) (echoes : List (List UInt8)) : List (List UInt8) :=
  if f.echoesScrubbed then f.echoesPending else echoes

def stripInjectedEchoStreaming (f : HandshakeFilter) (chunk : List UInt8) :
    HandshakeFilter × List UInt8 :=
  if f.echoScrubDone then (f, chunk)
  else
    let echoes := f.echoTexts injectedCommandEchoes
    if echoes = [] then (f, chunk)
    else
      let budget := f.echoScrubBudget + chunk.length
      let (cleaned, kept) := scrubEchoes (f.echoesLeft echoes) (f.pendingEcho ++ chunk)
      let f :=
        { f with
          pendingEcho := []
          echoScrubBudget := budget
          echoesScrubbed := true
          echoesPending := kept }
      if kept = [] ∨ maxEchoScrubBytes ≤ budget then ({ f with echoScrubDone := true }, cleaned)
      else
        let hold := (kept.map (prefixOverlap cleaned)).foldl max 0
        ({ f with pendingEcho := cleaned.drop (cleaned.length - hold) },
          cleaned.take (cleaned.length - hold))

def drainPendingEcho (f : HandshakeFilter) : HandshakeFilter × List UInt8 :=
  ({ f with pendingEcho := [] }, f.pendingEcho)

def flush (f : HandshakeFilter) : HandshakeFilter × List UInt8 :=
  if f.done then (f, [])
  else ({ f with done := true, buffer := [] }, f.stripInjectedEcho injectedCommandEchoes f.buffer)

def splitMotd (echoes : List (List UInt8)) (buffer : List UInt8) :
    Option (List UInt8 × List UInt8) :=
  let starts := echoes.filterMap fun echo => (findWrappedEcho buffer echo).map fun p => p.1.length
  starts.min?.map fun echoIdx =>
    let line := (buffer.take echoIdx).rtakeWhile fun b => b ≠ 10
    (buffer.take (echoIdx - line.length), buffer.drop (echoIdx - line.length))

def filter (f : HandshakeFilter) (chunk : List UInt8) : HandshakeFilter × List UInt8 × Bool :=
  if f.done then
    let (f, out) := f.stripInjectedEchoStreaming injectedCommandEchoes chunk
    (f, out, false)
  else
    let f := { f with buffer := f.buffer ++ chunk }
    let (f, motd) :=
      match (if f.preserveMotd && !f.motdSeen then
          splitMotd (f.echoTexts injectedCommandEchoes) f.buffer else none) with
      | none => (f, [])
      | some (motd, buffer) => ({ f with buffer := buffer, motdSeen := true }, motd)
    let finish := fun data =>
      ({ f with done := true, buffer := [] },
        motd ++ f.stripInjectedEcho injectedCommandEchoes data, true)
    match (if f.probeReply then parseShellProbeReply f.buffer else none) with
    | some data => finish data
    | none =>
        match index f.buffer promptStartMarker with
        | some idx => finish (f.buffer.drop idx)
        | none =>
            if motd ≠ [] then (f, motd, false)
            else if maxHandshakeBytes < f.buffer.length then
              let (f, out) := f.flush injectedCommandEchoes
              (f, out, false)
            else (f, [], false)

def feed (f : HandshakeFilter) (chunk : List UInt8) : HandshakeFilter × List UInt8 :=
  ((f.filter injectedCommandEchoes chunk).1, (f.filter injectedCommandEchoes chunk).2.1)

def forwards (f : HandshakeFilter) (chunks : List (List UInt8)) : List UInt8 :=
  (feedAll (feed injectedCommandEchoes) f chunks).2 ++
    (feedAll (feed injectedCommandEchoes) f chunks).1.drainPendingEcho.2

end

end HandshakeFilter

theorem stripEcho_none {echo data : List UInt8} (h : findWrappedEcho data echo = none) :
    stripEcho echo data = data := by
  rw [stripEcho]
  split
  · rfl
  · next hfind =>
      rw [h] at hfind
      cases hfind

theorem stripEcho_once {echo data x y : List UInt8} (h : findWrappedEcho data echo = some (x, y))
    (hgone : findWrappedEcho (x ++ y) echo = none) : stripEcho echo data = x ++ y := by
  rw [stripEcho]
  split
  · next hfind =>
      rw [h] at hfind
      cases hfind
  · next before after hfind =>
      rw [h] at hfind
      cases hfind
      exact stripEcho_none hgone

def Free (echoes : List (List UInt8)) (data : List UInt8) : Prop :=
  ∀ echo ∈ echoes, findWrappedEcho data echo = none

theorem Free.part {echoes : List (List UInt8)} {a b c : List UInt8}
    (h : Free echoes (a ++ b ++ c)) : Free echoes b :=
  fun echo he => findWrappedEcho_none_part (h echo he)

theorem Free.foldl {echoes : List (List UInt8)} {data : List UInt8} (h : Free echoes data) :
    echoes.foldl (fun data echo => stripEcho echo data) data = data := by
  induction echoes with
  | nil => rfl
  | cons echo echoes ih =>
      rw [List.foldl_cons, stripEcho_none (h echo List.mem_cons_self)]
      exact ih fun e he => h e (List.mem_cons_of_mem echo he)

theorem Free.scrub {echoes : List (List UInt8)} {data : List UInt8} (h : Free echoes data) :
    scrubEchoes echoes data = (data, echoes.filter fun echo => echo ≠ []) := by
  induction echoes with
  | nil => rfl
  | cons echo echoes ih =>
      have hrest := ih fun e he => h e (List.mem_cons_of_mem echo he)
      unfold scrubEchoes
      split
      · rename_i hnil
        simp [hrest, hnil]
      · rename_i hne
        rw [h echo List.mem_cons_self, hrest]
        simp [hne]

/-- One of the echoes stands in the text, and it stands there once. The others do not stand there,
whatever is left of this one. -/
structure Single (es₁ : List (List UInt8)) (echo : List UInt8) (es₂ : List (List UInt8))
    (x w y : List UInt8) : Prop where
  once : Once echo x w y
  others : ∀ w₁ w₂, w = w₁ ++ w₂ → Free (es₁ ++ es₂) (x ++ w₁ ++ y)

variable {es₁ es₂ : List (List UInt8)} {echo x w y : List UInt8}

theorem Free.append_iff {data : List UInt8} :
    Free (es₁ ++ es₂) data ↔ Free es₁ data ∧ Free es₂ data := by
  simp [Free, or_imp, forall_and]

theorem Single.before (h : Single es₁ echo es₂ x w y) : Free (es₁ ++ es₂) (x ++ w ++ y) :=
  h.others w [] (List.append_nil w).symm

theorem Single.after (h : Single es₁ echo es₂ x w y) : Free (es₁ ++ es₂) (x ++ y) := by
  have := h.others [] w rfl
  rwa [List.append_nil] at this

theorem Single.drop {x₁ x₂ : List UInt8} (h : Single es₁ echo es₂ (x₁ ++ x₂) w y) :
    Single es₁ echo es₂ x₂ w y where
  once := h.once.drop
  others w₁ w₂ hw := by
    have := h.others w₁ w₂ hw
    exact Free.part (a := x₁) (c := []) (by simpa using this)

theorem Single.filter (h : Single es₁ echo es₂ x w y) :
    Single (es₁.filter fun e => e ≠ []) echo (es₂.filter fun e => e ≠ []) x w y where
  once := h.once
  others w₁ w₂ hw e he := by
    refine h.others w₁ w₂ hw e ?_
    simp only [List.mem_append, List.mem_filter] at he ⊢
    exact he.imp And.left And.left

theorem Once.echo_ne_nil (h : Once echo x w y) : echo ≠ [] := by
  rintro rfl
  have := h.found
  simp [findWrappedEcho] at this

theorem Free.scrub_append {data : List UInt8} (h : Free es₁ data)
    (echoes : List (List UInt8)) :
    scrubEchoes (es₁ ++ echoes) data =
      ((scrubEchoes echoes data).1,
        es₁.filter (fun e => e ≠ []) ++ (scrubEchoes echoes data).2) := by
  induction es₁ with
  | nil => rfl
  | cons e es ih =>
      have hrest := ih fun e' he => h e' (List.mem_cons_of_mem e he)
      rw [List.cons_append, scrubEchoes]
      split
      · rename_i hnil
        simp [hrest, hnil]
      · rename_i hne
        rw [h e List.mem_cons_self, hrest]
        simp [hne]

theorem scrubEchoes_found {data before after : List UInt8} (hecho : echo ≠ [])
    (hfound : findWrappedEcho data echo = some (before, after)) (hes₁ : Free es₁ data)
    (hes₂ : Free es₂ (before ++ after)) :
    scrubEchoes (es₁ ++ echo :: es₂) data =
      (before ++ after, (es₁ ++ es₂).filter fun e => e ≠ []) := by
  rw [hes₁.scrub_append, scrubEchoes, if_neg hecho, hfound]
  simp [hes₂.scrub]

/-- Both ways of taking out echoes leave the same of a text that the echo has come to its end in. -/
theorem Single.strip {y₁ y₂ : List UInt8} (h : Single es₁ echo es₂ x w (y₁ ++ y₂)) :
    (es₁ ++ echo :: es₂).foldl (fun data echo => stripEcho echo data) (x ++ w ++ y₁) = x ++ y₁ ∧
      scrubEchoes (es₁ ++ echo :: es₂) (x ++ w ++ y₁) =
        (x ++ y₁, (es₁ ++ es₂).filter fun e => e ≠ []) := by
  have hfound : findWrappedEcho (x ++ w ++ y₁) echo = some (x, y₁) := by
    have := h.once.found
    rw [← List.nil_append x] at this
    exact findWrappedEcho_part this
  have hgone : findWrappedEcho (x ++ y₁) echo = none :=
    findWrappedEcho_none_part (a := []) (c := y₂) (by simpa using h.once.gone)
  have hbefore : Free es₁ (x ++ w ++ y₁) :=
    (Free.append_iff.mp (Free.part (a := []) (c := y₂) (by simpa using h.before))).1
  have hafter : Free es₂ (x ++ y₁) :=
    (Free.append_iff.mp (Free.part (a := []) (c := y₂) (by simpa using h.after))).2
  constructor
  · rw [List.foldl_append, hbefore.foldl, List.foldl_cons, stripEcho_once hfound hgone,
      hafter.foldl]
  · exact scrubEchoes_found h.once.echo_ne_nil hfound hbefore hafter

theorem Single.free_of_none {a data t : List UInt8} (h : Single es₁ echo es₂ x w y)
    (hdata : x ++ w ++ y = a ++ data ++ t) (hnone : findWrappedEcho data echo = none) :
    Free (es₁ ++ echo :: es₂) data := by
  have hothers : Free (es₁ ++ es₂) data := by
    have hall := h.before
    rw [hdata] at hall
    exact hall.part
  intro e he
  rcases List.mem_append.mp he with he | he
  · exact hothers e (List.mem_append_left _ he)
  · rcases List.mem_cons.mp he with rfl | he
    · exact hnone
    · exact hothers e (List.mem_append_right _ he)

theorem Single.free_after (h : Single es₁ echo es₂ x w y) :
    Free (es₁ ++ echo :: es₂) (x ++ y) := by
  intro e he
  rcases List.mem_append.mp he with he | he
  · exact h.after e (List.mem_append_left _ he)
  · rcases List.mem_cons.mp he with rfl | he
    · exact h.once.gone
    · exact h.after e (List.mem_append_right _ he)

theorem Single.free {data t : List UInt8} (h : Single es₁ echo es₂ x w y)
    (hdata : x ++ w ++ y = data ++ t) (hlen : y.length < t.length) :
    Free (es₁ ++ echo :: es₂) data := by
  rw [← List.nil_append data] at hdata
  exact h.free_of_none hdata (h.once.none_of_cut hdata hlen)

end Dolgate.Autocomplete
