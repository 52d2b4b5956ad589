import Dolgate.CompletionFrames

set_option autoImplicit false

/-! What a run of the completion worker makes of the frame its script writes. -/

namespace Dolgate.CompletionFrames

open GoBytes

def hexDigit (n : Nat) : UInt8 := if n < 10 then UInt8.ofNat (48 + n) else UInt8.ofNat (87 + n)

def hexEncode (bytes : Bytes) : Bytes :=
  bytes.flatMap fun b => [hexDigit (b.toNat / 16), hexDigit (b.toNat % 16)]

structure Markers where
  start : Bytes
  status : Bytes
  finish : Bytes

def marker (label : String) (random : Vector UInt8 12) : Bytes :=
  ascii label ++ hexEncode random.toList ++ ascii "__"

def completionMarkers (random : Vector UInt8 12) : Markers where
  start := marker "__DOLGATE_COMPLETION_START_" random
  status := marker "__DOLGATE_COMPLETION_RC_" random
  finish := marker "__DOLGATE_COMPLETION_END_" random

def frameContent (markers : Markers) (output : Bytes) (rc : Nat) : Bytes :=
  output ++ 10 :: (markers.status ++ (ascii rc.repr ++ [10]))

def workerFrame (markers : Markers) (output : Bytes) (rc : Nat) : Bytes :=
  markers.start ++ 10 :: (frameContent markers output rc ++ (markers.finish ++ [10]))

def exitCodeUnknown : Int := -1

def withoutLineBreak (stdout : Bytes) : Bytes :=
  if stdout.getLast? = some 10 then stdout.dropLast else stdout

def splitCompletionStatus (frame marker : Bytes) : Bytes × Int :=
  match lastIndex frame marker with
  | none => (frame, exitCodeUnknown)
  | some i =>
      (withoutLineBreak (frame.take i),
        (atoi (trimSpace (frame.drop (i + marker.length)))).getD exitCodeUnknown)

structure CompletionOutput where
  stdout : Bytes
  stderr : Bytes
  exitCode : Int
  truncated : Bool
  deriving DecidableEq

/-- What `Run` returns of the reads of its stream, and whether with an error. -/
def runOutput (markers : Markers) (reads : List Bytes) (stderr : Bytes) (maxBytes : Int) :
    CompletionOutput × Bool :=
  let result := readCompletionFrame markers.start markers.finish maxBytes reads {}
  let split := splitCompletionStatus result.output markers.status
  (⟨split.1, stderr, split.2, result.truncated⟩, result.failed)

/-! ### The markers -/

theorem mem_hexEncode {bytes : Bytes} {b : UInt8} (h : b ∈ hexEncode bytes) :
    48 ≤ b ∧ b ≠ 95 := by
  have hdigit : ∀ n < 16, 48 ≤ hexDigit n ∧ hexDigit n ≠ 95 := by decide
  obtain ⟨c, _, hc⟩ := List.mem_flatMap.mp h
  have hlt := c.toNat_lt
  rcases List.mem_cons.mp hc with rfl | hc
  · exact hdigit _ (by omega)
  · rw [List.mem_singleton.mp hc]
    exact hdigit _ (by omega)

theorem length_hexEncode (bytes : Bytes) : (hexEncode bytes).length = 2 * bytes.length := by
  induction bytes with
  | nil => rfl
  | cons b bytes ih =>
      rw [hexEncode, List.flatMap_cons, List.length_append, ← hexEncode, ih]
      simp
      omega

variable {random : Vector UInt8 12} {b : UInt8}

theorem mem_marker {label : String} (hlabel : ∀ b ∈ ascii label, 48 ≤ b)
    (h : b ∈ marker label random) : 48 ≤ b := by
  have hclose : ∀ b ∈ ascii "__", 48 ≤ b := by decide +kernel
  simp only [marker, List.mem_append] at h
  rcases h with (h | h) | h
  · exact hlabel b h
  · exact (mem_hexEncode h).1
  · exact hclose b h

theorem length_marker (label : String) :
    (marker label random).length = (ascii label).length + 26 := by
  have hclose : (ascii "__").length = 2 := by decide
  simp only [marker, List.length_append, length_hexEncode, hclose, Vector.length_toList]

theorem marker_eq (label : String) (random : Vector UInt8 12) :
    ∃ front, marker label random = front ++ [95] := by
  have hclose : ascii "__" = [95] ++ [95] := by decide
  exact ⟨ascii label ++ hexEncode random.toList ++ [95], by
    rw [marker, hclose, ← List.append_assoc]⟩

theorem mem_start (h : b ∈ (completionMarkers random).start) : 48 ≤ b :=
  mem_marker (by decide +kernel) h

theorem mem_status (h : b ∈ (completionMarkers random).status) : 48 ≤ b :=
  mem_marker (by decide +kernel) h

theorem mem_finish (h : b ∈ (completionMarkers random).finish) : 48 ≤ b :=
  mem_marker (by decide +kernel) h

theorem length_start : (completionMarkers random).start.length = 53 := by
  have hlabel : (ascii "__DOLGATE_COMPLETION_START_").length = 27 := by decide
  rw [completionMarkers, length_marker, hlabel]

theorem length_status : (completionMarkers random).status.length = 50 := by
  have hlabel : (ascii "__DOLGATE_COMPLETION_RC_").length = 24 := by decide
  rw [completionMarkers, length_marker, hlabel]

theorem length_finish (random : Vector UInt8 12) :
    (completionMarkers random).finish.length = 51 := by
  have hlabel : (ascii "__DOLGATE_COMPLETION_END_").length = 25 := by decide
  rw [completionMarkers, length_marker, hlabel]

/-- A marker whose label parts from the start marker's at the letter `c` is no part of it: it would
have to begin within the first few bytes, where only the very first begins alike. -/
theorem not_infix_start {label : String} (c : UInt8) (last : Bytes) (hc : c ≠ 83)
    (hlabel : ascii label = [95, 95, 68, 79] ++ ascii "LGATE_COMPLETION_" ++ c :: last)
    (hlength : 24 ≤ (ascii label).length) :
    ¬ marker label random <:+: (completionMarkers random).start := by
  rintro ⟨before, after, h⟩
  have hstart : ascii "__DOLGATE_COMPLETION_START_" =
      [95, 95, 68, 79] ++ ascii "LGATE_COMPLETION_" ++ 83 :: ascii "TART_" := by decide
  have htotal := congrArg List.length h
  rw [List.length_append, List.length_append, length_marker, length_start] at htotal
  simp only [completionMarkers, marker, hstart, hlabel] at h
  rcases before with _ | ⟨a, _ | ⟨b, _ | ⟨d, _ | ⟨e, before⟩⟩⟩⟩
  · simp only [List.nil_append, List.append_assoc, List.append_cancel_left_eq, List.cons_append,
      List.cons.injEq, true_and] at h
    exact hc h.1
  · simp at h
  · simp at h
  · simp at h
  · simp only [List.length_cons] at htotal
    omega

theorem status_not_infix_start :
    ¬ (completionMarkers random).status <:+: (completionMarkers random).start :=
  not_infix_start 82 (ascii "C_") (by decide) (by decide) (by decide)

theorem finish_not_infix_start :
    ¬ (completionMarkers random).finish <:+: (completionMarkers random).start :=
  not_infix_start 69 (ascii "ND_") (by decide) (by decide)
    (by decide)

/-! ### The status line -/

theorem withoutLineBreak_append (s : Bytes) : withoutLineBreak (s ++ [10]) = s := by
  rw [withoutLineBreak, if_pos List.getLast?_concat, List.dropLast_concat]

variable {output : Bytes} {rc : Nat}

theorem newline_not_mem_status : 10 ∉ (completionMarkers random).status :=
  fun h => absurd (mem_status h) (by decide)

theorem newline_not_mem_finish : 10 ∉ (completionMarkers random).finish :=
  fun h => absurd (mem_finish h) (by decide)

theorem length_frameContent (markers : Markers) (output : Bytes) (rc : Nat) :
    (frameContent markers output rc).length =
      output.length + 1 + markers.status.length + (ascii rc.repr).length + 1 := by
  simp only [frameContent, List.length_append, List.length_cons, List.length_nil]
  omega

theorem underscore_not_mem_digits : (95 : UInt8) ∉ ascii rc.repr ++ [10] := by
  intro h
  rcases List.mem_append.mp h with h | h
  · exact absurd (mem_ascii_repr h).2 (by decide)
  · simp at h

theorem split_of_lt {n : Nat} (hs : ¬ (completionMarkers random).status <:+: output)
    (hn : n < output.length + 1 + (completionMarkers random).status.length) :
    splitCompletionStatus ((frameContent (completionMarkers random) output rc).take n)
        (completionMarkers random).status =
      ((frameContent (completionMarkers random) output rc).take n, exitCodeUnknown) := by
  have hnone : ¬ (completionMarkers random).status <:+:
      (frameContent (completionMarkers random) output rc).take n := by
    rw [frameContent, List.take_append]
    cases hrest : n - output.length with
    | zero =>
        rw [List.take_zero, List.append_nil]
        exact fun h => hs (h.trans (List.take_prefix n output).isInfix)
    | succ m =>
        rw [List.take_of_length_le (by omega), List.take_succ_cons,
          infix_append_cons_iff newline_not_mem_status hs]
        intro h
        have hlength := h.length_le
        rw [List.length_take] at hlength
        omega
  rw [splitCompletionStatus, lastIndex_eq_none_iff.mpr hnone]

theorem split_of_le {n : Nat}
    (hn : output.length + 1 + (completionMarkers random).status.length ≤ n) :
    splitCompletionStatus ((frameContent (completionMarkers random) output rc).take n)
        (completionMarkers random).status =
      (output, (atoi (trimSpace ((ascii rc.repr ++ [10]).take
        (n - (output.length + 1 + (completionMarkers random).status.length))))).getD
          exitCodeUnknown) := by
  obtain ⟨front, hstatus⟩ := marker_eq "__DOLGATE_COMPLETION_RC_" random
  have hmarker : (completionMarkers random).status = front ++ [95] := hstatus
  generalize hcut : n - (output.length + 1 + (completionMarkers random).status.length) = m
  have htake : (frameContent (completionMarkers random) output rc).take n =
      (output ++ [10]) ++ ((completionMarkers random).status ++
        (ascii rc.repr ++ [10]).take m) := by
    have hframe : frameContent (completionMarkers random) output rc =
        (output ++ [10] ++ (completionMarkers random).status) ++ (ascii rc.repr ++ [10]) := by
      simp [frameContent]
    have hlength : n = (output ++ [10] ++ (completionMarkers random).status).length + m := by
      simp only [List.length_append, List.length_singleton]
      omega
    rw [hframe, hlength, List.take_length_add_append, List.append_assoc]
  have hdigits : (95 : UInt8) ∉ (ascii rc.repr ++ [10]).take m :=
    fun h => underscore_not_mem_digits (List.mem_of_mem_take h)
  have hlast : lastIndex ((frameContent (completionMarkers random) output rc).take n)
      (completionMarkers random).status = some (output ++ [10]).length := by
    rw [htake, hmarker]
    exact lastIndex_append (lastIndex_append_self hdigits)
  rw [splitCompletionStatus, hlast, htake]
  simp only [List.take_left, withoutLineBreak_append]
  rw [← List.append_assoc, ← List.length_append, List.drop_left]

theorem split_whole {n : Nat} (hrc : rc < 2 ^ 63)
    (hn : (frameContent (completionMarkers random) output rc).length ≤ n) :
    splitCompletionStatus ((frameContent (completionMarkers random) output rc).take n)
        (completionMarkers random).status = (output, (rc : Int)) := by
  rw [length_frameContent] at hn
  rw [split_of_le (by omega), List.take_of_length_le (by simp; omega),
    trimSpace_digits_newline (ascii_repr_ne_nil rc) (all_isDigit_ascii_repr rc),
    atoi_ascii_repr hrc, Option.getD_some]

/-! ### The run -/

/-- What is left of the start line where the leftover ends in most of its marker, so that the
marker is found in the leftover's end and the line's beginning. Nothing, for other leftovers. -/
def overhang (leftover start : Bytes) : Bytes :=
  (leftover ++ start).drop ((index (leftover ++ start) start).getD 0 + start.length)

def shownOutput (leftover start output : Bytes) : Bytes :=
  if overhang leftover start = [] then output else overhang leftover start ++ 10 :: output

theorem overhang_suffix {leftover start : Bytes} (h : ¬ start <:+: leftover) :
    overhang leftover start <:+ start := by
  obtain ⟨p, hp⟩ : ∃ p, index (leftover ++ start) start = some p := by
    rw [← Option.ne_none_iff_exists', Ne, index_eq_none_iff, not_not]
    exact (List.suffix_append leftover start).isInfix
  have hle : leftover.length ≤ p + start.length := by
    by_contra hlt
    have hprefix := prefix_of_index hp
    rw [List.drop_append_of_le_length (by omega)] at hprefix
    have hinside : start <+: leftover.drop p :=
      List.prefix_of_prefix_length_le hprefix (List.prefix_append _ _) (by simp; omega)
    exact h (hinside.isInfix.trans (List.drop_suffix p leftover).isInfix)
  rw [overhang, hp, Option.getD_some, List.drop_append, List.drop_eq_nil_of_le hle, List.nil_append]
  exact List.drop_suffix _ _

theorem afterLineBreak_overhang {leftover : Bytes} (output rest : Bytes)
    (h : ¬ (completionMarkers random).start <:+: leftover) :
    ∃ b value, overhang leftover (completionMarkers random).start ++ 10 :: (output ++ rest) =
        b :: value ∧ b ≠ 13 ∧
      afterLineBreak (b :: value) =
        shownOutput leftover (completionMarkers random).start output ++ rest := by
  have hsuffix := overhang_suffix h
  rw [shownOutput]
  cases hover : overhang leftover (completionMarkers random).start with
  | nil => exact ⟨10, output ++ rest, rfl, by decide, rfl⟩
  | cons b value =>
      have hb := mem_start (hsuffix.subset (hover ▸ List.mem_cons_self))
      refine ⟨b, value ++ 10 :: (output ++ rest), by simp, ?_, ?_⟩
      · rintro rfl
        exact absurd hb (by decide)
      · have hne : b ≠ 10 := by
          rintro rfl
          exact absurd hb (by decide)
        rw [if_neg (List.cons_ne_nil b value)]
        unfold afterLineBreak
        split
        · simp_all
        · simp

theorem not_infix_shownOutput {leftover start sub : Bytes} (h : ¬ start <:+: leftover)
    (hstart : ¬ sub <:+: start) (houtput : ¬ sub <:+: output) (hnewline : 10 ∉ sub) :
    ¬ sub <:+: shownOutput leftover start output := by
  rw [shownOutput]
  split_ifs
  · exact houtput
  · rwa [infix_append_cons_iff hnewline
      fun hinside => hstart (hinside.trans (overhang_suffix h).isInfix)]

theorem index_finish {rest : Bytes} (h : ¬ (completionMarkers random).finish <:+: output) :
    index (frameContent (completionMarkers random) output rc ++
        ((completionMarkers random).finish ++ rest)) (completionMarkers random).finish =
      some (frameContent (completionMarkers random) output rc).length := by
  obtain ⟨front, hfront⟩ := marker_eq "__DOLGATE_COMPLETION_END_" random
  have hfinish : (completionMarkers random).finish = front ++ [95] := hfront
  have hlength : (completionMarkers random).status.length ≤ front.length := by
    have htotal := length_finish random
    rw [hfinish, List.length_append, List.length_singleton] at htotal
    rw [length_status]
    omega
  have hdigits : (95 : UInt8) ∉ ascii rc.repr :=
    fun h => absurd (mem_ascii_repr h).2 (by decide)
  have hline : ¬ (completionMarkers random).finish <:+:
      (completionMarkers random).status ++ ascii rc.repr := by
    rw [hfinish]
    exact not_infix_append hlength hdigits
  have hframe : frameContent (completionMarkers random) output rc ++
      ((completionMarkers random).finish ++ rest) =
      output ++ 10 :: ((completionMarkers random).status ++ ascii rc.repr ++
        10 :: ((completionMarkers random).finish ++ rest)) := by
    simp [frameContent]
  have hhere : index ((completionMarkers random).finish ++ rest)
      (completionMarkers random).finish = some 0 := by
    rw [index.eq_def, if_pos]
    rw [hasPrefix, List.isPrefixOf_iff_prefix]
    exact List.prefix_append _ _
  rw [hframe, index_append_cons newline_not_mem_finish h,
    index_append_cons newline_not_mem_finish hline, hhere, length_frameContent]
  simp
  omega

variable {leftover rest stderr : Bytes} {reads : List Bytes} {maxBytes : Int}

theorem readCompletionFrame_workerFrame (maxBytes : Int)
    (hleftover : ¬ (completionMarkers random).start <:+: leftover)
    (hfinish : ¬ (completionMarkers random).finish <:+: output)
    (hreads : reads.flatten =
      leftover ++ workerFrame (completionMarkers random) output rc ++ rest) :
    readCompletionFrame (completionMarkers random).start (completionMarkers random).finish maxBytes
        reads {} =
      cutResult maxBytes (frameContent (completionMarkers random)
        (shownOutput leftover (completionMarkers random).start output) rc) := by
  obtain ⟨p, hp⟩ : ∃ p, index (leftover ++ (completionMarkers random).start)
      (completionMarkers random).start = some p := by
    rw [← Option.ne_none_iff_exists', Ne, index_eq_none_iff, not_not]
    exact (List.suffix_append leftover _).isInfix
  have hstream : reads.flatten = leftover ++ (completionMarkers random).start ++
      10 :: (output ++ (10 :: ((completionMarkers random).status ++ (ascii rc.repr ++ [10])) ++
        ((completionMarkers random).finish ++ 10 :: rest))) := by
    simp [hreads, workerFrame, frameContent]
  obtain ⟨b, value, hcons, hb, hafter⟩ := afterLineBreak_overhang output
    (10 :: ((completionMarkers random).status ++ (ascii rc.repr ++ [10])) ++
      ((completionMarkers random).finish ++ 10 :: rest)) hleftover
  have hshown := not_infix_shownOutput hleftover finish_not_infix_start hfinish
    newline_not_mem_finish
  rw [← List.append_assoc, ← frameContent] at hafter
  have hdrop : reads.flatten.drop (p + (completionMarkers random).start.length) = b :: value := by
    rw [hstream, List.drop_append_of_le_length (index_length hp), ← hcons, overhang, hp,
      Option.getD_some]
  have hindex : index (afterLineBreak (b :: value)) (completionMarkers random).finish =
      some (frameContent (completionMarkers random)
        (shownOutput leftover (completionMarkers random).start output) rc).length := by
    rw [hafter]
    exact index_finish hshown
  have hstart : index reads.flatten (completionMarkers random).start = some p := by
    rw [hstream]
    exact index_append_right hp _
  have hne : (completionMarkers random).start ≠ [] :=
    List.ne_nil_of_length_pos (by rw [length_start]; decide)
  rw [readCompletionFrame_eq hne hstart hdrop hb hindex, hafter, List.take_left]

/-- The output cut to its limit, and the exit code unless the status line was cut off. -/
structure ReadBack (markers : Markers) (output : Bytes) (rc : Nat) (maxBytes : Int)
    (got : CompletionOutput) : Prop where
  stdout : got.stdout = output.take maxBytes.toNat
  truncated : got.truncated = true ↔ maxBytes < output.length
  exitCode : got.exitCode = rc ∨
    got.exitCode = exitCodeUnknown ∧ maxBytes < (frameContent markers output rc).length

/-- The limit leaves room for the status line behind the output, or already cuts the output; and
nothing of the start line is taken for output. -/
def ReadsBack (markers : Markers) (leftover output : Bytes) (rc : Nat) (maxBytes : Int) : Prop :=
  overhang leftover markers.start = [] ∧
      ((frameContent markers output rc).length : Int) ≤ maxBytes ∨
    maxBytes < output.length ∧
      (shownOutput leftover markers.start output).take maxBytes.toNat = output.take maxBytes.toNat

theorem length_le_shownOutput (leftover start output : Bytes) :
    output.length ≤ (shownOutput leftover start output).length := by
  rw [shownOutput]
  split_ifs
  · exact Nat.le_refl _
  · simp
    omega

theorem length_lt_shownOutput {start : Bytes} (output : Bytes) (h : overhang leftover start ≠ []) :
    output.length < (shownOutput leftover start output).length := by
  rw [shownOutput, if_neg h]
  simp
  omega

theorem runOutput_reads_back_iff (random : Vector UInt8 12) (leftover output rest stderr : Bytes)
    (rc : Nat) (maxBytes : Int) (reads : List Bytes) (hrc : rc < 2 ^ 63) (hmax : 0 < maxBytes)
    (hleftover : ¬ (completionMarkers random).start <:+: leftover)
    (hstatus : ¬ (completionMarkers random).status <:+: output)
    (hfinish : ¬ (completionMarkers random).finish <:+: output)
    (hreads : reads.flatten =
      leftover ++ workerFrame (completionMarkers random) output rc ++ rest) :
    ReadBack (completionMarkers random) output rc maxBytes
        (runOutput (completionMarkers random) reads stderr maxBytes).1 ↔
      ReadsBack (completionMarkers random) leftover output rc maxBytes := by
  have hread := readCompletionFrame_workerFrame maxBytes hleftover hfinish hreads
  have hshown := not_infix_shownOutput hleftover status_not_infix_start hstatus
    newline_not_mem_status
  have hlong := length_le_shownOutput leftover (completionMarkers random).start output
  have hlength := length_frameContent (completionMarkers random) output rc
  have hlength' := length_frameContent (completionMarkers random)
    (shownOutput leftover (completionMarkers random).start output) rc
  simp only [runOutput, hread, cutResult]
  generalize hshownEq : shownOutput leftover (completionMarkers random).start output = shown at *
  have hunknown : exitCodeUnknown = -1 := rfl
  constructor
  · rintro ⟨hstdout, htruncated, _⟩
    rw [decide_eq_true_eq] at htruncated
    by_cases hcut : maxBytes < output.length
    · right
      refine ⟨hcut, ?_⟩
      rw [hshownEq, ← hstdout, split_of_lt hshown (by omega), frameContent,
        List.take_append_of_le_length (by omega)]
    · left
      have hwhole : (frameContent (completionMarkers random) shown rc).length ≤
          maxBytes.toNat := by
        by_contra hlt
        exact hcut (htruncated.mp (by omega))
      have hsame : shown = output := by
        rw [split_whole hrc hwhole, List.take_of_length_le (by omega)] at hstdout
        exact hstdout
      rw [hsame] at hwhole
      refine ⟨?_, by omega⟩
      by_contra hne
      have hlonger := length_lt_shownOutput output hne
      rw [hshownEq, hsame] at hlonger
      exact absurd hlonger (Nat.lt_irrefl _)
  · rintro (⟨hover, hroom⟩ | ⟨hcut, hsame⟩)
    · have hall : shown = output := by
        rw [← hshownEq, shownOutput, if_pos hover]
      subst hall
      rw [split_whole hrc (by omega)]
      refine ⟨?_, ?_, Or.inl rfl⟩
      · rw [List.take_of_length_le (by omega)]
      · rw [decide_eq_true_eq]
        omega
    · rw [split_of_lt hshown (by omega)]
      refine ⟨?_, ?_, Or.inr ⟨rfl, by omega⟩⟩
      · rw [← hsame, hshownEq, frameContent, List.take_append_of_le_length (by omega)]
      · rw [decide_eq_true_eq]
        omega

def zeroMarkers : Markers := completionMarkers (Vector.replicate 12 0)

/-- A leftover, a frame in three reads, and room for it. -/
theorem runOutput_reads_back_hello :
    ReadBack zeroMarkers (ascii "hello") 3 100
        (runOutput zeroMarkers [ascii "old" ++ (workerFrame zeroMarkers (ascii "hello") 3).take 20,
          (workerFrame zeroMarkers (ascii "hello") 3).drop 20, []] [] 100).1 ↔
      ReadsBack zeroMarkers (ascii "old") (ascii "hello") 3 100 :=
  runOutput_reads_back_iff (Vector.replicate 12 0) (ascii "old") (ascii "hello") [] [] 3 100
    [ascii "old" ++ (workerFrame zeroMarkers (ascii "hello") 3).take 20,
      (workerFrame zeroMarkers (ascii "hello") 3).drop 20, []]
    (by decide) (by decide) (by decide) (by decide) (by decide)
    (by decide +kernel)

/-- One byte of output and the limit between the second and the third digit of the exit code 127:
the run reports the code 12. -/
theorem cut_digits_give_another_code :
    (runOutput zeroMarkers [workerFrame zeroMarkers [97] 127] [] 54).1.exitCode = 12 ∧
    ¬ (∀ (random : Vector UInt8 12) (leftover output rest stderr : Bytes) (rc : Nat)
      (maxBytes : Int) (reads : List Bytes), rc < 256 → 0 < maxBytes →
      ¬ (completionMarkers random).start <:+: leftover →
      ¬ (completionMarkers random).start <:+: output →
      ¬ (completionMarkers random).status <:+: output →
      ¬ (completionMarkers random).finish <:+: output →
      reads.flatten = leftover ++ workerFrame (completionMarkers random) output rc ++ rest →
      ReadBack (completionMarkers random) output rc maxBytes
        (runOutput (completionMarkers random) reads stderr maxBytes).1) := by
  have hcode :
      (runOutput zeroMarkers [workerFrame zeroMarkers [97] 127] [] 54).1.exitCode = 12 := by
    decide +kernel
  refine ⟨hcode, fun h => ?_⟩
  have hback := (h (Vector.replicate 12 0) [] [97] [] [] 127 54 [workerFrame zeroMarkers [97] 127]
    (by decide) (by decide) (by decide) (by decide +kernel) (by decide)
    (by decide) (by decide)).exitCode
  rw [← zeroMarkers, hcode] at hback
  rcases hback with hcode | ⟨hunknown, _⟩
  · exact absurd hcode (by decide)
  · exact absurd hunknown (by decide)

end Dolgate.CompletionFrames
