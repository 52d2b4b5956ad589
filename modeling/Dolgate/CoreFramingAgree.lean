import Dolgate.CoreFrameParser

set_option autoImplicit false

namespace Dolgate.CoreFraming

open CoreFrameParser (parsedFrame pushAll new)

/-! The readers. -/

theorem readFull_spec (n : Nat) (r : Reader) :
    (readFull n r).1 = r.flatten.take n ∧ (readFull n r).2.flatten = r.flatten.drop n := by
  induction r generalizing n with
  | nil => simp [readFull]
  | cons piece pieces ih =>
      rw [readFull, List.flatten_cons]
      split
      · next hle =>
          rw [List.take_append_of_le_length hle, List.drop_append_of_le_length hle]
          exact ⟨rfl, by rw [List.flatten_cons]⟩
      · next hlt =>
          obtain ⟨htake, hdrop⟩ := ih (n - piece.length)
          rw [List.take_append, List.take_of_length_le (show piece.length ≤ n by omega),
            List.drop_append, List.drop_of_length_le (show piece.length ≤ n by omega)]
          exact ⟨congrArg (piece ++ ·) htake, hdrop⟩

theorem readFull_append {n : Nat} {r : Reader} {front rest : Bytes}
    (h : r.flatten = front ++ rest) (hn : front.length = n) :
    ∃ r', readFull n r = (front, r') ∧ r'.flatten = rest := by
  obtain ⟨htake, hdrop⟩ := readFull_spec n r
  rw [h, ← hn, List.take_left] at htake
  rw [h, ← hn, List.drop_left] at hdrop
  rw [hn] at htake hdrop
  exact ⟨(readFull n r).2, Prod.ext htake rfl, hdrop⟩

theorem Rust.readExact_append {n : Nat} {r : Reader} {front rest : Bytes}
    (h : r.flatten = front ++ rest) (hn : front.length = n) :
    ∃ r', readExact n r = (.ok front, r') ∧ r'.flatten = rest := by
  obtain ⟨r', hr, hrest⟩ := readFull_append h hn
  exact ⟨r', by simp [readExact, hr, hn], hrest⟩

theorem Go.ioReadFull_append {n : Nat} {r : Reader} {front rest : Bytes}
    (h : r.flatten = front ++ rest) (hn : front.length = n) :
    ∃ r', ioReadFull n r = (.ok front, r') ∧ r'.flatten = rest := by
  obtain ⟨r', hr, hrest⟩ := readFull_append h hn
  exact ⟨r', by simp [ioReadFull, hr, hn], hrest⟩

def header (frame : Frame) : Bytes :=
  frame.kind :: (putUint32 frame.metadata.length ++ putUint32 frame.payload.length)

theorem wire_eq (frame : Frame) :
    wire frame = header frame ++ (frame.metadata ++ frame.payload) := by
  simp [wire, header]

theorem header_metadata {frame : Frame} (h : Fits frame) :
    uint32 (((header frame).drop 1).take 4) = frame.metadata.length := uint32_putUint32 h.1

theorem header_payload {frame : Frame} (h : Fits frame) :
    uint32 (((header frame).drop 5).take 4) = frame.payload.length := uint32_putUint32 h.2

theorem Go.readFrame_wire {frame : Frame} (h : Fits frame) {r : Reader} {rest : Bytes}
    (hr : r.flatten = wire frame ++ rest) :
    ∃ r', readFrame r = (.ok frame, r') ∧ r'.flatten = rest := by
  rw [wire_eq, List.append_assoc, List.append_assoc] at hr
  obtain ⟨r₁, h₁, hr₁⟩ := ioReadFull_append (n := headerSize) hr rfl
  obtain ⟨r₂, h₂, hr₂⟩ := ioReadFull_append hr₁ rfl
  obtain ⟨r₃, h₃, hr₃⟩ := ioReadFull_append hr₂ rfl
  refine ⟨r₃, ?_, hr₃⟩
  simp only [readFrame, h₁, header_metadata h, header_payload h, h₂, h₃]
  rfl

def Capped (frame : Frame) : Prop :=
  frame.metadata.length ≤ Rust.maxMetadata ∧ frame.payload.length ≤ Rust.maxPayload

theorem Capped.fits {frame : Frame} (h : Capped frame) : Fits frame := by
  obtain ⟨hm, hp⟩ := h
  simp only [Rust.maxMetadata, Rust.maxPayload] at hm hp
  exact ⟨by omega, by omega⟩

theorem Rust.readFrame_wire {frame : Frame} (h : Capped frame) {r : Reader} {rest : Bytes}
    (hr : r.flatten = wire frame ++ rest) :
    ∃ r', readFrame r = (.ok frame, r') ∧ r'.flatten = rest := by
  rw [wire_eq, List.append_assoc, List.append_assoc] at hr
  obtain ⟨r₁, h₁, hr₁⟩ := readExact_append (n := headerSize) hr rfl
  obtain ⟨r₂, h₂, hr₂⟩ := readExact_append hr₁ rfl
  obtain ⟨r₃, h₃, hr₃⟩ := readExact_append hr₂ rfl
  have hm : ¬ frame.metadata.length > maxMetadata := Nat.not_lt.mpr h.1
  have hp : ¬ frame.payload.length > maxPayload := Nat.not_lt.mpr h.2
  refine ⟨r₃, ?_, hr₃⟩
  simp only [readFrame, h₁, header_metadata h.fits, header_payload h.fits, if_neg hm, if_neg hp,
    h₂, h₃]
  rfl

theorem readFrames_wire {ε : Type} {read : Reader → Except ε Frame × Reader} {atEnd : ε}
    {P : Frame → Prop}
    (hread : ∀ frame, P frame → ∀ r rest, r.flatten = wire frame ++ rest →
      ∃ r', read r = (.ok frame, r') ∧ r'.flatten = rest)
    (hend : ∀ r, r.flatten = [] → (read r).1 = .error atEnd)
    {frames : List Frame} (hP : ∀ frame ∈ frames, P frame) {r : Reader}
    (hr : r.flatten = (frames.map wire).flatten) {fuel : Nat} (hfuel : frames.length < fuel) :
    readFrames read fuel r = (frames, some atEnd) := by
  induction frames generalizing r fuel with
  | nil =>
      cases fuel with
      | zero => simp at hfuel
      | succ fuel =>
          have herr := hend r hr
          simp only [readFrames]
          split
          · next heq => simp_all
          · next heq => simp_all
  | cons frame frames ih =>
      cases fuel with
      | zero => simp at hfuel
      | succ fuel =>
          obtain ⟨r', hread', hr'⟩ := hread frame (hP frame List.mem_cons_self) r _ hr
          have hrest := ih (fun f hf => hP f (List.mem_cons_of_mem _ hf)) hr'
            (by simpa using hfuel)
          simp only [readFrames, hread', hrest]

theorem readFull_end {n : Nat} {r : Reader} (h : r.flatten = []) : (readFull n r).1 = [] := by
  rw [(readFull_spec n r).1, h, List.take_nil]

theorem Go.readFrame_end {r : Reader} (h : r.flatten = []) : (readFrame r).1 = .error .eof := by
  simp [readFrame, ioReadFull, readFull_end h, headerSize]

theorem Rust.readFrame_end {r : Reader} (h : r.flatten = []) :
    (readFrame r).1 = .error .unexpectedEof := by
  simp [readFrame, readExact, readFull_end h, headerSize]

/-! The writers. -/

inductive Writer where
  | rust
  | go
  | typescript
  deriving DecidableEq, Repr

/-- The bytes each implementation writes for a frame. The desktop has an encoder for each kind, and
one for control messages with and one for those without a payload. -/
def Writer.encode : Writer → Frame → Option Bytes
  | .rust, frame => (Rust.writeFrame frame.kind frame.metadata frame.payload).toOption
  | .go, frame => some (Go.writeFrame frame.kind frame.metadata frame.payload)
  | .typescript, frame =>
      if frame.kind = kindControl then
        if frame.payload = [] then (encodeControlFrameOf frame.metadata).toOption
        else (encodeControlFrameWithPayload frame.metadata frame.payload).toOption
      else if frame.kind = kindStream then
        (encodeStreamFrame frame.metadata frame.payload).toOption
      else none

def encodeAll (sent : List (Writer × Frame)) : Option Bytes :=
  (sent.mapM fun p : Writer × Frame => p.1.encode p.2).map List.flatten

def Sendable {J : Type} (parse : Bytes → Option J) (frame : Frame) : Prop :=
  (frame.kind = kindControl ∨ frame.kind = kindStream) ∧ (parse frame.metadata).isSome ∧
    Capped frame

theorem Rust.encodeHeader_ok {m p : Nat} (hm : m < 2 ^ 32) (hp : p < 2 ^ 32) (kind : UInt8) :
    encodeHeader kind m p = .ok (kind :: (putUint32 m ++ putUint32 p)) := by
  rw [encodeHeader, if_neg (Nat.not_le.mpr hm), if_neg (Nat.not_le.mpr hp)]
  rfl

theorem encodeHeader_ok {m p : Nat} (hm : m < 2 ^ 32) (hp : p < 2 ^ 32) (kind : UInt8) :
    encodeHeader kind m p = .ok (kind :: (putUint32 m ++ putUint32 p)) := by
  rw [encodeHeader, writeUInt32BE, writeUInt32BE, if_pos hm, if_pos hp]
  rfl

theorem Writer.encode_eq {frame : Frame}
    (hkind : frame.kind = kindControl ∨ frame.kind = kindStream) (h : Fits frame) (w : Writer) :
    w.encode frame = some (wire frame) := by
  have hzero : (0 : Nat) < 2 ^ 32 := by decide
  cases w with
  | rust =>
      simp only [Writer.encode, Rust.writeFrame, Rust.encodeHeader_ok h.1 h.2]
      by_cases hnil : frame.payload = []
      · simp [wire, hnil, Except.map, Except.toOption]
      · simp [wire, hnil, Except.map, Except.toOption]
  | go =>
      by_cases hnil : frame.payload = []
      · simp [Writer.encode, Go.writeFrame, wire, hnil]
      · simp [Writer.encode, Go.writeFrame, wire, hnil]
  | typescript =>
      simp only [Writer.encode, encodeControlFrameOf, encodeControlFrameWithPayload,
        encodeStreamFrame, encodeHeader_ok h.1 h.2, encodeHeader_ok h.1 hzero]
      cases hkind with
      | inl hk =>
          by_cases hnil : frame.payload = []
          · simp [wire, hk, hnil, bind, Except.bind, pure, Except.pure, Except.toOption]
          · simp [wire, hk, hnil, bind, Except.bind, pure, Except.pure, Except.toOption]
      | inr hk =>
          have hne : kindStream ≠ kindControl := by decide
          simp [wire, hk, hne, bind, Except.bind, pure, Except.pure, Except.toOption]

theorem encodeAll_eq {sent : List (Writer × Frame)}
    (h : ∀ p ∈ sent, (p.2.kind = kindControl ∨ p.2.kind = kindStream) ∧ Fits p.2) :
    encodeAll sent = some ((sent.map Prod.snd).map wire).flatten := by
  have hmap : (sent.mapM fun p : Writer × Frame => p.1.encode p.2) =
      some ((sent.map Prod.snd).map wire) := by
    induction sent with
    | nil => rfl
    | cons p sent ih =>
        obtain ⟨hkind, hfits⟩ := h p List.mem_cons_self
        rw [List.mapM_cons, Writer.encode_eq hkind hfits,
          ih fun q hq => h q (List.mem_cons_of_mem _ hq)]
        rfl
  rw [encodeAll, hmap]
  rfl

/-! The desktop's parser against them. -/

section Agreement

variable {J : Type} (parse : Bytes → Option J)

def view (frame : Frame) : Option (ParsedFrame J) :=
  if frame.kind = kindControl then (parse frame.metadata).map .control
  else if frame.kind = kindStream then
    (parse frame.metadata).map fun value => .stream value frame.payload
  else none

def Readable (frame : Frame) : Prop :=
  (frame.kind = kindControl ∨ frame.kind = kindStream) ∧ (parse frame.metadata).isSome

theorem parsedFrame_toOption (frame : Frame) :
    (parsedFrame parse frame.kind frame.metadata frame.payload).toOption = view parse frame := by
  rw [parsedFrame, view]
  by_cases hk : frame.kind = kindControl
  · cases parse frame.metadata <;> simp [hk, Except.toOption]
  · by_cases hs : frame.kind = kindStream
    · cases parse frame.metadata <;> simp [hs, Except.toOption, kindStream, kindControl]
    · simp [hk, hs, Except.toOption]

theorem isSome_view (frame : Frame) : (view parse frame).isSome ↔ Readable parse frame := by
  rw [view, Readable]
  split
  · next hk => simp [hk]
  · next hk =>
      split
      · next hs => simp [hs]
      · next hs => simp [hk, hs]

theorem decoder_next : (decoder parse).next = next parse := rfl

theorem parsedFrame_ok {frame : Frame} {value : ParsedFrame J} :
    parsedFrame parse frame.kind frame.metadata frame.payload = .ok value ↔
      view parse frame = some value := by
  rw [← parsedFrame_toOption]
  cases parsedFrame parse frame.kind frame.metadata frame.payload <;> simp [Except.toOption]

theorem parsedFrame_error {frame : Frame} :
    (∃ e, parsedFrame parse frame.kind frame.metadata frame.payload = .error e) ↔
      ¬ Readable parse frame := by
  rw [← isSome_view, ← parsedFrame_toOption]
  cases parsedFrame parse frame.kind frame.metadata frame.payload <;> simp [Except.toOption]

theorem scan_wire {good : List Frame}
    (h : ∀ frame ∈ good, Fits frame ∧ Readable parse frame) (rest : Bytes) :
    ∃ parsed, parsed.map some = good.map (view parse) ∧
      Framing.scan (decoder parse) ((good.map wire).flatten ++ rest) =
        (parsed ++ (Framing.scan (decoder parse) rest).1,
          (Framing.scan (decoder parse) rest).2) := by
  induction good with
  | nil => exact ⟨[], rfl, rfl⟩
  | cons frame good ih =>
      obtain ⟨hfits, hread⟩ := h frame List.mem_cons_self
      obtain ⟨parsed, hparsed, hscan⟩ := ih fun f hf => h f (List.mem_cons_of_mem _ hf)
      obtain ⟨value, hvalue⟩ := Option.isSome_iff_exists.mp ((isSome_view parse frame).mpr hread)
      have hok := (parsedFrame_ok parse).mpr hvalue
      have hitem : (decoder parse).next (wire frame ++ ((good.map wire).flatten ++ rest)) =
          .item value ((good.map wire).flatten ++ rest) := by
        rw [decoder_next, next_wire parse hfits, hok]
      refine ⟨value :: parsed, by simp [hvalue, hparsed], ?_⟩
      rw [List.map_cons, List.flatten_cons, List.append_assoc, Framing.scan_item hitem, hscan]
      rfl

/-- An error after a good frame: somewhere behind at least one readable frame stands a whole one
that is not. -/
def FailsLate (bytes : Bytes) : Prop :=
  ∃ (good : List Frame) (bad : Frame) (rest : Bytes), good ≠ [] ∧
    (∀ frame ∈ good, Fits frame ∧ Readable parse frame) ∧
    Fits bad ∧ ¬ Readable parse bad ∧ bytes = (good.map wire).flatten ++ (wire bad ++ rest)

theorem scan_readable (bytes : Bytes) :
    ∃ good : List Frame, (∀ frame ∈ good, Fits frame ∧ Readable parse frame) ∧
      good.length = (Framing.scan (decoder parse) bytes).1.length ∧
      bytes = (good.map wire).flatten ++ (Framing.scan (decoder parse) bytes).2.1 := by
  induction bytes using Framing.scan_cases (d := decoder parse) with
  | more bytes hn => exact ⟨[], by simp, by simp [Framing.scan_more hn]⟩
  | bad bytes e hn => exact ⟨[], by simp, by simp [Framing.scan_bad hn]⟩
  | item bytes value rest hn ih =>
      obtain ⟨good, hgood, hlen, hrest⟩ := ih
      obtain ⟨frame, hfits, hbytes, hok⟩ := next_item parse hn
      have hread : Readable parse frame := by
        rw [← isSome_view, (parsedFrame_ok parse).mp hok]
        rfl
      rw [Framing.scan_item hn]
      refine ⟨frame :: good, ?_, ?_, ?_⟩
      · intro f hf
        cases hf with
        | head => exact ⟨hfits, hread⟩
        | tail _ hf => exact hgood f hf
      · simp only [List.length_cons, hlen]
      · rw [hbytes, List.map_cons, List.flatten_cons, List.append_assoc, ← hrest]

theorem failsLate_iff (bytes : Bytes) :
    FailsLate parse bytes ↔ (Framing.scan (decoder parse) bytes).2.2 ≠ none ∧
      (Framing.scan (decoder parse) bytes).1 ≠ [] := by
  constructor
  · rintro ⟨good, bad, rest, hne, hgood, hfits, hbad, rfl⟩
    obtain ⟨parsed, hparsed, hscan⟩ := scan_wire parse hgood (wire bad ++ rest)
    obtain ⟨e, he⟩ := (parsedFrame_error parse).mpr hbad
    have hn : (decoder parse).next (wire bad ++ rest) = .bad e := by
      rw [decoder_next, next_wire parse hfits, he]
    rw [Framing.scan_bad hn] at hscan
    rw [hscan]
    refine ⟨by simp, ?_⟩
    intro hnil
    simp only [List.append_nil] at hnil
    rw [hnil] at hparsed
    cases good with
    | nil => exact hne rfl
    | cons frame good => simp at hparsed
  · rintro ⟨herr, hne⟩
    obtain ⟨good, hgood, hlen, hbytes⟩ := scan_readable parse bytes
    obtain ⟨e, he⟩ := Option.ne_none_iff_exists'.mp herr
    obtain ⟨bad, rest, hfits, hrest, hbad⟩ := next_bad parse (Framing.scan_stuck he)
    refine ⟨good, bad, rest, ?_, hgood, hfits, (parsedFrame_error parse).mp ⟨e, hbad⟩, ?_⟩
    · rintro rfl
      exact hne (List.length_eq_zero_iff.mp hlen.symm)
    · rw [← hrest]
      exact hbytes

end Agreement

/-- The three implementations agree on every sequence of frames that may be sent, and how the bytes
are cut shows in what the desktop delivers exactly when an error follows a good frame. -/
theorem implementations_agree_and_cuts_show_iff {J : Type} (memory : Memory)
    (parse : Bytes → Option J) :
    (∀ sent : List (Writer × Frame), (∀ p ∈ sent, Sendable parse p.2) →
      ∃ bytes, encodeAll sent = some bytes ∧ ∀ chunks : List Bytes, chunks.flatten = bytes →
        (pushAll memory parse (new memory) chunks).1.map some =
            sent.map (fun p => view parse p.2) ∧
          (pushAll memory parse (new memory) chunks).2 = none ∧
          ∀ fuel, sent.length < fuel →
            readFrames Go.readFrame fuel chunks = (sent.map Prod.snd, some .eof) ∧
            readFrames Rust.readFrame fuel chunks =
              (sent.map Prod.snd, some .unexpectedEof)) ∧
    ∀ bytes : Bytes,
      (∀ chunks chunks' : List Bytes, chunks.flatten = bytes → chunks'.flatten = bytes →
        (pushAll memory parse (new memory) chunks).1 =
          (pushAll memory parse (new memory) chunks').1) ↔
      ¬ FailsLate parse bytes := by
  have hpush := fun chunks =>
    CoreFrameParser.pushAll_eq memory parse (CoreFrameParser.ordered_new memory) chunks
  simp only [CoreFrameParser.pending_new] at hpush
  refine ⟨fun sent hsent => ?_, fun bytes => ?_⟩
  · have hcapped : ∀ frame ∈ sent.map Prod.snd, Capped frame := by
      intro frame hf
      obtain ⟨p, hp, rfl⟩ := List.mem_map.mp hf
      exact (hsent p hp).2.2
    have hgood : ∀ frame ∈ sent.map Prod.snd, Fits frame ∧ Readable parse frame := by
      intro frame hf
      obtain ⟨p, hp, rfl⟩ := List.mem_map.mp hf
      exact ⟨(hsent p hp).2.2.fits, (hsent p hp).1, (hsent p hp).2.1⟩
    refine ⟨_, encodeAll_eq fun p hp => ⟨(hsent p hp).1, (hsent p hp).2.2.fits⟩, ?_⟩
    intro chunks hchunks
    obtain ⟨parsed, hparsed, hscan⟩ := scan_wire parse hgood []
    rw [Framing.scan_more (decoder parse).next_nil, List.append_nil, List.append_nil] at hscan
    have hclean : Framing.deliver (decoder parse) [] chunks = (parsed, none) := by
      have hflat : [] ++ chunks.flatten = ((sent.map Prod.snd).map wire).flatten := hchunks
      rw [Framing.deliver_clean (decoder parse).next_nil chunks (by rw [hflat, hscan]), hflat,
        hscan]
    rw [hpush, hclean]
    refine ⟨by rw [hparsed, List.map_map]; rfl, rfl, fun fuel hfuel => ⟨?_, ?_⟩⟩
    · exact readFrames_wire (fun _ hc _ _ => Go.readFrame_wire hc.fits)
        (fun _ => Go.readFrame_end) hcapped hchunks (by simpa using hfuel)
    · exact readFrames_wire (fun _ hc _ _ => Rust.readFrame_wire hc)
        (fun _ => Rust.readFrame_end) hcapped hchunks (by simpa using hfuel)
  · simp only [hpush]
    rw [Framing.deliver_independent, failsLate_iff]
    tauto

def braces : Bytes := [123, 125]

def parseBraces (text : Bytes) : Option Unit := if text = braces then some () else none

theorem fits_braces (kind : UInt8) : Fits ⟨kind, braces, []⟩ := by
  simp [Fits, braces]

/-- A good frame is lost when the frame behind it, of no known kind, ends in the same chunk. -/
theorem good_frame_lost :
    (pushAll (fun _ _ => 0) parseBraces (new fun _ _ => 0)
        [wire ⟨1, braces, []⟩, wire ⟨255, braces, []⟩]).1 = [.control ()] ∧
      (pushAll (fun _ _ => 0) parseBraces (new fun _ _ => 0)
        [wire ⟨1, braces, []⟩ ++ wire ⟨255, braces, []⟩]).1 = [] := by
  have hgood : ∀ rest, (decoder parseBraces).next (wire ⟨1, braces, []⟩ ++ rest) =
      .item (.control ()) rest := by
    intro rest
    rw [decoder_next, next_wire parseBraces (fits_braces _)]
    rfl
  have hbad : ∀ rest, (decoder parseBraces).next (wire ⟨255, braces, []⟩ ++ rest) =
      .bad (.unknownFrameKind 255) := by
    intro rest
    rw [decoder_next, next_wire parseBraces (fits_braces _)]
    rfl
  have hpush := fun chunks => CoreFrameParser.pushAll_eq (fun _ _ => 0) parseBraces
    (CoreFrameParser.ordered_new fun _ _ => 0) chunks
  simp only [CoreFrameParser.pending_new] at hpush
  have hone := Framing.scan_item (hgood [])
  have htwo := Framing.scan_item (hgood (wire ⟨255, braces, []⟩))
  have hlast := Framing.scan_bad (hbad [])
  rw [List.append_nil] at hone hlast
  rw [Framing.scan_more (decoder parseBraces).next_nil] at hone
  rw [hlast] at htwo
  rw [hpush, hpush]
  simp [Framing.deliver, hone, htwo, hlast]

end Dolgate.CoreFraming
