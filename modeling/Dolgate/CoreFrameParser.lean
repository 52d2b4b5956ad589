import Mathlib
import Dolgate.CoreFraming

set_option autoImplicit false

namespace Dolgate.CoreFraming

open Framing (Next Decoder)

/-! The wire format. -/

def wire (frame : Frame) : Bytes :=
  frame.kind :: (putUint32 frame.metadata.length ++ putUint32 frame.payload.length ++
    (frame.metadata ++ frame.payload))

def Fits (frame : Frame) : Prop := frame.metadata.length < 2 ^ 32 ∧ frame.payload.length < 2 ^ 32

@[simp] theorem length_putUint32 (n : Nat) : (putUint32 n).length = 4 := rfl

theorem uint32_putUint32 {n : Nat} (h : n < 2 ^ 32) : uint32 (putUint32 n) = n := by
  simp only [uint32, putUint32, List.foldl_cons, List.foldl_nil, UInt8.toNat_ofNat']
  omega

theorem uint32_lt {bs : Bytes} (h : bs.length = 4) : uint32 bs < 2 ^ 32 := by
  obtain ⟨a, b, c, d, rfl⟩ := List.length_eq_four.mp h
  have ha := a.toNat_lt
  have hb := b.toNat_lt
  have hc := c.toNat_lt
  have hd := d.toNat_lt
  simp only [uint32, List.foldl_cons, List.foldl_nil]
  omega

theorem putUint32_uint32 {bs : Bytes} (h : bs.length = 4) : putUint32 (uint32 bs) = bs := by
  obtain ⟨a, b, c, d, rfl⟩ := List.length_eq_four.mp h
  have ha := a.toNat_lt
  have hb := b.toNat_lt
  have hc := c.toNat_lt
  have hd := d.toNat_lt
  simp only [uint32, putUint32, List.foldl_cons, List.foldl_nil, List.cons.injEq, and_true,
    ← UInt8.toNat_inj, UInt8.toNat_ofNat']
  omega

theorem length_wire (frame : Frame) :
    (wire frame).length = headerSize + frame.metadata.length + frame.payload.length := by
  simp only [wire, headerSize, List.length_cons, List.length_append, length_putUint32]
  omega

theorem fields_wire {frame : Frame} (h : Fits frame) (rest : Bytes) :
    (wire frame ++ rest)[0]? = some frame.kind ∧
      uint32 (((wire frame ++ rest).drop 1).take 4) = frame.metadata.length ∧
      uint32 (((wire frame ++ rest).drop 5).take 4) = frame.payload.length ∧
      (wire frame ++ rest).drop headerSize = frame.metadata ++ (frame.payload ++ rest) := by
  refine ⟨rfl, ?_, ?_, ?_⟩
  · exact uint32_putUint32 h.1
  · exact uint32_putUint32 h.2
  · simp only [wire, headerSize, putUint32, List.cons_append, List.nil_append, List.drop_succ_cons,
      List.drop_zero, List.append_assoc]

theorem fields_of_header {bs : Bytes} (h : headerSize ≤ bs.length) :
    ∃ kind rest, bs = kind :: (putUint32 (uint32 ((bs.drop 1).take 4)) ++
      putUint32 (uint32 ((bs.drop 5).take 4)) ++ rest) ∧ rest = bs.drop headerSize := by
  cases bs with
  | nil => simp [headerSize] at h
  | cons kind bs =>
      simp only [headerSize, List.length_cons] at h
      refine ⟨kind, bs.drop 8, ?_, rfl⟩
      simp only [List.drop_succ_cons, List.drop_zero]
      rw [putUint32_uint32 (by simp only [List.length_take]; omega),
        putUint32_uint32 (by simp only [List.length_take, List.length_drop]; omega),
        show bs.drop 8 = (bs.drop 4).drop 4 by rw [List.drop_drop],
        List.append_assoc, List.take_append_drop, List.take_append_drop]

theorem exists_wire {bs : Bytes} (h : headerSize ≤ bs.length)
    (hlen : headerSize + uint32 ((bs.drop 1).take 4) + uint32 ((bs.drop 5).take 4) ≤ bs.length) :
    ∃ frame rest, Fits frame ∧ bs = wire frame ++ rest := by
  obtain ⟨kind, rest, hbs, hrest⟩ := fields_of_header h
  generalize hm : uint32 ((bs.drop 1).take 4) = m at *
  generalize hp : uint32 ((bs.drop 5).take 4) = p at *
  have hlenr : rest.length = bs.length - headerSize := by rw [hrest, List.length_drop]
  have hmt : (rest.take m).length = m := by simp only [List.length_take]; omega
  have hpt : ((rest.drop m).take p).length = p := by
    simp only [List.length_take, List.length_drop]
    omega
  simp only [headerSize] at h
  refine ⟨⟨kind, rest.take m, (rest.drop m).take p⟩, (rest.drop m).drop p, ?_, ?_⟩
  · rw [Fits, hmt, hpt, ← hm, ← hp]
    constructor
    · exact uint32_lt (by simp only [List.length_take, List.length_drop]; omega)
    · exact uint32_lt (by simp only [List.length_take, List.length_drop]; omega)
  · simp only [wire, hmt, hpt, List.cons_append, List.append_assoc, List.take_append_drop]
    simpa only [List.append_assoc] using hbs

/-! What the desktop's parser is for: frames read off the front of the bytes at hand. -/

section Format

variable {J : Type} (parse : Bytes → Option J)

open CoreFrameParser (parsedFrame)

def next (bs : Bytes) : Next UInt8 (ParsedFrame J) Error :=
  let metadataLength := uint32 ((bs.drop 1).take 4)
  let payloadLength := uint32 ((bs.drop 5).take 4)
  if bs.length < headerSize then .more
  else if bs.length < headerSize + metadataLength + payloadLength then .more
  else
    match parsedFrame parse (bs.headD 0) ((bs.drop headerSize).take metadataLength)
        ((bs.drop (headerSize + metadataLength)).take payloadLength) with
    | .ok frame => .item frame (bs.drop (headerSize + metadataLength + payloadLength))
    | .error e => .bad e

theorem next_wire {frame : Frame} (h : Fits frame) (rest : Bytes) :
    next parse (wire frame ++ rest) =
      match parsedFrame parse frame.kind frame.metadata frame.payload with
      | .ok parsed => .item parsed rest
      | .error e => .bad e := by
  obtain ⟨-, hm, hp, hrest⟩ := fields_wire h rest
  have hlen : (wire frame ++ rest).length =
      headerSize + frame.metadata.length + frame.payload.length + rest.length := by
    rw [List.length_append, length_wire]
  have hmeta : ((wire frame ++ rest).drop headerSize).take frame.metadata.length =
      frame.metadata := by
    rw [hrest, List.take_left]
  have hbehind : (wire frame ++ rest).drop (headerSize + frame.metadata.length) =
      frame.payload ++ rest := by
    rw [← List.drop_drop, hrest, List.drop_left]
  have hpay : ((wire frame ++ rest).drop (headerSize + frame.metadata.length)).take
      frame.payload.length = frame.payload := by
    rw [hbehind, List.take_left]
  have hleft : (wire frame ++ rest).drop
      (headerSize + frame.metadata.length + frame.payload.length) = rest := by
    rw [← List.drop_drop, hbehind, List.drop_left]
  simp only [next, hm, hp, hmeta, hpay, hleft]
  rw [if_neg (by omega), if_neg (by omega)]
  rfl

theorem exists_wire_of_next {bs : Bytes} (h : next parse bs ≠ .more) :
    ∃ frame rest, Fits frame ∧ bs = wire frame ++ rest := by
  have hh : ¬ bs.length < headerSize := fun hlt => h (by simp only [next, if_pos hlt])
  have hl : ¬ bs.length < headerSize + uint32 ((bs.drop 1).take 4) +
      uint32 ((bs.drop 5).take 4) :=
    fun hlt => h (by simp only [next, if_neg hh, if_pos hlt])
  exact exists_wire (by omega) (by omega)

theorem next_item {bs rest : Bytes} {parsed : ParsedFrame J}
    (h : next parse bs = .item parsed rest) :
    ∃ frame, Fits frame ∧ bs = wire frame ++ rest ∧
      parsedFrame parse frame.kind frame.metadata frame.payload = .ok parsed := by
  have hne : next parse bs ≠ .more := by simp [h]
  obtain ⟨frame, left, hfits, rfl⟩ := exists_wire_of_next parse hne
  rw [next_wire parse hfits] at h
  split at h
  · next hp =>
      cases h
      exact ⟨frame, hfits, rfl, hp⟩
  · cases h

theorem next_bad {bs : Bytes} {e : Error} (h : next parse bs = .bad e) :
    ∃ frame rest, Fits frame ∧ bs = wire frame ++ rest ∧
      parsedFrame parse frame.kind frame.metadata frame.payload = .error e := by
  have hne : next parse bs ≠ .more := by simp [h]
  obtain ⟨frame, left, hfits, rfl⟩ := exists_wire_of_next parse hne
  rw [next_wire parse hfits] at h
  split at h
  · cases h
  · next hp =>
      cases h
      exact ⟨frame, left, hfits, rfl, hp⟩

def decoder : Decoder UInt8 (ParsedFrame J) Error where
  next := next parse
  next_nil := rfl
  item_append := by
    intro bs x rest h
    obtain ⟨frame, hfits, rfl, hp⟩ := next_item parse h
    exact ⟨wire frame, List.cons_ne_nil _ _, rfl, fun tail => by rw [next_wire parse hfits, hp]⟩
  bad_append := by
    intro bs e h tail
    obtain ⟨frame, rest, hfits, rfl, hp⟩ := next_bad parse h
    rw [List.append_assoc, next_wire parse hfits, hp]

end Format

/-! The buffer of `CoreFrameParser`. -/

theorem length_copy {source target : Bytes} {offset : Nat}
    (h : offset + source.length ≤ target.length) :
    (copy source target offset).length = target.length := by
  simp only [copy, List.length_append, List.length_take, List.length_drop]
  omega

theorem take_copy {source target : Bytes} {offset : Nat}
    (h : offset + source.length ≤ target.length) :
    (copy source target offset).take (offset + source.length) = target.take offset ++ source := by
  have hs : source.take (target.length - offset) = source := List.take_of_length_le (by omega)
  rw [copy, hs]
  exact List.take_left' (by simp only [List.length_append, List.length_take]; omega)

theorem subarray_copy {source target : Bytes} {start offset : Nat} (hs : start ≤ offset)
    (h : offset + source.length ≤ target.length) :
    subarray (copy source target offset) start (offset + source.length) =
      subarray target start offset ++ source := by
  rw [subarray, take_copy h, subarray, List.drop_append_of_le_length]
  simp only [List.length_take]
  omega

@[simp] theorem length_allocUnsafe (memory : Memory) (k n : Nat) :
    (allocUnsafe memory k n).length = n := by
  simp [allocUnsafe]

theorem length_subarray {bytes : Bytes} {start stop : Nat} (h : stop ≤ bytes.length) :
    (subarray bytes start stop).length = stop - start := by
  simp only [subarray, List.length_drop, List.length_take]
  omega

namespace CoreFrameParser

structure Ordered (p : CoreFrameParser) : Prop where
  start_le : p.start ≤ p.stop
  stop_le : p.stop ≤ p.buffer.length
  nonempty : 0 < p.buffer.length

def pending (p : CoreFrameParser) : Bytes := subarray p.buffer p.start p.stop

theorem Ordered.length_pending {p : CoreFrameParser} (h : p.Ordered) :
    p.pending.length = p.stop - p.start := length_subarray h.stop_le

theorem le_double {fuel capacity needed : Nat} (hc : 0 < capacity) (hf : needed ≤ fuel + capacity) :
    needed ≤ double fuel capacity needed := by
  induction fuel generalizing capacity with
  | zero => simpa [double] using hf
  | succ fuel ih =>
      rw [double]
      split
      · exact ih (by omega) (by omega)
      · omega

variable {J : Type} (memory : Memory) (parse : Bytes → Option J)

theorem ordered_new : (new memory).Ordered :=
  ⟨Nat.le_refl _, Nat.zero_le _, by
    simp only [new, length_allocUnsafe, initialCapacity]
    omega⟩

theorem pending_new : (new memory).pending = [] := by
  simp [pending, new, subarray]

theorem Ordered.moved {p : CoreFrameParser} (h : p.Ordered) {target : Bytes} (k : Nat)
    (hfit : p.stop - p.start ≤ target.length) (hpos : 0 < target.length) :
    Ordered ⟨copy (subarray p.buffer p.start p.stop) target 0, 0, p.stop - p.start, k⟩ ∧
      pending ⟨copy (subarray p.buffer p.start p.stop) target 0, 0, p.stop - p.start, k⟩ =
        p.pending ∧
      (copy (subarray p.buffer p.start p.stop) target 0).length = target.length := by
  have hlen : (subarray p.buffer p.start p.stop).length = p.stop - p.start := h.length_pending
  have hbuf := length_copy (show 0 + (subarray p.buffer p.start p.stop).length ≤ target.length by
    omega)
  have hsub := subarray_copy (Nat.le_refl 0)
    (show 0 + (subarray p.buffer p.start p.stop).length ≤ target.length by omega)
  rw [Nat.zero_add, hlen] at hsub
  refine ⟨⟨Nat.zero_le _, ?_, ?_⟩, ?_, hbuf⟩
  · rw [hbuf]
    exact hfit
  · rw [hbuf]
    exact hpos
  · exact hsub.trans (by simp [subarray, pending])

theorem makeRoom_spec {p : CoreFrameParser} (h : p.Ordered) (length : Nat) :
    (makeRoom memory p length).Ordered ∧ (makeRoom memory p length).pending = p.pending ∧
      (makeRoom memory p length).stop + length ≤ (makeRoom memory p length).buffer.length := by
  have hstart := h.start_le
  have hstop := h.stop_le
  have hpos := h.nonempty
  rw [makeRoom]
  split
  · next hgt =>
      have hroom : p.stop - p.start + length ≤ double (p.stop - p.start + length) p.buffer.length
          (p.stop - p.start + length) := le_double hpos (Nat.le_add_right _ _)
      have hcap := length_allocUnsafe memory p.allocated
        (double (p.stop - p.start + length) p.buffer.length (p.stop - p.start + length))
      obtain ⟨hord, hpend, hbuf⟩ := h.moved (p.allocated + 1) (by rw [hcap]; omega)
        (by rw [hcap]; omega)
      refine ⟨hord, hpend, ?_⟩
      rw [hbuf, hcap]
      exact hroom
  · split
    · obtain ⟨hord, hpend, hbuf⟩ := h.moved p.allocated
        (show p.stop - p.start ≤ p.buffer.length by omega) hpos
      refine ⟨hord, hpend, ?_⟩
      rw [hbuf]
      simp only
      omega
    · exact ⟨h, rfl, by omega⟩

theorem append_spec {p : CoreFrameParser} (h : p.Ordered) (chunk : Bytes) :
    (append memory p chunk).Ordered ∧
      (append memory p chunk).pending = p.pending ++ chunk := by
  obtain ⟨hord, hpend, hroom⟩ := makeRoom_spec memory h chunk.length
  have hbuf := length_copy hroom
  refine ⟨⟨?_, ?_, ?_⟩, ?_⟩
  · exact Nat.le_trans hord.start_le (Nat.le_add_right _ _)
  · exact Nat.le_trans hroom (Nat.le_of_eq hbuf.symm)
  · exact Nat.lt_of_lt_of_le hord.nonempty (Nat.le_of_eq hbuf.symm)
  · rw [← hpend]
    exact subarray_copy hord.start_le hroom

theorem reclaim_spec {p : CoreFrameParser} (h : p.Ordered) :
    (reclaim memory p).Ordered ∧ (reclaim memory p).pending = p.pending := by
  rw [reclaim]
  split
  · exact ⟨h, rfl⟩
  · next heq =>
      have hempty : p.pending = [] := by
        rw [← List.length_eq_zero_iff, h.length_pending]
        omega
      split
      · refine ⟨⟨Nat.le_refl _, Nat.zero_le _, ?_⟩, ?_⟩
        · simp [initialCapacity]
        · rw [hempty]
          simp [pending, subarray]
      · exact ⟨⟨Nat.le_refl _, Nat.zero_le _, h.nonempty⟩, by
          rw [hempty]
          simp [pending, subarray]⟩

theorem subarray_pending {p : CoreFrameParser} {i j : Nat} (h : p.start + j ≤ p.stop) :
    subarray p.buffer (p.start + i) (p.start + j) = (p.pending.drop i).take (j - i) := by
  simp only [subarray, pending, List.drop_take, List.drop_drop, List.take_take]
  congr 1
  omega

theorem readUInt8_pending {p : CoreFrameParser} (h : p.Ordered) (hlt : p.start < p.stop) :
    readUInt8 p.buffer p.start = .ok (p.pending.headD 0) := by
  have hstart : p.start < p.buffer.length := hlt.trans_le h.stop_le
  have hget : p.buffer[p.start]? = some p.buffer[p.start] := List.getElem?_eq_getElem hstart
  have hhead : p.pending.headD 0 = p.buffer[p.start] := by
    rw [List.headD_eq_head?_getD, List.head?_eq_getElem?, pending, subarray,
      List.getElem?_drop, List.getElem?_take_of_lt (by omega), Nat.add_zero, hget, Option.getD_some]
  rw [readUInt8, hget, hhead]

theorem readUInt32BE_pending {p : CoreFrameParser} (h : p.Ordered) {i : Nat}
    (hle : p.start + (i + 4) ≤ p.stop) :
    readUInt32BE p.buffer (p.start + i) = .ok (uint32 ((p.pending.drop i).take 4)) := by
  have hstop := h.stop_le
  rw [readUInt32BE, if_pos (by omega), Nat.add_assoc, subarray_pending hle,
    show i + 4 - i = 4 by omega]

theorem takeFrame_spec {p : CoreFrameParser} (h : p.Ordered) :
    match next parse p.pending with
    | .more => takeFrame parse p = .ok none
    | .item frame rest =>
        ∃ p', takeFrame parse p = .ok (some (frame, p')) ∧ p'.Ordered ∧ p'.pending = rest
    | .bad e => takeFrame parse p = .error e := by
  have hlen := h.length_pending
  have hstart := h.start_le
  have hstop := h.stop_le
  by_cases hh : p.stop - p.start < headerSize
  · simp only [next, takeFrame, hlen, if_pos hh]
  · have hnine : headerSize = 9 := rfl
    have hkind := readUInt8_pending h (by omega)
    have hm := readUInt32BE_pending h (show p.start + (1 + 4) ≤ p.stop by omega)
    have hl := readUInt32BE_pending h (show p.start + (5 + 4) ≤ p.stop by omega)
    simp only [next, takeFrame, hlen, if_neg hh, hkind, hm, hl]
    generalize uint32 ((p.pending.drop 1).take 4) = m
    generalize uint32 ((p.pending.drop 5).take 4) = l
    by_cases ht : p.stop - p.start < headerSize + m + l
    · simp only [if_pos ht, bind, Except.bind, pure, Except.pure]
    · have hmeta : subarray p.buffer (p.start + headerSize) (p.start + headerSize + m) =
          (p.pending.drop headerSize).take m := by
        rw [Nat.add_assoc, subarray_pending (by omega), Nat.add_sub_cancel_left]
      have hpay : subarray p.buffer (p.start + headerSize + m) (p.start + headerSize + m + l) =
          (p.pending.drop (headerSize + m)).take l := by
        rw [Nat.add_assoc p.start, Nat.add_assoc p.start, subarray_pending (by omega),
          Nat.add_sub_cancel_left]
      simp only [if_neg ht, hmeta, hpay, bind, Except.bind, pure, Except.pure]
      cases parsedFrame parse (p.pending.headD 0) ((p.pending.drop headerSize).take m)
          ((p.pending.drop (headerSize + m)).take l) with
      | error e => rfl
      | ok frame =>
          refine ⟨_, rfl, ⟨?_, hstop, h.nonempty⟩, ?_⟩
          · simp only
            omega
          · simp only [pending, subarray, List.drop_drop, Nat.add_assoc]

theorem takeFrames_spec {fuel : Nat} {p : CoreFrameParser} (h : p.Ordered)
    (hfuel : p.pending.length ≤ fuel) (frames : List (ParsedFrame J)) :
    match Framing.scan (decoder parse) p.pending with
    | (parsed, rest, none) =>
        ∃ p', takeFrames parse fuel p frames = (.ok (frames ++ parsed), p') ∧ p'.Ordered ∧
          p'.pending = rest
    | (_, _, some e) => ∃ p', takeFrames parse fuel p frames = (.error e, p') := by
  induction fuel generalizing p frames with
  | zero =>
      have hempty : p.pending = [] := List.length_eq_zero_iff.mp (by omega)
      have hmore : (decoder parse).next p.pending = .more := by rw [hempty]; rfl
      rw [Framing.scan_more hmore]
      exact ⟨p, by simp [takeFrames], h, rfl⟩
  | succ fuel ih =>
      have hstep := takeFrame_spec parse h
      cases hn : next parse p.pending with
      | more =>
          rw [hn] at hstep
          rw [Framing.scan_more (d := decoder parse) hn]
          exact ⟨p, by simp [takeFrames, hstep], h, rfl⟩
      | bad e =>
          rw [hn] at hstep
          rw [Framing.scan_bad (d := decoder parse) hn]
          exact ⟨p, by simp [takeFrames, hstep]⟩
      | item frame rest =>
          rw [hn] at hstep
          obtain ⟨p', htake, hord, hpend⟩ := hstep
          have hshort := (decoder parse).shorter hn
          rw [← hpend] at hshort
          have hrec := ih hord (by omega) (frames ++ [frame])
          rw [Framing.scan_item (d := decoder parse) hn]
          rw [hpend] at hrec
          simp only [takeFrames, htake]
          split at hrec
          · next hs => simpa [hs] using hrec
          · next hs => simpa [hs] using hrec

theorem push_spec {p : CoreFrameParser} (h : p.Ordered) (chunk : Bytes) :
    match Framing.scan (decoder parse) (p.pending ++ chunk) with
    | (parsed, rest, none) =>
        ∃ p', push memory parse p chunk = (.ok parsed, p') ∧ p'.Ordered ∧ p'.pending = rest
    | (_, _, some e) => ∃ p', push memory parse p chunk = (.error e, p') := by
  obtain ⟨hord, hpend⟩ := append_spec memory h chunk
  have hloop := takeFrames_spec parse hord (Nat.le_of_eq hord.length_pending) []
  rw [hpend] at hloop
  split at hloop
  · next hs =>
      obtain ⟨p', htake, hord', rfl⟩ := hloop
      obtain ⟨hord'', hpend''⟩ := reclaim_spec memory hord'
      exact ⟨reclaim memory p', by simp [push, htake], hord'', hpend''⟩
  · next hs =>
      obtain ⟨p', htake⟩ := hloop
      exact ⟨p', by simp [push, htake]⟩

theorem pushAll_eq {p : CoreFrameParser} (h : p.Ordered) (chunks : List Bytes) :
    pushAll memory parse p chunks = Framing.deliver (decoder parse) p.pending chunks := by
  induction chunks generalizing p with
  | nil => rfl
  | cons chunk chunks ih =>
      have hpush := push_spec memory parse h chunk
      rw [pushAll, Framing.deliver]
      split at hpush
      · next hs =>
          obtain ⟨p', hp, hord, rfl⟩ := hpush
          simp only [hp, hs, ih hord]
      · next hs =>
          obtain ⟨p', hp⟩ := hpush
          simp only [hp, hs]

end CoreFrameParser

end Dolgate.CoreFraming
