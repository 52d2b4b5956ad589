import Mathlib
import Dolgate.GroupPaths

set_option autoImplicit false

/-! The base64 that the clients share. Numbers are 32 bits wide where they are shifted. -/

namespace Dolgate.SharedBase64

open GroupPaths

def alphabet : Text :=
  "ABCDEFGHIJKLMNOPQRSTUVWXYZabcdefghijklmnopqrstuvwxyz0123456789+/".toList.map fun c =>
    UInt16.ofNat c.toNat

def pad : UInt16 := 61

/-- The index of each letter, and `-1` for the other codes. -/
def lookup : Nat → Int :=
  alphabet.zipIdx.foldl (fun lookup letter code =>
    if code = letter.1.toNat then (letter.2 : Int) else lookup code) fun _ => -1

def letter (index : Nat) : UInt16 := alphabet.getD index 0

/-! ### Encoding -/

def quantum (byte0 : UInt8) (byte1 byte2 : Option UInt8) : Text :=
  let b0 := byte0.toNat
  let b1 := (byte1.getD 0).toNat
  let b2 := (byte2.getD 0).toNat
  [letter (b0 >>> 2),
    letter (((b0 &&& 0x03) <<< 4) ||| (b1 >>> 4)),
    if byte1.isSome then letter (((b1 &&& 0x0f) <<< 2) ||| (b2 >>> 6)) else pad,
    if byte2.isSome then letter (b2 &&& 0x3f) else pad]

def bytesToBase64 : List UInt8 → Text
  | [] => []
  | [byte0] => quantum byte0 none none
  | [byte0, byte1] => quantum byte0 (some byte1) none
  | byte0 :: byte1 :: byte2 :: bytes =>
    quantum byte0 (some byte1) (some byte2) ++ bytesToBase64 bytes

/-! ### Decoding -/

structure Decoding where
  bytes : List UInt8
  byteIndex : Nat := 0
  buffer : BitVec 32 := 0
  bitsCollected : Nat := 0
  deriving DecidableEq, Repr

def sextetOf (code : UInt16) : Int := if code.toNat < 128 then lookup code.toNat else -1

/-- One character; `none` where it is thrown. A byte behind the end of an array is not written. -/
def Decoding.step (decoding : Decoding) (code : UInt16) : Option Decoding :=
  let sextet := sextetOf code
  if sextet < 0 then none
  else
    let buffer := (decoding.buffer <<< 6) ||| BitVec.ofInt 32 sextet
    let bitsCollected := decoding.bitsCollected + 6
    if 8 ≤ bitsCollected then
      let byte := (buffer.sshiftRight (bitsCollected - 8)) &&& 0xff
      some
        { bytes := decoding.bytes.set decoding.byteIndex (UInt8.ofNat byte.toNat)
          byteIndex := decoding.byteIndex + 1
          buffer, bitsCollected := bitsCollected - 8 }
    else some { decoding with buffer, bitsCollected }

def unpadded (value : Text) : Text :=
  (value.filter fun c => !isSpace c).rdropWhile fun c => c = pad

def base64ToBytes (value : Text) : Option (List UInt8) := do
  let text := unpadded value
  if text.length % 4 = 1 then none
  let decoding ← text.foldlM Decoding.step { bytes := List.replicate (text.length * 3 / 4) 0 }
  return decoding.bytes

/-! ### Letters -/

theorem sextetOf_letter {index : Nat} (h : index < 64) : sextetOf (letter index) = index := by
  have hall : ∀ i : Fin 64, sextetOf (letter i) = (i.val : Int) := by decide +kernel
  exact hall ⟨index, h⟩

theorem letter_of_sextetOf {code : UInt16} (h : 0 ≤ sextetOf code) :
    ∃ index, index < 64 ∧ letter index = code ∧ sextetOf code = index := by
  have hall : ∀ i : Fin 128, 0 ≤ lookup i →
      (lookup i).toNat < 64 ∧ letter (lookup i).toNat = UInt16.ofNat i := by decide +kernel
  unfold sextetOf at h ⊢
  by_cases hcode : code.toNat < 128
  · rw [if_pos hcode] at h ⊢
    obtain ⟨hlt, hletter⟩ := hall ⟨code.toNat, hcode⟩ h
    refine ⟨(lookup code.toNat).toNat, hlt, ?_, (Int.toNat_of_nonneg h).symm⟩
    rw [hletter, UInt16.ofNat_toNat]
  · rw [if_neg hcode] at h
    exact absurd h (by decide)

theorem letter_mem {index : Nat} (h : index < 64) : letter index ∈ alphabet := by
  have hall : ∀ i : Fin 64, letter i ∈ alphabet := by decide +kernel
  exact hall ⟨index, h⟩

theorem exists_letter {code : UInt16} (h : code ∈ alphabet) :
    ∃ index, index < 64 ∧ letter index = code := by
  obtain ⟨index, hindex, hget⟩ := List.mem_iff_getElem.mp h
  refine ⟨index, hindex, ?_⟩
  rw [letter, List.getD_eq_getElem _ _ hindex, hget]

theorem sextetOf_nonneg_iff {code : UInt16} : 0 ≤ sextetOf code ↔ code ∈ alphabet := by
  constructor
  · intro h
    obtain ⟨index, hindex, rfl, -⟩ := letter_of_sextetOf h
    exact letter_mem hindex
  · intro h
    obtain ⟨index, hindex, rfl⟩ := exists_letter h
    rw [sextetOf_letter hindex]
    exact Int.natCast_nonneg index

theorem letter_calm {index : Nat} (h : index < 64) :
    isSpace (letter index) = false ∧ letter index ≠ pad := by
  have hall : ∀ i : Fin 64, isSpace (letter i) = false ∧ letter i ≠ pad := by decide +kernel
  exact hall ⟨index, h⟩

/-! ### Bits -/

theorem toNat_push {buffer : BitVec 32} {sextet : Nat} (h : sextet < 64) :
    ((buffer <<< 6) ||| BitVec.ofInt 32 sextet).toNat =
      (buffer.toNat * 64 + sextet) % 2 ^ 32 := by
  have hsextet : (BitVec.ofInt 32 sextet).toNat = sextet := by
    rw [BitVec.toNat_ofInt]
    omega
  have hshift : (buffer <<< 6).toNat = (buffer.toNat % 2 ^ 26) <<< 6 := by
    rw [BitVec.toNat_shiftLeft, Nat.shiftLeft_eq, Nat.shiftLeft_eq]
    omega
  rw [BitVec.toNat_or, hsextet, hshift, ← Nat.shiftLeft_add_eq_or_of_lt (by omega),
    Nat.shiftLeft_eq]
  omega

theorem toNat_pick {buffer : BitVec 32} {bits : Nat} (h : bits ≤ 24) :
    ((buffer.sshiftRight bits) &&& 0xff).toNat = buffer.toNat / 2 ^ bits % 256 := by
  have hsame : (buffer.sshiftRight bits) &&& 0xff = (buffer >>> bits) &&& 0xff := by
    ext i hi
    rw [BitVec.getElem_and, BitVec.getElem_and]
    by_cases hlow : i < 8
    · rw [BitVec.getElem_sshiftRight, BitVec.getElem_ushiftRight, dif_pos (by omega)]
      rw [BitVec.getLsbD_eq_getElem]
    · have hall : ∀ j : Fin 32, ¬ j.val < 8 → (0xff : BitVec 32).getLsbD j = false := by decide
      have hzero : (0xff : BitVec 32)[i] = false := hall ⟨i, hi⟩ hlow
      rw [hzero, Bool.and_false, Bool.and_false]
  rw [hsame, BitVec.toNat_and, BitVec.toNat_ushiftRight, Nat.shiftRight_eq_div_pow]
  exact Nat.and_two_pow_sub_one_eq_mod _ 8

/-- The bytes in a row of sextets, of which `kept` has the last `bits` bits of what went before. -/
def unpack : Nat → Nat → List Nat → List UInt8
  | _, _, [] => []
  | bits, kept, sextet :: sextets =>
    let all := kept * 64 + sextet
    if 8 ≤ bits + 6 then
      UInt8.ofNat (all / 2 ^ (bits - 2)) :: unpack (bits - 2) (all % 2 ^ (bits - 2)) sextets
    else unpack (bits + 6) all sextets

theorem step_letter {bytes : List UInt8} {byteIndex bits sextet : Nat} {buffer : BitVec 32}
    (hsextet : sextet < 64) (hbits : bits < 8) :
    ∃ buffer' : BitVec 32, Decoding.step ⟨bytes, byteIndex, buffer, bits⟩ (letter sextet) = some
        (if 8 ≤ bits + 6 then
          ⟨bytes.set byteIndex
            (UInt8.ofNat ((buffer.toNat % 2 ^ bits * 64 + sextet) / 2 ^ (bits - 2))),
            byteIndex + 1, buffer', bits - 2⟩
        else ⟨bytes, byteIndex, buffer', bits + 6⟩) ∧
      buffer'.toNat % 2 ^ (if 8 ≤ bits + 6 then bits - 2 else bits + 6) =
        (buffer.toNat % 2 ^ bits * 64 + sextet) %
          2 ^ (if 8 ≤ bits + 6 then bits - 2 else bits + 6) := by
  have hpush := @toNat_push buffer sextet hsextet
  refine ⟨(buffer <<< 6) ||| BitVec.ofInt 32 sextet, ?_, ?_⟩
  · rw [Decoding.step, sextetOf_letter hsextet, if_neg (by omega)]
    dsimp only
    split
    · have hbits' : bits + 6 - 8 = bits - 2 := by omega
      have hbyte : (((buffer <<< 6) ||| BitVec.ofInt 32 sextet).sshiftRight (bits - 2) &&& 0xff).toNat =
          (buffer.toNat % 2 ^ bits * 64 + sextet) / 2 ^ (bits - 2) := by
        rw [toNat_pick (by omega), hpush]
        interval_cases bits <;> omega
      rw [hbits', hbyte]
    · rfl
  · rw [hpush]
    by_cases hbyte : 8 ≤ bits + 6
    · rw [if_pos hbyte]
      interval_cases bits <;> omega
    · rw [if_neg hbyte]
      interval_cases bits <;> omega

theorem foldlM_letters {sextets : List Nat} {done : List UInt8} {room bits : Nat}
    {buffer : BitVec 32} (hsextets : ∀ sextet ∈ sextets, sextet < 64) (hbits : bits < 8)
    (hroom : room = (6 * sextets.length + bits) / 8) :
    ∃ decoding, (sextets.map letter).foldlM Decoding.step
        ⟨done ++ List.replicate room 0, done.length, buffer, bits⟩ = some decoding ∧
      decoding.bytes = done ++ unpack bits (buffer.toNat % 2 ^ bits) sextets := by
  induction sextets generalizing done room bits buffer with
  | nil =>
    refine ⟨_, rfl, ?_⟩
    rw [hroom, List.length_nil, Nat.mul_zero, Nat.zero_add, Nat.div_eq_of_lt hbits]
    rfl
  | cons sextet sextets ih =>
    obtain ⟨hfirst, hrest⟩ := List.forall_mem_cons.mp hsextets
    obtain ⟨buffer', hstep, hkept⟩ := @step_letter (done ++ List.replicate room 0) done.length bits
      sextet buffer hfirst hbits
    rw [List.length_cons] at hroom
    rw [List.map_cons, List.foldlM_cons, hstep, unpack]
    by_cases hbyte : 8 ≤ bits + 6
    · rw [if_pos hbyte] at hkept ⊢
      rw [if_pos hbyte]
      obtain ⟨decoding, hrun, hbytes⟩ := @ih
        (done ++ [UInt8.ofNat ((buffer.toNat % 2 ^ bits * 64 + sextet) / 2 ^ (bits - 2))]) (room - 1)
        (bits - 2) buffer' hrest (by omega) (by omega)
      have hset : (done ++ List.replicate room 0).set done.length
          (UInt8.ofNat ((buffer.toNat % 2 ^ bits * 64 + sextet) / 2 ^ (bits - 2))) =
          done ++ [UInt8.ofNat ((buffer.toNat % 2 ^ bits * 64 + sextet) / 2 ^ (bits - 2))] ++
            List.replicate (room - 1) 0 := by
        obtain ⟨left, rfl⟩ : ∃ left, room = left + 1 := ⟨room - 1, by omega⟩
        rw [List.set_append_right _ _ le_rfl, Nat.sub_self, List.replicate_succ, List.set_cons_zero,
          List.append_assoc, List.singleton_append]
        rfl
      refine ⟨decoding, ?_, ?_⟩
      · rw [Option.bind_eq_bind, Option.bind_some, hset]
        rw [List.length_append, List.length_singleton] at hrun
        exact hrun
      · rw [hbytes, hkept, List.append_assoc, List.singleton_append]
    · rw [if_neg hbyte] at hkept ⊢
      rw [if_neg hbyte]
      obtain ⟨decoding, hrun, hbytes⟩ := @ih done room (bits + 6) buffer' hrest (by omega) (by omega)
      refine ⟨decoding, hrun, ?_⟩
      have hall : (buffer.toNat % 2 ^ bits * 64 + sextet) % 2 ^ (bits + 6) =
          buffer.toNat % 2 ^ bits * 64 + sextet := by
        apply Nat.mod_eq_of_lt
        have hlt := Nat.mod_lt buffer.toNat (Nat.two_pow_pos bits)
        rw [Nat.pow_add]
        omega
      rw [hbytes, hkept, hall]

/-! ### Both ways -/

theorem joined_bits {high low k m : Nat} (h : low < 2 ^ k) :
    ((high &&& (2 ^ m - 1)) <<< k) ||| low = high % 2 ^ m * 2 ^ k + low := by
  rw [Nat.and_two_pow_sub_one_eq_mod, ← Nat.shiftLeft_add_eq_or_of_lt h, Nat.shiftLeft_eq]

theorem quantum_eq (byte0 : UInt8) (byte1 byte2 : Option UInt8) :
    quantum byte0 byte1 byte2 =
      [letter (byte0.toNat / 4), letter (byte0.toNat % 4 * 16 + (byte1.getD 0).toNat / 16),
        if byte1.isSome then letter ((byte1.getD 0).toNat % 16 * 4 + (byte2.getD 0).toNat / 64)
        else pad,
        if byte2.isSome then letter ((byte2.getD 0).toNat % 64) else pad] := by
  have hfirst : byte0.toNat >>> 2 = byte0.toNat / 4 := Nat.shiftRight_eq_div_pow _ 2
  have hsecond : ∀ b1 : UInt8, ((byte0.toNat &&& 0x03) <<< 4) ||| (b1.toNat >>> 4) =
      byte0.toNat % 4 * 16 + b1.toNat / 16 := by
    intro b1
    have h1 := b1.toNat_lt
    rw [Nat.shiftRight_eq_div_pow]
    exact @joined_bits _ _ 4 2 (by omega)
  have hthird : ∀ b1 b2 : UInt8, ((b1.toNat &&& 0x0f) <<< 2) ||| (b2.toNat >>> 6) =
      b1.toNat % 16 * 4 + b2.toNat / 64 := by
    intro b1 b2
    have h2 := b2.toNat_lt
    rw [Nat.shiftRight_eq_div_pow]
    exact @joined_bits _ _ 2 4 (by omega)
  have hfourth : ∀ b2 : UInt8, b2.toNat &&& 0x3f = b2.toNat % 64 := fun b2 =>
    Nat.and_two_pow_sub_one_eq_mod b2.toNat 6
  rw [quantum, hfirst, hsecond, hthird, hfourth]

theorem unpack_four (a b c d : Nat) (rest : List Nat) :
    unpack 0 0 (a :: b :: c :: d :: rest) =
      UInt8.ofNat ((a * 64 + b) / 16) :: UInt8.ofNat (((a * 64 + b) % 16 * 64 + c) / 4) ::
        UInt8.ofNat (((a * 64 + b) % 16 * 64 + c) % 4 * 64 + d) :: unpack 0 0 rest := by
  simp only [unpack, Nat.zero_mul, Nat.zero_add, Nat.reduceLeDiff, if_true, if_false,
    Nat.reduceAdd, Nat.reduceSub, Nat.reducePow, Nat.div_one, Nat.mod_one]

theorem ofNat_eq {n : Nat} {byte : UInt8} (h : n = byte.toNat) : UInt8.ofNat n = byte := by
  rw [h, UInt8.ofNat_toNat]

theorem bytesToBase64_eq (bytes : List UInt8) : ∃ sextets padding,
    bytesToBase64 bytes = sextets.map letter ++ List.replicate padding pad ∧
      (∀ sextet ∈ sextets, sextet < 64) ∧ sextets.length % 4 ≠ 1 ∧ unpack 0 0 sextets = bytes := by
  induction bytes using bytesToBase64.induct with
  | case1 => exact ⟨[], 0, rfl, by simp, by decide, rfl⟩
  | case2 byte0 =>
    have h0 := byte0.toNat_lt
    have htext := quantum_eq byte0 none none
    rw [Option.getD_none, UInt8.toNat_zero, Nat.zero_div, Nat.add_zero] at htext
    refine ⟨[byte0.toNat / 4, byte0.toNat % 4 * 16], 2, htext, ?_, (by simp), ?_⟩
    · simp only [List.mem_cons, List.not_mem_nil, or_false]
      rintro sextet (rfl | rfl)
      · omega
      · omega
    · exact congrArg (· :: []) (ofNat_eq (by omega))
  | case3 byte0 byte1 =>
    have h0 := byte0.toNat_lt
    have h1 := byte1.toNat_lt
    have htext := quantum_eq byte0 (some byte1) none
    rw [Option.getD_some, Option.getD_none, UInt8.toNat_zero, Nat.zero_div, Nat.add_zero] at htext
    refine ⟨[byte0.toNat / 4, byte0.toNat % 4 * 16 + byte1.toNat / 16, byte1.toNat % 16 * 4], 1,
      htext, ?_, (by simp), ?_⟩
    · simp only [List.mem_cons, List.not_mem_nil, or_false]
      rintro sextet (rfl | rfl | rfl)
      · omega
      · omega
      · omega
    · exact congrArg₂ (· :: · :: []) (ofNat_eq (by omega)) (ofNat_eq (by omega))
  | case4 byte0 byte1 byte2 bytes ih =>
    obtain ⟨sextets, padding, htext, hsextets, hlength, hunpack⟩ := ih
    have h0 := byte0.toNat_lt
    have h1 := byte1.toNat_lt
    have h2 := byte2.toNat_lt
    refine ⟨byte0.toNat / 4 :: (byte0.toNat % 4 * 16 + byte1.toNat / 16) ::
      (byte1.toNat % 16 * 4 + byte2.toNat / 64) :: byte2.toNat % 64 :: sextets, padding, ?_, ?_, ?_, ?_⟩
    · rw [bytesToBase64, quantum_eq, htext]
      rfl
    · simp only [List.mem_cons]
      rintro sextet (rfl | rfl | rfl | rfl | hmem)
      · omega
      · omega
      · omega
      · omega
      · exact hsextets sextet hmem
    · simp only [List.length_cons]
      omega
    · rw [unpack_four, hunpack, @ofNat_eq _ byte0 (by omega), @ofNat_eq _ byte1 (by omega),
        @ofNat_eq _ byte2 (by omega)]

theorem unpadded_letters {sextets : List Nat} (h : ∀ sextet ∈ sextets, sextet < 64) (padding : Nat) :
    unpadded (sextets.map letter ++ List.replicate padding pad) = sextets.map letter := by
  have hpad : isSpace pad = false := by decide
  have hkept : (sextets.map letter ++ List.replicate padding pad).filter (fun c => !isSpace c) =
      sextets.map letter ++ List.replicate padding pad := by
    rw [List.filter_eq_self]
    intro c hc
    rcases List.mem_append.mp hc with hc | hc
    · obtain ⟨sextet, hsextet, rfl⟩ := List.mem_map.mp hc
      rw [(letter_calm (h sextet hsextet)).1]
      rfl
    · rw [List.eq_of_mem_replicate hc, hpad]
      rfl
  rw [unpadded, hkept]
  induction padding with
  | zero =>
    rw [List.replicate_zero, List.append_nil, List.rdropWhile_eq_self_iff]
    intro hne hlast
    obtain ⟨sextet, hsextet, heq⟩ := List.mem_map.mp (List.getLast_mem hne)
    rw [← heq] at hlast
    exact (letter_calm (h sextet hsextet)).2 (of_decide_eq_true hlast)
  | succ padding ih =>
    have hlast : decide (pad = pad) = true := decide_eq_true rfl
    rw [List.replicate_succ', ← List.append_assoc,
      List.rdropWhile_concat_pos (fun c => decide (c = pad)) _ _ hlast]
    refine ih ?_
    rw [List.filter_eq_self] at hkept ⊢
    intro c hc
    refine hkept c ?_
    rw [List.replicate_succ', ← List.append_assoc]
    exact List.mem_append_left _ hc

theorem base64ToBytes_letters {value : Text} {sextets : List Nat}
    (htext : unpadded value = sextets.map letter) (h : ∀ sextet ∈ sextets, sextet < 64)
    (hlength : sextets.length % 4 ≠ 1) :
    base64ToBytes value = some (unpack 0 0 sextets) := by
  obtain ⟨decoding, hrun, hbytes⟩ := @foldlM_letters sextets [] (sextets.length * 3 / 4) 0 0 h
    (by decide) (by omega)
  rw [base64ToBytes, htext, List.length_map, if_neg hlength]
  have hkept : (0 : BitVec 32).toNat % 2 ^ 0 = 0 := rfl
  rw [hkept, List.nil_append] at hbytes
  have hrun' : (sextets.map letter).foldlM Decoding.step
      { bytes := List.replicate (sextets.length * 3 / 4) 0 } = some decoding := hrun
  simp only [hrun']
  exact congrArg some hbytes

theorem base64ToBytes_bytesToBase64 (bytes : List UInt8) :
    base64ToBytes (bytesToBase64 bytes) = some bytes := by
  obtain ⟨sextets, padding, htext, hsextets, hlength, hunpack⟩ := bytesToBase64_eq bytes
  have hunpadded := unpadded_letters hsextets padding
  rw [← htext] at hunpadded
  rw [base64ToBytes_letters hunpadded hsextets hlength, hunpack]

/-! ### What can be read -/

theorem exists_sextets {text : Text} (h : ∀ c ∈ text, c ∈ alphabet) :
    ∃ sextets : List Nat, text = sextets.map letter ∧ ∀ sextet ∈ sextets, sextet < 64 := by
  induction text with
  | nil => exact ⟨[], rfl, by simp⟩
  | cons c text ih =>
    obtain ⟨hfirst, hrest⟩ := List.forall_mem_cons.mp h
    obtain ⟨index, hindex, rfl⟩ := exists_letter hfirst
    obtain ⟨sextets, rfl, hsextets⟩ := ih hrest
    exact ⟨index :: sextets, rfl, List.forall_mem_cons.mpr ⟨hindex, hsextets⟩⟩

theorem mem_alphabet_of_foldlM {text : Text} {decoding decoding' : Decoding}
    (h : text.foldlM Decoding.step decoding = some decoding') : ∀ c ∈ text, c ∈ alphabet := by
  induction text generalizing decoding with
  | nil => exact fun c hc => by cases hc
  | cons c text ih =>
    rw [List.foldlM_cons] at h
    obtain ⟨middle, hstep, hrest⟩ := Option.bind_eq_some_iff.mp h
    refine List.forall_mem_cons.mpr ⟨sextetOf_nonneg_iff.mp ?_, ih hrest⟩
    rw [Decoding.step] at hstep
    dsimp only at hstep
    by_cases hneg : sextetOf c < 0
    · rw [if_pos hneg] at hstep
      cases hstep
    · omega

theorem base64ToBytes_isSome (value : Text) : (base64ToBytes value).isSome = true ↔
    (∀ c ∈ unpadded value, c ∈ alphabet) ∧ (unpadded value).length % 4 ≠ 1 := by
  constructor
  · intro h
    rw [base64ToBytes] at h
    by_cases hlength : (unpadded value).length % 4 = 1
    · rw [if_pos hlength] at h
      cases h
    · rw [if_neg hlength] at h
      refine ⟨?_, hlength⟩
      obtain ⟨bytes, hbytes⟩ := Option.isSome_iff_exists.mp h
      obtain ⟨decoding, hrun, -⟩ := Option.bind_eq_some_iff.mp hbytes
      exact mem_alphabet_of_foldlM hrun
  · rintro ⟨hall, hlength⟩
    obtain ⟨sextets, htext, hsextets⟩ := exists_sextets hall
    rw [htext, List.length_map] at hlength
    rw [base64ToBytes_letters htext hsextets hlength]
    rfl

inductive Canonical : Text → Prop where
  | nil : Canonical []
  | one {a b : UInt16} (ha : a ∈ alphabet) (hb : b ∈ alphabet) (hbits : sextetOf b % 16 = 0) :
      Canonical [a, b, pad, pad]
  | two {a b c : UInt16} (ha : a ∈ alphabet) (hb : b ∈ alphabet) (hc : c ∈ alphabet)
      (hbits : sextetOf c % 4 = 0) : Canonical [a, b, c, pad]
  | three {a b c d : UInt16} {text : Text} (ha : a ∈ alphabet) (hb : b ∈ alphabet)
      (hc : c ∈ alphabet) (hd : d ∈ alphabet) (h : Canonical text) :
      Canonical (a :: b :: c :: d :: text)

theorem Canonical.exists_bytes {text : Text} (h : Canonical text) :
    ∃ bytes, bytesToBase64 bytes = text := by
  induction h with
  | nil => exact ⟨[], rfl⟩
  | one ha hb hbits =>
    obtain ⟨i, hi, rfl⟩ := exists_letter ha
    obtain ⟨j, hj, rfl⟩ := exists_letter hb
    rw [sextetOf_letter hj] at hbits
    have h0 : (UInt8.ofNat (i * 4 + j / 16)).toNat = i * 4 + j / 16 :=
      UInt8.toNat_ofNat_of_lt' (by change i * 4 + j / 16 < 256; omega)
    refine ⟨[UInt8.ofNat (i * 4 + j / 16)], ?_⟩
    rw [bytesToBase64, quantum_eq, h0]
    have hfirst : (i * 4 + j / 16) / 4 = i := by omega
    have hsecond : (i * 4 + j / 16) % 4 * 16 + 0 / 16 = j := by omega
    rw [hfirst]
    exact congrArg (fun n => [letter i, letter n, pad, pad]) hsecond
  | two ha hb hc hbits =>
    obtain ⟨i, hi, rfl⟩ := exists_letter ha
    obtain ⟨j, hj, rfl⟩ := exists_letter hb
    obtain ⟨k, hk, rfl⟩ := exists_letter hc
    rw [sextetOf_letter hk] at hbits
    have h0 : (UInt8.ofNat (i * 4 + j / 16)).toNat = i * 4 + j / 16 :=
      UInt8.toNat_ofNat_of_lt' (by change i * 4 + j / 16 < 256; omega)
    have h1 : (UInt8.ofNat (j % 16 * 16 + k / 4)).toNat = j % 16 * 16 + k / 4 :=
      UInt8.toNat_ofNat_of_lt' (by change j % 16 * 16 + k / 4 < 256; omega)
    refine ⟨[UInt8.ofNat (i * 4 + j / 16), UInt8.ofNat (j % 16 * 16 + k / 4)], ?_⟩
    rw [bytesToBase64, quantum_eq, Option.getD_some, h0, h1]
    have hfirst : (i * 4 + j / 16) / 4 = i := by omega
    have hsecond : (i * 4 + j / 16) % 4 * 16 + (j % 16 * 16 + k / 4) / 16 = j := by omega
    have hthird : (j % 16 * 16 + k / 4) % 16 * 4 + 0 / 64 = k := by omega
    rw [hfirst, hsecond]
    exact congrArg (fun n => [letter i, letter j, letter n, pad]) hthird
  | three ha hb hc hd _ ih =>
    obtain ⟨bytes, rfl⟩ := ih
    obtain ⟨i, hi, rfl⟩ := exists_letter ha
    obtain ⟨j, hj, rfl⟩ := exists_letter hb
    obtain ⟨k, hk, rfl⟩ := exists_letter hc
    obtain ⟨l, hl, rfl⟩ := exists_letter hd
    have h0 : (UInt8.ofNat (i * 4 + j / 16)).toNat = i * 4 + j / 16 :=
      UInt8.toNat_ofNat_of_lt' (by change i * 4 + j / 16 < 256; omega)
    have h1 : (UInt8.ofNat (j % 16 * 16 + k / 4)).toNat = j % 16 * 16 + k / 4 :=
      UInt8.toNat_ofNat_of_lt' (by change j % 16 * 16 + k / 4 < 256; omega)
    have h2 : (UInt8.ofNat (k % 4 * 64 + l)).toNat = k % 4 * 64 + l :=
      UInt8.toNat_ofNat_of_lt' (by change k % 4 * 64 + l < 256; omega)
    refine ⟨UInt8.ofNat (i * 4 + j / 16) :: UInt8.ofNat (j % 16 * 16 + k / 4) ::
      UInt8.ofNat (k % 4 * 64 + l) :: bytes, ?_⟩
    rw [bytesToBase64, quantum_eq, Option.getD_some, Option.getD_some, h0, h1, h2]
    have hfirst : (i * 4 + j / 16) / 4 = i := by omega
    have hsecond : (i * 4 + j / 16) % 4 * 16 + (j % 16 * 16 + k / 4) / 16 = j := by omega
    have hthird : (j % 16 * 16 + k / 4) % 16 * 4 + (k % 4 * 64 + l) / 64 = k := by omega
    have hfourth : (k % 4 * 64 + l) % 64 = l := by omega
    rw [hfirst, hsecond, hthird, hfourth]
    rfl

/-- The codec is exact both ways, and reads nothing else. -/
theorem base64_exact :
    (∀ bytes, base64ToBytes (bytesToBase64 bytes) = some bytes) ∧
    (∀ value, (base64ToBytes value).isSome = true ↔
      (∀ c ∈ unpadded value, c ∈ alphabet) ∧ (unpadded value).length % 4 ≠ 1) ∧
    ∀ value, Canonical value → ∃ bytes, base64ToBytes value = some bytes ∧
      bytesToBase64 bytes = value := by
  refine ⟨base64ToBytes_bytesToBase64, base64ToBytes_isSome, fun value h => ?_⟩
  obtain ⟨bytes, rfl⟩ := h.exists_bytes
  exact ⟨bytes, base64ToBytes_bytesToBase64 bytes, rfl⟩

end Dolgate.SharedBase64
