import Mathlib.Data.List.DropRight

set_option autoImplicit false

/-! Standard base64 with padding as Go's `encoding/base64` reads and writes it, and
`strings.TrimSpace`. -/

namespace Dolgate.Base64

def alphabet (n : Nat) : Char :=
  if n < 26 then Char.ofNat (65 + n)
  else if n < 52 then Char.ofNat (71 + n)
  else if n < 62 then Char.ofNat (n - 4)
  else if n = 62 then '+'
  else '/'

def value (c : Char) : Option Nat :=
  let n := c.toNat
  if 65 ≤ n ∧ n ≤ 90 then some (n - 65)
  else if 97 ≤ n ∧ n ≤ 122 then some (n - 71)
  else if 48 ≤ n ∧ n ≤ 57 then some (n + 4)
  else if c = '+' then some 62
  else if c = '/' then some 63
  else none

def encode : List UInt8 → List Char
  | [] => []
  | [a] => [alphabet (a.toNat / 4), alphabet (a.toNat % 4 * 16), '=', '=']
  | [a, b] =>
      [alphabet (a.toNat / 4), alphabet (a.toNat % 4 * 16 + b.toNat / 16),
        alphabet (b.toNat % 16 * 4), '=']
  | a :: b :: c :: rest =>
      alphabet (a.toNat / 4) :: alphabet (a.toNat % 4 * 16 + b.toNat / 16) ::
        alphabet (b.toNat % 16 * 4 + c.toNat / 64) :: alphabet (c.toNat % 64) :: encode rest

/-- Four characters at a time. Only the last four may be padded, and the bits that the padding
cuts off are not looked at. -/
def decodeQuanta : List Char → Option (List UInt8)
  | [] => some []
  | a :: b :: c :: d :: rest => do
      let x ← value a
      let y ← value b
      if c = '=' then
        if d = '=' ∧ rest = [] then return [UInt8.ofNat (x * 4 + y / 16)] else none
      else
        let z ← value c
        if d = '=' then
          if rest = [] then
            return [UInt8.ofNat (x * 4 + y / 16), UInt8.ofNat (y % 16 * 16 + z / 4)]
          else none
        else
          let w ← value d
          let tail ← decodeQuanta rest
          return UInt8.ofNat (x * 4 + y / 16) :: UInt8.ofNat (y % 16 * 16 + z / 4) ::
            UInt8.ofNat (z % 4 * 64 + w) :: tail
  | _ => none

def decode (text : List Char) : Option (List UInt8) :=
  decodeQuanta (text.filter fun c => c ≠ '\n' ∧ c ≠ '\r')

def isSpace (c : Char) : Bool :=
  let n := c.toNat
  (9 ≤ n && n ≤ 13) || n == 32 || n == 0x85 || n == 0xA0 || n == 0x1680 ||
    (0x2000 ≤ n && n ≤ 0x200A) || n == 0x2028 || n == 0x2029 || n == 0x202F || n == 0x205F ||
    n == 0x3000

def trimSpace (text : List Char) : List Char :=
  (text.dropWhile isSpace).rdropWhile isSpace

theorem value_alphabet {n : Nat} (h : n < 64) : value (alphabet n) = some n := by
  have hall : ∀ m : Fin 64, value (alphabet m) = some m.val := by decide
  exact hall ⟨n, h⟩

/-- What `decode` and `trimSpace` need to know of an encoded character. -/
def Plain (c : Char) : Prop := isSpace c = false ∧ c ≠ '\n' ∧ c ≠ '\r'

theorem plain_pad : Plain '=' := by
  unfold Plain
  decide

theorem plain_alphabet {n : Nat} (h : n < 64) : Plain (alphabet n) ∧ alphabet n ≠ '=' := by
  have hall : ∀ m : Fin 64, Plain (alphabet m) ∧ alphabet m ≠ '=' := by
    unfold Plain
    decide
  exact hall ⟨n, h⟩

theorem encode_plain (bytes : List UInt8) : ∀ c ∈ encode bytes, Plain c := by
  induction bytes using encode.induct with
  | case1 => simp [encode]
  | case2 a =>
      have ha := a.toNat_lt
      simp only [encode, List.mem_cons, List.not_mem_nil, or_false]
      rintro c (rfl | rfl | rfl | rfl)
      · exact (plain_alphabet (by omega)).1
      · exact (plain_alphabet (by omega)).1
      · exact plain_pad
      · exact plain_pad
  | case3 a b =>
      have ha := a.toNat_lt
      have hb := b.toNat_lt
      simp only [encode, List.mem_cons, List.not_mem_nil, or_false]
      rintro c (rfl | rfl | rfl | rfl)
      · exact (plain_alphabet (by omega)).1
      · exact (plain_alphabet (by omega)).1
      · exact (plain_alphabet (by omega)).1
      · exact plain_pad
  | case4 a b c rest ih =>
      have ha := a.toNat_lt
      have hb := b.toNat_lt
      have hc := c.toNat_lt
      simp only [encode, List.mem_cons]
      rintro d (rfl | rfl | rfl | rfl | hd)
      · exact (plain_alphabet (by omega)).1
      · exact (plain_alphabet (by omega)).1
      · exact (plain_alphabet (by omega)).1
      · exact (plain_alphabet (by omega)).1
      · exact ih d hd

theorem ofNat_eq {n : Nat} {a : UInt8} (h : n = a.toNat) : UInt8.ofNat n = a := by
  rw [h, UInt8.ofNat_toNat]

theorem decodeQuanta_encode (bytes : List UInt8) : decodeQuanta (encode bytes) = some bytes := by
  induction bytes using encode.induct with
  | case1 => rfl
  | case2 a =>
      have ha := a.toNat_lt
      have h₁ := value_alphabet (n := a.toNat / 4) (by omega)
      have h₂ := value_alphabet (n := a.toNat % 4 * 16) (by omega)
      simp only [encode, decodeQuanta, h₁, h₂, Option.bind_eq_bind, Option.bind_some, if_pos,
        and_self, Option.pure_def]
      rw [ofNat_eq (a := a) (by omega)]
  | case3 a b =>
      have ha := a.toNat_lt
      have hb := b.toNat_lt
      have h₁ := value_alphabet (n := a.toNat / 4) (by omega)
      have h₂ := value_alphabet (n := a.toNat % 4 * 16 + b.toNat / 16) (by omega)
      have h₃ := value_alphabet (n := b.toNat % 16 * 4) (by omega)
      have h₄ := (plain_alphabet (n := b.toNat % 16 * 4) (by omega)).2
      simp only [encode, decodeQuanta, h₁, h₂, h₃, h₄, Option.bind_eq_bind, Option.bind_some,
        if_pos, if_false, Option.pure_def]
      rw [ofNat_eq (a := a) (by omega), ofNat_eq (a := b) (by omega)]
  | case4 a b c rest ih =>
      have ha := a.toNat_lt
      have hb := b.toNat_lt
      have hc := c.toNat_lt
      have h₁ := value_alphabet (n := a.toNat / 4) (by omega)
      have h₂ := value_alphabet (n := a.toNat % 4 * 16 + b.toNat / 16) (by omega)
      have h₃ := value_alphabet (n := b.toNat % 16 * 4 + c.toNat / 64) (by omega)
      have h₄ := value_alphabet (n := c.toNat % 64) (by omega)
      have h₅ := (plain_alphabet (n := b.toNat % 16 * 4 + c.toNat / 64) (by omega)).2
      have h₆ := (plain_alphabet (n := c.toNat % 64) (by omega)).2
      simp only [encode, decodeQuanta, h₁, h₂, h₃, h₄, h₅, h₆, ih, Option.bind_eq_bind,
        Option.bind_some, if_false, Option.pure_def]
      rw [ofNat_eq (a := a) (by omega), ofNat_eq (a := b) (by omega),
        ofNat_eq (a := c) (by omega)]

theorem decode_trimSpace_encode (bytes : List UInt8) :
    decode (trimSpace (encode bytes)) = some bytes := by
  have hplain := encode_plain bytes
  have htrim : trimSpace (encode bytes) = encode bytes := by
    have hspace : ∀ c ∈ encode bytes, ¬ isSpace c = true := fun c hc => by
      simp [(hplain c hc).1]
    unfold trimSpace
    rw [List.dropWhile_eq_self_iff.mpr (fun hl => hspace _ (List.getElem_mem hl)),
      List.rdropWhile_eq_self_iff.mpr (fun hl => hspace _ (List.getLast_mem hl))]
  have hfilter : (encode bytes).filter (fun c => c ≠ '\n' ∧ c ≠ '\r') = encode bytes := by
    rw [List.filter_eq_self]
    intro c hc
    simpa using (hplain c hc).2
  rw [htrim, decode, hfilter, decodeQuanta_encode]

end Dolgate.Base64
