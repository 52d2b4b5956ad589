import Dolgate.ReadFull
import Dolgate.GoBytes

set_option autoImplicit false

/-! The SOCKS5 handshake of dynamic forwarding. -/

namespace Dolgate.SocksHandshake
open GoReads
open GoBytes (ascii)

abbrev Bytes := List UInt8

/-! `net.IP.String` -/

def hexDigit (n : Nat) : UInt8 := UInt8.ofNat (if n < 10 then 48 + n else 87 + n)

def hexText (n : Nat) : Bytes :=
  if n < 0x10 then [hexDigit n]
  else if n < 0x100 then [hexDigit (n / 0x10), hexDigit (n % 0x10)]
  else if n < 0x1000 then [hexDigit (n / 0x100), hexDigit (n / 0x10 % 0x10), hexDigit (n % 0x10)]
  else [hexDigit (n / 0x1000), hexDigit (n / 0x100 % 0x10), hexDigit (n / 0x10 % 0x10),
    hexDigit (n % 0x10)]

def groups : Bytes → List Nat
  | high :: low :: rest => (high.toNat * 256 + low.toNat) :: groups rest
  | _ => []

def zerosAt (gs : List Nat) (i : Nat) : Nat := ((gs.drop i).takeWhile fun g => g == 0).length

/-- Where the first of the longest runs of zeros begins that have two groups at least. -/
def zeroRun (gs : List Nat) : Option Nat :=
  let longest := ((List.range gs.length).map (zerosAt gs)).foldl max 0
  if longest < 2 then none
  else (List.range gs.length).find? fun i => zerosAt gs i == longest

def colons : List Bytes → Bytes
  | [] => []
  | [g] => g
  | g :: gs => g ++ ascii ":" ++ colons gs

def ipv6Text (address : Bytes) : Bytes :=
  let gs := groups address
  match zeroRun gs with
  | none => colons (gs.map hexText)
  | some i =>
    colons ((gs.take i).map hexText) ++ ascii "::" ++
      colons ((gs.drop (i + zerosAt gs i)).map hexText)

def dots : List UInt8 → Bytes
  | [] => []
  | [b] => ascii b.toNat.repr
  | b :: bs => ascii b.toNat.repr ++ ascii "." ++ dots bs

def ipText (address : Bytes) : Bytes :=
  if address.length = 16 then
    if address.take 12 = List.replicate 10 0 ++ [0xff, 0xff] then dots (address.drop 12)
    else ipv6Text address
  else dots address

/-- `net.JoinHostPort` -/
def joinHostPort (host port : Bytes) : Bytes :=
  if 58 ∈ host then ascii "[" ++ host ++ ascii "]:" ++ port else host ++ ascii ":" ++ port

/-! The handshake -/

inductive Failure where
  | read
  | version (version : UInt8)
  | command
  | addressType (atyp : UInt8)
  | dial
deriving DecidableEq, Repr

/-- What was written to the client, the address that was dialed, and how it ended: with the rest of
the client's stream given to the bridge, or without a bridge. -/
structure Outcome where
  replies : List Bytes
  dialed : Option Bytes
  ended : Except Failure (Reads UInt8)
deriving DecidableEq, Repr

def noAuthentication : Bytes := [0x05, 0x00]

def reply (code : UInt8) : Bytes := [0x05, code, 0x00, 0x01, 0, 0, 0, 0, 0, 0]

def readSOCKSAddress (reads : Reads UInt8) (atyp : UInt8) :
    Except Failure (Bytes × Reads UInt8) :=
  if atyp = 0x01 then
    match readFull 4 reads with
    | none => .error .read
    | some (address, reads) => .ok (ipText address, reads)
  else if atyp = 0x03 then
    match readFull 1 reads with
    | none => .error .read
    | some (length, reads) =>
      match readFull (length.headD 0).toNat reads with
      | none => .error .read
      | some (address, reads) => .ok (address, reads)
  else if atyp = 0x04 then
    match readFull 16 reads with
    | none => .error .read
    | some (address, reads) => .ok (ipText address, reads)
  else .error (.addressType atyp)

def portText (port : Bytes) : Bytes :=
  ascii ((port.getD 0 0).toNat * 256 + (port.getD 1 0).toNat).repr

/-- From the address on. `dial` tells which addresses the server connects to. -/
def connect (dial : Bytes → Bool) (reads : Reads UInt8) (atyp : UInt8) : Outcome :=
  match readSOCKSAddress reads atyp with
  | .error failure => ⟨[noAuthentication, reply 0x08], none, .error failure⟩
  | .ok (address, reads) =>
    match readFull 2 reads with
    | none => ⟨[noAuthentication], none, .error .read⟩
    | some (port, reads) =>
      let target := joinHostPort address (portText port)
      if dial target then ⟨[noAuthentication, reply 0x00], some target, .ok reads⟩
      else ⟨[noAuthentication, reply 0x05], some target, .error .dial⟩

def serveRequest (dial : Bytes → Bool) (reads : Reads UInt8) : Outcome :=
  match readFull 4 reads with
  | none => ⟨[noAuthentication], none, .error .read⟩
  | some (header, reads) =>
    if header.getD 0 0 ≠ 0x05 ∨ header.getD 1 0 ≠ 0x01 then
      ⟨[noAuthentication, reply 0x07], none, .error .command⟩
    else connect dial reads (header.getD 3 0)

def handleSOCKS5 (dial : Bytes → Bool) (reads : Reads UInt8) : Outcome :=
  match readFull 2 reads with
  | none => ⟨[], none, .error .read⟩
  | some (header, reads) =>
    if header.getD 0 0 ≠ 0x05 then ⟨[], none, .error (.version (header.getD 0 0))⟩
    else
      match readFull (header.getD 1 0).toNat reads with
      | none => ⟨[], none, .error .read⟩
      | some (_, reads) => serveRequest dial reads

example : ipText [0x20, 1, 0xd, 0xb8, 0, 0, 0, 1, 0, 0, 0, 0, 0, 0, 0, 1] =
    ascii "2001:db8:0:1::1" := by decide

/-! What a client may send. -/

structure Greeting where
  methods : Bytes
  bounded : methods.length ≤ 255

def Greeting.bytes (g : Greeting) : Bytes :=
  [0x05, UInt8.ofNat g.methods.length] ++ g.methods

inductive Host where
  | ipv4 (address : Bytes) (h : address.length = 4)
  | domain (name : Bytes) (h : name.length ≤ 255)
  | ipv6 (address : Bytes) (h : address.length = 16)

def Host.atyp : Host → UInt8
  | .ipv4 _ _ => 0x01
  | .domain _ _ => 0x03
  | .ipv6 _ _ => 0x04

def Host.encoded : Host → Bytes
  | .ipv4 address _ => address
  | .domain name _ => UInt8.ofNat name.length :: name
  | .ipv6 address _ => address

def Host.text : Host → Bytes
  | .ipv4 address _ => ipText address
  | .domain name _ => name
  | .ipv6 address _ => ipText address

def Host.Named : Host → Prop
  | .domain name _ => name ≠ []
  | _ => True

structure Request where
  reserved : UInt8
  host : Host
  high : UInt8
  low : UInt8

def Request.bytes (r : Request) : Bytes :=
  [0x05, 0x01, r.reserved, r.host.atyp] ++ (r.host.encoded ++ [r.high, r.low])

def Request.target (r : Request) : Bytes :=
  joinHostPort r.host.text (ascii (r.high.toNat * 256 + r.low.toNat).repr)

theorem ofNat_toNat {n : Nat} (h : n ≤ 255) : (UInt8.ofNat n).toNat = n :=
  UInt8.toNat_ofNat_of_lt' (Nat.lt_succ_of_le h)

theorem readSOCKSAddress_host {reads : Reads UInt8} (host : Host) {rest : Bytes}
    (h : reads.flatten = host.encoded ++ rest) :
    ∃ reads', readSOCKSAddress reads host.atyp = .ok (host.text, reads') ∧
      reads'.flatten = rest := by
  cases host with
  | ipv4 address hlength =>
    obtain ⟨reads', hread, hrest⟩ := readFull_append h
    rw [Host.encoded, hlength] at hread
    exact ⟨reads', by simp [readSOCKSAddress, Host.atyp, hread, Host.text], hrest⟩
  | domain name hlength =>
    have hsplit : reads.flatten = [UInt8.ofNat name.length] ++ (name ++ rest) := h
    obtain ⟨reads₁, hfirst, hmore⟩ := readFull_append hsplit
    obtain ⟨reads₂, hsecond, hrest⟩ := readFull_append hmore
    refine ⟨reads₂, ?_, hrest⟩
    simp only [List.length_singleton] at hfirst
    simp [readSOCKSAddress, Host.atyp, hfirst, ofNat_toNat hlength, hsecond, Host.text]
  | ipv6 address hlength =>
    obtain ⟨reads', hread, hrest⟩ := readFull_append h
    rw [Host.encoded, hlength] at hread
    exact ⟨reads', by simp [readSOCKSAddress, Host.atyp, hread, Host.text], hrest⟩

theorem host_of_readSOCKSAddress {reads reads' : Reads UInt8} {atyp : UInt8} {address : Bytes}
    (h : readSOCKSAddress reads atyp = .ok (address, reads')) :
    ∃ host : Host, host.atyp = atyp ∧ host.text = address ∧
      reads.flatten = host.encoded ++ reads'.flatten := by
  unfold readSOCKSAddress at h
  split at h
  · next hatyp =>
    cases hread : readFull 4 reads with
    | none => simp [hread] at h
    | some r =>
      simp only [hread, Except.ok.injEq, Prod.mk.injEq] at h
      obtain ⟨rfl, rfl⟩ := h
      obtain ⟨hflatten, hlength⟩ := readFull_eq_some hread
      exact ⟨.ipv4 r.1 hlength, hatyp.symm, rfl, hflatten⟩
  · split at h
    · next hatyp =>
      cases hfirst : readFull 1 reads with
      | none => simp [hfirst] at h
      | some r =>
        simp only [hfirst] at h
        obtain ⟨hflatten, hone⟩ := readFull_eq_some hfirst
        obtain ⟨length, hr⟩ := List.length_eq_one_iff.mp hone
        rw [hr] at hflatten h
        cases hsecond : readFull length.toNat r.2 with
        | none => simp [hsecond] at h
        | some r' =>
          simp only [List.headD_cons, hsecond, Except.ok.injEq, Prod.mk.injEq] at h
          obtain ⟨rfl, rfl⟩ := h
          obtain ⟨hflatten', hlength⟩ := readFull_eq_some hsecond
          have hbound : r'.1.length ≤ 255 := by
            rw [hlength]
            have := length.toNat_lt
            omega
          refine ⟨.domain r'.1 hbound, hatyp.symm, rfl, ?_⟩
          rw [hflatten, hflatten', Host.encoded, hlength, UInt8.ofNat_toNat]
          rfl
    · split at h
      · next hatyp =>
        cases hread : readFull 16 reads with
        | none => simp [hread] at h
        | some r =>
          simp only [hread, Except.ok.injEq, Prod.mk.injEq] at h
          obtain ⟨rfl, rfl⟩ := h
          obtain ⟨hflatten, hlength⟩ := readFull_eq_some hread
          exact ⟨.ipv6 r.1 hlength, hatyp.symm, rfl, hflatten⟩
      · cases h

end Dolgate.SocksHandshake
