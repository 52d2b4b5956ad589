import Dolgate.TightPixels

set_option autoImplicit false

/-! Tight reads exactly what has been written for a picture, and shows it. -/

namespace Dolgate.Vnc.Tight
open Checked

section

variable {Z α : Type} {E : Connection Z → Prop} {conn : Connection Z} {rest : List UInt8}

theorem wp_readExact {bytes : List UInt8} {count : Nat} {Q : List UInt8 → Connection Z → Prop}
    (hinput : conn.input = bytes ++ rest) (hlen : bytes.length = count)
    (hQ : Q bytes { conn with input := rest }) : wp (readExact count) Q E conn := by
  have hroom : count ≤ conn.input.length := by
    rw [hinput, List.length_append]
    omega
  unfold wp readExact
  rw [if_pos hroom, hinput, List.take_left' hlen, List.drop_left' hlen]
  exact hQ

theorem wp_readByte {byte : UInt8} {Q : UInt8 → Connection Z → Prop}
    (hinput : conn.input = byte :: rest) (hQ : Q byte { conn with input := rest }) :
    wp readByte Q E conn := by
  have hone : conn.input = [byte] ++ rest := hinput
  exact wp_bind.mpr (wp_readExact hone rfl (wp_index_some rfl hQ))

theorem wp_readLengthByte {byte : UInt8} {Q : UInt8 → Connection Z → Prop}
    (hinput : conn.input = byte :: rest) (hQ : Q byte { conn with input := rest }) :
    wp readLengthByte Q E conn :=
  wp_bind.mpr (wp_attempt (wp_readByte hinput hQ))

theorem wp_onFramebuffer {m : Decoder α} {Q : α → Connection Z → Prop}
    (h : wp m (fun a fb => Q a { conn with framebuffer := fb })
      (fun fb => E { conn with framebuffer := fb }) conn.framebuffer) :
    wp (onFramebuffer m) Q E conn := by
  unfold wp onFramebuffer at *
  rcases hm : m conn.framebuffer with ⟨⟨_ | _⟩ | _, fb⟩ <;> simp only [hm] at h ⊢
  · exact h
  · exact h

theorem or_shiftLeft {low high i : Nat} (h : low < 2 ^ i) :
    low ||| high <<< i = high * 2 ^ i + low := by
  rw [Nat.or_comm, ← Nat.shiftLeft_add_eq_or_of_lt h, Nat.shiftLeft_eq]

theorem wp_readCompactLength {length : Nat} {Q : Nat → Connection Z → Prop}
    (hlength : length < 2 ^ 22) (hinput : conn.input = compactLength length ++ rest)
    (hQ : Q length { conn with input := rest }) : wp readCompactLength Q E conn := by
  unfold compactLength at hinput
  split at hinput
  · next hsmall =>
    obtain ⟨⟨hvalue, hclear⟩, -⟩ := seven_bits length hsmall
    refine wp_bind.mpr (wp_readLengthByte hinput ?_)
    refine wp_ite (fun _ => ?_) fun hset => absurd hclear hset
    rw [hvalue]
    exact hQ
  · obtain ⟨-, hfirst, hset⟩ := seven_bits (length % 128) (Nat.mod_lt _ (by decide))
    split at hinput
    · next hmiddle =>
      obtain ⟨⟨hsecond, hclear⟩, -⟩ := seven_bits (length / 128) (by omega)
      refine wp_bind.mpr (wp_readLengthByte hinput ?_)
      refine wp_ite (fun h => absurd h hset) fun _ => ?_
      refine wp_bind.mpr (wp_readLengthByte rfl ?_)
      have hsum : length % 128 ||| (length / 128) <<< 7 = length := by
        rw [or_shiftLeft (by omega)]
        omega
      refine wp_ite (fun _ => ?_) fun hset' => absurd hclear hset'
      rw [hfirst, hsecond, hsum]
      exact hQ
    · obtain ⟨-, hsecond, hset'⟩ := seven_bits (length / 128 % 128) (Nat.mod_lt _ (by decide))
      have hthird : (UInt8.ofNat (length / 16384)).toNat = length / 16384 :=
        UInt8.toNat_ofNat_of_lt' (by change length / 16384 < 256; omega)
      refine wp_bind.mpr (wp_readLengthByte hinput ?_)
      refine wp_ite (fun h => absurd h hset) fun _ => ?_
      refine wp_bind.mpr (wp_readLengthByte rfl ?_)
      refine wp_ite (fun h => absurd h hset') fun _ => ?_
      refine wp_bind.mpr (wp_readLengthByte rfl ?_)
      have hsum : (length % 128 ||| (length / 128 % 128) <<< 7) ||| (length / 16384) <<< 14 =
          length := by
        rw [or_shiftLeft (i := 7) (by omega), or_shiftLeft (by omega)]
        omega
      rw [hfirst, hsecond, hthird, hsum]
      exact hQ

/-! ### Streams -/

theorem wp_inflate_ok {pieces : List (List UInt8)} {fb : Framebuffer}
    {Q : List UInt8 → Framebuffer → Prop} {E : Framebuffer → Prop}
    (hlen : pieces.flatten.length ≤ maxFramebufferBytes) (hQ : Q pieces.flatten fb) :
    wp (Zrle.inflate (pieces.map .ok)) Q E fb := by
  have hend : (pieces.map (Except.ok (ε := DecodeError))).length = pieces.length :=
    List.length_map _
  refine wp_forEach (fun i out fb' => out = (pieces.take i).flatten ∧ fb' = fb) ⟨rfl, rfl⟩ ?_ ?_
  · rintro i out fb' hi ⟨rfl, rfl⟩
    have hi' : i < pieces.length := hend ▸ hi
    have hnext : (pieces.take (i + 1)).flatten = (pieces.take i).flatten ++ pieces[i] := by
      rw [List.take_succ_eq_append_getElem hi', List.flatten_append, List.flatten_singleton]
    have hle : (pieces.take (i + 1)).flatten.length ≤ maxFramebufferBytes := by
      refine le_trans (List.Sublist.length_le ?_) hlen
      exact (List.take_sublist _ _).flatten
    rw [List.getElem_map]
    refine wp_ite (fun h => ?_) fun _ => ⟨hnext.symm, rfl⟩
    rw [hnext] at hle
    omega
  · rintro out fb' ⟨rfl, rfl⟩
    rw [hend, List.take_length]
    exact hQ

variable {S : Type} {deflater : Deflater S} {zlib : Zlib Z}

theorem Synced.resetStreams {streams : Fin 4 → S} {control : UInt8} {resets : Nat}
    (hresets : ∀ index : Fin 4,
      control &&& (1 <<< UInt8.ofNat index.val) ≠ 0 ↔ resets.testBit index = true)
    (h : ∀ index, Synced deflater zlib (streams index) (conn.streams index)) (index : Fin 4) :
    Synced deflater zlib (begin deflater resets streams index)
      (Tight.resetStreams zlib control conn.streams index) := by
  unfold begin Tight.resetStreams
  by_cases hbit : resets.testBit index = true
  · rw [if_pos hbit, if_pos ((hresets index).mpr hbit)]
    exact .new
  · rw [if_neg hbit, if_neg fun hset => hbit ((hresets index).mp hset)]
    exact h index

theorem control_fill : ∀ resets, resets < 16 → UInt8.ofNat (128 + resets) >>> 4 = 8 ∧
    ∀ index : Fin 4, UInt8.ofNat (128 + resets) &&& (1 <<< UInt8.ofNat index.val) ≠ 0 ↔
      resets.testBit index = true := by
  decide

structure Basic (control : UInt8) (resets : Nat) (stream : Fin 4) (explicit : Bool) : Prop where
  kind : control >>> 4 ≠ 8 ∧ control >>> 4 ≠ 9 ∧ control >>> 4 &&& 8 = 0
  stream : ((control >>> 4) &&& 3).toNat = stream
  filter : hasFilterId control = explicit
  resets : ∀ index : Fin 4,
    control &&& (1 <<< UInt8.ofNat index.val) ≠ 0 ↔ resets.testBit index = true

theorem control_basic (explicit : Bool) : ∀ resets, resets < 16 → ∀ stream : Fin 4,
    Basic (UInt8.ofNat (resets + 16 * stream + explicit.toNat * 64)) resets stream explicit := by
  have hall : ∀ explicit : Bool, ∀ resets, resets < 16 → ∀ stream : Fin 4,
      let control := UInt8.ofNat (resets + 16 * stream + explicit.toNat * 64)
      (control >>> 4 ≠ 8 ∧ control >>> 4 ≠ 9 ∧ control >>> 4 &&& 8 = 0) ∧
        ((control >>> 4) &&& 3).toNat = stream ∧ hasFilterId control = explicit ∧
          ∀ index : Fin 4,
            control &&& (1 <<< UInt8.ofNat index.val) ≠ 0 ↔ resets.testBit index = true := by
    decide
  intro resets hresets stream
  obtain ⟨hkind, hstream, hfilter, hbits⟩ := hall explicit resets hresets stream
  exact ⟨hkind, hstream, hfilter, hbits⟩

theorem wp_readControl_fill {control : UInt8} {Q : Compression → Connection Z → Prop}
    (hkind : control >>> 4 = 8)
    (hQ : Q .fill { conn with streams := resetStreams zlib control conn.streams }) :
    wp (readControl zlib control) Q E conn :=
  wp_bind.mpr (wp_state.mpr (wp_bind.mpr (wp_put.mpr
    (wp_ite (fun _ => hQ) fun hne => absurd hkind hne))))

theorem wp_readControl_basic {control : UInt8} {resets : Nat} {stream : Fin 4} {explicit : Bool}
    {Q : Compression → Connection Z → Prop} (h : Basic control resets stream explicit)
    (hQ : ∀ filter,
      Q (.basic stream filter) { conn with streams := resetStreams zlib control conn.streams }) :
    wp (readControl zlib control) Q E conn := by
  obtain ⟨hfill, hjpeg, hkind⟩ := h.kind
  refine wp_bind.mpr (wp_state.mpr (wp_bind.mpr (wp_put.mpr ?_)))
  refine wp_ite (fun heq => absurd heq hfill) fun _ => ?_
  refine wp_ite (fun heq => absurd heq hjpeg) fun _ => ?_
  refine wp_ite (fun hne => absurd hkind hne) fun _ => ?_
  have hstream : (⟨_, streamNumber_lt control⟩ : Fin 4) = stream := Fin.ext h.stream
  rw [hstream]
  exact hQ _

theorem wp_readFilter_left {control : UInt8} {filter : Filter} {palette : List Rgb}
    {explicit : Bool} {header : List UInt8} {Q : Filter × Nat → Connection Z → Prop}
    (hheader : Header filter palette explicit header) (hcontrol : hasFilterId control = explicit)
    (hinput : conn.input = header ++ rest)
    (hQ : ∀ wire, Q (filter, wire) { conn with input := paletteBytes filter palette ++ rest }) :
    wp (readFilter control) Q E conn := by
  cases hheader with
  | implicit =>
    have hQ := hQ 0
    change conn.input = rest at hinput
    change Q (.copy, 0) { conn with input := rest } at hQ
    rw [← hinput] at hQ
    exact wp_ite (fun h => absurd h (by rw [hcontrol]; decide)) fun _ => hQ
  | explicit =>
    refine wp_ite (fun _ => ?_) fun h => absurd hcontrol h
    refine wp_bind.mpr (wp_readByte hinput ?_)
    cases filter with
    | copy => exact hQ 1
    | palette => exact hQ 1
    | gradient => exact hQ 1

structure HasPalette (filter : Filter) (palette : List Rgb) : Prop where
  some : filter = .palette → 1 ≤ palette.length ∧ palette.length ≤ 256
  none : filter ≠ .palette → palette = []

theorem Filtered.hasPalette {picture : Nat → Nat → Rgb} {rect : Rect} {filter : Filter}
    {palette : List Rgb} {data : List UInt8} (h : Filtered picture rect filter palette data) :
    HasPalette filter palette := by
  cases h with
  | copy => exact ⟨fun h => absurd h (by decide), fun _ => rfl⟩
  | bitmap hsize hrows hcolours => exact ⟨fun _ => by omega, fun h => absurd rfl h⟩
  | indexed hsize hcolours => exact ⟨fun _ => by omega, fun h => absurd rfl h⟩
  | gradient => exact ⟨fun h => absurd h (by decide), fun _ => rfl⟩

theorem Filtered.length_le {picture : Nat → Nat → Rgb} {rect : Rect} {filter : Filter}
    {palette : List Rgb} {data : List UInt8} {fb : Framebuffer}
    (h : Filtered picture rect filter palette data) (hfb : fb.Valid)
    (hrect : fb.contains rect = true) : data.length ≤ maxFramebufferBytes := by
  have harea := hfb.rect_area_le hrect
  have hrows := rowBytes_le rect.width rect.height
  have hthree := bytesPerPixel_rgba32
  have hmax : maxFramebufferBytes = maxFramebufferPixels * 4 := rfl
  rw [h.length_eq]
  unfold filteredLength
  split
  · split <;> omega
  · rw [hthree]
    omega

theorem wp_collect {σ : Type} {t : σ} {E : σ → Prop} {palette : List Rgb}
    {Q : List Rgba → σ → Prop} (hQ : Q (palette.map Rgb.rgba) t) :
    wp (forEach (palette.map Rgb.bytes) (fun _ chunk palette => do
      return palette ++ [← tpixel chunk .rgba32]) []) Q E t := by
  have hend : (palette.map Rgb.bytes).length = palette.length := List.length_map _
  refine wp_forEach (fun i out t' => out = (palette.take i).map Rgb.rgba ∧ t' = t) ⟨rfl, rfl⟩ ?_ ?_
  · rintro i out t' hi ⟨rfl, rfl⟩
    rw [List.getElem_map]
    refine wp_bind.mpr (wp_tpixel_bytes ⟨?_, rfl⟩)
    rw [List.take_succ_eq_append_getElem (hend ▸ hi), List.map_append]
    rfl
  · rintro out t' ⟨rfl, rfl⟩
    rw [hend, List.take_length]
    exact hQ

theorem wp_readPalette_left {filter : Filter} {palette : List Rgb}
    {Q : List Rgba × Nat → Connection Z → Prop} (h : HasPalette filter palette)
    (hinput : conn.input = paletteBytes filter palette ++ rest)
    (hQ : ∀ wire, Q (palette.map Rgb.rgba, wire) { conn with input := rest }) :
    wp (readPalette .rgba32 filter) Q E conn := by
  refine wp_ite (fun hfilter => ?_) fun hfilter => ?_
  · subst hfilter
    have hsize := h.some rfl
    have hcount : (UInt8.ofNat (palette.length - 1)).toNat + 1 = palette.length := by
      rw [UInt8.toNat_ofNat_of_lt' (by change palette.length - 1 < 256; omega)]
      omega
    have hthree : ∀ colour ∈ palette, colour.bytes.length = 3 := fun _ _ => rfl
    refine wp_bind.mpr (wp_readByte hinput ?_)
    rw [hcount]
    refine wp_bind.mpr (wp_readExact rfl (length_flatMap_const hthree) ?_)
    refine wp_bind.mpr (wp_chunksExact (by decide) ?_)
    rw [bytesPerPixel_rgba32, chunks_flatMap (by decide) hthree]
    exact wp_bind.mpr (wp_onFramebuffer (wp_collect (hQ _)))
  · have hnone : paletteBytes filter palette = [] := by
      cases filter with
      | palette => exact absurd rfl hfilter
      | copy => rfl
      | gradient => rfl
    rw [hnone, List.nil_append] at hinput
    have hQ := hQ 0
    rw [h.none hfilter, ← hinput] at hQ
    exact hQ

theorem wp_readData_left {s s' : S} {id : Fin 4} {data payload : List UInt8}
    {Q : List UInt8 × Nat → Connection Z → Prop} (hinverts : Inverts deflater zlib)
    (hpayload : Payload deflater s data payload s') (hsync : Synced deflater zlib s (conn.streams id))
    (hlen : data.length ≤ maxFramebufferBytes) (hinput : conn.input = payload ++ rest)
    (hQ : ∀ wire z, Synced deflater zlib s' z → Q (data, wire)
      { conn with input := rest, streams := Function.update conn.streams id z }) :
    wp (readData zlib id data.length) Q E conn := by
  cases hpayload with
  | plain hshort =>
    refine wp_ite (fun _ => ?_) fun h => absurd (decide_eq_true hshort) h
    refine wp_bind.mpr (wp_readExact hinput rfl ?_)
    have hQ := hQ data.length (conn.streams id) hsync
    rw [Function.update_eq_self] at hQ
    exact hQ
  | @compressed bytes _ hlong hdeflates hlength =>
    refine wp_ite (fun h => ?_) fun _ => ?_
    · have hshort : data.length < 12 := of_decide_eq_true h
      omega
    rw [List.append_assoc] at hinput
    refine wp_bind.mpr (wp_readCompactLength hlength hinput ?_)
    refine wp_ite (fun h => ?_) fun _ => ?_
    · omega
    refine wp_bind.mpr (wp_readExact rfl rfl ?_)
    obtain ⟨pieces, hpieces, hdata⟩ := hinverts s (conn.streams id) data bytes s' hsync hdeflates
    refine wp_bind.mpr (wp_bind.mpr (wp_state.mpr ?_))
    dsimp only
    rw [hpieces]
    refine wp_bind.mpr (wp_put.mpr (wp_onFramebuffer (wp_inflate_ok (hdata ▸ hlen) ?_)))
    rw [hdata]
    exact hQ bytes.length _ (.next hsync hdeflates)

end

variable {S Z : Type}

/-- Whatever way a picture has been written, reading its rectangle takes the bytes that have been
written and no more, the rectangle shows the picture and everything else is as it was, and the
streams stay in step with those of the encoder. -/
theorem readTightRect_shows (deflater : Deflater S) (zlib : Zlib Z)
    (jpeg : List UInt8 → Option (List UInt8)) (hinverts : Inverts deflater zlib)
    (picture : Nat → Nat → Rgb) (rect : Rect) (conn : Connection Z) (streams streams' : Fin 4 → S)
    (bytes rest : List UInt8) (hfb : conn.framebuffer.Valid)
    (hrect : conn.framebuffer.contains rect = true)
    (hsync : ∀ index, Synced deflater zlib (streams index) (conn.streams index))
    (henc : Encodes deflater picture rect streams bytes streams')
    (hinput : conn.input = bytes ++ rest) :
    ∃ wire conn', readTightRect zlib jpeg .rgba32 rect conn = (.ok wire, conn') ∧
      conn'.input = rest ∧ SameOutside rect conn.framebuffer conn'.framebuffer ∧
        ShowsPicture picture rect conn'.framebuffer ∧
          ∀ index, Synced deflater zlib (streams' index) (conn'.streams index) := by
  refine wp_total (s := conn) ?_
  cases henc with
  | @fill resets colour hresets hcolour =>
    obtain ⟨hkind, hbits⟩ := control_fill resets hresets
    refine wp_bind.mpr (wp_readByte hinput ?_)
    refine wp_bind.mpr (wp_readControl_fill hkind ?_)
    refine wp_bind.mpr (wp_readExact rfl (rfl : colour.bytes.length = 3) ?_)
    refine wp_bind.mpr (wp_onFramebuffer (wp_applyFill_shows hfb hrect hcolour ?_))
    intro fb' hsame hshows
    exact ⟨rfl, hsame, hshows, Synced.resetStreams hbits hsync⟩
  | @basic resets stream explicit filter palette header data payload s hresets hfiltered hheader
      hpayload =>
    have hcontrol := control_basic explicit resets hresets stream
    have hsync' := Synced.resetStreams hcontrol.resets hsync
    have hlen := hfiltered.length_le hfb hrect
    have hlength := hfiltered.length_eq
    rw [List.cons_append, List.append_assoc] at hinput
    refine wp_bind.mpr (wp_readByte hinput ?_)
    refine wp_bind.mpr (wp_readControl_basic hcontrol fun _ => ?_)
    refine wp_bind.mpr (wp_readFilter_left hheader hcontrol.filter rfl fun _ => ?_)
    refine wp_bind.mpr (wp_readPalette_left hfiltered.hasPalette rfl fun _ => ?_)
    dsimp only
    rw [List.length_map, ← hlength]
    refine wp_bind.mpr (wp_readData_left hinverts hpayload (hsync' stream) hlen rfl fun _ z hz => ?_)
    refine wp_bind.mpr (wp_onFramebuffer (wp_applyBasic_shows hfb hrect hfiltered ?_))
    intro fb' hsame hshows
    refine ⟨rfl, hsame, hshows, fun index => ?_⟩
    dsimp only
    by_cases heq : index = stream
    · rw [heq, Function.update_self, Function.update_self]
      exact hz
    · rw [Function.update_of_ne heq, Function.update_of_ne heq]
      exact hsync' index

/-! ### A stream that stores -/

/-- What zlib writes when it stores: the header once, and each time a block with its length and the
complement of it. -/
def stored (fresh : Bool) (data : List UInt8) : List UInt8 :=
  (if fresh then [0x78, 0x01] else []) ++
    [0, UInt8.ofNat data.length, UInt8.ofNat (data.length / 256),
      ~~~ UInt8.ofNat data.length, ~~~ UInt8.ofNat (data.length / 256)] ++ data

def storing : Deflater Bool where
  new := true
  Deflates fresh data bytes fresh' :=
    data.length < 2 ^ 16 ∧ bytes = stored fresh data ∧ fresh' = false

def stores : Zlib Bool where
  new := true
  decompress fresh bytes :=
    let block := if fresh then bytes.drop 2 else bytes
    match block with
    | 0 :: _ :: _ :: _ :: _ :: data => ([.ok data], false)
    | _ => ([.error (.corruptStream "zlib")], fresh)

theorem stores_stored (fresh : Bool) (data : List UInt8) :
    stores.decompress fresh (stored fresh data) = ([.ok data], false) := by
  cases fresh <;> rfl

theorem inverts_stores : Inverts storing stores := by
  rintro s z data bytes s' hsync ⟨_, rfl, _⟩
  have hsame : s = z := by
    induction hsync with
    | new => rfl
    | next _ hdeflates ih =>
      obtain ⟨_, rfl, rfl⟩ := hdeflates
      rw [← ih, stores_stored]
  rw [← hsame, stores_stored]
  exact ⟨[data], rfl, List.append_nil data⟩

/-- Four pixels of a gradient on the third stream, which begins anew. -/
theorem readTightRect_shows_gradient :
    let picture : Nat → Nat → Rgb := fun x y => ⟨UInt8.ofNat (200 * x), UInt8.ofNat (9 * y), 7⟩
    let rect : Rect := ⟨1, 0, 2, 2⟩
    let bytes := 0x64 :: 2 :: 19 :: stored true (gradientBytes picture rect)
    ∃ wire conn', readTightRect stores (fun _ => none) .rgba32 rect
        ⟨bytes ++ [0xFF], ⟨3, 2, List.replicate 24 0⟩, fun _ => false⟩ = (.ok wire, conn') ∧
      conn'.input = [0xFF] ∧ ShowsPicture picture rect conn'.framebuffer := by
  intro picture rect bytes
  have hfirst : storing.Deflates true [] (stored true []) false := ⟨by decide, rfl, rfl⟩
  have hused : Synced storing stores false false := Synced.next .new hfirst
  have hdeflates : storing.Deflates true (gradientBytes picture rect)
      (stored true (gradientBytes picture rect)) false :=
    ⟨by rw [length_gradientBytes]; decide, rfl, rfl⟩
  have hpayload : Payload storing (begin storing 4 (fun _ => false) 2) (gradientBytes picture rect)
      (19 :: stored true (gradientBytes picture rect)) false :=
    .compressed (by rw [length_gradientBytes]; decide) hdeflates (by decide)
  have henc : Encodes storing picture rect (fun _ => false) bytes
      (Function.update (begin storing 4 fun _ => false) 2 false) :=
    .basic (by decide : 4 < 16) .gradient (.explicit : Header .gradient [] true _) hpayload
  obtain ⟨wire, conn', hread, hinput, -, hshows, -⟩ := readTightRect_shows storing stores
    (fun _ => none) inverts_stores picture rect
    ⟨bytes ++ [0xFF], ⟨3, 2, List.replicate 24 0⟩, fun _ => false⟩ (fun _ => false) _ bytes [0xFF]
    ⟨by decide, by decide, by decide, rfl⟩ rfl (fun _ => hused) henc rfl
  exact ⟨wire, conn', hread, hinput, hshows⟩

end Dolgate.Vnc.Tight
