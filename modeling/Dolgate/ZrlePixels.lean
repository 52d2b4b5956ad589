import Dolgate.ZrleEncoding
import Dolgate.ZrleSafe

set_option autoImplicit false

/-! ZRLE shows the picture that has been encoded, however the encoder has chosen to write it, and
reads its bytes to the last. -/

namespace Dolgate.Vnc.Zrle
open Checked

/-- The reader is in front of `rest`. -/
structure Reader.Left (data rest : List UInt8) (reader : Reader) : Prop where
  data_eq : reader.data = data
  drop_eq : data.drop reader.offset = rest
  offset_le : reader.offset ≤ data.length
  length_lt : data.length < 2 ^ 64

theorem Reader.Left.remaining {data rest : List UInt8} {reader : Reader}
    (h : reader.Left data rest) : reader.data.length - reader.offset = rest.length := by
  rw [h.data_eq, ← h.drop_eq, List.length_drop]

section

variable {σ : Type} {t : σ} {E : σ → Prop} {data rest : List UInt8} {reader : Reader}

theorem wp_byte_left {byte : UInt8} {Q : UInt8 × Reader → σ → Prop}
    (h : reader.Left data (byte :: rest))
    (hQ : ∀ reader', reader'.Left data rest → Q (byte, reader') t) : wp reader.byte Q E t := by
  have hbyte : reader.data[reader.offset]? = some byte := by
    have hfirst := congrArg (·[0]?) h.drop_eq
    simpa [List.getElem?_drop, h.data_eq] using hfirst
  have hlt := (List.getElem?_eq_some_iff.mp hbyte).1
  have hmax := h.length_lt
  rw [h.data_eq] at hlt
  refine wp_bind.mpr (wp_orFail_some hbyte (wp_bind.mpr (wp_usize (by omega) ?_)))
  refine hQ _ ⟨h.data_eq, ?_, hlt, hmax⟩
  rw [← List.drop_drop, h.drop_eq]
  rfl

theorem wp_take_left {bytes : List UInt8} {count : Nat} {Q : List UInt8 × Reader → σ → Prop}
    (h : reader.Left data (bytes ++ rest)) (hlen : bytes.length = count)
    (hQ : ∀ reader', reader'.Left data rest → Q (bytes, reader') t) :
    wp (reader.take count) Q E t := by
  have hmax := h.length_lt
  have hle := h.offset_le
  have hroom := congrArg List.length h.drop_eq
  rw [List.length_drop, List.length_append, hlen] at hroom
  have hstop : checkedAdd reader.offset count = some (reader.offset + count) :=
    if_pos (by omega)
  refine wp_bind.mpr (wp_orFail_some hstop ?_)
  refine wp_ite (fun hshort => ?_) fun _ => ?_
  · rw [h.data_eq] at hshort
    omega
  · refine wp_bind.mpr (wp_slice_eq (by omega) (by rw [h.data_eq]; omega) ?_)
    rw [h.data_eq, List.drop_take, h.drop_eq, Nat.add_sub_cancel_left,
      List.take_left' hlen]
    refine hQ _ ⟨rfl, ?_, by dsimp only; omega, hmax⟩
    dsimp only
    rw [← List.drop_drop, h.drop_eq, List.drop_left' hlen]

theorem wp_readPixel_left {colour : Rgb} {Q : Rgba × Reader → σ → Prop}
    (h : reader.Left data (colour.bytes ++ rest))
    (hQ : ∀ reader', reader'.Left data rest → Q (colour.rgba, reader') t) :
    wp (readPixel rgb24 reader) Q E t :=
  wp_bind.mpr (wp_take_left h rfl fun reader' h' => wp_bind.mpr (hQ reader' h'))

theorem wp_readAll {γ α : Type} (xs : List γ) (written : γ → List UInt8) (value : List γ → α)
    {body : Nat → α × Reader → Comp σ DecodeError (α × Reader)} {Q : α × Reader → σ → Prop}
    (hbody : ∀ i (hi : i < xs.length) (reader : Reader) (rest : List UInt8)
      (Q' : α × Reader → σ → Prop), reader.Left data (written xs[i] ++ rest) →
      (∀ reader', reader'.Left data rest → Q' (value (xs.take (i + 1)), reader') t) →
      wp (body i (value (xs.take i), reader)) Q' E t)
    (h : reader.Left data (xs.flatMap written ++ rest))
    (hQ : ∀ reader', reader'.Left data rest → Q (value xs, reader') t) :
    wp (forRange xs.length body (value [], reader)) Q E t := by
  refine wp_forRange (fun i p t' => p.1 = value (xs.take i) ∧
    p.2.Left data ((xs.drop i).flatMap written ++ rest) ∧ t' = t) ⟨rfl, h, rfl⟩ ?_ ?_
  · rintro i ⟨a, reader'⟩ t' hi ⟨rfl, h', rfl⟩
    rw [List.drop_eq_getElem_cons hi, List.flatMap_cons, List.append_assoc] at h'
    exact hbody i hi reader' _ _ h' fun reader'' h'' => ⟨rfl, h'', rfl⟩
  · rintro ⟨a, reader'⟩ t' ⟨rfl, h', rfl⟩
    rw [List.take_length]
    rw [List.drop_length] at h'
    exact hQ reader' h'

theorem wp_readPalette_left {palette : List Rgb} {Q : List Rgba × Reader → σ → Prop}
    (h : reader.Left data (palette.flatMap Rgb.bytes ++ rest))
    (hQ : ∀ reader', reader'.Left data rest → Q (palette.map Rgb.rgba, reader') t) :
    wp (readPalette reader rgb24 palette.length) Q E t := by
  refine wp_readAll palette Rgb.bytes (List.map Rgb.rgba) ?_ h hQ
  intro i hi reader' rest' Q' h' hQ'
  refine wp_bind.mpr (wp_readPixel_left h' fun reader'' h'' => ?_)
  rw [List.take_succ_eq_append_getElem hi, List.map_append] at hQ'
  exact hQ' reader'' h''

theorem wp_rawTile_left {colours : List Rgb} {Q : List UInt8 × Reader → σ → Prop}
    (h : reader.Left data (colours.flatMap Rgb.bytes ++ rest))
    (hQ : ∀ reader', reader'.Left data rest → Q (rgbaBytes colours, reader') t) :
    wp (rawTile colours.length rgb24 reader) Q E t := by
  refine wp_readAll colours Rgb.bytes rgbaBytes ?_ h hQ
  intro i hi reader' rest' Q' h' hQ'
  refine wp_bind.mpr (wp_readPixel_left h' fun reader'' h'' => ?_)
  rw [rgbaBytes_take_succ hi] at hQ'
  exact hQ' reader'' h''

/-! ### Packed indices -/

theorem index_lt {size index : Nat} (hsize : size ≤ 16) (h : index < size) :
    index < 2 ^ indexBits size := by
  unfold indexBits
  split
  · omega
  · split <;> omega

theorem wp_packedPixel_left {palette colours : List Rgb} {indices : List Nat} {row : List UInt8}
    {column : Nat} {colour : Rgb} {Q : Rgba → σ → Prop} (hsize : palette.length ≤ 16)
    (h : Packed (indexBits palette.length) indices row)
    (hcolours : indices.map (palette[·]?) = colours.map some) (hcolumn : colours[column]? = some colour)
    (hQ : Q colour.rgba t) :
    wp (packedPixel (palette.map Rgb.rgba) (indexBits palette.length) row column) Q E t := by
  have hentry := congrArg (·[column]?) hcolours
  simp only [List.getElem?_map, hcolumn, Option.map_some] at hentry
  obtain ⟨index, hindex, hpalette⟩ := Option.map_eq_some_iff.mp hentry
  have hlt := (List.getElem?_eq_some_iff.mp hpalette).1
  have hbits := indexBits_eq palette.length
  obtain ⟨byte, hbyte, hvalue⟩ := h.index_eq hbits hindex (index_lt hsize hlt)
  have hin := (List.getElem?_eq_some_iff.mp hbyte).1
  have hplace : indexBits palette.length ≤ 8 ∧
      column * indexBits palette.length % 8 ≤ 8 - indexBits palette.length := by
    rcases hbits with heq | heq | heq <;> rw [heq] <;> omega
  refine wp_bind.mpr (wp_index hin ?_)
  refine wp_bind.mpr (wp_sub hplace.1 (wp_bind.mpr (wp_sub hplace.2 ?_)))
  refine wp_orFail_some ?_ hQ
  rw [List.getElem?_eq_getElem hin] at hbyte
  rw [Option.some.inj hbyte, hvalue, List.getElem?_map, hpalette]
  rfl

theorem wp_packedTile_left {tile : Rect} {palette : List Rgb} {indices : Nat → List Nat}
    {rows : Nat → List UInt8} {colours : Nat → List Rgb} {Q : List UInt8 × Reader → σ → Prop}
    (hsize : palette.length ≤ 16)
    (hrows : ∀ row, row < tile.height → Packed (indexBits palette.length) (indices row) (rows row))
    (hwidth : ∀ row, row < tile.height → (indices row).length = tile.width)
    (hcolours : ∀ row, row < tile.height →
      (indices row).map (palette[·]?) = (colours row).map some)
    (h : reader.Left data ((List.range tile.height).flatMap rows ++ rest))
    (hQ : ∀ reader', reader'.Left data rest →
      Q (rgbaBytes ((List.range tile.height).flatMap colours), reader') t) :
    wp (packedTile tile (palette.map Rgb.rgba) (indexBits palette.length) reader) Q E t := by
  rw [packedTile, ← List.length_range (n := tile.height)]
  refine wp_readAll (List.range tile.height) rows (fun done => rgbaBytes (done.flatMap colours)) ?_ h
    hQ
  intro i hi reader' rest' Q' h' hQ'
  have hi' : i < tile.height := by rwa [List.length_range] at hi
  rw [List.getElem_range] at h'
  have hlen : (colours i).length = tile.width := by
    have hlengths := congrArg List.length (hcolours i hi')
    rw [List.length_map, List.length_map, hwidth i hi'] at hlengths
    exact hlengths.symm
  rw [List.take_succ_eq_append_getElem hi, List.getElem_range, List.flatMap_append,
    List.flatMap_singleton] at hQ'
  refine wp_bind.mpr (wp_take_left h' (by rw [(hrows i hi').length, hwidth i hi']) ?_)
  intro reader'' h''
  refine wp_bind.mpr (wp_forRange (fun column pixels t' => pixels =
    rgbaBytes (((List.range tile.height).take i).flatMap colours ++ (colours i).take column) ∧
      t' = t) ⟨by rw [List.take_zero, List.append_nil], rfl⟩ ?_ ?_)
  · rintro column pixels t' hcolumn ⟨rfl, rfl⟩
    have hin : column < (colours i).length := by omega
    refine wp_bind.mpr (wp_packedPixel_left hsize (hrows i hi') (hcolours i hi')
      (List.getElem?_eq_getElem hin) ⟨?_, rfl⟩)
    rw [rgbaBytes_append, rgbaBytes_append, rgbaBytes_take_succ hin, List.append_assoc]
  · rintro pixels t' ⟨rfl, rfl⟩
    rw [← hlen, List.take_length]
    exact hQ' reader'' h''

/-! ### Runs -/

theorem wp_readRunLength_left {run : Nat} {Q : Nat × Reader → σ → Prop} (hrun : 0 < run)
    (hmax : run < 2 ^ 64) (h : reader.Left data (runLength run ++ rest))
    (hQ : ∀ reader', reader'.Left data rest → Q (run, reader') t) :
    wp (readRunLength reader) Q E t := by
  -- `k` bytes of 255 have been read, or all that there is of the length
  refine wp_bind.mpr (wp_while (fun (p : Nat × Reader × Bool) t' =>
      ((p.2.2 = true ∧ ∃ k, k ≤ (run - 1) / 255 ∧ p.1 = 1 + 255 * k ∧
        p.2.1.Left data (List.replicate ((run - 1) / 255 - k) 255 ++
          UInt8.ofNat ((run - 1) % 255) :: rest)) ∨
        (p.2.2 = false ∧ p.1 = run ∧ p.2.1.Left data rest)) ∧ t' = t)
    (fun p => if p.2.2 then p.2.1.data.length - p.2.1.offset + 1 else 0) ?_ ?_ ?_ ?_)
  · refine ⟨.inl ⟨rfl, 0, Nat.zero_le _, rfl, ?_⟩, rfl⟩
    rw [runLength, List.append_assoc] at h
    exact h
  · simp only [if_true]
    omega
  · rintro ⟨acc, reader', more⟩ t' ⟨⟨hmore, k, hk, hacc, h'⟩ | ⟨hmore, -, -⟩, rfl⟩ hcond
    · dsimp only at hmore hacc h'
      subst hmore hacc
      have hsum : 255 * ((run - 1) / 255) + (run - 1) % 255 = run - 1 := Nat.div_add_mod _ _
      have hmod : (run - 1) % 255 < 255 := Nat.mod_lt _ (by decide)
      have hlast : (UInt8.ofNat ((run - 1) % 255)).toNat = (run - 1) % 255 :=
        UInt8.toNat_ofNat_of_lt' (by change (run - 1) % 255 < 256; omega)
      by_cases hend : k = (run - 1) / 255
      · rw [hend, Nat.sub_self, List.replicate_zero, List.nil_append] at h'
        refine wp_bind.mpr (wp_byte_left h' fun reader'' h'' => ?_)
        refine wp_bind.mpr (wp_usize (by rw [hlast]; omega) ?_)
        have hmore : (UInt8.ofNat ((run - 1) % 255) == 255) = false := by
          rw [beq_eq_false_iff_ne]
          intro heq
          rw [heq] at hlast
          have h255 : (255 : UInt8).toNat = 255 := rfl
          omega
        rw [hmore]
        refine ⟨⟨.inr ⟨rfl, ?_, h''⟩, rfl⟩, ?_⟩
        · dsimp only
          rw [hlast]
          omega
        · exact Nat.succ_pos _
      · have hsucc : (run - 1) / 255 - k = (run - 1) / 255 - (k + 1) + 1 := by omega
        rw [hsucc, List.replicate_succ, List.cons_append] at h'
        have hlen := h'.remaining
        rw [List.length_cons] at hlen
        refine wp_bind.mpr (wp_byte_left h' fun reader'' h'' => ?_)
        have h255 : (255 : UInt8).toNat = 255 := rfl
        refine wp_bind.mpr (wp_usize (by rw [h255]; omega) ?_)
        refine ⟨⟨.inl ⟨rfl, k + 1, by omega, ?_, h''⟩, rfl⟩, ?_⟩
        · dsimp only
          rw [h255]
          omega
        · have hlen' := h''.remaining
          change reader''.data.length - reader''.offset + 1 <
            reader'.data.length - reader'.offset + 1
          omega
    · dsimp only at hmore
      subst hmore
      cases hcond
  · rintro ⟨acc, reader', more⟩ t' ⟨⟨hmore, -⟩ | ⟨-, hacc, h'⟩, rfl⟩ hdone
    · dsimp only at hmore
      subst hmore
      cases hdone
    · dsimp only at hacc h'
      rw [hacc]
      exact hQ reader' h'

theorem extendRun_eq {colour : Rgb} {size run : Nat} {pixels : List UInt8}
    (hfits : pixels.length + run * 4 ≤ size) :
    extendRun colour.rgba size run pixels = pixels ++ rgbaBytes (List.replicate run colour) := by
  induction run generalizing pixels with
  | zero => exact (List.append_nil pixels).symm
  | succ run ih =>
    have hlen : (pixels ++ colour.rgba.bytes).length = pixels.length + 4 := by
      rw [List.length_append, Rgba.length_bytes]
    rw [extendRun, List.replicate_succ]
    split
    · have hlast : run = 0 := by omega
      rw [hlast]
      rfl
    · rw [ih (by omega), List.append_assoc]
      rfl

def ReadsWritten (next : Reader → Comp σ DecodeError ((Rgba × Nat) × Reader))
    (written : Rgb → Nat → List UInt8 → Prop) (data : List UInt8) (E : σ → Prop) (t : σ) : Prop :=
  ∀ (colour : Rgb) (run : Nat) (bytes rest : List UInt8) (reader : Reader)
    (Q : (Rgba × Nat) × Reader → σ → Prop), written colour run bytes → 0 < run → run < 2 ^ 64 →
    reader.Left data (bytes ++ rest) →
    (∀ reader', reader'.Left data rest → Q ((colour.rgba, run), reader') t) →
    wp (next reader) Q E t

theorem readsWritten_plainRun : ReadsWritten (plainRun rgb24)
    (fun colour run bytes => bytes = colour.bytes ++ runLength run) data E t := by
  rintro colour run _ rest reader Q rfl hrun hmax h hQ
  rw [List.append_assoc] at h
  refine wp_bind.mpr (wp_readPixel_left h fun reader' h' => ?_)
  exact wp_bind.mpr (wp_readRunLength_left hrun hmax h' hQ)

theorem readsWritten_paletteRun {palette : List Rgb} (hsize : palette.length ≤ 127) :
    ReadsWritten (paletteRun (palette.map Rgb.rgba)) (PaletteRun palette) data E t := by
  rintro colour run bytes rest reader Q hwritten hrun hmax h hQ
  have hentry : ∀ index, palette[index]? = some colour →
      index < 128 ∧ (palette.map Rgb.rgba)[index]? = some colour.rgba := by
    intro index hindex
    have hlt := (List.getElem?_eq_some_iff.mp hindex).1
    refine ⟨by omega, ?_⟩
    rw [List.getElem?_map, hindex]
    rfl
  cases hwritten with
  | @one index _ hindex =>
    obtain ⟨hlt, hcolour⟩ := hentry index hindex
    obtain ⟨⟨hvalue, hbit⟩, -⟩ := seven_bits index hlt
    refine wp_bind.mpr (wp_byte_left h fun reader' h' => ?_)
    refine wp_bind.mpr (wp_orFail_some (by rw [hvalue]; exact hcolour) ?_)
    exact wp_ite (fun hset => absurd hbit hset) fun _ => hQ reader' h'
  | @more index _ _ hindex _ =>
    obtain ⟨hlt, hcolour⟩ := hentry index hindex
    obtain ⟨-, hvalue, hbit⟩ := seven_bits index hlt
    refine wp_bind.mpr (wp_byte_left h fun reader' h' => ?_)
    refine wp_bind.mpr (wp_orFail_some (by rw [hvalue]; exact hcolour) ?_)
    refine wp_ite (fun _ => ?_) fun hclear => absurd hbit hclear
    exact wp_bind.mpr (wp_readRunLength_left hrun hmax h' hQ)

theorem Runs.eq_nil {written : Rgb → Nat → List UInt8 → Prop} {colours : List Rgb}
    {bytes : List UInt8} (h : Runs written colours bytes) (hnil : colours = []) : bytes = [] := by
  cases h with
  | nil => rfl
  | cons _ hrun _ =>
    have hlen := congrArg List.length hnil
    rw [List.length_append, List.length_replicate, List.length_nil] at hlen
    omega

theorem wp_runsTile_left {next : Reader → Comp σ DecodeError ((Rgba × Nat) × Reader)}
    {written : Rgb → Nat → List UInt8 → Prop} {colours : List Rgb} {bytes : List UInt8}
    {Q : List UInt8 × Reader → σ → Prop} (hnext : ReadsWritten next written data E t)
    (hcount : colours.length ≤ 64 * 64) (hruns : Runs written colours bytes)
    (h : reader.Left data (bytes ++ rest))
    (hQ : ∀ reader', reader'.Left data rest → Q (rgbaBytes colours, reader') t) :
    wp (runsTile next colours.length reader) Q E t := by
  refine wp_bind.mpr (wp_usize (by omega) ?_)
  refine wp_while (fun (p : List UInt8 × Reader) t' => (∃ done todo bytes',
      done ++ todo = colours ∧ p.1 = rgbaBytes done ∧ Runs written todo bytes' ∧
        p.2.Left data (bytes' ++ rest)) ∧ t' = t)
    (fun p => colours.length * 4 - p.1.length)
    ⟨⟨[], colours, bytes, rfl, rfl, hruns, h⟩, rfl⟩ (by simp only; omega) ?_ ?_
  · rintro ⟨pixels, reader'⟩ t' ⟨⟨done, todo, bytes', rfl, hpixels, hruns', h'⟩, rfl⟩ hcond
    dsimp only at hpixels h' hcond
    have hlt : pixels.length < (done ++ todo).length * 4 := of_decide_eq_true hcond
    rw [hpixels, length_rgbaBytes, List.length_append] at hlt
    cases hruns' with
    | nil =>
      rw [List.length_nil] at hlt
      omega
    | @cons colour run _ rest' colours' hwritten hrun hrest =>
      rw [List.length_append, List.length_replicate] at hlt
      rw [List.length_append, List.length_append, List.length_replicate] at hcount
      rw [List.append_assoc] at h'
      refine wp_bind.mpr (hnext colour run _ _ reader' _ hwritten hrun (by omega) h' ?_)
      intro reader'' h''
      have hextend : extendRun colour.rgba
          ((done ++ (List.replicate run colour ++ colours')).length * 4) run pixels =
            rgbaBytes (done ++ List.replicate run colour) := by
        rw [extendRun_eq, hpixels, rgbaBytes_append]
        rw [hpixels, length_rgbaBytes, List.length_append, List.length_append,
          List.length_replicate]
        omega
      refine ⟨⟨⟨done ++ List.replicate run colour, colours', rest', ?_, hextend, hrest, h''⟩, rfl⟩,
        ?_⟩
      · rw [List.append_assoc]
      · dsimp only
        rw [hextend, hpixels, length_rgbaBytes, length_rgbaBytes, List.length_append,
          List.length_append, List.length_append, List.length_replicate]
        omega
  · rintro ⟨pixels, reader'⟩ t' ⟨⟨done, todo, bytes', rfl, hpixels, hruns', h'⟩, rfl⟩ hcond
    dsimp only at hpixels h' hcond
    have hge : ¬ pixels.length < (done ++ todo).length * 4 := of_decide_eq_false hcond
    rw [hpixels, length_rgbaBytes, List.length_append] at hge
    have hnil : todo = [] := List.length_eq_zero_iff.mp (by omega)
    subst hnil
    rw [List.append_nil] at hQ
    rw [hruns'.eq_nil rfl] at h'
    exact hpixels ▸ hQ reader' h'

theorem wp_tilePixels_left {tile : Rect} {colours : List Rgb} {subencoding : UInt8}
    {bytes : List UInt8} {Q : List UInt8 × Reader → σ → Prop} (hwidth : tile.width ≤ 64)
    (hheight : tile.height ≤ 64) (hlen : colours.length = tile.width * tile.height)
    (henc : TileEncoding tile.width tile.height colours (subencoding :: bytes))
    (hsolid : subencoding ≠ 1) (h : reader.Left data (bytes ++ rest))
    (hQ : ∀ reader', reader'.Left data rest → Q (rgbaBytes colours, reader') t) :
    wp (tilePixels tile rgb24 subencoding reader) Q E t := by
  have harea : tile.width * tile.height ≤ 64 * 64 := Nat.mul_le_mul hwidth hheight
  refine wp_bind.mpr (wp_usize (by omega) ?_)
  rw [← hlen]
  rw [← hlen] at harea
  generalize hall : subencoding :: bytes = all at henc
  cases henc with
  | raw =>
    obtain ⟨rfl, rfl⟩ := List.cons.inj hall
    exact wp_ite (fun _ => wp_rawTile_left h hQ) fun hne => absurd rfl hne
  | solid => exact absurd (List.cons.inj hall).1 hsolid
  | @packed palette indices rows colours hpalette hrows hw hcolours =>
    obtain ⟨rfl, rfl⟩ := List.cons.inj hall
    have hsize : (UInt8.ofNat palette.length).toNat = palette.length := toNat_size (by omega)
    rw [List.append_assoc] at h
    refine wp_ite (fun heq => ?_) fun _ => ?_
    · rw [heq] at hsize
      have hzero : (0 : UInt8).toNat = 0 := rfl
      omega
    refine wp_ite (fun _ => ?_) fun hnot => ?_
    · rw [hsize]
      refine wp_bind.mpr (wp_readPalette_left h fun reader' h' => ?_)
      exact wp_packedTile_left hpalette.2 hrows hw hcolours h' hQ
    · refine absurd ⟨?_, ?_⟩ hnot
      · rw [UInt8.le_iff_toNat_le, hsize]
        exact hpalette.1
      · rw [UInt8.le_iff_toNat_le, hsize]
        exact hpalette.2
  | plainRle hruns =>
    obtain ⟨rfl, rfl⟩ := List.cons.inj hall
    refine wp_ite (fun heq => absurd heq (by decide)) fun _ => ?_
    refine wp_ite (fun hin => absurd hin (by decide)) fun _ => ?_
    exact wp_ite (fun _ => wp_runsTile_left readsWritten_plainRun harea hruns h hQ)
      fun hne => absurd rfl hne
  | @paletteRle palette _ runs hpalette hruns =>
    obtain ⟨rfl, rfl⟩ := List.cons.inj hall
    have hsize : (UInt8.ofNat (128 + palette.length)).toNat = 128 + palette.length :=
      toNat_size (by omega)
    rw [List.append_assoc] at h
    refine wp_ite (fun heq => ?_) fun _ => ?_
    · rw [heq] at hsize
      have hzero : (0 : UInt8).toNat = 0 := rfl
      omega
    refine wp_ite (fun hin => ?_) fun _ => ?_
    · have hle : (UInt8.ofNat (128 + palette.length)).toNat ≤ 16 :=
        UInt8.le_iff_toNat_le.mp hin.2
      omega
    refine wp_ite (fun heq => ?_) fun _ => ?_
    · rw [heq] at hsize
      have hzero : (128 : UInt8).toNat = 128 := rfl
      omega
    refine wp_ite (fun _ => ?_) fun hnot => ?_
    · refine wp_bind.mpr (wp_sub (by omega) ?_)
      rw [hsize, Nat.add_sub_cancel_left]
      refine wp_bind.mpr (wp_readPalette_left h fun reader' h' => ?_)
      exact wp_runsTile_left (readsWritten_paletteRun hpalette.2) harea hruns h' hQ
    · refine absurd ?_ hnot
      rw [UInt8.le_iff_toNat_le, hsize]
      change 130 ≤ 128 + palette.length
      omega

end

/-! ### Tiles -/

section

variable {picture : Nat → Nat → Rgb} {rect tile : Rect} {fb₀ fb : Framebuffer}
  {data rest : List UInt8} {reader : Reader}

theorem wp_decodeTile_left {bytes : List UInt8} {Q : Reader → Framebuffer → Prop}
    {E : Framebuffer → Prop} (hfb : fb.Valid) (htile : fb.contains tile = true)
    (hwidth : tile.width ≤ 64) (hheight : tile.height ≤ 64)
    (henc : TileEncoding tile.width tile.height (coloursIn picture tile) bytes)
    (h : reader.Left data (bytes ++ rest))
    (hQ : ∀ reader' fb', reader'.Left data rest → SameOutside tile fb fb' →
      ShowsPicture picture tile fb' → Q reader' fb') : wp (decodeTile tile rgb24 reader) Q E fb := by
  obtain ⟨subencoding, bytes, rfl, hone⟩ := henc.uncons
  refine wp_bind.mpr (wp_byte_left h fun reader' h' => ?_)
  refine wp_ite (fun hsolid => ?_) fun hsolid => ?_
  · obtain ⟨colour, hcolours, rfl⟩ := hone hsolid
    refine wp_bind.mpr (wp_readPixel_left h' fun reader'' h'' => ?_)
    refine wp_bind.mpr (wp_fill hfb htile fun fb' hsame hshows => ?_)
    refine hQ reader'' fb' h'' hsame (shows_of_showsIn hshows ?_)
    intro column row hcolumn hrow
    have hentry := @getElem?_coloursIn picture _ _ _ hcolumn hrow
    rw [hcolours, List.getElem?_replicate] at hentry
    split at hentry
    · rw [Option.some.inj hentry]
    · cases hentry
  · refine wp_bind.mpr (wp_tilePixels_left hwidth hheight length_coloursIn henc hsolid h' ?_)
    intro reader'' h''
    have hlen : (rgbaBytes (coloursIn picture tile)).length = tile.width * tile.height * 4 := by
      rw [length_rgbaBytes, length_coloursIn]
    refine wp_bind.mpr (wp_writeRgba hfb htile hlen fun fb' hsame hshows => ?_)
    refine hQ reader'' fb' h'' hsame (shows_of_showsIn hshows ?_)
    intro column row hcolumn hrow
    exact pixelAt_rgbaBytes (getElem?_coloursIn hcolumn hrow)

/-- All above `tileY` is shown, and of the tiles there what is before `tileX`. -/
structure Tiled (picture : Nat → Nat → Rgb) (rect : Rect) (fb₀ : Framebuffer)
    (tileX tileY height : Nat) (fb : Framebuffer) : Prop where
  same : SameOutside rect fb₀ fb
  above : ∀ x y, rect.covers x y → y < tileY → fb.pixel x y = (picture x y).rgba.bytes
  before : ∀ x y, rect.covers x y → y < tileY + height → x < tileX →
    fb.pixel x y = (picture x y).rgba.bytes

theorem Tiled.next {tileX tileY width height : Nat} {fb' : Framebuffer}
    (h : Tiled picture rect fb₀ tileX tileY height fb) (hrect : fb.contains rect = true)
    (hcovers : ∀ x y, (Rect.mk tileX tileY width height).covers x y → rect.covers x y)
    (hsame : SameOutside ⟨tileX, tileY, width, height⟩ fb fb')
    (hshows : ShowsPicture picture ⟨tileX, tileY, width, height⟩ fb') :
    Tiled picture rect fb₀ (tileX + width) tileY height fb' := by
  have ⟨hx, hy⟩ := contains_iff.mp hrect
  have hkept : ∀ x y, rect.covers x y → ¬ (Rect.mk tileX tileY width height).covers x y →
      fb'.pixel x y = fb.pixel x y := by
    rintro x y ⟨⟨_, hright⟩, _, hbottom⟩ hnot
    exact hsame.pixel x y (by omega) (by omega) hnot
  refine ⟨h.same.trans (hsame.mono hcovers), ?_, ?_⟩
  · intro x y hin habove
    rw [hkept x y hin (by simp only [Rect.covers]; omega)]
    exact h.above x y hin habove
  · intro x y hin hbottom hright
    by_cases htile : (Rect.mk tileX tileY width height).covers x y
    · exact hshows x y htile
    · rw [hkept x y hin htile]
      by_cases habove : y < tileY
      · exact h.above x y hin habove
      · refine h.before x y hin hbottom ?_
        simp only [Rect.covers] at htile
        omega

theorem flatMap_range'_succ {f : Nat → List UInt8} {k n : Nat} (h : k < n) :
    (List.range' k (n - k)).flatMap f = f k ++ (List.range' (k + 1) (n - (k + 1))).flatMap f := by
  have hsucc : n - k = n - (k + 1) + 1 := by omega
  rw [hsucc, List.range'_succ, List.flatMap_cons]

theorem wp_tileRow_left {part : Nat → List UInt8} {row : Nat} {Q : Reader → Framebuffer → Prop}
    {E : Framebuffer → Prop} (hfb : fb₀.Valid) (hrect : fb₀.contains rect = true)
    (hrow : row < tileCount rect.height)
    (henc : ∀ column, column < tileCount rect.width →
      TileEncoding (tileAt rect column row).width (tileAt rect column row).height
        (coloursIn picture (tileAt rect column row)) (part column))
    (hs : Tiled picture rect fb₀ rect.x (rect.y + row * 64) (min 64 (rect.height - row * 64)) fb)
    (h : reader.Left data ((List.range (tileCount rect.width)).flatMap part ++ rest))
    (hQ : ∀ reader' fb', reader'.Left data rest →
      Tiled picture rect fb₀ rect.x (rect.y + row * 64 + min 64 (rect.height - row * 64)) 0 fb' →
        Q reader' fb') :
    wp (tileRow rect rgb24 (rect.y + row * 64) (min 64 (rect.height - row * 64)) reader) Q E fb := by
  have ⟨hx, hy⟩ := contains_iff.mp hrect
  have hmax := hfb.width_lt
  unfold tileCount at hrow henc h
  refine wp_bind.mpr (wp_u16 (by omega) ?_)
  refine wp_bind.mpr (wp_while (fun (p : Nat × Reader) fb' => ∃ k, k ≤ (rect.width + 63) / 64 ∧
      p.1 = rect.x + min (k * 64) rect.width ∧
      p.2.Left data ((List.range' k ((rect.width + 63) / 64 - k)).flatMap part ++ rest) ∧
      Tiled picture rect fb₀ p.1 (rect.y + row * 64) (min 64 (rect.height - row * 64)) fb')
    (fun p => rect.x + rect.width - p.1) ?_ (by simp only; omega) ?_ ?_)
  · refine ⟨0, Nat.zero_le _, by simp, ?_, hs⟩
    rw [Nat.sub_zero, ← List.range_eq_range']
    exact h
  · rintro ⟨tileX, reader'⟩ fb' ⟨k, hk, htileX, h', hs'⟩ hcond
    dsimp only at htileX h' hs'
    have hlt : tileX < rect.x + rect.width := of_decide_eq_true hcond
    have hside : tileSide = 64 := rfl
    have hnext : k < (rect.width + 63) / 64 := by omega
    have hleft : tileX = rect.x + k * 64 := by omega
    have hwidth : min tileSide (rect.x + rect.width - tileX) = min 64 (rect.width - k * 64) := by
      omega
    have htile : (Rect.mk tileX (rect.y + row * 64)
        (min tileSide (rect.x + rect.width - tileX)) (min 64 (rect.height - row * 64))) =
        tileAt rect k row := by
      rw [hwidth, hleft]
      rfl
    have hcovers : ∀ x y, (tileAt rect k row).covers x y → rect.covers x y := by
      intro x y
      simp only [Rect.covers, tileAt]
      omega
    have hrect' : fb'.contains rect = true := (hs'.same.contains rect).trans hrect
    have hintile : fb'.contains (tileAt rect k row) = true := by
      have ⟨hx', hy'⟩ := contains_iff.mp hrect'
      exact contains_iff.mpr ⟨by simp only [tileAt]; omega, by simp only [tileAt]; omega⟩
    rw [flatMap_range'_succ hnext, List.append_assoc] at h'
    refine wp_bind.mpr (wp_sub (by omega) ?_)
    refine wp_bind.mpr ?_
    rw [htile]
    refine wp_decodeTile_left (hfb.of_sameOutside hs'.same) hintile (Nat.min_le_left _ _)
      (Nat.min_le_left _ _) (henc k hnext) h' ?_
    intro reader'' fb'' h'' hsame hshows
    rw [← htile] at hsame hshows hcovers
    refine wp_bind.mpr (wp_u16 (by omega) ⟨⟨k + 1, by omega, ?_, h'', ?_⟩, ?_⟩)
    · dsimp only
      omega
    · exact hs'.next hrect' hcovers hsame hshows
    · dsimp only
      omega
  · rintro ⟨tileX, reader'⟩ fb' ⟨k, hk, htileX, h', hs'⟩ hcond
    dsimp only at htileX h' hs'
    have hge : ¬ tileX < rect.x + rect.width := of_decide_eq_false hcond
    have hend : (rect.width + 63) / 64 - k = 0 := by omega
    rw [hend] at h'
    refine hQ reader' fb' h' ⟨hs'.same, ?_, ?_⟩
    · intro x y hin habove
      exact hs'.before x y hin habove (by have hright := hin.1.2; omega)
    · intro x y hin _ hleft
      exact absurd hin.1.1 (Nat.not_le.mpr hleft)

/-- The loop of `apply`, with the reader that it ends with. -/
def decodeTiles (rect : Rect) (cpixel : CompressedPixel) (reader : Reader) :
    Decoder (Nat × Reader) := do
  let bottom ← u16 (rect.y + rect.height)
  whileLoop (fun (tileY, _) => tileY < bottom) (fun (tileY, reader) => do
    let height := min tileSide (← sub bottom tileY)
    let reader ← tileRow rect cpixel tileY height reader
    return (← u16 (tileY + height), reader)) (rect.height + 1) (rect.y, reader)

theorem apply_of_decodeTiles {p : Nat × Reader} {fb' : Framebuffer}
    (h : decodeTiles rect rgb24 ⟨data, 0⟩ fb = (.ok p, fb')) :
    apply rect .rgba32 data fb = (.ok (), fb') := by
  have hbind : apply rect .rgba32 data =
      (CompressedPixel.forFormat .rgba32 >>= fun cpixel =>
        u16 (rect.y + rect.height) >>= fun bottom => _) := rfl
  have hformat : (CompressedPixel.forFormat .rgba32 : Decoder CompressedPixel) fb =
      (.ok rgb24, fb) := rfl
  unfold decodeTiles at h
  rw [hbind]
  simp only [Bind.bind, Comp.bind, hformat] at h ⊢
  cases hbottom : (u16 (rect.y + rect.height) : Decoder Nat) fb with
  | mk result fb₁ =>
    rw [hbottom] at h
    cases result with
    | error stop => cases h
    | ok bottom =>
      dsimp only at h ⊢
      rw [h]
      rfl

theorem wp_decodeTiles {bytes : List UInt8} {Q : Nat × Reader → Framebuffer → Prop}
    {E : Framebuffer → Prop} (hfb : fb.Valid) (hrect : fb.contains rect = true)
    (henc : Encodes picture rect bytes) (h : reader.Left data (bytes ++ rest))
    (hQ : ∀ p fb', p.2.Left data rest → SameOutside rect fb fb' → ShowsPicture picture rect fb' →
      Q p fb') : wp (decodeTiles rect rgb24 reader) Q E fb := by
  obtain ⟨part, rfl, hparts⟩ := henc
  have ⟨hx, hy⟩ := contains_iff.mp hrect
  have hmax := hfb.height_lt
  refine wp_bind.mpr (wp_u16 (by omega) ?_)
  refine wp_while (fun (p : Nat × Reader) fb' => ∃ k, k ≤ (rect.height + 63) / 64 ∧
      p.1 = rect.y + min (k * 64) rect.height ∧
      p.2.Left data ((List.range' k ((rect.height + 63) / 64 - k)).flatMap (fun row =>
        (List.range (tileCount rect.width)).flatMap fun column => part column row) ++ rest) ∧
      Tiled picture rect fb rect.x p.1 0 fb')
    (fun p => rect.y + rect.height - p.1) ?_ (by simp only; omega) ?_ ?_
  · refine ⟨0, Nat.zero_le _, by simp, ?_, .refl rect fb, ?_, ?_⟩
    · rw [Nat.sub_zero, ← List.range_eq_range']
      exact h
    · intro x y hin habove
      exact absurd hin.2.1 (Nat.not_le.mpr habove)
    · intro x y hin _ hleft
      exact absurd hin.1.1 (Nat.not_le.mpr hleft)
  · rintro ⟨tileY, reader'⟩ fb' ⟨k, hk, htileY, h', hs'⟩ hcond
    dsimp only at htileY h' hs'
    have hlt : tileY < rect.y + rect.height := of_decide_eq_true hcond
    have hside : tileSide = 64 := rfl
    have hnext : k < (rect.height + 63) / 64 := by omega
    have htop : tileY = rect.y + k * 64 := by omega
    have hheight : min tileSide (rect.y + rect.height - tileY) = min 64 (rect.height - k * 64) := by
      omega
    rw [flatMap_range'_succ hnext, List.append_assoc] at h'
    refine wp_bind.mpr (wp_sub (by omega) ?_)
    refine wp_bind.mpr ?_
    rw [hheight, htop]
    rw [htop] at hs'
    refine wp_tileRow_left hfb hrect hnext (fun column hcolumn => hparts column k hcolumn hnext)
      ⟨hs'.same, hs'.above, ?_⟩ h' ?_
    · intro x y hin _ hleft
      exact absurd hin.1.1 (Nat.not_le.mpr hleft)
    · intro reader'' fb'' h'' hs''
      refine wp_bind.mpr (wp_u16 (by omega) ⟨⟨k + 1, by omega, ?_, h'', hs''⟩, ?_⟩)
      · dsimp only
        omega
      · dsimp only
        omega
  · rintro ⟨tileY, reader'⟩ fb' ⟨k, hk, htileY, h', hs'⟩ hcond
    dsimp only at htileY h' hs'
    have hge : ¬ tileY < rect.y + rect.height := of_decide_eq_false hcond
    have hend : (rect.height + 63) / 64 - k = 0 := by omega
    rw [hend] at h'
    refine hQ (tileY, reader') fb' h' hs'.same fun x y hin => hs'.above x y hin ?_
    have hbottom := hin.2.2
    omega

/-- Whatever way an encoder writes the tiles of a picture, `apply` shows the picture in the
rectangle, leaves everything else, and the reader ends at the end of the bytes. -/
theorem apply_shows (picture : Nat → Nat → Rgb) (fb : Framebuffer) (hfb : fb.Valid) (rect : Rect)
    (hrect : fb.contains rect = true) (bytes : List UInt8) (henc : Encodes picture rect bytes)
    (hlen : bytes.length < 2 ^ 64) :
    ∃ p fb', decodeTiles rect rgb24 ⟨bytes, 0⟩ fb = (.ok p, fb') ∧
      apply rect .rgba32 bytes fb = (.ok (), fb') ∧ p.2.data = bytes ∧
        p.2.offset = bytes.length ∧ SameOutside rect fb fb' ∧ ShowsPicture picture rect fb' := by
  have hleft : Reader.Left bytes (bytes ++ []) ⟨bytes, 0⟩ :=
    ⟨rfl, (List.append_nil bytes).symm, Nat.zero_le _, hlen⟩
  obtain ⟨p, fb', hdecode, hend, hsame, hshows⟩ := wp_total (wp_decodeTiles
    (Q := fun p fb' => p.2.Left bytes [] ∧ SameOutside rect fb fb' ∧ ShowsPicture picture rect fb')
    hfb hrect henc hleft fun p fb' hend hsame hshows => ⟨hend, hsame, hshows⟩)
  refine ⟨p, fb', hdecode, apply_of_decodeTiles hdecode, hend.data_eq, ?_, hsame, hshows⟩
  have hempty := List.drop_eq_nil_iff.mp hend.drop_eq
  have hle := hend.offset_le
  omega

/-- Two pixels of one colour in the middle of three. -/
theorem apply_shows_solid :
    ∃ fb', apply ⟨1, 0, 2, 1⟩ .rgba32 [1, 5, 6, 7] ⟨3, 1, List.replicate 12 0⟩ = (.ok (), fb') ∧
      ShowsPicture (fun _ _ => ⟨5, 6, 7⟩) ⟨1, 0, 2, 1⟩ fb' := by
  have henc : Encodes (fun _ _ => ⟨5, 6, 7⟩) ⟨1, 0, 2, 1⟩ [1, 5, 6, 7] := by
    refine ⟨fun _ _ => [1, 5, 6, 7], rfl, fun column row hcolumn hrow => ?_⟩
    obtain rfl : column = 0 := Nat.lt_one_iff.mp hcolumn
    obtain rfl : row = 0 := Nat.lt_one_iff.mp hrow
    exact .solid
  obtain ⟨_, fb', -, happly, -, -, -, hshows⟩ := apply_shows (fun _ _ => ⟨5, 6, 7⟩)
    ⟨3, 1, List.replicate 12 0⟩ ⟨by decide, by decide, by decide, rfl⟩ ⟨1, 0, 2, 1⟩ rfl
    [1, 5, 6, 7] henc (by decide)
  exact ⟨fb', happly, hshows⟩

end

end Dolgate.Vnc.Zrle
