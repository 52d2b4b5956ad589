import Dolgate.Zrle
import Dolgate.FramebufferBounds

set_option autoImplicit false

/-! ZRLE is decoded without panic, whatever the server has compressed, and only the pixels of the
rectangle change. -/

namespace Dolgate.Vnc.Zrle
open Checked

structure Reader.Valid (reader : Reader) : Prop where
  offset_le : reader.offset ≤ reader.data.length
  length_le : reader.data.length ≤ maxFramebufferBytes

theorem wp_inflate {pieces : List (Except DecodeError (List UInt8))} {fb : Framebuffer}
    {Q : List UInt8 → Framebuffer → Prop} {E : Framebuffer → Prop}
    (hQ : ∀ out, out.length ≤ maxFramebufferBytes → Q out fb) (hE : E fb) :
    wp (inflate pieces) Q E fb := by
  refine wp_forEach (fun _ out fb' => out.length ≤ maxFramebufferBytes ∧ fb' = fb)
    ⟨Nat.zero_le _, rfl⟩ ?_ ?_
  · rintro i out fb' hi ⟨hout, rfl⟩
    cases pieces[i] with
    | error e => exact hE
    | ok bytes => exact wp_ite (fun _ => hE) fun hlen => ⟨Nat.not_lt.mp hlen, rfl⟩
  · rintro out fb' ⟨hout, rfl⟩
    exact hQ out hout

section

variable {σ : Type} {t : σ} {E : σ → Prop} {reader : Reader} {cpixel : CompressedPixel}

theorem wp_forFormat {Q : CompressedPixel → σ → Prop} (hQ : ∀ cpixel, Q cpixel t) :
    wp (CompressedPixel.forFormat .rgba32) Q E t :=
  wp_ite (fun h => absurd h (by decide)) fun _ =>
    wp_ite (fun _ => hQ _) fun h => absurd rfl h

theorem wp_read {bytes : List UInt8} {Q : Rgba → σ → Prop} (hlen : bytes.length = cpixel.size)
    (hQ : ∀ colour, Q colour t) : wp (cpixel.read bytes) Q E t := by
  refine wp_bind.mpr (wp_index (by omega) ?_)
  refine wp_bind.mpr (wp_index (by omega) ?_)
  refine wp_bind.mpr (wp_index (by omega) ?_)
  exact hQ _

theorem wp_byte {Q : UInt8 × Reader → σ → Prop} (hr : reader.Valid) (hE : E t)
    (hQ : ∀ byte, reader.offset < reader.data.length →
      Q (byte, { reader with offset := reader.offset + 1 }) t) : wp reader.byte Q E t := by
  have hmax : maxFramebufferBytes < 2 ^ 64 := by decide
  have hle := hr.length_le
  refine wp_bind.mpr (wp_orFail ?_ hE)
  intro byte hbyte
  have hlt := (List.getElem?_eq_some_iff.mp hbyte).1
  exact wp_bind.mpr (wp_usize (by omega) (hQ byte hlt))

theorem Reader.Valid.next (hr : reader.Valid) (h : reader.offset < reader.data.length) :
    Reader.Valid { reader with offset := reader.offset + 1 } :=
  ⟨h, hr.length_le⟩

theorem wp_take {count : Nat} {Q : List UInt8 × Reader → σ → Prop} (hr : reader.Valid) (hE : E t)
    (hQ : ∀ bytes reader', bytes.length = count → reader'.Valid → Q (bytes, reader') t) :
    wp (reader.take count) Q E t := by
  refine wp_bind.mpr (wp_orFail ?_ hE)
  intro stop hstop
  obtain rfl : reader.offset + count = stop := by
    unfold checkedAdd at hstop
    split at hstop
    · exact Option.some.inj hstop
    · cases hstop
  refine wp_ite (fun _ => hE) fun hle => ?_
  refine wp_bind.mpr (wp_slice (Nat.le_add_right _ _) (Nat.not_lt.mp hle) ?_)
  intro bytes hlen
  exact hQ bytes _ (by omega) ⟨Nat.not_lt.mp hle, hr.length_le⟩

theorem wp_readPixel {Q : Rgba × Reader → σ → Prop} (hr : reader.Valid) (hE : E t)
    (hQ : ∀ colour reader', reader'.Valid → Q (colour, reader') t) :
    wp (readPixel cpixel reader) Q E t := by
  refine wp_bind.mpr (wp_take hr hE ?_)
  intro bytes reader' hlen hr'
  exact wp_bind.mpr (wp_read hlen fun colour => hQ colour reader' hr')

theorem wp_readPalette {size : Nat} {Q : List Rgba × Reader → σ → Prop} (hr : reader.Valid)
    (hE : E t) (hQ : ∀ palette reader', reader'.Valid → Q (palette, reader') t) :
    wp (readPalette reader cpixel size) Q E t := by
  refine wp_forRange (fun _ p t' => p.2.Valid ∧ t' = t) ⟨hr, rfl⟩ ?_ ?_
  · rintro i ⟨palette, reader'⟩ t' _ ⟨hr', rfl⟩
    exact wp_bind.mpr (wp_readPixel hr' hE fun colour reader'' hr'' => ⟨hr'', rfl⟩)
  · rintro ⟨palette, reader'⟩ t' ⟨hr', rfl⟩
    exact hQ palette reader' hr'

theorem wp_readRunLength {Q : Nat × Reader → σ → Prop} (hr : reader.Valid) (hE : E t)
    (hQ : ∀ run reader', 0 < run → reader'.Valid → Q (run, reader') t) :
    wp (readRunLength reader) Q E t := by
  have hmax : 256 * maxFramebufferBytes + 256 < 2 ^ 64 := by decide
  refine wp_seq (wp_while (fun (p : Nat × Reader × Bool) t' =>
      (0 < p.1 ∧ p.1 ≤ 1 + 255 * p.2.1.offset) ∧ p.2.1.Valid ∧ p.2.1.data = reader.data ∧ t' = t)
    (fun p => if p.2.2 then p.2.1.data.length - p.2.1.offset + 1 else 0) ?_ ?_ ?_
    (fun _ _ h _ => h)) ?_
  · exact ⟨⟨Nat.one_pos, Nat.le_add_right _ _⟩, hr, rfl, rfl⟩
  · simp only [if_true]
    omega
  · rintro ⟨run, reader', more⟩ t' ⟨⟨hpos, hrun⟩, hr', hdata, rfl⟩ rfl
    have hle := hr'.offset_le
    have hlen := hr'.length_le
    refine wp_bind.mpr (wp_byte hr' hE ?_)
    intro byte hlt
    have hbyte := byte.toNat_lt
    simp only [if_true] at hpos hrun hle hlen hlt ⊢
    refine wp_bind.mpr (wp_usize (by omega) ?_)
    refine ⟨⟨⟨by omega, by simp only; omega⟩, hr'.next hlt, hdata, rfl⟩, ?_⟩
    simp only
    split <;> omega
  · rintro ⟨run, reader', more⟩ t' ⟨⟨hpos, _⟩, hr', _, rfl⟩
    exact hQ run reader' hpos hr'

theorem length_extendRun (colour : Rgba) (size run : Nat) (pixels : List UInt8) :
    pixels.length ≤ (extendRun colour size run pixels).length ∧
      (0 < run → pixels.length < (extendRun colour size run pixels).length) := by
  induction run generalizing pixels with
  | zero => exact ⟨Nat.le_refl _, fun h => absurd h (Nat.lt_irrefl 0)⟩
  | succ run ih =>
    have hle := (ih (pixels ++ colour.bytes)).1
    have hlen : (pixels ++ colour.bytes).length = pixels.length + 4 := by
      rw [List.length_append, Rgba.length_bytes]
    unfold extendRun
    dsimp only
    split <;> omega

theorem wp_packedPixel {palette : List Rgba} {bits width column : Nat} {row : List UInt8}
    {Q : Rgba → σ → Prop} (hbits : bits = 1 ∨ bits = 2 ∨ bits = 4)
    (hrow : row.length = (width * bits + 7) / 8) (hcolumn : column < width) (hE : E t)
    (hQ : ∀ colour, Q colour t) : wp (packedPixel palette bits row column) Q E t := by
  have hbit : column * bits / 8 < row.length ∧ bits ≤ 8 ∧ column * bits % 8 ≤ 8 - bits := by
    rcases hbits with rfl | rfl | rfl <;> omega
  refine wp_bind.mpr (wp_index hbit.1 ?_)
  refine wp_bind.mpr (wp_sub hbit.2.1 (wp_bind.mpr (wp_sub hbit.2.2 ?_)))
  exact wp_orFail (fun colour _ => hQ colour) hE

theorem indexBits_eq (size : Nat) :
    indexBits size = 1 ∨ indexBits size = 2 ∨ indexBits size = 4 := by
  unfold indexBits
  split
  · exact .inl rfl
  · split
    · exact .inr (.inl rfl)
    · exact .inr (.inr rfl)

variable {Q : List UInt8 × Reader → σ → Prop}

theorem wp_rawTile {count : Nat} (hr : reader.Valid) (hE : E t)
    (hQ : ∀ pixels reader', reader'.Valid → Q (pixels, reader') t) :
    wp (rawTile count cpixel reader) Q E t := by
  refine wp_forRange (fun _ p t' => p.2.Valid ∧ t' = t) ⟨hr, rfl⟩ ?_ ?_
  · rintro i ⟨pixels, reader'⟩ t' _ ⟨hr', rfl⟩
    exact wp_bind.mpr (wp_readPixel hr' hE fun colour reader'' hr'' => ⟨hr'', rfl⟩)
  · rintro ⟨pixels, reader'⟩ t' ⟨hr', rfl⟩
    exact hQ pixels reader' hr'

theorem wp_packedTile {tile : Rect} {palette : List Rgba} {bits : Nat}
    (hbits : bits = 1 ∨ bits = 2 ∨ bits = 4) (hr : reader.Valid) (hE : E t)
    (hQ : ∀ pixels reader', reader'.Valid → Q (pixels, reader') t) :
    wp (packedTile tile palette bits reader) Q E t := by
  refine wp_forRange (fun _ p t' => p.2.Valid ∧ t' = t) ⟨hr, rfl⟩ ?_ ?_
  · rintro i ⟨pixels, reader'⟩ t' _ ⟨hr', rfl⟩
    refine wp_bind.mpr (wp_take hr' hE ?_)
    intro row reader'' hrow hr''
    refine wp_bind.mpr (wp_forRange (fun _ _ t'' => t'' = t') rfl ?_ ?_)
    · rintro column pixels t'' hcolumn rfl
      exact wp_bind.mpr (wp_packedPixel hbits hrow hcolumn hE fun colour => rfl)
    · rintro pixels t'' rfl
      exact ⟨hr'', rfl⟩
  · rintro ⟨pixels, reader'⟩ t' ⟨hr', rfl⟩
    exact hQ pixels reader' hr'

def ReadsRuns (next : Reader → Comp σ DecodeError ((Rgba × Nat) × Reader)) (E : σ → Prop) (t : σ) :
    Prop :=
  ∀ reader : Reader, reader.Valid →
    wp (next reader) (fun p t' => 0 < p.1.2 ∧ p.2.Valid ∧ t' = t) E t

theorem readsRuns_plainRun (hE : E t) : ReadsRuns (plainRun cpixel) E t := by
  intro reader hr
  refine wp_bind.mpr (wp_readPixel hr hE ?_)
  intro colour reader' hr'
  refine wp_bind.mpr (wp_readRunLength hr' hE ?_)
  intro run reader'' hrun hr''
  exact ⟨hrun, hr'', rfl⟩

theorem readsRuns_paletteRun {palette : List Rgba} (hE : E t) :
    ReadsRuns (paletteRun palette) E t := by
  intro reader hr
  refine wp_bind.mpr (wp_byte hr hE ?_)
  intro byte hlt
  refine wp_bind.mpr (wp_orFail ?_ hE)
  intro colour _
  refine wp_ite (fun _ => ?_) fun _ => ⟨Nat.one_pos, hr.next hlt, rfl⟩
  refine wp_bind.mpr (wp_readRunLength (hr.next hlt) hE ?_)
  intro run reader'' hrun hr''
  exact ⟨hrun, hr'', rfl⟩

theorem wp_runsTile {next : Reader → Comp σ DecodeError ((Rgba × Nat) × Reader)} {count : Nat}
    (hnext : ReadsRuns next E t) (hcount : count ≤ 64 * 64) (hr : reader.Valid)
    (hQ : ∀ pixels reader', reader'.Valid → Q (pixels, reader') t) :
    wp (runsTile next count reader) Q E t := by
  refine wp_bind.mpr (wp_usize (by omega) ?_)
  refine wp_while (fun (p : List UInt8 × Reader) t' => p.2.Valid ∧ t' = t)
    (fun p => count * 4 - p.1.length) ⟨hr, rfl⟩ (by simp only; omega) ?_ ?_
  · rintro ⟨pixels, reader'⟩ t' ⟨hr', rfl⟩ hcond
    have hlt : pixels.length < count * 4 := of_decide_eq_true hcond
    refine wp_seq (hnext reader' hr') ?_
    rintro ⟨⟨colour, run⟩, reader''⟩ t'' ⟨hrun, hr'', rfl⟩
    have hrun : 0 < run := hrun
    have hlonger := (length_extendRun colour (count * 4) run pixels).2 hrun
    refine ⟨⟨hr'', rfl⟩, ?_⟩
    change count * 4 - (extendRun colour (count * 4) run pixels).length < count * 4 - pixels.length
    omega
  · rintro ⟨pixels, reader'⟩ t' ⟨hr', rfl⟩ _
    exact hQ pixels reader' hr'

theorem wp_tilePixels {tile : Rect} {subencoding : UInt8} (hwidth : tile.width ≤ 64)
    (hheight : tile.height ≤ 64) (hr : reader.Valid) (hE : E t)
    (hQ : ∀ pixels reader', reader'.Valid → Q (pixels, reader') t) :
    wp (tilePixels tile cpixel subencoding reader) Q E t := by
  have harea : tile.width * tile.height ≤ 64 * 64 := Nat.mul_le_mul hwidth hheight
  refine wp_bind.mpr (wp_usize (by omega) ?_)
  refine wp_ite (fun _ => wp_rawTile hr hE hQ) fun _ => ?_
  refine wp_ite (fun _ => ?_) fun _ => ?_
  · exact wp_bind.mpr (wp_readPalette hr hE fun palette reader' hr' =>
      wp_packedTile (indexBits_eq _) hr' hE hQ)
  · refine wp_ite (fun _ => wp_runsTile (readsRuns_plainRun hE) harea hr hQ) fun _ => ?_
    refine wp_ite (fun h => ?_) fun _ => hE
    have h : 130 ≤ subencoding.toNat := UInt8.le_iff_toNat_le.mp h
    have hsize : wp (sub subencoding.toNat 128 : Comp σ DecodeError Nat) (fun _ t' => t' = t) E t :=
      wp_sub (by omega) rfl
    refine wp_seq hsize ?_
    rintro size _ rfl
    exact wp_bind.mpr (wp_readPalette hr hE fun palette reader' hr' =>
      wp_runsTile (readsRuns_paletteRun hE) harea hr' hQ)

end

section

variable {rect : Rect} {fb₀ fb : Framebuffer} {cpixel : CompressedPixel} {reader : Reader}

theorem wp_decodeTile {tile : Rect} (hfb : fb₀.Valid) (hs : SameOutside rect fb₀ fb)
    (hsub : ∀ x y, tile.covers x y → rect.covers x y) (hwidth : tile.width ≤ 64)
    (hheight : tile.height ≤ 64) (hr : reader.Valid) :
    wp (decodeTile tile cpixel reader) (fun reader' fb' => reader'.Valid ∧ SameOutside rect fb₀ fb')
      (SameOutside rect fb₀) fb := by
  have hfb' := hfb.of_sameOutside hs
  refine wp_bind.mpr (wp_byte hr hs ?_)
  intro subencoding hlt
  refine wp_ite (fun _ => ?_) fun _ => ?_
  · refine wp_bind.mpr (wp_readPixel (hr.next hlt) hs ?_)
    intro colour reader' hr'
    exact wp_seq ((safe_fill hfb').within hs hsub) fun _ fb' hs' => ⟨hr', hs'⟩
  · refine wp_bind.mpr (wp_tilePixels hwidth hheight (hr.next hlt) hs ?_)
    intro pixels reader' hr'
    exact wp_seq ((safe_writeRgba hfb').within hs hsub) fun _ fb' hs' => ⟨hr', hs'⟩

theorem wp_tileRow {tileY height : Nat} (hfb : fb₀.Valid) (hrect : fb₀.contains rect = true)
    (hs : SameOutside rect fb₀ fb) (htop : rect.y ≤ tileY)
    (hbottom : tileY + height ≤ rect.y + rect.height) (hheight : height ≤ 64) (hr : reader.Valid) :
    wp (tileRow rect cpixel tileY height reader)
      (fun reader' fb' => reader'.Valid ∧ SameOutside rect fb₀ fb') (SameOutside rect fb₀) fb := by
  have ⟨hx, _⟩ := contains_iff.mp hrect
  have hmax := hfb.width_lt
  refine wp_bind.mpr (wp_u16 (by omega) ?_)
  refine wp_seq (wp_while (fun (p : Nat × Reader) fb' =>
      (rect.x ≤ p.1 ∧ p.1 ≤ rect.x + rect.width) ∧ p.2.Valid ∧ SameOutside rect fb₀ fb')
    (fun p => rect.x + rect.width - p.1)
    ⟨⟨Nat.le_refl _, Nat.le_add_right _ _⟩, hr, hs⟩ (by simp only; omega) ?_ fun _ _ h _ => h) ?_
  · rintro ⟨tileX, reader'⟩ fb' ⟨⟨hleft, _⟩, hr', hs'⟩ hcond
    have hlt : tileX < rect.x + rect.width := of_decide_eq_true hcond
    have hside : tileSide = 64 := rfl
    refine wp_bind.mpr (wp_sub (by omega) ?_)
    refine wp_seq (wp_decodeTile hfb hs' ?_ (by simp only; omega) hheight hr') ?_
    · intro x y
      simp only [Rect.covers]
      omega
    · rintro reader'' fb'' ⟨hr'', hs''⟩
      refine wp_bind.mpr (wp_u16 (by omega) ⟨⟨⟨?_, ?_⟩, hr'', hs''⟩, ?_⟩)
      all_goals simp only; omega
  · rintro ⟨tileX, reader'⟩ fb' ⟨_, hr', hs'⟩
    exact ⟨hr', hs'⟩

theorem safe_apply {data : List UInt8} (hfb : fb.Valid) (hrect : fb.contains rect = true)
    (hdata : data.length ≤ maxFramebufferBytes) : Safe rect fb (apply rect .rgba32 data) fb := by
  have ⟨_, hy⟩ := contains_iff.mp hrect
  have hmax := hfb.height_lt
  refine wp_bind.mpr (wp_forFormat fun cpixel => ?_)
  refine wp_bind.mpr (wp_u16 (by omega) ?_)
  refine wp_seq (wp_while (fun (p : Nat × Reader) fb' =>
      (rect.y ≤ p.1 ∧ p.1 ≤ rect.y + rect.height) ∧ p.2.Valid ∧ SameOutside rect fb fb')
    (fun p => rect.y + rect.height - p.1)
    ⟨⟨Nat.le_refl _, Nat.le_add_right _ _⟩, ⟨Nat.zero_le _, hdata⟩, .refl rect fb⟩
    (by simp only; omega) ?_ fun _ _ h _ => h) ?_
  · rintro ⟨tileY, reader'⟩ fb' ⟨⟨htop, _⟩, hr', hs'⟩ hcond
    have hlt : tileY < rect.y + rect.height := of_decide_eq_true hcond
    have hside : tileSide = 64 := rfl
    refine wp_bind.mpr (wp_sub (by omega) ?_)
    refine wp_seq (wp_tileRow hfb hrect hs' htop (by omega) (by omega) hr') ?_
    rintro reader'' fb'' ⟨hr'', hs''⟩
    refine wp_bind.mpr (wp_u16 (by omega) ⟨⟨⟨?_, ?_⟩, hr'', hs''⟩, ?_⟩)
    all_goals simp only; omega
  · rintro ⟨tileY, reader'⟩ fb' ⟨_, _, hs'⟩
    exact hs'

end

end Dolgate.Vnc.Zrle
