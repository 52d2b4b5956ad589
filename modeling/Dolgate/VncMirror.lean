import Dolgate.Parts
import Dolgate.VncRequests

set_option autoImplicit false

/-! What the viewer draws from what it gets. The screen's size reaches it behind the whole update
that changes it, the pixels as soon as their rectangle is decoded. -/

namespace Dolgate.Vnc

open Transition

structure Canvas where
  width : Nat
  height : Nat
  pixel : Nat → Nat → List UInt8

namespace Canvas

def blank (width height : Nat) : Canvas := ⟨width, height, fun _ _ => [0, 0, 0, 0]⟩

def overwrite (c : Canvas) (rect : Rect) (pixels : List UInt8) : Canvas :=
  { c with
    pixel := fun x y =>
      if rect.covers x y then
        (pixels.drop (((y - rect.y) * rect.width + (x - rect.x)) * 4)).take 4
      else c.pixel x y }

def play (c : Canvas) : Emission → Canvas
  | .connected width height _ => blank width height
  | .resized width height => blank width height
  | .frame rect pixels => c.overwrite rect pixels
  | _ => c

end Canvas

def canvas : List Entry → Canvas
  | [] => .blank 0 0
  | .emitted e :: older => (canvas older).play e
  | _ :: older => canvas older

structure Shows (c : Canvas) (fb : Framebuffer) : Prop where
  width : c.width = fb.width
  height : c.height = fb.height
  pixel : ∀ x y, x < fb.width → y < fb.height → c.pixel x y = fb.pixel x y

/-! Pixels and bytes. -/

section

variable {fb fb' : Framebuffer} {rect : Rect}

theorem getElem?_pixel (fb : Framebuffer) {x y k : Nat} (hk : k < 4) :
    (fb.pixel x y)[k]? = fb.pixels[(y * fb.width + x) * 4 + k]? := by
  rw [Framebuffer.pixel, List.getElem?_take_of_lt hk, List.getElem?_drop]

theorem extract_pixel {pixels : List UInt8} (hfb : fb.Valid)
    (h : Session.extract fb rect = some pixels) {x y : Nat} (hcovers : rect.covers x y) :
    (pixels.drop (((y - rect.y) * rect.width + (x - rect.x)) * 4)).take 4 = fb.pixel x y := by
  rw [Session.extract] at h
  split at h
  · next hrect =>
      cases h
      obtain ⟨hwidth, hheight⟩ := contains_iff.mp hrect
      obtain ⟨⟨hx, hx'⟩, hy, hy'⟩ := hcovers
      have hrow : ∀ row, row < rect.height →
          ((fb.pixels.drop (((rect.y + row) * fb.width + rect.x) * 4)).take
            (rect.width * 4)).length = rect.width * 4 := by
        intro row hrow
        have hindex := hfb.index_le hwidth (by omega : rect.y + row < fb.height)
        rw [List.length_take, List.length_drop]
        omega
      apply List.ext_getElem?
      intro k
      rw [Framebuffer.pixel, List.getElem?_take, List.getElem?_take]
      split
      · next hk =>
          have hindex : ((y - rect.y) * rect.width + (x - rect.x)) * 4 + k =
              (y - rect.y) * (rect.width * 4) + ((x - rect.x) * 4 + k) := by ring
          rw [List.getElem?_drop, hindex,
            getElem?_flatMap_const (fun row h => hrow row (List.mem_range.mp h)) (by omega),
            List.getElem?_range (by omega), Option.bind_some, List.getElem?_take_of_lt (by omega),
            List.getElem?_drop, List.getElem?_drop]
          congr 1
          rw [Nat.add_sub_cancel' hy]
          omega
      · rfl
  · cases h

theorem Shows.overwrite {c : Canvas} {pixels : List UInt8} (h : Shows c fb) (hfb' : fb'.Valid)
    (hsame : SameOutside rect fb fb') (hpixels : Session.extract fb' rect = some pixels) :
    Shows (c.overwrite rect pixels) fb' := by
  refine ⟨h.width.trans hsame.width.symm, h.height.trans hsame.height.symm, ?_⟩
  intro x y hx hy
  simp only [Canvas.overwrite]
  split
  · next hcovers => exact extract_pixel hfb' hpixels hcovers
  · next hcovers =>
      rw [hsame.width] at hx
      rw [hsame.height] at hy
      rw [h.pixel x y hx hy, hsame.pixel x y hx hy hcovers]

/-! A screen that nothing has been drawn on. -/

def Framebuffer.Blank (fb : Framebuffer) : Prop := ∀ b ∈ fb.pixels, b = 0

theorem blank_replicate (width height n : Nat) :
    Framebuffer.Blank ⟨width, height, List.replicate n 0⟩ :=
  fun _ hb => List.eq_of_mem_replicate hb

theorem Framebuffer.Blank.shows (h : fb.Blank) (hfb : fb.Valid) :
    Shows (.blank fb.width fb.height) fb := by
  refine ⟨rfl, rfl, fun x y hx hy => ?_⟩
  have hindex := hfb.index_le (n := 1) (by omega : x + 1 ≤ fb.width) hy
  have hlen : (fb.pixel x y).length = 4 := by
    rw [Framebuffer.pixel, List.length_take, List.length_drop]
    omega
  have hzero : fb.pixel x y = List.replicate 4 0 := by
    refine List.eq_replicate_iff.mpr ⟨hlen, fun b hb => h b ?_⟩
    exact List.mem_of_mem_drop (List.mem_of_mem_take hb)
  exact hzero.symm

theorem pixels_eq_of_pixel (hfb : fb.Valid) (hfb' : fb'.Valid) (hwidth : fb'.width = fb.width)
    (hheight : fb'.height = fb.height)
    (hpixel : ∀ x y, x < fb.width → y < fb.height → fb'.pixel x y = fb.pixel x y) :
    fb'.pixels = fb.pixels := by
  have hlen := hfb.length_pixels
  have hlen' := hfb'.length_pixels
  rw [hwidth, hheight] at hlen'
  apply List.ext_getElem?
  intro i
  by_cases hi : i < fb.width * fb.height * 4
  · have harea : i / 4 < fb.width * fb.height := by omega
    have hpos : 0 < fb.width := Nat.pos_of_mul_pos_right (Nat.zero_lt_of_lt harea)
    have hy : i / 4 / fb.width < fb.height := Nat.div_lt_of_lt_mul harea
    have hx : i / 4 % fb.width < fb.width := Nat.mod_lt _ hpos
    have hsplit : (i / 4 / fb.width * fb.width + i / 4 % fb.width) * 4 + i % 4 = i := by
      rw [Nat.mul_comm (i / 4 / fb.width), Nat.div_add_mod]
      omega
    have hat := getElem?_pixel fb (x := i / 4 % fb.width) (y := i / 4 / fb.width)
      (k := i % 4) (by omega)
    have hat' := getElem?_pixel fb' (x := i / 4 % fb.width) (y := i / 4 / fb.width)
      (k := i % 4) (by omega)
    rw [hsplit] at hat
    rw [hwidth, hsplit, hpixel _ _ hx hy, hat] at hat'
    exact hat'.symm
  · rw [List.getElem?_eq_none (by omega), List.getElem?_eq_none (by omega)]

theorem Framebuffer.Blank.empty (h : fb.Blank) (hfb : fb.Valid) (hsame : SameOutside rect fb fb')
    (hempty : rect.width = 0 ∨ rect.height = 0) : fb'.Blank := by
  have hnone : ∀ x y, ¬ rect.covers x y := by
    intro x y hcovers
    obtain ⟨⟨hx, hx'⟩, hy, hy'⟩ := hcovers
    omega
  have hpixels := pixels_eq_of_pixel hfb (hfb.of_sameOutside hsame) hsame.width hsame.height
    fun x y hx hy => hsame.pixel x y hx hy (hnone x y)
  intro b hb
  exact h b (hpixels ▸ hb)

open Checked in
theorem keeps_applyCopyRect (sourceX sourceY : Nat) :
    Keeps Framebuffer.Blank (applyCopyRect rect sourceX sourceY) := by
  have hoffset : ∀ x y, Keeps Framebuffer.Blank (offset x y) := fun x y =>
    .bind (.of_same fun _ => rfl) fun fb => .below
  refine .bind (.of_same fun _ => rfl) fun fb => ?_
  intro s hs
  split
  · exact hs
  · refine Keeps.forRange (fun i _ => ?_) s hs
    have hcopied : Keeps Framebuffer.Blank (copiedRow rect sourceY i) := by
      intro t ht
      rw [copiedRow]
      split
      · exact Keeps.bind .sub (fun _ => .sub) t ht
      · exact ht
    refine hcopied.bind fun row => .bind .below fun y => (hoffset sourceX y).bind fun start =>
      .bind .below fun y' => (hoffset rect.x y').bind fun target => ?_
    intro t ht
    simp only [Bind.bind, Comp.bind, state, slice]
    split
    · next bytes t' heq =>
        split at heq
        · cases heq
          simp only [copyRow, Bind.bind, Comp.bind, state, copyInto]
          split
          · next pixels t'' heq =>
              split at heq
              · cases heq
                intro b hb
                simp only [put, splice, List.mem_append] at hb
                rcases hb with (hb | hb) | hb
                · exact ht b (List.mem_of_mem_take hb)
                · exact ht b (List.mem_of_mem_take (List.mem_of_mem_drop hb))
                · exact ht b (List.mem_of_mem_drop hb)
              · cases heq
          · next stop t'' heq =>
              split at heq
              · cases heq
              · cases heq
                exact ht
        · cases heq
    · next stop t' heq =>
        split at heq
        · cases heq
        · cases heq
          exact ht

end

namespace Session

/-! An update, as far as its rectangles have been handled. -/

/-- The screen's size, whether the update has changed it, and whether it has drawn since. -/
structure Progress where
  size : Nat × Nat
  resized : Bool := false
  drawn : Bool := false

def draws : Body → Bool
  | .copyRect _ _ => false
  | .cursor _ => false
  | _ => true

def Progress.note (p : Progress) (r : ServerRect) : Progress :=
  let size := (r.width.toNat, r.height.toNat)
  match r.content with
  | .body body => { p with drawn := p.drawn || draws body && r.width ≠ 0 && r.height ≠ 0 }
  | .desktopSize => { size := size, resized := true }
  | .extendedDesktopSize _ =>
      if isDesktopResize size p.size r.x r.y then { size := size, resized := true } else p
  | _ => p

def Settled (s : Session) : Event → Prop
  | .message (.framebufferUpdate rects _) =>
      let p := rects.foldl Progress.note { size := s.size }
      p.resized = true → p.drawn = false
  | _ => True

structure Mirrored (s : Session) : Prop where
  valid : s.framebuffer.Valid
  shows : Shows (canvas s.log) s.framebuffer

/-- In an update: the viewer has all of it, until the size changes. From then on the canvas will be
cleared. -/
structure Tracking (s : Session) (o : UpdateOutcome) (p : Progress) : Prop where
  valid : s.framebuffer.Valid
  size : p.size = s.size
  resized : p.resized = o.resized.isSome
  shows : o.resized = none → Shows (canvas s.log) s.framebuffer
  fresh : ∀ size, o.resized = some size → size = s.size ∧ (p.drawn = false → s.framebuffer.Blank)

variable {s t : Session} {o o' : UpdateOutcome} {p : Progress}

open Checked in
theorem decodeRectangle_contains {rect : Rect} {body : Body} {fb fb' : Framebuffer}
    {shape : Option Cursor} {name : String} (hname : encodingName body = some name)
    (h : decodeRectangle .rgba32 rect body fb = (.ok shape, fb')) : fb.contains rect = true := by
  cases hrect : fb.contains rect with
  | true => rfl
  | false =>
      cases body with
      | cursor body => cases hname
      | _ =>
          simp only [decodeRectangle, validateRect, Bind.bind, Comp.bind, state, hrect,
            Bool.false_eq_true, if_false, fail] at h
          cases h

theorem decodeRectangle_cursor {rect : Rect} {body : List UInt8} {fb fb' : Framebuffer}
    {shape : Option Cursor}
    (h : decodeRectangle .rgba32 rect (.cursor body) fb = (.ok shape, fb')) : fb' = fb := by
  have hcursor : Checked.wp (Cursor.decode rect .rgba32 body)
      (fun (_ : Option Cursor) (fb' : Framebuffer) => fb' = fb) (fun _ => True) fb :=
    Cursor.wp_decode rfl fun _ _ => rfl
  simp only [decodeRectangle] at h
  rw [Checked.wp, h] at hcursor
  exact hcursor

theorem handleBody_shows {rect : Rect} {body : Body} (hfb : s.framebuffer.Valid)
    (hs : Shows (canvas s.log) s.framebuffer) (h : s.handleBody o rect body = (t, some o')) :
    Shows (canvas t.log) t.framebuffer := by
  obtain ⟨hsame, -⟩ := handleBody_some hfb h
  rw [handleBody] at h
  split at h
  · cases h
  · next shape fb heq =>
      split at h
      · next name hname =>
          cases h
          have hrect := decodeRectangle_contains hname heq
          rw [sendRect] at hsame ⊢
          split at hsame
          · next pixels hpixels =>
              exact hs.overwrite (hfb.of_sameOutside hsame) hsame hpixels
          · next hpixels =>
              have hcontains := (hsame.contains rect).trans hrect
              rw [extract, if_pos hcontains] at hpixels
              cases hpixels
      · next hname =>
          cases h
          cases body with
          | cursor body =>
              cases decodeRectangle_cursor heq
              cases shape <;> exact hs
          | _ => cases hname

theorem handleBody_blank {rect : Rect} {body : Body} (hfb : s.framebuffer.Valid)
    (hs : s.framebuffer.Blank) (h : s.handleBody o rect body = (t, some o'))
    (hnot : draws body = false ∨ rect.width = 0 ∨ rect.height = 0) : t.framebuffer.Blank := by
  obtain ⟨hsame, -⟩ := handleBody_some hfb h
  cases hnot with
  | inr hempty => exact hs.empty hfb hsame hempty
  | inl hdraws =>
      rw [handleBody] at h
      split at h
      · cases h
      · next shape fb heq =>
          have hblank : fb.Blank := by
            cases body with
            | copyRect sourceX sourceY =>
                have hkeeps : Checked.Keeps Framebuffer.Blank
                    (decodeRectangle .rgba32 rect (.copyRect sourceX sourceY)) := by
                  refine .bind (.bind (.of_same fun _ => rfl) fun fb => ?_) fun _ =>
                    (keeps_applyCopyRect sourceX sourceY).bind fun _ => .of_same fun _ => rfl
                  exact .of_same fun _ => by split <;> rfl
                have hkept := hkeeps _ hs
                rw [heq] at hkept
                exact hkept
            | cursor body =>
                cases decodeRectangle_cursor heq
                exact hs
            | _ => cases hdraws
          split at h
          · cases h
            rw [sendRect]
            split <;> exact hblank
          · cases h
            cases shape <;> exact hblank

theorem Tracking.body {r : ServerRect} {body : Body} (h : Tracking s o p)
    (hr : r.content = .body body) (hbody : s.handleBody o r.rect body = (t, some o')) :
    Tracking t o' (p.note r) := by
  obtain ⟨hsame, hres⟩ := handleBody_some h.valid hbody
  have hsize : t.size = s.size := Prod.ext hsame.width hsame.height
  simp only [Progress.note, hr]
  refine ⟨h.valid.of_sameOutside hsame, h.size.trans hsize.symm, hres ▸ h.resized, ?_, ?_⟩
  · intro hnone
    exact handleBody_shows h.valid (h.shows (hres ▸ hnone)) hbody
  · intro size hsome
    obtain ⟨hs, hblank⟩ := h.fresh size (hres ▸ hsome)
    refine ⟨hs.trans hsize.symm, fun hdrawn => ?_⟩
    simp only [Bool.or_eq_false_iff, Bool.and_eq_false_iff, decide_eq_false_iff_not,
      Decidable.not_not] at hdrawn
    refine handleBody_blank h.valid (hblank hdrawn.1) hbody ?_
    rcases hdrawn.2 with (hdraws | hwidth) | hheight
    · exact .inl hdraws
    · exact .inr (.inl (congrArg UInt16.toNat hwidth))
    · exact .inr (.inr (congrArg UInt16.toNat hheight))

theorem tracking_resize {width height : Nat} (hwidth : width < 2 ^ 16) (hheight : height < 2 ^ 16)
    (h : s.resize o width height = (t, some o')) :
    Tracking t o' { size := (width, height), resized := true } := by
  obtain ⟨len, hlen, rfl, rfl⟩ := resize_some h
  refine ⟨valid_of_checkedLen hwidth hheight hlen, rfl, rfl, nofun, ?_⟩
  intro size hsome
  cases hsome
  exact ⟨rfl, fun _ => blank_replicate width height len⟩

theorem Tracking.congr (h : Tracking s o p) (hfb : t.framebuffer = s.framebuffer)
    (hcanvas : canvas t.log = canvas s.log) : Tracking t o p := by
  have hsize : t.size = s.size := by rw [Session.size, Session.size, hfb]
  refine ⟨hfb ▸ h.valid, h.size.trans hsize.symm, h.resized, ?_, ?_⟩
  · rw [hfb, hcanvas]
    exact h.shows
  · rw [hfb, hsize]
    exact h.fresh

theorem Tracking.handleRectangle {r : ServerRect} (h : Tracking s o p)
    (hr : s.handleRectangle o r = (t, some o')) : Tracking t o' (p.note r) := by
  have hnote : Tracking { s with log := .rectangle r :: s.log } o p := h.congr rfl rfl
  simp only [Session.handleRectangle] at hr
  split at hr
  · next body hcontent => exact hnote.body hcontent hr
  · next hcontent =>
      cases hr
      simp only [Progress.note, hcontent]
      exact ⟨hnote.valid, hnote.size, hnote.resized, hnote.shows, hnote.fresh⟩
  · next hcontent =>
      simp only [Progress.note, hcontent]
      exact tracking_resize r.width.toNat_lt r.height.toNat_lt hr
  · next layout hcontent =>
      have hsize : p.size = (s.framebuffer.width, s.framebuffer.height) := h.size
      simp only [Progress.note, hcontent, hsize]
      cases hresize : isDesktopResize (r.width.toNat, r.height.toNat)
          (s.framebuffer.width, s.framebuffer.height) r.x r.y with
      | true =>
          simp only [noteLayout, hresize, if_true] at hr ⊢
          exact tracking_resize r.width.toNat_lt r.height.toNat_lt hr
      | false =>
          simp only [noteLayout, hresize, Bool.false_eq_true, if_false] at hr ⊢
          cases hr
          exact hnote.congr rfl rfl
  · cases hr

theorem Tracking.handleRectangles {rs : List ServerRect} (h : Tracking s o p)
    (hrs : s.handleRectangles o rs = (t, some o')) : Tracking t o' (rs.foldl Progress.note p) := by
  induction rs generalizing s o p with
  | nil =>
      cases hrs
      exact h
  | cons r rs ih =>
      rw [Session.handleRectangles] at hrs
      split at hrs
      · next s' o₁ heq => exact ih (h.handleRectangle heq) hrs
      · cases hrs

/-! The steps of the session. -/

structure Unseen (s t : Session) : Prop where
  framebuffer : t.framebuffer = s.framebuffer
  canvas : canvas t.log = canvas s.log

theorem Mirrored.unseen (h : Mirrored s) (hu : Unseen s t) : Mirrored t :=
  ⟨hu.framebuffer ▸ h.valid, hu.framebuffer ▸ hu.canvas ▸ h.shows⟩

theorem Quiet.unseen (h : Quiet s t) : Unseen s t := by
  obtain ⟨es, hes, hplain⟩ := h.log
  refine ⟨h.framebuffer, ?_⟩
  rw [hes]
  clear hes
  induction es with
  | nil => rfl
  | cons e es ih =>
      have hrest := ih fun e he => hplain e (List.mem_cons_of_mem _ he)
      have he := hplain e List.mem_cons_self
      cases e with
      | rectangle r => exact he.elim
      | message m => exact he.elim
      | sent m => exact hrest
      | emitted o =>
          cases o with
          | connected width height name => exact he.elim
          | resized width height => exact he.elim
          | frame rect pixels => exact he.elim
          | _ => exact hrest

theorem Mirrored.send (h : Mirrored s) (m : ClientMessage) : Mirrored (s.send m) :=
  h.unseen ⟨rfl, rfl⟩

theorem Mirrored.enableContinuousUpdates (h : Mirrored s) : Mirrored s.enableContinuousUpdates := by
  simp only [Session.enableContinuousUpdates]
  split
  · exact h
  · split
    · exact h
    · exact h.unseen ⟨rfl, rfl⟩

variable (deflate : List UInt8 → Option (List UInt8))

theorem Tracking.continueUpdates (h : Tracking s o p)
    (hsettled : p.resized = true → p.drawn = false) : Mirrored (s.continueUpdates o.resized) := by
  cases hres : o.resized with
  | some size =>
      obtain ⟨rfl, hblank⟩ := h.fresh size hres
      have hshows : Mirrored (s.emit (.resized s.size.1 s.size.2)) :=
        ⟨h.valid, (hblank (hsettled (by rw [h.resized, hres]; rfl))).shows h.valid⟩
      refine Mirrored.enableContinuousUpdates (Mirrored.send (hshows.unseen ?_) _)
      exact ⟨rfl, rfl⟩
  | none =>
      have hm : Mirrored s := ⟨h.valid, h.shows hres⟩
      simp only [Session.continueUpdates]
      split
      · exact hm
      · split
        · exact hm.unseen ⟨rfl, rfl⟩
        · exact hm.send _

theorem Mirrored.handleFramebufferUpdate (h : Mirrored s) {rects : List ServerRect}
    {complete : Bool}
    (hsettled : (rects.foldl Progress.note { size := s.size }).resized = true →
      (rects.foldl Progress.note { size := s.size }).drawn = false)
    (hend : (s.handleFramebufferUpdate deflate rects complete).ended = false) :
    Mirrored (s.handleFramebufferUpdate deflate rects complete) := by
  have hstart : Tracking s {} { size := s.size } := ⟨h.valid, rfl, rfl, fun _ => h.shows, nofun⟩
  rw [Session.handleFramebufferUpdate] at hend ⊢
  split at hend
  · cases hend
  · next t o heq =>
      split at hend
      · next hcomplete =>
          have htrack := (hstart.handleRectangles heq).congr (t := t.noteOutcome o) rfl rfl
          have hnext := htrack.continueUpdates hsettled
          simp only [hcomplete, if_true]
          exact (hnext.unseen (quiet_drainOutbound deflate _).unseen).unseen
            (quiet_reportClipboardLoss _).unseen
      · cases hend

theorem Mirrored.handleCutText (h : Mirrored s) (incoming : Clipboard.Incoming) :
    Mirrored (s.handleCutText deflate incoming) := by
  cases incoming with
  | classic text => exact h.unseen ⟨rfl, rfl⟩
  | caps formats actions limit =>
      simp only [Session.handleCutText]
      split
      · have hsent : ∀ clip, Mirrored ({ s with clip := clip }.send
            (.clientCutTextExtended Clipboard.encodeCaps)) := fun _ => h.unseen ⟨rfl, rfl⟩
        split
        · exact (hsent _).unseen (quiet_sendClipboardText deflate _ _).unseen
        · exact hsent _
      · exact h.unseen ⟨rfl, rfl⟩
  | provide text => exact h.unseen ⟨rfl, rfl⟩
  | notify formats => exact h.send _
  | request formats =>
      simp only [Session.handleCutText, sendProvide]
      split
      · split
        · exact h.send _
        · exact h
      · exact h
  | ignored => exact h

theorem Mirrored.handleMessage (h : Mirrored s) {m : ServerMessage}
    (hsettled : s.Settled (.message m)) (hend : (s.handleMessage deflate m).ended = false) :
    Mirrored (s.handleMessage deflate m) := by
  have hm : Mirrored { s with log := .message m :: s.log } := h.unseen ⟨rfl, rfl⟩
  cases m with
  | framebufferUpdate rects complete => exact hm.handleFramebufferUpdate deflate hsettled hend
  | bell => exact hm
  | serverCutText incoming => exact hm.handleCutText deflate incoming
  | setColourMapEntries => exact hm
  | endOfContinuousUpdates =>
      simp only [Session.handleMessage, handleEndOfContinuousUpdates]
      split
      · exact Mirrored.enableContinuousUpdates (hm.unseen ⟨rfl, rfl⟩)
      · split
        · exact hm.unseen ⟨rfl, rfl⟩
        · exact hm
  | serverFence flags payload =>
      simp only [Session.handleMessage, handleFence]
      split
      · exact hm.unseen ⟨rfl, rfl⟩
      · split
        · exact hm.send _
        · exact hm
  | unknown kind => cases hend

theorem mirrored_step (s : Session) (event : Event) (t : Session)
    (h : s.ended = false → Mirrored s) (hok : s.Settled event)
    (hstep : s.step deflate event = some t) : t.ended = false → Mirrored t := by
  intro hend
  unfold step at hstep
  split at hstep
  · cases hstep
  · next hopen =>
      have h := h (Bool.eq_false_iff.mpr hopen)
      cases event with
      | command c =>
          cases hstep
          split
          · exact h.unseen ⟨rfl, rfl⟩
          · exact h
      | idle =>
          cases hstep
          exact (h.unseen (quiet_drainOutbound deflate s).unseen).unseen
            (quiet_reportClipboardLoss _).unseen
      | message m =>
          simp only [Option.some.injEq] at hstep
          split at hstep
          · next hended =>
              rw [← hstep, hended] at hend
              cases hend
          · next hended =>
              rw [← hstep]
              exact (h.handleMessage deflate hok (Bool.eq_false_iff.mpr hended)).unseen
                (quiet_reportCapabilities _).unseen
      | stop =>
          cases hstep
          cases hend

theorem mirrored_start {width height : UInt16} {name : String} {tls : Bool} {s : Session}
    (h : start width height name tls = some s) : Mirrored s := by
  rw [start] at h
  split at h
  · cases h
  · next fb hfb =>
      cases h
      have hvalid := valid_tryNew width.toNat_lt height.toNat_lt hfb
      refine ⟨hvalid, ?_⟩
      rw [Framebuffer.tryNew] at hfb
      split at hfb
      · cases hfb
        exact (blank_replicate _ _ _).shows hvalid
      · cases hfb

/-- In every run whose updates draw nothing behind a change of the size, the viewer's canvas is the
screen whenever the session waits for the server. -/
theorem viewer_mirrors_screen {width height : UInt16} {name : String} {tls : Bool} {s₀ s : Session}
    {events : List Event} (h₀ : start width height name tls = some s₀)
    (hok : Admissible Settled (step deflate) s₀ events)
    (h : run (step deflate) s₀ events = some s) (hwait : s.ended = false) :
    Shows (canvas s.log) s.framebuffer := by
  have hmirrored : Mirrored s := run_invariant_of_admissible
    (I := fun s => s.ended = false → Mirrored s) (mirrored_step deflate)
    (fun _ => mirrored_start h₀) hok h hwait
  exact hmirrored.shows

/-- The screen gets another size and is drawn on in one update: the canvas stays blank. -/
theorem pixels_behind_resize_lost :
    ∃ s₀ s : Session, start 1 1 "screen" false = some s₀ ∧
      run (step fun _ => none) s₀ [.message (.framebufferUpdate
        [⟨0, 0, 2, 1, .desktopSize⟩, ⟨0, 0, 2, 1, .body (.raw [9, 9, 9, 0, 9, 9, 9, 0])⟩] true)] =
        some s ∧
      s.ended = false ∧ (canvas s.log).pixel 0 0 = [0, 0, 0, 0] ∧
      s.framebuffer.pixel 0 0 = [9, 9, 9, 255] ∧ ¬ Shows (canvas s.log) s.framebuffer := by
  have hrun : ((start 1 1 "screen" false).bind fun s₀ =>
      run (step fun _ => none) s₀ [.message (.framebufferUpdate
        [⟨0, 0, 2, 1, .desktopSize⟩, ⟨0, 0, 2, 1, .body (.raw [9, 9, 9, 0, 9, 9, 9, 0])⟩] true)]).map
      (fun s => (s.ended, (canvas s.log).pixel 0 0, s.framebuffer.pixel 0 0, s.size)) =
      some (false, [0, 0, 0, 0], [9, 9, 9, 255], 2, 1) := by decide +kernel
  obtain ⟨s, hs, hview⟩ := Option.map_eq_some_iff.mp hrun
  obtain ⟨s₀, h₀, h⟩ := Option.bind_eq_some_iff.mp hs
  simp only [Prod.mk.injEq] at hview
  obtain ⟨hwait, hcanvas, hpixel, hsize⟩ := hview
  refine ⟨s₀, s, h₀, h, hwait, hcanvas, hpixel, fun hshows => ?_⟩
  have hwidth : s.framebuffer.width = 2 := congrArg Prod.fst hsize
  have hheight : s.framebuffer.height = 1 := congrArg Prod.snd hsize
  have hsame := hshows.pixel 0 0 (by omega) (by omega)
  rw [hcanvas, hpixel] at hsame
  cases hsame

/-- Drawn before its size changes, drawn on in the next update. -/
theorem resized_screen_is_mirrored :
    ∃ s₀ s : Session, start 1 1 "screen" false = some s₀ ∧
      run (step fun _ => none) s₀ [.message (.framebufferUpdate
        [⟨0, 0, 1, 1, .body (.raw [9, 9, 9, 0])⟩, ⟨0, 0, 2, 1, .desktopSize⟩] true),
        .message (.framebufferUpdate [⟨1, 0, 1, 1, .body (.raw [9, 9, 9, 0])⟩] true)] = some s ∧
      Shows (canvas s.log) s.framebuffer := by
  obtain ⟨s₀, s, h₀, h, hwait⟩ :
      ∃ s₀ s : Session, start 1 1 "screen" false = some s₀ ∧
        run (step fun _ => none) s₀ [.message (.framebufferUpdate
          [⟨0, 0, 1, 1, .body (.raw [9, 9, 9, 0])⟩, ⟨0, 0, 2, 1, .desktopSize⟩] true),
          .message (.framebufferUpdate [⟨1, 0, 1, 1, .body (.raw [9, 9, 9, 0])⟩] true)] = some s ∧
        s.ended = false := ⟨_, _, rfl, rfl, rfl⟩
  have hok : Admissible Settled (step fun _ => none) s₀ [.message (.framebufferUpdate
      [⟨0, 0, 1, 1, .body (.raw [9, 9, 9, 0])⟩, ⟨0, 0, 2, 1, .desktopSize⟩] true),
      .message (.framebufferUpdate [⟨1, 0, 1, 1, .body (.raw [9, 9, 9, 0])⟩] true)] := by
    have hdrawn : ∀ t : Session, t.Settled (.message (.framebufferUpdate
        [⟨1, 0, 1, 1, .body (.raw [9, 9, 9, 0])⟩] true)) := fun t hresized => by
      simp only [List.foldl, Progress.note, Bool.false_eq_true] at hresized
    exact ⟨fun _ => rfl, fun t _ => ⟨hdrawn t, fun _ _ => trivial⟩⟩
  exact ⟨s₀, s, h₀, h, viewer_mirrors_screen (fun _ => none) h₀ hok h hwait⟩

end Session

end Dolgate.Vnc
