import Dolgate.RectanglesSafe
import Dolgate.VncSession

set_option autoImplicit false

namespace Dolgate.Vnc

open Transition

namespace Session

/-! What is sent without looking at more than the flags. -/

/-- Messages of an extension need the flag that is set when the server announces it. -/
def Permits (s : Session) : ClientMessage → Prop
  | .setDesktopSize _ _ _ => s.desktopSize.supported = true
  | .enableContinuousUpdates _ _ _ _ _ => False
  | .qemuKeyEvent _ _ _ => s.qemuKeys = true
  | .clientCutTextExtended _ => s.clip.extended = true
  | _ => True

def Plain (s : Session) : Entry → Prop
  | .sent m => s.Permits m
  | .emitted (.capabilities _) => True
  | .emitted (.clipboard _) => True
  | .emitted (.clipboardLossy _) => True
  | .emitted (.cursor _) => True
  | _ => False

structure Quiet (s t : Session) : Prop where
  log : ∃ es, t.log = es ++ s.log ∧ ∀ e ∈ es, s.Plain e
  framebuffer : t.framebuffer = s.framebuffer
  continuous : t.continuous = s.continuous
  supported : t.desktopSize.supported = s.desktopSize.supported
  qemuKeys : t.qemuKeys = s.qemuKeys
  extended : t.clip.extended = s.clip.extended
  ended : t.ended = s.ended

theorem Quiet.permits {s t : Session} (h : Quiet s t) (m : ClientMessage) :
    t.Permits m ↔ s.Permits m := by
  cases m <;> simp only [Permits, h.supported, h.qemuKeys, h.extended]

theorem Quiet.plain {s t : Session} (h : Quiet s t) (e : Entry) : t.Plain e ↔ s.Plain e := by
  cases e with
  | sent m => exact h.permits m
  | message m => exact Iff.rfl
  | rectangle r => exact Iff.rfl
  | emitted o => cases o <;> exact Iff.rfl

theorem Quiet.refl (s : Session) : Quiet s s :=
  ⟨⟨[], rfl, nofun⟩, rfl, rfl, rfl, rfl, rfl, rfl⟩

theorem Quiet.trans {s t u : Session} (h : Quiet s t) (h' : Quiet t u) : Quiet s u := by
  obtain ⟨es, hes, hplain⟩ := h.log
  obtain ⟨es', hes', hplain'⟩ := h'.log
  refine ⟨⟨es' ++ es, by rw [hes', hes, List.append_assoc], fun e he => ?_⟩,
    h'.framebuffer.trans h.framebuffer, h'.continuous.trans h.continuous,
    h'.supported.trans h.supported, h'.qemuKeys.trans h.qemuKeys, h'.extended.trans h.extended,
    h'.ended.trans h.ended⟩
  cases List.mem_append.mp he with
  | inl he => exact (h.plain e).mp (hplain' e he)
  | inr he => exact hplain e he

theorem Quiet.foldl {α : Type} {f : Session → α → Session} (hf : ∀ s a, Quiet s (f s a))
    (s : Session) (as : List α) : Quiet s (as.foldl f s) := by
  induction as generalizing s with
  | nil => exact .refl s
  | cons a as ih => exact (hf s a).trans (ih (f s a))

theorem quiet_send {s : Session} {m : ClientMessage} (h : s.Permits m) : Quiet s (s.send m) :=
  ⟨⟨[.sent m], rfl, by simpa [Plain] using h⟩, rfl, rfl, rfl, rfl, rfl, rfl⟩

theorem quiet_emit {s : Session} {o : Emission} (h : s.Plain (.emitted o)) :
    Quiet s (s.emit o) :=
  ⟨⟨[.emitted o], rfl, by simpa using h⟩, rfl, rfl, rfl, rfl, rfl, rfl⟩

theorem quiet_of_eq {s t : Session} (hlog : t.log = s.log)
    (hfb : t.framebuffer = s.framebuffer) (hcont : t.continuous = s.continuous)
    (hsup : t.desktopSize.supported = s.desktopSize.supported) (hqemu : t.qemuKeys = s.qemuKeys)
    (hext : t.clip.extended = s.clip.extended) (hend : t.ended = s.ended) : Quiet s t :=
  ⟨⟨[], hlog, nofun⟩, hfb, hcont, hsup, hqemu, hext, hend⟩

theorem quiet_requestUpdate (s : Session) (incremental : Bool) :
    Quiet s (s.requestUpdate incremental) := quiet_send trivial

theorem quiet_pointerTo (s : Session) (mask : UInt8) (x y : UInt16) :
    Quiet s (s.pointerTo mask x y) := quiet_of_eq rfl rfl rfl rfl rfl rfl rfl

theorem quiet_pointerEvent (s : Session) (mask : UInt8) (x y : UInt16) :
    Quiet s (s.send (.pointerEvent mask x y)) := quiet_send trivial

theorem quiet_sendInput (s : Session) (event : InputEvent) : Quiet s (s.sendInput event) := by
  cases event with
  | mouseMove x y => exact (quiet_pointerTo s _ x y).trans (quiet_pointerEvent _ _ _ _)
  | mouseButton button pressed x y =>
      simp only [sendInput]
      split
      · exact .refl s
      · exact (quiet_pointerTo s _ x y).trans (quiet_pointerEvent _ _ _ _)
  | wheel vertical delta x y =>
      simp only [sendInput]
      split
      · exact .refl s
      · exact ((quiet_pointerTo s _ x y).trans (quiet_pointerEvent _ _ _ _)).trans
          (quiet_pointerEvent _ _ _ _)
  | key keysym pressed keycode =>
      simp only [sendInput]
      split
      · next h => exact quiet_send h.1
      · exact quiet_send trivial

theorem quiet_sendClassic (s : Session) (text : String) : Quiet s (s.sendClassic text) :=
  (quiet_of_eq rfl rfl rfl rfl rfl rfl rfl : Quiet s { s with
    clip := { s.clip with lossyChars := s.clip.lossyChars + Clipboard.countLatin1Losses text } }
  ).trans (quiet_send trivial)

variable (deflate : List UInt8 → Option (List UInt8))

theorem quiet_sendProvide {s : Session} (h : s.clip.extended = true) (text : String) :
    Quiet s (s.sendProvide deflate text) := by
  rw [sendProvide]
  split
  · exact quiet_send h
  · exact .refl s

theorem quiet_sendClipboardText (s : Session) (text : String) :
    Quiet s (s.sendClipboardText deflate text) := by
  simp only [sendClipboardText]
  split
  · exact quiet_sendClassic s text
  · next hext =>
      have hext : s.clip.extended = true := by simpa using hext
      split
      · exact quiet_send hext
      · split
        · exact (quiet_sendClassic s text).trans (quiet_sendProvide deflate
            (s := s.sendClassic text) hext text)
        · exact quiet_sendClassic s text

theorem quiet_sendCommand (s : Session) (c : Outbound) : Quiet s (s.sendCommand deflate c) := by
  cases c with
  | input batch => exact Quiet.foldl quiet_sendInput s batch
  | clipboard text =>
      refine Quiet.trans ?_ (quiet_sendClipboardText deflate _ text)
      exact quiet_of_eq rfl rfl rfl rfl rfl rfl rfl
  | desktopSize width height =>
      simp only [sendCommand]
      split
      · exact .refl s
      · next hsup =>
          split
          · exact .refl s
          · refine Quiet.trans (t := { s with
              desktopSize := { s.desktopSize with requested := some (width, height) } }) ?_ ?_
            · exact quiet_of_eq rfl rfl rfl rfl rfl rfl rfl
            · exact quiet_send (by simpa [Permits] using hsup)
  | refresh => exact quiet_requestUpdate s false

theorem quiet_drainOutbound (s : Session) : Quiet s (s.drainOutbound deflate) := by
  refine (Quiet.foldl (quiet_sendCommand deflate) s s.outbound).trans ?_
  exact quiet_of_eq rfl rfl rfl rfl rfl rfl rfl

theorem quiet_reportClipboardLoss (s : Session) : Quiet s s.reportClipboardLoss := by
  rw [reportClipboardLoss]
  split
  · exact .refl s
  · refine Quiet.trans ?_ (quiet_emit (by trivial))
    exact quiet_of_eq rfl rfl rfl rfl rfl rfl rfl

theorem quiet_reportCapabilities (s : Session) : Quiet s s.reportCapabilities := by
  simp only [reportCapabilities]
  split
  · refine Quiet.trans ?_ (quiet_emit (by trivial))
    exact quiet_of_eq rfl rfl rfl rfl rfl rfl rfl
  · exact .refl s

/-! What the rectangles of an update write. -/

def Passive : Entry → Prop
  | .rectangle _ => True
  | .emitted _ => True
  | _ => False

/-- The rectangles write passive entries, and leave all but the screen and what is known of its
size as it is. -/
structure Drew (s t : Session) : Prop where
  log : ∃ es, t.log = es ++ s.log ∧ ∀ e ∈ es, Passive e
  continuous : t.continuous = s.continuous
  qemuKeys : t.qemuKeys = s.qemuKeys
  clip : t.clip = s.clip
  ended : t.ended = s.ended

theorem Drew.trans {s t u : Session} (h : Drew s t) (h' : Drew t u) : Drew s u := by
  obtain ⟨es, hes, hpassive⟩ := h.log
  obtain ⟨es', hes', hpassive'⟩ := h'.log
  refine ⟨⟨es' ++ es, by rw [hes', hes, List.append_assoc], fun e he => ?_⟩,
    h'.continuous.trans h.continuous, h'.qemuKeys.trans h.qemuKeys, h'.clip.trans h.clip,
    h'.ended.trans h.ended⟩
  cases List.mem_append.mp he with
  | inl he => exact hpassive' e he
  | inr he => exact hpassive e he

theorem drew_of_eq {s t : Session} (hlog : t.log = s.log) (hcont : t.continuous = s.continuous)
    (hqemu : t.qemuKeys = s.qemuKeys) (hclip : t.clip = s.clip) (hend : t.ended = s.ended) :
    Drew s t :=
  ⟨⟨[], hlog, nofun⟩, hcont, hqemu, hclip, hend⟩

theorem Drew.refl (s : Session) : Drew s s := drew_of_eq rfl rfl rfl rfl rfl

theorem drew_emit (s : Session) (o : Emission) : Drew s (s.emit o) :=
  ⟨⟨[.emitted o], rfl, by simp [Passive]⟩, rfl, rfl, rfl, rfl⟩

theorem drew_handleBody (s : Session) (o : UpdateOutcome) (rect : Rect) (body : Body) :
    Drew s (s.handleBody o rect body).1 := by
  rw [handleBody]
  split
  · exact drew_of_eq rfl rfl rfl rfl rfl
  · next shape fb heq =>
      have hput : Drew s { s with framebuffer := fb } := drew_of_eq rfl rfl rfl rfl rfl
      split
      · refine hput.trans ?_
        simp only [sendRect]
        split
        · exact drew_emit _ _
        · exact .refl _
      · refine hput.trans ?_
        cases shape with
        | none => exact .refl _
        | some shape => exact drew_emit _ _

theorem drew_resize (s : Session) (o : UpdateOutcome) (width height : Nat) :
    Drew s (s.resize o width height).1 := by
  rw [resize]
  split <;> exact drew_of_eq rfl rfl rfl rfl rfl

theorem drew_noteLayout (s : Session) (layout : List UInt8) (reason result : UInt16) :
    Drew s (s.noteLayout layout reason result) := drew_of_eq rfl rfl rfl rfl rfl

theorem drew_handleRectangle (s : Session) (o : UpdateOutcome) (r : ServerRect) :
    Drew s (s.handleRectangle o r).1 := by
  have hnote : Drew s { s with log := .rectangle r :: s.log } :=
    ⟨⟨[.rectangle r], rfl, by simp [Passive]⟩, rfl, rfl, rfl, rfl⟩
  simp only [handleRectangle]
  split
  · exact hnote.trans (drew_handleBody _ o r.rect _)
  · exact hnote
  · exact hnote.trans (drew_resize _ o _ _)
  · next layout heq =>
      have hlayout := hnote.trans (drew_noteLayout _ layout r.x r.y)
      split
      · exact hlayout.trans (drew_resize _ o _ _)
      · exact hlayout
  · exact hnote

theorem drew_handleRectangles (s : Session) (o : UpdateOutcome) (rs : List ServerRect) :
    Drew s (s.handleRectangles o rs).1 := by
  induction rs generalizing s o with
  | nil => exact .refl s
  | cons r rs ih =>
      have hstep := drew_handleRectangle s o r
      rw [handleRectangles]
      split
      · next s' o' heq =>
          rw [heq] at hstep
          exact hstep.trans (ih s' o')
      · next s' heq =>
          rw [heq] at hstep
          exact hstep

/-! An update that is not known to have resized has left the screen's size. -/

def size (s : Session) : Nat × Nat := (s.framebuffer.width, s.framebuffer.height)

theorem tryResize_ok {width height : Nat} {fb fb' : Framebuffer}
    (h : tryResize width height fb = (.ok (), fb')) :
    ∃ len, checkedRgbaFramebufferLen width height = some len ∧
      fb' = ⟨width, height, List.replicate len 0⟩ := by
  simp only [tryResize, Bind.bind, Checked.Comp.bind, Checked.orFail] at h
  cases hlen : checkedRgbaFramebufferLen width height with
  | none =>
      rw [hlen] at h
      cases h
  | some len =>
      rw [hlen] at h
      cases h
      exact ⟨len, rfl, rfl⟩

theorem handleBody_some {s t : Session} {o o' : UpdateOutcome} {rect : Rect} {body : Body}
    (hfb : s.framebuffer.Valid) (h : s.handleBody o rect body = (t, some o')) :
    SameOutside rect s.framebuffer t.framebuffer ∧ o'.resized = o.resized := by
  have hsafe := Checked.wp_iff.mp (safe_decodeRectangle rect body hfb)
  rw [handleBody] at h
  split at h
  · cases h
  · next shape fb heq =>
      have hsame : SameOutside rect s.framebuffer fb := by
        cases hsafe with
        | inl hok =>
            obtain ⟨cursor, fb', hdecode, hsame⟩ := hok
            rw [heq] at hdecode
            cases hdecode
            exact hsame
        | inr herr =>
            obtain ⟨e, fb', hdecode, -⟩ := herr
            rw [heq] at hdecode
            cases hdecode
      split at h
      · cases h
        refine ⟨?_, rfl⟩
        rw [sendRect]
        split <;> exact hsame
      · cases h
        cases shape <;> exact ⟨hsame, rfl⟩

theorem resize_some {s t : Session} {o o' : UpdateOutcome} {width height : Nat}
    (h : s.resize o width height = (t, some o')) :
    ∃ len, checkedRgbaFramebufferLen width height = some len ∧
      t = { s with framebuffer := ⟨width, height, List.replicate len 0⟩ } ∧
      o' = { o with resized := some (width, height) } := by
  rw [resize] at h
  split at h
  · cases h
  · next heq =>
      obtain ⟨len, hlen, rfl⟩ := tryResize_ok heq
      cases h
      exact ⟨len, hlen, rfl, rfl⟩

theorem handleRectangle_some {s t : Session} {o o' : UpdateOutcome} {r : ServerRect}
    (hfb : s.framebuffer.Valid) (h : s.handleRectangle o r = (t, some o')) :
    t.framebuffer.Valid ∧ (o'.resized = none → o.resized = none ∧ t.size = s.size) := by
  have hresize : ∀ {u : Session}, u.resize o r.width.toNat r.height.toNat = (t, some o') →
      t.framebuffer.Valid ∧ (o'.resized = none → o.resized = none ∧ t.size = s.size) := by
    intro u hu
    obtain ⟨len, hlen, rfl, rfl⟩ := resize_some hu
    exact ⟨valid_of_checkedLen r.width.toNat_lt r.height.toNat_lt hlen, nofun⟩
  simp only [handleRectangle] at h
  split at h
  · have hbody := fun hvalid => handleBody_some hvalid h
    obtain ⟨hsame, hres⟩ := hbody hfb
    refine ⟨hfb.of_sameOutside hsame, fun hnone => ⟨hres ▸ hnone, ?_⟩⟩
    exact Prod.ext hsame.width hsame.height
  · cases h
    exact ⟨hfb, fun hnone => ⟨hnone, rfl⟩⟩
  · exact hresize h
  · split at h
    · exact hresize h
    · cases h
      exact ⟨hfb, fun hnone => ⟨hnone, rfl⟩⟩
  · cases h

theorem handleRectangles_some {s t : Session} {o o' : UpdateOutcome} {rs : List ServerRect}
    (hfb : s.framebuffer.Valid) (h : s.handleRectangles o rs = (t, some o')) :
    t.framebuffer.Valid ∧ (o'.resized = none → o.resized = none ∧ t.size = s.size) := by
  induction rs generalizing s o with
  | nil =>
      cases h
      exact ⟨hfb, fun hnone => ⟨hnone, rfl⟩⟩
  | cons r rs ih =>
      rw [handleRectangles] at h
      split at h
      · next s' o₁ heq =>
          obtain ⟨hfb', hsize⟩ := handleRectangle_some hfb heq
          obtain ⟨hvalid, hrest⟩ := ih hfb' h
          refine ⟨hvalid, fun hnone => ?_⟩
          obtain ⟨hnone', hsize'⟩ := hrest hnone
          exact ⟨(hsize hnone').1, hsize'.trans (hsize hnone').2⟩
      · cases h

/-! The flow of updates. -/

def asked : List Entry → Bool
  | [] => false
  | .sent (.framebufferUpdateRequest _ _ _ _ _) :: _ => true
  | .message (.framebufferUpdate _ _) :: _ => false
  | _ :: older => asked older

/-- The area for which continuous updates have been enabled, unless they have been ended since. -/
def continuousArea : List Entry → Option (Nat × Nat)
  | [] => none
  | .sent (.enableContinuousUpdates enable _ _ width height) :: _ =>
      if enable then some (width, height) else none
  | .message .endOfContinuousUpdates :: _ => none
  | _ :: older => continuousArea older

theorem asked_passive {es log : List Entry} (h : ∀ e ∈ es, Passive e) :
    asked (es ++ log) = asked log ∧ continuousArea (es ++ log) = continuousArea log := by
  induction es with
  | nil => exact ⟨rfl, rfl⟩
  | cons e es ih =>
      have hrest := ih fun e he => h e (List.mem_cons_of_mem _ he)
      have he := h e List.mem_cons_self
      cases e with
      | rectangle r => exact hrest
      | emitted o => exact hrest
      | message m => exact he.elim
      | sent m => exact he.elim

theorem asked_plain {s : Session} {es l : List Entry} (h : ∀ e ∈ es, s.Plain e) :
    (asked l = true → asked (es ++ l) = true) ∧
      continuousArea (es ++ l) = continuousArea l := by
  induction es with
  | nil => exact ⟨id, rfl⟩
  | cons e es ih =>
      have hrest := ih fun e he => h e (List.mem_cons_of_mem _ he)
      have he := h e List.mem_cons_self
      cases e with
      | rectangle r => exact he.elim
      | emitted o => exact hrest
      | message m => exact he.elim
      | sent m =>
          cases m with
          | framebufferUpdateRequest incremental x y width height => exact ⟨fun _ => rfl, hrest.2⟩
          | enableContinuousUpdates enable x y width height => exact he.elim
          | _ => exact hrest

def Noted (s : Session) : Prop :=
  s.continuous.enabled = true →
    s.continuous.supported = true ∧ continuousArea s.log = s.continuous.area

/-- Updates will come: unasked for the screen as it is, or because one has been asked for. -/
def Flowing (s : Session) : Prop :=
  (s.continuous.enabled = true ∧ s.continuous.area = some s.size) ∨ asked s.log = true

structure Live (s : Session) : Prop where
  valid : s.framebuffer.Valid
  noted : s.Noted
  current : s.continuous.enabled = true → s.continuous.area = some s.size
  flowing : s.Flowing

theorem Live.quiet {s t : Session} (h : Live s) (hq : Quiet s t) : Live t := by
  obtain ⟨es, hes, hplain⟩ := hq.log
  obtain ⟨hasked, harea⟩ := asked_plain (l := s.log) hplain
  have hsize : t.size = s.size := by rw [size, size, hq.framebuffer]
  refine ⟨by rw [hq.framebuffer]; exact h.valid, ?_, ?_, ?_⟩
  · rw [Noted, hq.continuous, hes, harea]
    exact h.noted
  · rw [hq.continuous, hsize]
    exact h.current
  · rw [Flowing, hq.continuous, hsize, hes]
    exact h.flowing.imp_right hasked

theorem live_enable {s : Session} (hfb : s.framebuffer.Valid) (hn : s.Noted)
    (ha : asked s.log = true) : Live s.enableContinuousUpdates := by
  rw [enableContinuousUpdates]
  cases hsup : s.continuous.supported with
  | false =>
      have hoff : s.continuous.enabled = true → False := fun hen => by
        have := (hn hen).1
        rw [hsup] at this
        cases this
      exact ⟨hfb, hn, fun hen => (hoff hen).elim, .inr ha⟩
  | true =>
      simp only [Bool.not_true, Bool.false_eq_true, if_false]
      split
      · next hen => exact ⟨hfb, hn, fun _ => hen.2, .inr ha⟩
      · refine ⟨hfb, fun _ => ⟨hsup, rfl⟩, fun _ => rfl, .inl ⟨rfl, rfl⟩⟩

theorem live_continueUpdates {s : Session} {resized : Option (Nat × Nat)}
    (hfb : s.framebuffer.Valid) (hn : s.Noted)
    (hsize : resized = none → s.continuous.enabled = true → s.continuous.area = some s.size) :
    Live (s.continueUpdates resized) := by
  cases resized with
  | some wh =>
      exact live_enable hfb hn rfl
  | none =>
      simp only [continueUpdates]
      split
      · next hen => exact ⟨hfb, hn, hsize rfl, .inl ⟨hen, hsize rfl hen⟩⟩
      · split
        · exact ⟨hfb, hn, hsize rfl, .inr rfl⟩
        · exact ⟨hfb, hn, hsize rfl, .inr rfl⟩

variable (deflate : List UInt8 → Option (List UInt8))

theorem Live.handleFramebufferUpdate {s : Session} (h : Live s) (rects : List ServerRect)
    (complete : Bool)
    (hend : (handleFramebufferUpdate deflate
      { s with log := .message (.framebufferUpdate rects complete) :: s.log } rects
      complete).ended = false) :
    Live (Session.handleFramebufferUpdate deflate
      { s with log := .message (.framebufferUpdate rects complete) :: s.log } rects complete) := by
  set u : Session := { s with log := .message (.framebufferUpdate rects complete) :: s.log }
  have hdrew := drew_handleRectangles u {} rects
  rw [Session.handleFramebufferUpdate] at hend ⊢
  split at hend
  · cases hend
  · next t o heq =>
      rw [heq] at hdrew
      obtain ⟨hvalid, hsize⟩ := handleRectangles_some (s := u) h.valid heq
      obtain ⟨es, hes, hpassive⟩ := hdrew.log
      split at hend
      · next hcomplete =>
          simp only [hcomplete, if_true]
          refine Live.quiet (Live.quiet ?_ (quiet_drainOutbound deflate _))
            (quiet_reportClipboardLoss _)
          refine live_continueUpdates hvalid ?_ ?_
          · have hcont : (t.noteOutcome o).continuous = s.continuous := hdrew.continuous
            rw [Noted, hcont]
            intro hen
            have hlog : (t.noteOutcome o).log = es ++ u.log := hes
            rw [hlog, (asked_passive hpassive).2]
            exact h.noted hen
          · intro hnone hen
            have hcont : (t.noteOutcome o).continuous = s.continuous := hdrew.continuous
            have hsame : (t.noteOutcome o).size = s.size := (hsize hnone).2
            rw [hcont] at hen ⊢
            rw [hsame]
            exact h.current hen
      · cases hend

theorem Live.message {s : Session} (h : Live s) {m : ServerMessage}
    (hasked : asked (.message m :: s.log) = asked s.log)
    (harea : continuousArea (.message m :: s.log) = continuousArea s.log) :
    Live { s with log := .message m :: s.log } := by
  refine ⟨h.valid, ?_, h.current, ?_⟩
  · intro hen
    rw [harea]
    exact h.noted hen
  · exact h.flowing.imp_right fun ha => hasked.trans ha

theorem Live.send {s : Session} (h : Live s) {m : ClientMessage}
    (hasked : asked (.sent m :: s.log) = asked s.log)
    (harea : continuousArea (.sent m :: s.log) = continuousArea s.log) : Live (s.send m) := by
  refine ⟨h.valid, ?_, h.current, ?_⟩
  · intro hen
    have hnoted := h.noted hen
    exact ⟨hnoted.1, harea.trans hnoted.2⟩
  · exact h.flowing.imp_right fun ha => hasked.trans ha

theorem Live.clip {s : Session} (h : Live s) (clip : ClipboardState) :
    Live { s with clip := clip } := ⟨h.valid, h.noted, h.current, h.flowing⟩

theorem Live.handleCutText {s : Session} (h : Live s) (incoming : Clipboard.Incoming) :
    Live (s.handleCutText deflate incoming) := by
  cases incoming with
  | classic text => exact h.quiet (quiet_emit trivial)
  | caps formats actions limit =>
      simp only [Session.handleCutText]
      split
      · have hsent := fun clip => (h.clip clip).send
          (m := .clientCutTextExtended Clipboard.encodeCaps) rfl rfl
        split
        · exact (hsent _).quiet (quiet_sendClipboardText deflate _ _)
        · exact hsent _
      · exact h.clip _
  | provide text => exact h.quiet (quiet_emit trivial)
  | notify formats => exact h.send rfl rfl
  | request formats =>
      simp only [Session.handleCutText, sendProvide]
      split
      · split
        · exact h.send rfl rfl
        · exact h
      · exact h
  | ignored => exact h

theorem Live.handleEndOfContinuousUpdates {s : Session} (h : Live s) :
    Live (Session.handleEndOfContinuousUpdates
      { s with log := .message .endOfContinuousUpdates :: s.log }) := by
  simp only [Session.handleEndOfContinuousUpdates]
  cases hsup : s.continuous.supported with
  | false =>
      have hoff : s.continuous.enabled = false := by
        cases hen : s.continuous.enabled with
        | false => rfl
        | true =>
            have := (h.noted hen).1
            rw [hsup] at this
            cases this
      have hasked : asked s.log = true := by
        cases h.flowing with
        | inl hen =>
            rw [hoff] at hen
            cases hen.1
        | inr hasked => exact hasked
      simp only [Bool.not_false, if_true]
      refine live_enable h.valid ?_ hasked
      intro hen
      rw [hoff] at hen
      cases hen
  | true =>
      simp only [Bool.not_true, Bool.false_eq_true, if_false]
      split
      · exact ⟨h.valid, nofun, nofun, .inr rfl⟩
      · next hoff =>
          refine ⟨h.valid, fun hen => (hoff hen).elim, fun hen => (hoff hen).elim, ?_⟩
          exact .inr (h.flowing.resolve_left fun hen => hoff hen.1)

theorem Live.handleMessage {s : Session} (h : Live s) (m : ServerMessage)
    (hend : (s.handleMessage deflate m).ended = false) : Live (s.handleMessage deflate m) := by
  cases m with
  | framebufferUpdate rects complete => exact h.handleFramebufferUpdate deflate rects complete hend
  | bell => exact h.message rfl rfl
  | serverCutText incoming => exact (h.message rfl rfl).handleCutText deflate incoming
  | setColourMapEntries => exact h.message rfl rfl
  | endOfContinuousUpdates => exact h.handleEndOfContinuousUpdates
  | serverFence flags payload =>
      have hm := h.message (m := .serverFence flags payload) rfl rfl
      simp only [Session.handleMessage, handleFence] at hend ⊢
      split
      · next hlong =>
          rw [if_pos hlong] at hend
          cases hend
      · split
        · exact hm.send rfl rfl
        · exact hm
  | unknown kind => cases hend

theorem live_step (s : Session) (event : Event) (t : Session) (h : s.ended = false → Live s)
    (hstep : s.step deflate event = some t) : t.ended = false → Live t := by
  intro hend
  unfold step at hstep
  split at hstep
  · cases hstep
  · next hopen =>
      have h := h (Bool.eq_false_iff.mpr hopen)
      cases event with
      | command c =>
          cases hstep
          split
          · exact ⟨h.valid, h.noted, h.current, h.flowing⟩
          · exact h
      | idle =>
          cases hstep
          exact (h.quiet (quiet_drainOutbound deflate s)).quiet (quiet_reportClipboardLoss _)
      | message m =>
          simp only [Option.some.injEq] at hstep
          split at hstep
          · next hended =>
              rw [← hstep, hended] at hend
              cases hend
          · next hended =>
              rw [← hstep]
              exact (h.handleMessage deflate m (Bool.eq_false_iff.mpr hended)).quiet
                (quiet_reportCapabilities _)
      | stop =>
          cases hstep
          cases hend

theorem live_start {width height : UInt16} {name : String} {tls : Bool} {s : Session}
    (h : start width height name tls = some s) : Live s := by
  rw [start] at h
  split at h
  · cases h
  · next fb hfb =>
      cases h
      exact ⟨valid_tryNew width.toNat_lt height.toNat_lt hfb, nofun, nofun, .inr rfl⟩

/-- Whenever the session waits for the server, updates have been enabled for the screen as it is,
or one has been asked for since the last one came. -/
theorem updates_never_stall {width height : UInt16} {name : String} {tls : Bool} {s₀ s : Session}
    {events : List Event} (h₀ : start width height name tls = some s₀)
    (h : run (step deflate) s₀ events = some s) (hwait : s.ended = false) :
    continuousArea s.log = some (s.framebuffer.width, s.framebuffer.height) ∨
      asked s.log = true := by
  have hlive : Live s := run_invariant (I := fun s => s.ended = false → Live s)
    (live_step deflate) (fun _ => live_start h₀) h hwait
  cases hlive.flowing with
  | inl hen =>
      left
      rw [(hlive.noted hen.1).2, hen.2]
      rfl
  | inr hasked => exact .inr hasked

/-- Continuous updates come, and then a larger screen. -/
theorem resized_screen_keeps_flowing :
    ∃ s₀ s : Session, start 2 1 "screen" false = some s₀ ∧
      run (step fun _ => none) s₀ [.message .endOfContinuousUpdates,
        .message (.framebufferUpdate [⟨0, 0, 3, 1, .desktopSize⟩] true), .idle] = some s ∧
      (continuousArea s.log = some (s.framebuffer.width, s.framebuffer.height) ∨
        asked s.log = true) := by
  obtain ⟨s₀, s, h₀, h, hwait⟩ : ∃ s₀ s : Session, start 2 1 "screen" false = some s₀ ∧
      run (step fun _ => none) s₀ [.message .endOfContinuousUpdates,
        .message (.framebufferUpdate [⟨0, 0, 3, 1, .desktopSize⟩] true), .idle] = some s ∧
      s.ended = false := ⟨_, _, rfl, rfl, rfl⟩
  exact ⟨s₀, s, h₀, h, updates_never_stall (fun _ => none) h₀ h hwait⟩

end Session

end Dolgate.Vnc
