import Dolgate.VncRequests

set_option autoImplicit false

namespace Dolgate.Vnc

open Transition

namespace Session

def AnnouncedText (log : List Entry) : Prop :=
  ∃ formats actions limit,
    Entry.message (.serverCutText (.caps formats actions limit)) ∈ log ∧
      formats &&& Clipboard.formatText ≠ 0

def Announced (log : List Entry) : ClientMessage → Prop
  | .setDesktopSize _ _ _ =>
      ∃ r layout, .rectangle r ∈ log ∧ r.content = .extendedDesktopSize layout
  | .enableContinuousUpdates _ _ _ _ _ => .message .endOfContinuousUpdates ∈ log
  | .qemuKeyEvent _ _ _ => ∃ r, .rectangle r ∈ log ∧ r.content = .qemuKeyEvent
  | .clientCutTextExtended _ => AnnouncedText log
  | _ => True

def Heralded : List Entry → Prop
  | [] => True
  | .sent m :: older => Announced older m ∧ Heralded older
  | _ :: older => Heralded older

theorem AnnouncedText.append {log : List Entry} (h : AnnouncedText log) (es : List Entry) :
    AnnouncedText (es ++ log) := by
  obtain ⟨formats, actions, limit, hmem, htext⟩ := h
  exact ⟨formats, actions, limit, List.mem_append_right es hmem, htext⟩

theorem Announced.append {log : List Entry} {m : ClientMessage} (h : Announced log m)
    (es : List Entry) : Announced (es ++ log) m := by
  cases m with
  | setDesktopSize width height id =>
      obtain ⟨r, layout, hmem, hr⟩ := h
      exact ⟨r, layout, List.mem_append_right es hmem, hr⟩
  | enableContinuousUpdates enable x y width height => exact List.mem_append_right es h
  | qemuKeyEvent keysym keycode pressed =>
      obtain ⟨r, hmem, hr⟩ := h
      exact ⟨r, List.mem_append_right es hmem, hr⟩
  | clientCutTextExtended body => exact AnnouncedText.append h es
  | _ => trivial

theorem Heralded.of_append {es log : List Entry} (h : Heralded (es ++ log)) : Heralded log := by
  induction es with
  | nil => exact h
  | cons e es ih =>
      cases e with
      | sent m => exact ih h.2
      | message m => exact ih h
      | rectangle r => exact ih h
      | emitted o => exact ih h

theorem heralded_iff {log : List Entry} : Heralded log ↔
    ∀ after m before, log = after ++ .sent m :: before → Announced before m := by
  induction log with
  | nil => exact ⟨fun _ after m before h => by simp at h, fun _ => trivial⟩
  | cons e older ih =>
      constructor
      · intro h after m before heq
        have hsplit : Heralded (after ++ .sent m :: before) := heq ▸ h
        exact (Heralded.of_append hsplit).1
      · intro h
        have holder : Heralded older := ih.mpr fun after m before heq =>
          h (e :: after) m before (by rw [heq]; rfl)
        cases e with
        | sent m => exact ⟨h [] m older rfl, holder⟩
        | message m => exact holder
        | rectangle r => exact holder
        | emitted o => exact holder

structure Evidence (s : Session) : Prop where
  desktopSize : s.desktopSize.supported = true →
    ∃ r layout, .rectangle r ∈ s.log ∧ r.content = .extendedDesktopSize layout
  continuous : s.continuous.supported = true → .message .endOfContinuousUpdates ∈ s.log
  qemuKeys : s.qemuKeys = true → ∃ r, .rectangle r ∈ s.log ∧ r.content = .qemuKeyEvent
  clip : s.clip.extended = true → AnnouncedText s.log

theorem Evidence.announced {s : Session} (h : Evidence s) {m : ClientMessage}
    (hm : s.Permits m) : Announced s.log m := by
  cases m with
  | setDesktopSize width height id => exact h.desktopSize hm
  | enableContinuousUpdates enable x y width height => exact hm.elim
  | qemuKeyEvent keysym keycode pressed => exact h.qemuKeys hm
  | clientCutTextExtended body => exact h.clip hm
  | _ => trivial

theorem Evidence.grow {s t : Session} (h : Evidence s) {l : List Entry}
    (hlog : t.log = l ++ s.log) (hsup : t.desktopSize.supported = s.desktopSize.supported)
    (hcont : t.continuous.supported = s.continuous.supported) (hqemu : t.qemuKeys = s.qemuKeys)
    (hext : t.clip.extended = s.clip.extended) : Evidence t := by
  refine ⟨fun ht => ?_, fun ht => ?_, fun ht => ?_, fun ht => ?_⟩
  · obtain ⟨r, layout, hmem, hr⟩ := h.desktopSize (hsup ▸ ht)
    exact ⟨r, layout, hlog ▸ List.mem_append_right l hmem, hr⟩
  · exact hlog ▸ List.mem_append_right l (h.continuous (hcont ▸ ht))
  · obtain ⟨r, hmem, hr⟩ := h.qemuKeys (hqemu ▸ ht)
    exact ⟨r, hlog ▸ List.mem_append_right l hmem, hr⟩
  · exact hlog ▸ (h.clip (hext ▸ ht)).append l

structure Proper (s : Session) : Prop where
  evidence : Evidence s
  heralded : Heralded s.log

theorem Proper.quiet {s t : Session} (h : Proper s) (hq : Quiet s t) : Proper t := by
  obtain ⟨es, hes, hplain⟩ := hq.log
  refine ⟨h.evidence.grow hes hq.supported (by rw [hq.continuous]) hq.qemuKeys hq.extended, ?_⟩
  rw [hes]
  clear hes
  induction es with
  | nil => exact h.heralded
  | cons e es ih =>
      have hrest := ih fun e he => hplain e (List.mem_cons_of_mem _ he)
      have he := hplain e List.mem_cons_self
      cases e with
      | sent m => exact ⟨(h.evidence.announced he).append es, hrest⟩
      | message m => exact he.elim
      | rectangle r => exact he.elim
      | emitted o => exact hrest

theorem Proper.send {s : Session} (h : Proper s) {m : ClientMessage} (hm : Announced s.log m) :
    Proper (s.send m) :=
  ⟨h.evidence.grow (l := [.sent m]) rfl rfl rfl rfl rfl, hm, h.heralded⟩

theorem Proper.emit {s : Session} (h : Proper s) (o : Emission) : Proper (s.emit o) :=
  ⟨h.evidence.grow (l := [.emitted o]) rfl rfl rfl rfl rfl, h.heralded⟩

theorem Proper.message {s : Session} (h : Proper s) (m : ServerMessage) :
    Proper { s with log := .message m :: s.log } :=
  ⟨h.evidence.grow (l := [.message m]) rfl rfl rfl rfl rfl, h.heralded⟩

theorem Proper.congr {s t : Session} (h : Proper s) (hlog : t.log = s.log)
    (hsup : t.desktopSize.supported = s.desktopSize.supported)
    (hcont : t.continuous.supported = s.continuous.supported) (hqemu : t.qemuKeys = s.qemuKeys)
    (hext : t.clip.extended = s.clip.extended) : Proper t :=
  ⟨h.evidence.grow (l := []) hlog hsup hcont hqemu hext, hlog ▸ h.heralded⟩

/-! The rectangles of an update. -/

def SawQemuKeys (log : List Entry) : Prop := ∃ r, .rectangle r ∈ log ∧ r.content = .qemuKeyEvent

theorem heralded_passive {es log : List Entry} (h : Heralded log) (hes : ∀ e ∈ es, Passive e) :
    Heralded (es ++ log) := by
  induction es with
  | nil => exact h
  | cons e es ih =>
      have hrest := ih fun e he => hes e (List.mem_cons_of_mem _ he)
      have he := hes e List.mem_cons_self
      cases e with
      | sent m => exact he.elim
      | message m => exact he.elim
      | rectangle r => exact hrest
      | emitted o => exact hrest

theorem Proper.drew {s t : Session} (h : Proper s) (hd : Drew s t)
    (hsup : t.desktopSize.supported = true → s.desktopSize.supported = true ∨
      ∃ r layout, .rectangle r ∈ t.log ∧ r.content = .extendedDesktopSize layout) : Proper t := by
  obtain ⟨es, hes, hpassive⟩ := hd.log
  refine ⟨⟨fun ht => ?_, fun ht => ?_, fun ht => ?_, fun ht => ?_⟩, ?_⟩
  · cases hsup ht with
    | inl hs =>
        obtain ⟨r, layout, hmem, hr⟩ := h.evidence.desktopSize hs
        exact ⟨r, layout, hes ▸ List.mem_append_right es hmem, hr⟩
    | inr hr => exact hr
  · exact hes ▸ List.mem_append_right es (h.evidence.continuous (hd.continuous ▸ ht))
  · obtain ⟨r, hmem, hr⟩ := h.evidence.qemuKeys (hd.qemuKeys ▸ ht)
    exact ⟨r, hes ▸ List.mem_append_right es hmem, hr⟩
  · exact hes ▸ (h.evidence.clip (hd.clip ▸ ht)).append es
  · exact hes ▸ heralded_passive h.heralded hpassive

theorem desktopSize_handleBody (s : Session) (o : UpdateOutcome) (rect : Rect) (body : Body) :
    (s.handleBody o rect body).1.desktopSize = s.desktopSize := by
  rw [handleBody]
  split
  · rfl
  · next shape fb heq =>
      split
      · simp only [sendRect]
        split <;> rfl
      · cases shape <;> rfl

theorem desktopSize_resize (s : Session) (o : UpdateOutcome) (width height : Nat) :
    (s.resize o width height).1.desktopSize = s.desktopSize := by
  rw [resize]
  split <;> rfl

theorem Proper.handleRectangle {s : Session} (h : Proper s) (o : UpdateOutcome) (r : ServerRect) :
    Proper (s.handleRectangle o r).1 := by
  refine h.drew (drew_handleRectangle s o r) fun ht => ?_
  obtain ⟨es, hes, -⟩ := (drew_handleRectangle s o r).log
  simp only [Session.handleRectangle] at ht hes ⊢
  split at ht
  · rw [desktopSize_handleBody] at ht
    exact .inl ht
  · exact .inl ht
  · rw [desktopSize_resize] at ht
    exact .inl ht
  · next layout heq =>
      right
      refine ⟨r, layout, ?_, heq⟩
      split
      · have hlog := (drew_resize
          (noteLayout { s with log := .rectangle r :: s.log } layout r.x r.y) o r.width.toNat
          r.height.toNat).log
        obtain ⟨es', hes', -⟩ := hlog
        rw [hes']
        exact List.mem_append_right es' List.mem_cons_self
      · exact List.mem_cons_self
  · exact .inl ht

theorem Proper.handleRectangles {s : Session} (h : Proper s) (o : UpdateOutcome)
    (rs : List ServerRect) : Proper (s.handleRectangles o rs).1 := by
  induction rs generalizing s o with
  | nil => exact h
  | cons r rs ih =>
      have hstep := h.handleRectangle o r
      rw [Session.handleRectangles]
      split
      · next s' o' heq =>
          rw [heq] at hstep
          exact ih hstep o'
      · next s' heq =>
          rw [heq] at hstep
          exact hstep

theorem sawQemuKeys_handleBody {s t : Session} {o o' : UpdateOutcome} {rect : Rect} {body : Body}
    (h : s.handleBody o rect body = (t, some o')) : o'.sawQemuKeys = o.sawQemuKeys := by
  rw [handleBody] at h
  split at h
  · cases h
  · next shape fb heq =>
      split at h
      · cases h
        rfl
      · cases h
        rfl

theorem sawQemuKeys_handleRectangle {s t : Session} {o o' : UpdateOutcome} {r : ServerRect}
    (h : s.handleRectangle o r = (t, some o')) (hsaw : o'.sawQemuKeys = true) :
    o.sawQemuKeys = true ∨ SawQemuKeys t.log := by
  have hresize : ∀ {u : Session}, u.resize o r.width.toNat r.height.toNat = (t, some o') →
      o.sawQemuKeys = true := by
    intro u hu
    obtain ⟨len, -, -, rfl⟩ := resize_some hu
    exact hsaw
  simp only [Session.handleRectangle] at h
  split at h
  · exact .inl (sawQemuKeys_handleBody h ▸ hsaw)
  · next heq =>
      cases h
      exact .inr ⟨r, List.mem_cons_self, heq⟩
  · exact .inl (hresize h)
  · split at h
    · exact .inl (hresize h)
    · cases h
      exact .inl hsaw
  · cases h

theorem sawQemuKeys_handleRectangles {s t : Session} {o o' : UpdateOutcome} {rs : List ServerRect}
    (h : s.handleRectangles o rs = (t, some o')) (hsaw : o'.sawQemuKeys = true) :
    o.sawQemuKeys = true ∨ SawQemuKeys t.log := by
  induction rs generalizing s o with
  | nil =>
      cases h
      exact .inl hsaw
  | cons r rs ih =>
      rw [Session.handleRectangles] at h
      split at h
      · next s' o₁ heq =>
          cases ih h with
          | inr hlog => exact .inr hlog
          | inl hsaw₁ =>
              refine (sawQemuKeys_handleRectangle heq hsaw₁).imp_right fun hlog => ?_
              obtain ⟨es, hes, -⟩ := (drew_handleRectangles s' o₁ rs).log
              obtain ⟨r', hmem, hr'⟩ := hlog
              have ht : t.log = es ++ s'.log := by
                rw [← hes, h]
              exact ⟨r', ht ▸ List.mem_append_right es hmem, hr'⟩
      · cases h

theorem Proper.noteOutcome {s : Session} (h : Proper s) {o : UpdateOutcome}
    (hsaw : o.sawQemuKeys = true → SawQemuKeys s.log) : Proper (s.noteOutcome o) := by
  refine ⟨⟨h.evidence.desktopSize, h.evidence.continuous, fun hq => ?_, h.evidence.clip⟩,
    h.heralded⟩
  simp only [Session.noteOutcome] at hq
  split at hq
  · next hs => exact hsaw hs
  · exact h.evidence.qemuKeys hq

theorem Proper.enableContinuousUpdates {s : Session} (h : Proper s) :
    Proper s.enableContinuousUpdates := by
  rw [Session.enableContinuousUpdates]
  split
  · exact h
  · next hsup =>
      have hsup : s.continuous.supported = true := by simpa using hsup
      simp only
      split
      · exact h
      · exact (h.send (m := .enableContinuousUpdates true 0 0 s.framebuffer.width
          s.framebuffer.height) (h.evidence.continuous hsup)).congr rfl rfl rfl rfl rfl

theorem Proper.continueUpdates {s : Session} (h : Proper s) (resized : Option (Nat × Nat)) :
    Proper (s.continueUpdates resized) := by
  cases resized with
  | some wh =>
      refine Proper.enableContinuousUpdates ?_
      refine Proper.quiet ?_ (quiet_requestUpdate _ false)
      exact (h.emit _).congr rfl rfl rfl rfl rfl
  | none =>
      simp only [Session.continueUpdates]
      split
      · exact h
      · split
        · refine Proper.quiet ?_ (quiet_requestUpdate _ false)
          exact h.congr rfl rfl rfl rfl rfl
        · exact h.quiet (quiet_requestUpdate s true)

variable (deflate : List UInt8 → Option (List UInt8))

theorem Proper.handleFramebufferUpdate {s : Session} (h : Proper s) (rects : List ServerRect)
    (complete : Bool) : Proper (s.handleFramebufferUpdate deflate rects complete) := by
  have hrects := h.handleRectangles {} rects
  rw [Session.handleFramebufferUpdate]
  split
  · next t heq =>
      rw [heq] at hrects
      exact hrects.congr rfl rfl rfl rfl rfl
  · next t o heq =>
      rw [heq] at hrects
      split
      · refine Proper.quiet (Proper.quiet ?_ (quiet_drainOutbound deflate _))
          (quiet_reportClipboardLoss _)
        refine Proper.continueUpdates (hrects.noteOutcome fun hsaw => ?_) _
        exact (sawQemuKeys_handleRectangles heq hsaw).resolve_left Bool.false_ne_true
      · exact hrects.congr rfl rfl rfl rfl rfl

/-- Where a message of the extended clipboard is answered although the server has not announced it:
a `notify`, or a `request` for a text that the viewer has copied. -/
def AnswersEarly (s : Session) : Clipboard.Incoming → Prop
  | .notify _ => ¬ AnnouncedText s.log
  | .request _ => (∃ text body, s.clip.offered = some text ∧
      Clipboard.encodeProvide deflate text = some body) ∧ ¬ AnnouncedText s.log
  | _ => False

theorem announcedText_message {log : List Entry} {incoming : Clipboard.Incoming}
    (h : ∀ formats actions limit, incoming ≠ .caps formats actions limit) :
    AnnouncedText (.message (.serverCutText incoming) :: log) ↔ AnnouncedText log := by
  constructor
  · rintro ⟨formats, actions, limit, hmem, htext⟩
    cases hmem with
    | head => exact absurd rfl (h formats actions limit)
    | tail _ hmem => exact ⟨formats, actions, limit, hmem, htext⟩
  · intro h
    exact h.append [_]

theorem Proper.caps {s : Session} (h : Proper s) (formats actions limit : Nat) :
    Proper (handleCutText deflate
      { s with log := .message (.serverCutText (.caps formats actions limit)) :: s.log }
      (.caps formats actions limit)) := by
  have hm := h.message (.serverCutText (.caps formats actions limit))
  have hclip : ∀ clip : ClipboardState,
      (clip.extended = true → formats &&& Clipboard.formatText ≠ 0) →
      Proper { s with
        log := .message (.serverCutText (.caps formats actions limit)) :: s.log
        clip := clip } := by
    intro clip hext
    refine ⟨⟨hm.evidence.desktopSize, hm.evidence.continuous, hm.evidence.qemuKeys, fun he => ?_⟩,
      hm.heralded⟩
    exact ⟨formats, actions, limit, List.mem_cons_self, hext he⟩
  simp only [handleCutText]
  split
  · next hnew =>
      have htext : formats &&& Clipboard.formatText ≠ 0 := by simpa using hnew.1
      have hsent := (hclip { s.clip with
        extended := decide (formats &&& Clipboard.formatText ≠ 0), peerActions := actions,
        peerMaxUnsolicited := limit, sentCaps := true, pending := none } fun _ => htext).send
        (m := .clientCutTextExtended Clipboard.encodeCaps)
        ⟨formats, actions, limit, List.mem_cons_self, htext⟩
      split
      · exact hsent.quiet (quiet_sendClipboardText deflate _ _)
      · exact hsent
  · exact hclip _ fun he => by simpa using he

theorem Proper.handleCutText {s : Session} (h : Proper s) (incoming : Clipboard.Incoming)
    (hearly : ¬ AnswersEarly deflate s incoming) :
    Proper (Session.handleCutText deflate
      { s with log := .message (.serverCutText incoming) :: s.log } incoming) := by
  have hm := h.message (.serverCutText incoming)
  cases incoming with
  | classic text => exact hm.emit _
  | caps formats actions limit => exact h.caps deflate formats actions limit
  | provide text => exact hm.emit _
  | notify formats =>
      refine hm.send ?_
      exact (announcedText_message (by simp)).mpr (not_not.mp hearly)
  | request formats =>
      simp only [Session.handleCutText, sendProvide]
      split
      · next text htext =>
          split
          · next body hbody =>
              refine hm.send ((announcedText_message (by simp)).mpr ?_)
              exact not_not.mp fun hnot => hearly ⟨⟨text, body, htext, hbody⟩, hnot⟩
          · exact hm
      · exact hm
  | ignored => exact hm

theorem Proper.handleEndOfContinuousUpdates {s : Session} (h : Proper s) :
    Proper (Session.handleEndOfContinuousUpdates
      { s with log := .message .endOfContinuousUpdates :: s.log }) := by
  have hm := h.message .endOfContinuousUpdates
  have hcont : ∀ continuous : ContinuousUpdates, Proper { s with
      log := .message .endOfContinuousUpdates :: s.log, continuous := continuous } := by
    intro continuous
    exact ⟨⟨hm.evidence.desktopSize, fun _ => List.mem_cons_self, hm.evidence.qemuKeys,
      hm.evidence.clip⟩, hm.heralded⟩
  simp only [Session.handleEndOfContinuousUpdates]
  split
  · exact (hcont _).enableContinuousUpdates
  · split
    · exact (hcont _).quiet (quiet_requestUpdate _ true)
    · exact hm

theorem Proper.handleMessage {s : Session} (h : Proper s) (m : ServerMessage)
    (hearly : ∀ incoming, m = .serverCutText incoming → ¬ AnswersEarly deflate s incoming) :
    Proper (s.handleMessage deflate m) := by
  have hm := h.message m
  cases m with
  | framebufferUpdate rects complete => exact hm.handleFramebufferUpdate deflate rects complete
  | bell => exact hm
  | serverCutText incoming => exact h.handleCutText deflate incoming (hearly incoming rfl)
  | setColourMapEntries => exact hm
  | endOfContinuousUpdates => exact h.handleEndOfContinuousUpdates
  | serverFence flags payload =>
      simp only [Session.handleMessage, handleFence]
      split
      · exact hm.congr rfl rfl rfl rfl rfl
      · split
        · exact hm.send trivial
        · exact hm
  | unknown kind => exact hm.congr rfl rfl rfl rfl rfl

def InTime (s : Session) : Event → Prop
  | .message (.serverCutText incoming) => ¬ AnswersEarly deflate s incoming
  | _ => True

theorem proper_step (s : Session) (event : Event) (t : Session) (h : Proper s)
    (hok : InTime deflate s event) (hstep : s.step deflate event = some t) : Proper t := by
  unfold step at hstep
  split at hstep
  · cases hstep
  · cases event with
    | command c =>
        cases hstep
        split
        · exact h.congr rfl rfl rfl rfl rfl
        · exact h
    | idle =>
        cases hstep
        exact (h.quiet (quiet_drainOutbound deflate s)).quiet (quiet_reportClipboardLoss _)
    | message m =>
        have hm := h.handleMessage deflate m fun incoming heq => by
          rw [heq] at hok
          exact hok
        simp only [Option.some.injEq] at hstep
        split at hstep
        · exact hstep ▸ hm
        · exact hstep ▸ hm.quiet (quiet_reportCapabilities _)
    | stop =>
        cases hstep
        exact h.congr rfl rfl rfl rfl rfl

theorem proper_start {width height : UInt16} {name : String} {tls : Bool} {s : Session}
    (h : start width height name tls = some s) : Proper s := by
  rw [start] at h
  split at h
  · cases h
  · cases h
    -- it has not seen anything of the server
    have hnone : ∀ {p : Prop}, false = true → p := fun h => absurd h Bool.false_ne_true
    exact ⟨⟨hnone, hnone, hnone, hnone⟩, trivial, trivial⟩

/-! Nothing is taken from the log. -/

def Grows (s t : Session) : Prop := ∃ es, t.log = es ++ s.log

theorem Grows.trans {s t u : Session} (h : Grows s t) (h' : Grows t u) : Grows s u := by
  obtain ⟨es, hes⟩ := h
  obtain ⟨es', hes'⟩ := h'
  exact ⟨es' ++ es, by rw [hes', hes, List.append_assoc]⟩

theorem Quiet.grows {s t : Session} (h : Quiet s t) : Grows s t := by
  obtain ⟨es, hes, -⟩ := h.log
  exact ⟨es, hes⟩

theorem Drew.grows {s t : Session} (h : Drew s t) : Grows s t := by
  obtain ⟨es, hes, -⟩ := h.log
  exact ⟨es, hes⟩

theorem grows_enableContinuousUpdates (s : Session) : Grows s s.enableContinuousUpdates := by
  rw [Session.enableContinuousUpdates]
  split
  · exact ⟨[], rfl⟩
  · simp only
    split
    · exact ⟨[], rfl⟩
    · exact ⟨[_], rfl⟩

theorem grows_continueUpdates (s : Session) (resized : Option (Nat × Nat)) :
    Grows s (s.continueUpdates resized) := by
  cases resized with
  | some wh => exact Grows.trans ⟨[_, _], rfl⟩ (grows_enableContinuousUpdates _)
  | none =>
      simp only [Session.continueUpdates]
      split
      · exact ⟨[], rfl⟩
      · split
        · exact ⟨[_], rfl⟩
        · exact ⟨[_], rfl⟩

theorem grows_handleFramebufferUpdate (s : Session) (rects : List ServerRect) (complete : Bool) :
    Grows s (s.handleFramebufferUpdate deflate rects complete) := by
  have hrects := (drew_handleRectangles s {} rects).grows
  rw [Session.handleFramebufferUpdate]
  split
  · next t heq =>
      rw [heq] at hrects
      exact hrects
  · next t o heq =>
      rw [heq] at hrects
      split
      · refine Grows.trans ?_ (quiet_reportClipboardLoss _).grows
        refine Grows.trans ?_ (quiet_drainOutbound deflate _).grows
        exact Grows.trans hrects (grows_continueUpdates (t.noteOutcome o) _)
      · exact hrects

theorem grows_handleCutText (s : Session) (incoming : Clipboard.Incoming) :
    Grows s (s.handleCutText deflate incoming) := by
  cases incoming with
  | classic text => exact ⟨[_], rfl⟩
  | caps formats actions limit =>
      simp only [Session.handleCutText]
      split
      · split
        · exact Grows.trans ⟨[_], rfl⟩ (quiet_sendClipboardText deflate _ _).grows
        · exact ⟨[_], rfl⟩
      · exact ⟨[], rfl⟩
  | provide text => exact ⟨[_], rfl⟩
  | notify formats => exact ⟨[_], rfl⟩
  | request formats =>
      simp only [Session.handleCutText, sendProvide]
      split
      · split
        · exact ⟨[_], rfl⟩
        · exact ⟨[], rfl⟩
      · exact ⟨[], rfl⟩
  | ignored => exact ⟨[], rfl⟩

theorem grows_handleEndOfContinuousUpdates (s : Session) :
    Grows s s.handleEndOfContinuousUpdates := by
  simp only [Session.handleEndOfContinuousUpdates]
  split
  · exact grows_enableContinuousUpdates _
  · split
    · exact ⟨[_], rfl⟩
    · exact ⟨[], rfl⟩

theorem grows_handleFence (s : Session) (flags : Nat) (payload : List UInt8) :
    Grows s (s.handleFence flags payload) := by
  rw [handleFence]
  split
  · exact ⟨[], rfl⟩
  · split
    · exact ⟨[_], rfl⟩
    · exact ⟨[], rfl⟩

theorem grows_handleMessage (s : Session) (m : ServerMessage) :
    Grows s (s.handleMessage deflate m) := by
  have hm : Grows s { s with log := .message m :: s.log } := ⟨[_], rfl⟩
  cases m with
  | framebufferUpdate rects complete =>
      exact hm.trans (grows_handleFramebufferUpdate deflate _ rects complete)
  | bell => exact hm
  | serverCutText incoming => exact hm.trans (grows_handleCutText deflate _ incoming)
  | setColourMapEntries => exact hm
  | endOfContinuousUpdates => exact hm.trans (grows_handleEndOfContinuousUpdates _)
  | serverFence flags payload => exact hm.trans (grows_handleFence _ flags payload)
  | unknown kind => exact hm

theorem grows_step {s t : Session} {event : Event} (h : s.step deflate event = some t) :
    Grows s t := by
  unfold step at h
  split at h
  · cases h
  · cases event with
    | command c =>
        cases h
        split <;> exact ⟨[], rfl⟩
    | idle =>
        cases h
        exact (quiet_drainOutbound deflate s).grows.trans (quiet_reportClipboardLoss _).grows
    | message m =>
        have hm := grows_handleMessage deflate s m
        simp only [Option.some.injEq] at h
        split at h
        · exact h ▸ hm
        · exact h ▸ hm.trans (quiet_reportCapabilities _).grows
    | stop =>
        cases h
        exact ⟨[], rfl⟩

theorem handleCutText_request {s : Session} (formats : Nat) {text : String}
    {body : List UInt8} (htext : s.clip.offered = some text)
    (hbody : Clipboard.encodeProvide deflate text = some body) :
    s.handleCutText deflate (.request formats) = s.send (.clientCutTextExtended body) := by
  simp only [Session.handleCutText, htext, sendProvide, hbody]

theorem not_heralded_of_early {s t : Session} {event : Event} (hearly : ¬ InTime deflate s event)
    (h : s.step deflate event = some t) : ¬ Heralded t.log := by
  have hsend : ∀ {u : Session} {incoming : Clipboard.Incoming} {body : List UInt8},
      (∀ formats actions limit, incoming ≠ .caps formats actions limit) → ¬ AnnouncedText s.log →
      Grows u t → u.log = .sent (.clientCutTextExtended body) ::
        .message (.serverCutText incoming) :: s.log → ¬ Heralded t.log := by
    intro u incoming body hcaps hnot ⟨es, hes⟩ hlog hher
    rw [hes, hlog] at hher
    exact hnot ((announcedText_message hcaps).mp (Heralded.of_append hher).1)
  unfold step at h
  split at h
  · cases h
  · next hopen =>
      cases event with
      | message m =>
          cases m with
          | serverCutText incoming =>
              have hearly : AnswersEarly deflate s incoming := not_not.mp hearly
              simp only [Option.some.injEq] at h
              have hgrow : Grows (s.handleMessage deflate (.serverCutText incoming)) t := by
                rw [← h]
                split
                · exact ⟨[], rfl⟩
                · exact (quiet_reportCapabilities _).grows
              cases incoming with
              | notify formats => exact hsend (by simp) hearly hgrow rfl
              | request formats =>
                  obtain ⟨⟨text, body, htext, hbody⟩, hnot⟩ := hearly
                  refine hsend ?_ hnot hgrow (congrArg Session.log (handleCutText_request deflate
                    (s := { s with log := .message (.serverCutText (.request formats)) :: s.log })
                    formats htext hbody))
                  simp
              | classic text => exact hearly.elim
              | caps formats actions limit => exact hearly.elim
              | provide text => exact hearly.elim
              | ignored => exact hearly.elim
          | _ => exact absurd trivial hearly
      | _ => exact absurd trivial hearly

theorem heralded_of_run {s u : Session} {events : List Event}
    (h : run (step deflate) s events = some u) (hu : Heralded u.log) : Heralded s.log := by
  have hgrow : Grows s u := run_relation (R := Grows) (fun s => ⟨[], rfl⟩)
    (fun _ _ _ => Grows.trans) (fun _ _ _ hstep => grows_step deflate hstep) h
  obtain ⟨es, hes⟩ := hgrow
  exact Heralded.of_append (hes ▸ hu)

/-- In a run the session uses only what the server has announced, exactly when it answers no
message of the extended clipboard before that has been announced. -/
theorem extensions_are_announced_iff {width height : UInt16} {name : String} {tls : Bool}
    {s₀ s : Session} {events : List Event} (h₀ : start width height name tls = some s₀)
    (h : run (step deflate) s₀ events = some s) :
    (∀ after m before, s.log = after ++ .sent m :: before → Announced before m) ↔
      Admissible (InTime deflate) (step deflate) s₀ events := by
  rw [← heralded_iff]
  constructor
  · intro hs
    clear h₀
    induction events generalizing s₀ with
    | nil => trivial
    | cons event events ih =>
        obtain ⟨t, ht, hrest⟩ := run_cons.mp h
        refine ⟨?_, fun t' ht' => ?_⟩
        · by_contra hearly
          exact not_heralded_of_early deflate hearly ht (heralded_of_run deflate hrest hs)
        · cases ht.symm.trans ht'
          exact ih hrest
  · intro hok
    exact (run_invariant_of_admissible (I := Proper) (proper_step deflate) (proper_start h₀) hok
      h).heralded

/-- A server that has announced nothing offers its clipboard, and is asked for it. -/
theorem notify_answered_unannounced :
    ∃ s₀ s : Session, start 1 1 "screen" false = some s₀ ∧
      run (step fun _ => none) s₀ [.message (.serverCutText (.notify 1))] = some s ∧
      ∃ after before, s.log = after ++ .sent (.clientCutTextExtended Clipboard.encodeRequest) ::
        before ∧ ¬ AnnouncedText before := by
  refine ⟨_, _, rfl, rfl, [], _, rfl, ?_⟩
  simp [AnnouncedText, requestFullUpdate, requestUpdate, send, emit]

/-- After the announcement the same offer is answered in time. -/
theorem notify_answered_after_caps :
    ∃ s₀ s : Session, start 1 1 "screen" false = some s₀ ∧
      run (step fun _ => none) s₀ [.message (.serverCutText (.caps 1 0 0)),
        .message (.serverCutText (.notify 1))] = some s ∧
      ((∀ after m before, s.log = after ++ .sent m :: before → Announced before m) ↔
        Admissible (InTime fun _ => none) (step fun _ => none) s₀
          [.message (.serverCutText (.caps 1 0 0)), .message (.serverCutText (.notify 1))]) := by
  obtain ⟨s₀, s, h₀, h⟩ : ∃ s₀ s : Session, start 1 1 "screen" false = some s₀ ∧
      run (step fun _ => none) s₀ [.message (.serverCutText (.caps 1 0 0)),
        .message (.serverCutText (.notify 1))] = some s := ⟨_, _, rfl, rfl⟩
  exact ⟨s₀, s, h₀, h, extensions_are_announced_iff (fun _ => none) h₀ h⟩

end Session

end Dolgate.Vnc
