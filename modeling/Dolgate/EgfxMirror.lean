import Mathlib
import Dolgate.EgfxDrawing
import Dolgate.Transition

set_option autoImplicit false

/-! The pump sends what has changed on the surface, and the viewer puts it together again. -/

namespace Dolgate.Egfx
open Checked Vnc Transition EgfxSurface

/-- What the graphics pipeline has the surface do. The pixels have been decoded. -/
inductive Operation where
  | write (x y width height : Nat) (pixels : List UInt8)
  | copy (sourceX sourceY width height destX destY : Nat)
  | fill (x y width height : Nat) (r g b : UInt8)
  | cacheStore (slot sourceX sourceY width height : Nat)
  | cacheRestore (slot destX destY : Nat)
  | cacheEvict (slot : Nat)
  | resetGraphics (width height : Nat)

/-- Whether the pipeline can go on. -/
def perform : Operation → Drawing Bool
  | .write x y width height pixels => do write x y width height pixels; return true
  | .copy sourceX sourceY width height destX destY => do
    copy sourceX sourceY width height destX destY
    return true
  | .fill x y width height r g b => do fill x y width height r g b; return true
  | .cacheStore slot sourceX sourceY width height => cacheStore slot sourceX sourceY width height
  | .cacheRestore slot destX destY => do let _ ← cacheRestore slot destX destY; return true
  | .cacheEvict slot => do cacheEvict slot; return true
  | .resetGraphics width height =>
    if 2 ^ 16 ≤ width ∨ 2 ^ 16 ≤ height then return false
    else return (← attempt (tryResize width height)).isSome

def performAll : List Operation → Drawing Unit
  | [] => return ()
  | o :: rest => do
    let _ ← perform o
    performAll rest

inductive Emission where
  | resized (width height : Nat)
  | frame (rect : Rect) (pixels : List UInt8)

/-- The core, what it has sent, and the viewer with whether a refresh has been requested. -/
structure System where
  surface : EgfxSurface
  egfxSize : Nat × Nat
  egfxUnusable : Bool := false
  inFlight : List Emission := []
  canvas : Canvas
  refresh : Bool := true

inductive SessionError where
  | framebufferSize (e : FramebufferSizeError)
  | egfxUnusable
  deriving DecidableEq, Repr

abbrev Pump : Type → Type := Comp System SessionError

def onSurface {α : Type} (m : Drawing α) : Pump α := fun s =>
  match m s.surface with
  | (.ok a, surface) => (.ok a, { s with surface })
  | (.error (.error e), surface) => (.error (.error (.framebufferSize e)), { s with surface })
  | (.error .panic, surface) => (.error .panic, { s with surface })

def sendEvent (e : Emission) : Pump Unit := do
  let s ← state
  put { s with inFlight := s.inFlight ++ [e] }

def flushRefreshRequests : Pump Unit := do
  let s ← state
  if s.refresh = false then return ()
  else
    put { s with refresh := false }
    if s.surface.size = (0, 0) then return () else onSurface markAllDirty

def announceSize : Pump Unit := do
  let s ← state
  let current := s.surface.size
  if current = (0, 0) ∨ current = s.egfxSize then return ()
  else
    put { s with egfxSize := current }
    sendEvent (.resized current.1 current.2)

def flushEgfx : Pump Unit := do
  let rects ← onSurface takeDirty
  forEach rects (fun _ rect _ => do
    let scratch ← onSurface (extract rect)
    if scratch = [] then return () else sendEvent (.frame rect scratch)) ()

/-- One turn of the pump, with whether it is time to flush. -/
def turn (due : Bool) : Pump Unit := do
  flushRefreshRequests
  let s ← state
  if s.egfxUnusable then fail .egfxUnusable
  else
    announceSize
    if due then flushEgfx else return ()

def reactivated (width height : Nat) : Pump Unit := do
  let _ ← orFail (checkedRgbaFramebufferLen width height) (.framebufferSize ⟨width, height⟩)
  let s ← state
  if s.surface.size = (0, 0) then sendEvent (.resized width height)
  else
    let _ ← onSurface (tryResize width height)
    sendEvent (.resized width height)

/-- The viewer keeps what it shows unless the size is another one. Then it asks for a refresh. -/
def receive (viewer : Canvas × Bool) : Emission → Canvas × Bool
  | .resized width height =>
    if (viewer.1.width, viewer.1.height) = (width, height) then viewer
    else (.blank width height, true)
  | .frame rect pixels =>
    if pixels.length < rect.width * rect.height * 4 then viewer
    else (viewer.1.overwrite rect pixels, viewer.2)

def deliver : Pump Unit := do
  let s ← state
  match s.inFlight with
  | [] => return ()
  | e :: rest =>
    let viewer := receive (s.canvas, s.refresh) e
    put { s with inFlight := rest, canvas := viewer.1, refresh := viewer.2 }

inductive Event where
  | operation (o : Operation)
  | reactivated (width height : Nat)
  | turn (due : Bool)
  | deliver
  | requestRefresh

def Event.handle : Event → Pump Unit
  | .operation o => do
    let usable ← onSurface (perform o)
    let s ← state
    put { s with egfxUnusable := s.egfxUnusable || !usable }
  | .reactivated width height => Egfx.reactivated width height
  | .turn due => Egfx.turn due
  | .deliver => Egfx.deliver
  | .requestRefresh => do
    let s ← state
    put { s with refresh := true }

def step (s : System) (e : Event) : Option System :=
  match e.handle s with
  | (.ok (), s') => some s'
  | _ => none

/-- The surface has the size that the server has granted, and so has the viewer. -/
def connect (width height : Nat) : Option System :=
  match tryResize width height {} with
  | (.ok _, surface) =>
    some { surface, egfxSize := (width, height), canvas := .blank width height }
  | _ => none

/-- The numbers are those of `u16`. -/
def Operation.Typed : Operation → Prop
  | .write _ _ width height _ => width < 2 ^ 16 ∧ height < 2 ^ 16
  | _ => True

def Event.Typed : Event → Prop
  | .operation o => o.Typed
  | .reactivated width height => width < 2 ^ 16 ∧ height < 2 ^ 16
  | _ => True

/-- What the viewer will have drawn and asked for when it has got everything. -/
def System.future (s : System) : Canvas × Bool := s.inFlight.foldl receive (s.canvas, s.refresh)

def System.viewed (s : System) : Nat × Nat := (s.future.1.width, s.future.1.height)

/-- The surface does not change back to a size that the viewer has or has been told. -/
def Harmless (s : System) : Event → Prop
  | .operation (.resetGraphics width height) =>
    (width, height) = s.surface.size ∨ (width, height) ≠ s.viewed ∧ (width, height) ≠ s.egfxSize
  | .reactivated width height => (width, height) = s.surface.size ∨ (width, height) ≠ s.viewed
  | _ => True

/-- Nothing is on its way or waits to be sent. -/
structure System.Quiet (s : System) : Prop where
  inFlight : s.inFlight = []
  refresh : s.refresh = false
  dirty : s.surface.dirty = []
  announced : s.egfxSize = s.surface.size

instance (s : System) : (e : Event) → Decidable (Harmless s e)
  | .operation (.resetGraphics _ _) => inferInstanceAs (Decidable (_ ∨ _))
  | .reactivated _ _ => inferInstanceAs (Decidable (_ ∨ _))
  | .operation (.write ..) | .operation (.copy ..) | .operation (.fill ..)
  | .operation (.cacheStore ..) | .operation (.cacheRestore ..) | .operation (.cacheEvict _)
  | .turn _ | .deliver | .requestRefresh => isTrue trivial

instance (s : System) : Decidable s.Quiet :=
  decidable_of_iff ((s.inFlight = [] ∧ s.refresh = false) ∧ s.surface.dirty = [] ∧
    s.egfxSize = s.surface.size) ⟨fun h => ⟨h.1.1, h.1.2, h.2.1, h.2.2⟩,
      fun h => ⟨⟨h.inFlight, h.refresh⟩, h.dirty, h.announced⟩⟩

section

variable {s s' : EgfxSurface} {E : EgfxSurface → Prop}

/-- Every pixel that is not marked now has not been marked before and shows what it has shown. -/
structure Marks (s s' : EgfxSurface) : Prop where
  sound : s'.Sound
  size : s'.size = s.size
  unmarked : ∀ x y, x < s.screen.width → y < s.screen.height → ¬ s'.Marked x y →
    ¬ s.Marked x y ∧ s'.screen.pixel x y = s.screen.pixel x y

theorem Marks.of_same (hs : s'.Sound) (hscreen : s'.screen = s.screen)
    (hdirty : s'.dirty = s.dirty) : Marks s s' where
  sound := hs
  size := by rw [EgfxSurface.size, hscreen, EgfxSurface.size]
  unmarked x y _ _ h := ⟨by rwa [Marked, ← hdirty], by rw [hscreen]⟩

theorem EgfxSurface.Draws.marks {rect : Rect} {picture : Nat → Nat → List UInt8}
    (h : Draws rect picture s s') : Marks s s' where
  sound := h.sound
  size := by rw [EgfxSurface.size, EgfxSurface.size, h.same.width, h.same.height]
  unmarked x y hx hy hmark :=
    ⟨fun hmark' => hmark (h.marked x y (.inl hmark')),
      h.same.pixel x y hx hy fun hcovers => hmark (h.marked x y (.inr hcovers))⟩

/-- What is in the slot stays there. -/
def Operation.Spares (slot : Nat) : Operation → Prop
  | .cacheStore slot' .. => slot' ≠ slot
  | .cacheEvict slot' => slot' ≠ slot
  | .resetGraphics .. => False
  | _ => True

/-- What an operation leaves: a surface with its changes marked, or one of another size. -/
theorem wp_perform {o : Operation} {Q : Bool → EgfxSurface → Prop} (hs : s.Sound) (ho : o.Typed)
    (hQ : ∀ usable s', Marks s s' →
      (∀ slot, o.Spares slot → s'.cache.lookup slot = s.cache.lookup slot) → Q usable s')
    (hresized : ∀ width height (s' : EgfxSurface), o = .resetGraphics width height → s'.Sound →
      s'.size = (width, height) → (width, height) ≠ s.size → 0 < width ∧ 0 < height → Q true s') :
    wp (perform o) Q E s := by
  have hsame : ∀ usable, Q usable s := fun usable =>
    hQ usable s (.of_same hs rfl rfl) fun _ _ => rfl
  have hdrawn : ∀ rect picture s', Draws rect picture s s' → Q true s' := fun rect picture s' h =>
    hQ true s' h.marks fun _ _ => by rw [h.cache]
  cases o with
  | write x y width height pixels =>
    exact wp_bind.mpr (wp_write hs ho.1 ho.2 (hsame true) fun rect s' _ _ h => hdrawn _ _ s' h)
  | copy sourceX sourceY width height destX destY =>
    exact wp_bind.mpr (wp_copy hs (hsame true) fun source dest s' _ _ h => hdrawn _ _ s' h)
  | fill x y width height r g b =>
    exact wp_bind.mpr (wp_filled hs (hsame true) fun rect s' _ h => hdrawn _ _ s' h)
  | cacheStore slot sourceX sourceY width height =>
    refine wp_cacheStore hs (fun stored _ => hsame stored) ?_
    intro source tile s' _ hs' hscreen hdirty hcache _ _
    refine hQ true s' (.of_same hs' hscreen hdirty) fun slot' hspares => ?_
    rw [hcache, AList.lookup_insert_ne (Ne.symm hspares)]
  | cacheRestore slot destX destY =>
    refine wp_bind.mpr (wp_cacheRestore hs (fun _ _ => hsame true) fun tile dest s' _ _ h => ?_)
    exact hdrawn _ _ s' h
  | cacheEvict slot =>
    refine wp_bind.mpr (wp_cacheEvict hs fun s' hs' hscreen hdirty hcache => ?_)
    exact hQ true s' (.of_same hs' hscreen hdirty) fun slot' hspares =>
      hcache slot' (Ne.symm hspares)
  | resetGraphics width height =>
    refine wp_ite (fun _ => hsame false) fun hsize => ?_
    refine wp_bind.mpr (wp_attempt (wp_tryResize (by omega) (by omega) ?_ ?_ ?_))
    · exact fun _ _ => hsame true
    · exact fun s' hs' hsize' hne hpos => hresized width height s' rfl hs' hsize' hne hpos
    · exact hsame false

theorem sound_empty : Sound {} where
  valid := ⟨Nat.two_pow_pos 16, Nat.two_pow_pos 16, Nat.zero_le _, rfl⟩
  dirty_le := Nat.zero_le _
  inside b hb := absurd hb List.not_mem_nil
  tiles slot tile htile := by cases htile
  bytes := rfl
  bytes_le := Nat.zero_le _

theorem wp_performAll {operations : List Operation} (hs : s.Sound)
    (ho : ∀ o ∈ operations, o.Typed) :
    wp (performAll operations) (fun _ s' => s'.Sound ∧ ∀ slot, (∀ o ∈ operations, o.Spares slot) →
      s'.cache.lookup slot = s.cache.lookup slot) (fun _ => False) s := by
  induction operations generalizing s with
  | nil => exact ⟨hs, fun _ _ => rfl⟩
  | cons o rest ih =>
    have hrest : ∀ o ∈ rest, o.Typed := fun o h => ho o (List.mem_cons_of_mem _ h)
    refine wp_bind.mpr (wp_perform hs (ho o List.mem_cons_self) ?_ ?_)
    · intro _ s' h hcache
      refine wp_mono (ih h.sound hrest) ?_ fun _ h => h
      refine fun _ s'' h' => ⟨h'.1, fun slot hspares => ?_⟩
      exact (h'.2 slot fun o hmem => hspares o (List.mem_cons_of_mem _ hmem)).trans
        (hcache slot (hspares o List.mem_cons_self))
    · rintro width height s' rfl h _ _ _
      refine wp_mono (ih h hrest) ?_ fun _ h => h
      refine fun _ s'' h' => ⟨h'.1, fun slot hspares => ?_⟩
      exact (hspares _ List.mem_cons_self).elim

/-- Whatever the server sends, the surface takes it without panic and within its bounds. -/
theorem performAll_safe {operations : List Operation} (ho : ∀ o ∈ operations, o.Typed) :
    ∃ s, performAll operations {} = (.ok (), s) ∧
      (s.dirty.length ≤ maxDirtyRects ∧ ∀ b ∈ s.dirty, b.Inside s.screen) ∧
      tileBytes s.cache ≤ maxFramebufferBytes ∧
      s.screen.pixels.length = s.screen.width * s.screen.height * 4 := by
  obtain ⟨_, s, hrun, hs, _⟩ := wp_total (wp_performAll sound_empty ho)
  exact ⟨s, hrun, ⟨hs.dirty_le, hs.inside⟩, hs.bytes ▸ hs.bytes_le, hs.valid.length_pixels⟩

theorem performAll_safe_overlap : ∃ s, performAll [.resetGraphics 4 4, .fill 0 0 3 3 1 2 3,
    .copy 0 0 4 4 1 1] {} = (.ok (), s) ∧
    (s.dirty.length ≤ maxDirtyRects ∧ ∀ b ∈ s.dirty, b.Inside s.screen) ∧
    tileBytes s.cache ≤ maxFramebufferBytes ∧
    s.screen.pixels.length = s.screen.width * s.screen.height * 4 :=
  performAll_safe (by intro o ho; fin_cases ho <;> trivial)

/-- A tile that comes back from the cache shows what was on the screen when it was stored, whatever
has been drawn since. -/
theorem restored_shows {before between : List Operation} {slot x y width height destX destY : Nat}
    {s₀ s₁ s₂ s₃ : EgfxSurface} {source dest : Rect} {known : Bool}
    (hbefore : ∀ o ∈ before, o.Typed) (hbetween : ∀ o ∈ between, o.Typed ∧ o.Spares slot)
    (hrun : performAll before {} = (.ok (), s₀))
    (hsource : s₀.clip x y width height = some source)
    (hstore : cacheStore slot x y width height s₀ = (.ok true, s₁))
    (hrun' : performAll between s₁ = (.ok (), s₂))
    (hdest : s₂.clip destX destY source.width source.height = some dest)
    (hrestore : cacheRestore slot destX destY s₂ = (.ok known, s₃)) :
    known = true ∧ ∀ column row, column < dest.width → row < dest.height →
      s₃.screen.pixel (destX + column) (destY + row) = s₀.screen.pixel (x + column) (y + row) := by
  have hs₀ := (wp_returned (wp_performAll sound_empty hbefore) hrun).1
  have hstored : ∃ tile, s₁.Sound ∧ s₁.cache.lookup slot = some tile ∧
      (tile.width, tile.height) = (source.width, source.height) ∧
      tile.ShowsIn ⟨0, 0, source.width, source.height⟩
        (fun column row => s₀.screen.pixel (x + column) (y + row)) := by
    have hwp : wp (cacheStore slot x y width height) (fun stored s₁ => stored = true →
        ∃ tile, s₁.Sound ∧ s₁.cache.lookup slot = some tile ∧
        (tile.width, tile.height) = (source.width, source.height) ∧
        tile.ShowsIn ⟨0, 0, source.width, source.height⟩
          (fun column row => s₀.screen.pixel (x + column) (y + row))) (fun _ => False) s₀ := by
      refine wp_cacheStore hs₀ (fun stored h hstored => ?_) ?_
      · rw [h hstored] at hsource
        cases hsource
      · intro source' tile s' hsource' hs' _ _ hcache hsize hshows _
        cases hsource.symm.trans hsource'
        exact ⟨tile, hs', by rw [hcache, AList.lookup_insert], hsize, hshows⟩
    exact wp_returned hwp hstore rfl
  obtain ⟨tile, hs₁, hlookup, hsize, hshows⟩ := hstored
  obtain ⟨hwidth, hheight⟩ := Prod.mk.inj hsize
  obtain ⟨hs₂, hkept⟩ :=
    wp_returned (wp_performAll hs₁ fun o ho => (hbetween o ho).1) hrun'
  have hkept := (hkept slot fun o ho => (hbetween o ho).2).trans hlookup
  rw [← hwidth, ← hheight] at hdest
  have hwp : wp (cacheRestore slot destX destY) (fun known s₃ => known = true ∧
      ∀ column row, column < dest.width → row < dest.height →
        s₃.screen.pixel (destX + column) (destY + row) = tile.pixel column row)
      (fun _ => False) s₂ := by
    refine wp_cacheRestore hs₂ (fun known hnone => ?_) ?_
    · rw [hnone tile hkept] at hdest
      cases hdest
    · intro tile' dest' s' htile hclip h
      cases hkept.symm.trans htile
      cases hdest.symm.trans hclip
      refine ⟨rfl, fun column row hcolumn hrow => ?_⟩
      obtain ⟨⟨hx, hy⟩, _⟩ := clip_eq_some hclip
      rw [← hx, ← hy]
      exact h.shows column row hcolumn hrow
  obtain ⟨hknown, hpixel⟩ := wp_returned hwp hrestore
  refine ⟨hknown, fun column row hcolumn hrow => (hpixel column row hcolumn hrow).trans ?_⟩
  obtain ⟨_, ⟨_, hle⟩, ⟨_, hle'⟩, _⟩ := clip_eq_some hdest
  have hpixel := hshows column row (by dsimp only; omega) (by dsimp only; omega)
  rwa [Nat.zero_add, Nat.zero_add] at hpixel

theorem restored_shows_elsewhere : ∃ s₀ s₁ s₂ s₃ : EgfxSurface,
    performAll [.resetGraphics 2 1, .fill 0 0 1 1 9 8 7] {} = (.ok (), s₀) ∧
    cacheStore 5 0 0 1 1 s₀ = (.ok true, s₁) ∧
    performAll [.fill 0 0 2 1 0 0 0] s₁ = (.ok (), s₂) ∧
    cacheRestore 5 1 0 s₂ = (.ok true, s₃) ∧
    s₃.screen.pixel (1 + 0) (0 + 0) = s₀.screen.pixel (0 + 0) (0 + 0) := by
  let tile : Framebuffer := ⟨1, 1, [9, 8, 7, 255]⟩
  let s₀ : EgfxSurface := ⟨⟨2, 1, [9, 8, 7, 255, 0, 0, 0, 0]⟩, ∅, 0, [⟨0, 0, 1, 1⟩]⟩
  let s₁ : EgfxSurface := { s₀ with cache := AList.insert 5 tile ∅, cacheBytes := 4 }
  let s₂ : EgfxSurface :=
    { s₁ with screen := ⟨2, 1, [0, 0, 0, 255, 0, 0, 0, 255]⟩, dirty := [⟨0, 0, 2, 1⟩] }
  let s₃ : EgfxSurface := { s₂ with screen := ⟨2, 1, [0, 0, 0, 255, 9, 8, 7, 255]⟩ }
  have hrun : performAll [.resetGraphics 2 1, .fill 0 0 1 1 9 8 7] {} = (.ok (), s₀) := by
    rfl
  have hstore : cacheStore 5 0 0 1 1 s₀ = (.ok true, s₁) := rfl
  have hrun' : performAll [.fill 0 0 2 1 0 0 0] s₁ = (.ok (), s₂) := rfl
  have hrestore : cacheRestore 5 1 0 s₂ = (.ok true, s₃) := rfl
  have hsource : s₀.clip 0 0 1 1 = some ⟨0, 0, 1, 1⟩ := rfl
  have hdest : s₂.clip 1 0 1 1 = some ⟨1, 0, 1, 1⟩ := rfl
  have hshows := restored_shows (by intro o ho; fin_cases ho <;> trivial)
    (by intro o ho; fin_cases ho; exact ⟨trivial, trivial⟩) hrun hsource hstore hrun' hdest hrestore
  exact ⟨s₀, s₁, s₂, s₃, hrun, hstore, hrun', hrestore, hshows.2 0 0 Nat.one_pos Nat.one_pos⟩

end

/-- The screen is not empty, and all of it that is not marked is what the viewer will show, unless a
refresh is still to come or the size is still to be announced. -/
structure Coherent (s : System) : Prop where
  sound : s.surface.Sound
  pos : 0 < s.surface.screen.width ∧ 0 < s.surface.screen.height
  shown : s.viewed = s.surface.size → s.future.2 = true ∨
    ∀ x y, x < s.surface.screen.width → y < s.surface.screen.height → ¬ s.surface.Marked x y →
      s.future.1.pixel x y = s.surface.screen.pixel x y
  announced : s.viewed ≠ s.surface.size → s.surface.size ≠ s.egfxSize

section

variable {s : System} {Q : Unit → System → Prop} {E : System → Prop}

theorem foldl_receive_canvas (es : List Emission) (c : Canvas) (b b' : Bool) :
    (es.foldl receive (c, b)).1 = (es.foldl receive (c, b')).1 := by
  induction es generalizing c b b' with
  | nil => rfl
  | cons e es ih =>
    have hfirst : (receive (c, b) e).1 = (receive (c, b') e).1 := by
      cases e <;> simp only [receive] <;> split <;> rfl
    rw [List.foldl_cons, List.foldl_cons, ← Prod.mk.eta (p := receive (c, b) e), hfirst]
    exact ih _ _ _

theorem foldl_receive_refresh (es : List Emission) (c : Canvas) :
    (es.foldl receive (c, true)).2 = true := by
  induction es generalizing c with
  | nil => rfl
  | cons e es ih =>
    have hfirst : (receive (c, true) e).2 = true := by
      cases e <;> simp only [receive] <;> split <;> rfl
    rw [List.foldl_cons, ← Prod.mk.eta (p := receive (c, true) e), hfirst]
    exact ih _

theorem wp_onSurface {α : Type} {m : Drawing α} {Q : α → System → Prop}
    (h : wp m (fun a surface => Q a { s with surface }) (fun surface => E { s with surface })
      s.surface) : wp (onSurface m) Q E s := by
  unfold wp onSurface at *
  rcases hm : m s.surface with ⟨⟨_ | _⟩ | _, _⟩ <;> simp only [hm] at h ⊢ <;> exact h

theorem wp_sendEvent {e : Emission}
    (hQ : ∀ s' : System, s'.surface = s.surface → s'.egfxSize = s.egfxSize →
      s'.egfxUnusable = s.egfxUnusable → s'.future = receive s.future e → Q () s') :
    wp (sendEvent e) Q E s := by
  refine wp_bind.mpr (wp_state.mpr (wp_put.mpr (hQ _ rfl rfl rfl ?_)))
  rw [System.future, List.foldl_append]
  rfl

/-- The viewer has the size that it is told. -/
theorem viewed_resized {s' : System} {width height : Nat}
    (h : s'.future = receive s.future (.resized width height)) :
    s'.viewed = (width, height) ∧ (s'.future = s.future ∨ s'.future.2 = true) := by
  rw [System.viewed, h, receive]
  split
  · next heq => exact ⟨heq, .inl rfl⟩
  · exact ⟨rfl, .inr rfl⟩

theorem Coherent.resized {s' : System} {width height : Nat} (hs : Coherent s)
    (hsurface : s'.surface = s.surface) (hsize : s.surface.size = (width, height))
    (h : s'.future = receive s.future (.resized width height)) : Coherent s' := by
  obtain ⟨hviewed, hfuture⟩ := viewed_resized h
  refine ⟨hsurface ▸ hs.sound, hsurface ▸ hs.pos, fun _ => ?_, fun hne => ?_⟩
  · rcases hfuture with hfuture | hfuture
    · rw [hfuture, hsurface]
      exact hs.shown (by rw [System.viewed, ← hfuture, hsize]; exact hviewed)
    · exact .inl hfuture
  · rw [hviewed, hsurface, hsize] at hne
    exact absurd rfl hne

theorem size_pos {surface : EgfxSurface} {width height : Nat}
    (h : surface.size = (width, height)) (hpos : 0 < width ∧ 0 < height) :
    0 < surface.screen.width ∧ 0 < surface.screen.height := by
  obtain ⟨hwidth, hheight⟩ := Prod.mk.inj h
  rwa [hwidth, hheight]

theorem Coherent.marks {surface : EgfxSurface} {egfxUnusable : Bool} (hs : Coherent s)
    (h : Marks s.surface surface) : Coherent { s with surface, egfxUnusable } where
  sound := h.sound
  pos := size_pos h.size hs.pos
  shown hviewed := by
    refine (hs.shown (hviewed.trans h.size)).imp_right fun hshown x y hx hy hmark => ?_
    have ⟨hwidth, hheight⟩ := Prod.mk.inj h.size
    rw [hwidth] at hx
    rw [hheight] at hy
    obtain ⟨hmark', hpixel⟩ := h.unmarked x y hx hy hmark
    exact (hshown x y hx hy hmark').trans hpixel.symm
  announced hne := by
    rw [show EgfxSurface.size surface = s.surface.size from h.size] at *
    exact hs.announced hne

/-- A size that the viewer does not have leaves nothing to be compared. -/
theorem Coherent.other {surface : EgfxSurface} {egfxUnusable : Bool} (hsound : surface.Sound)
    (hpos : 0 < surface.screen.width ∧ 0 < surface.screen.height)
    (hviewed : surface.size ≠ s.viewed) (hsize : surface.size ≠ s.egfxSize) :
    Coherent { s with surface, egfxUnusable } :=
  ⟨hsound, hpos, fun h => absurd h.symm hviewed, fun _ => hsize⟩

theorem Coherent.of_future {s' : System} (hs : Coherent s) (hfuture : s'.future = s.future)
    (hsurface : s'.surface = s.surface) (hsize : s'.egfxSize = s.egfxSize) : Coherent s' := by
  obtain ⟨hsound, hpos, hshown, hannounced⟩ := hs
  rw [System.viewed, ← hfuture, ← hsurface] at hshown hannounced
  rw [← hsize] at hannounced
  exact ⟨hsurface ▸ hsound, hsurface ▸ hpos, hshown, hannounced⟩

theorem size_ne_zero (hs : Coherent s) : s.surface.size ≠ (0, 0) := by
  intro h
  have hpos := hs.pos.1
  rw [EgfxSurface.size, Prod.mk.injEq] at h
  omega

theorem wp_markAllDirty {surface : EgfxSurface} {Q : Unit → EgfxSurface → Prop}
    {E : EgfxSurface → Prop} (hs : surface.Sound)
    (hpos : 0 < surface.screen.width ∧ 0 < surface.screen.height)
    (hQ : ∀ surface' : EgfxSurface, Marks surface surface' → surface'.screen = surface.screen →
      (∀ x y, x < surface.screen.width → y < surface.screen.height → surface'.Marked x y) →
      Q () surface') : wp markAllDirty Q E surface := by
  have hall : ∀ x y, x < surface.screen.width → y < surface.screen.height →
      Covered [⟨0, 0, surface.screen.width, surface.screen.height⟩] x y := fun x y hx hy =>
    ⟨_, List.mem_singleton.mpr rfl, ⟨Nat.zero_le _, hx⟩, Nat.zero_le _, hy⟩
  refine wp_bind.mpr (wp_state.mpr (wp_ite (fun h => by omega) fun _ => wp_put.mpr (hQ _ ?_ rfl hall)))
  refine ⟨{ hs with dirty_le := Nat.le_add_left 1 7, inside := ?_ }, rfl, fun x y hx hy hmark =>
    absurd (hall x y hx hy) hmark⟩
  intro b hb
  cases List.mem_singleton.mp hb
  exact ⟨hpos.1, Nat.le_refl _, hpos.2, Nat.le_refl _⟩

/-- The same screen and session, of what the viewer gets apart. -/
def Alike (s s' : System) : Prop :=
  (s'.surface.screen = s.surface.screen ∧ s'.egfxUnusable = s.egfxUnusable) ∧
    s'.egfxSize = s.egfxSize

theorem wp_flushRefreshRequests (hs : Coherent s)
    (hQ : ∀ s', Coherent s' → Alike s s' → (s.inFlight = [] → s'.future.2 = false) → Q () s') :
    wp flushRefreshRequests Q E s := by
  refine wp_bind.mpr (wp_state.mpr (wp_ite (fun h => ?_) fun _ => ?_))
  · refine hQ s hs ⟨⟨rfl, rfl⟩, rfl⟩ fun hflight => ?_
    rw [System.future, hflight]
    exact h
  refine wp_bind.mpr (wp_put.mpr (wp_ite (fun h => absurd h (size_ne_zero hs)) fun _ => ?_))
  refine wp_onSurface (wp_markAllDirty hs.sound hs.pos fun surface h hscreen hall =>
    hQ _ ?_ ⟨⟨hscreen, rfl⟩, rfl⟩ fun hflight => by rw [System.future]; simp only [hflight]; rfl)
  have hsize := h.size
  have hcanvas := foldl_receive_canvas s.inFlight s.canvas false s.refresh
  have hviewed : System.viewed { s with surface, refresh := false } = s.viewed := by
    simp only [System.viewed, System.future, hcanvas]
  refine ⟨h.sound, ?_, fun _ => .inr fun x y hx hy hmark => ?_, fun hne => ?_⟩
  · exact size_pos hsize hs.pos
  · exact absurd (hall x y (hscreen ▸ hx) (hscreen ▸ hy)) hmark
  · rw [hviewed] at hne
    dsimp only at hne ⊢
    rw [hsize] at hne ⊢
    exact hs.announced hne

theorem wp_announceSize (hs : Coherent s)
    (hQ : ∀ s', Coherent s' → s'.egfxSize = s'.surface.size → s'.surface = s.surface →
      s'.egfxUnusable = s.egfxUnusable → (s.egfxSize = s.surface.size → s' = s) → Q () s') :
    wp announceSize Q E s := by
  refine wp_bind.mpr (wp_state.mpr (wp_ite (fun h => ?_) fun h => ?_))
  · have hsize := h.resolve_left (size_ne_zero hs)
    exact hQ s hs hsize.symm rfl rfl fun _ => rfl
  · refine wp_bind.mpr (wp_put.mpr (wp_sendEvent fun s' hsurface hsize husable hfuture => ?_))
    refine hQ s' (hs.resized hsurface rfl hfuture) ?_ hsurface husable fun heq => ?_
    · rw [hsize, hsurface]
    · exact absurd (.inr heq.symm) h

theorem wp_extract {surface : EgfxSurface} {rect : Rect} {Q : List UInt8 → EgfxSurface → Prop}
    {E : EgfxSurface → Prop} (hs : surface.Sound) (hrect : surface.screen.contains rect = true)
    (hwidth : 0 < rect.width) (hheight : 0 < rect.height)
    (hQ : ∀ pixels, pixels.length = rect.width * 4 * rect.height →
      (∀ column row, column < rect.width → row < rect.height →
        pixelAt pixels (row * rect.width + column) =
          surface.screen.pixel (rect.x + column) (rect.y + row)) → Q pixels surface) :
    wp (extract rect) Q E surface := by
  have ⟨hright, hbottom⟩ := contains_iff.mp hrect
  have hscreen := hs.valid.width_lt
  have hscreen' := hs.valid.height_lt
  have hclip : surface.clip rect.x rect.y rect.width rect.height = some rect := by
    unfold clip satAdd
    rw [if_neg (by omega), Nat.min_eq_left (by omega), Nat.min_eq_left (by omega),
      Nat.min_eq_left (by omega), Nat.min_eq_left (by omega), if_neg (by omega),
      Nat.add_sub_cancel_left, Nat.add_sub_cancel_left]
  refine wp_bind.mpr (wp_state.mpr ?_)
  rw [hclip]
  exact wp_gather hs.valid hrect hQ

/-- A frame of the viewer's size is drawn on it. -/
theorem receive_frame {rect : Rect} {pixels : List UInt8} (viewer : Canvas × Bool)
    (hlen : pixels.length = rect.width * 4 * rect.height) :
    receive viewer (.frame rect pixels) = (viewer.1.overwrite rect pixels, viewer.2) := by
  rw [receive, if_neg]
  rw [hlen, Nat.mul_right_comm]
  exact Nat.lt_irrefl _

/-- As many of the boxes as have been sent show the screen. -/
structure Flushed (s : System) (rects : List Rect) (s' : System) : Prop where
  surface : s'.surface = { s.surface with dirty := [] }
  egfxSize : s'.egfxSize = s.egfxSize
  egfxUnusable : s'.egfxUnusable = s.egfxUnusable
  viewed : s'.viewed = s.viewed
  refresh : s'.future.2 = s.future.2
  shown : ∀ x y, x < s.surface.screen.width → y < s.surface.screen.height →
    (∀ rect ∈ rects, ¬ rect.covers x y) ∧ s'.future.1.pixel x y = s.future.1.pixel x y ∨
      s'.future.1.pixel x y = s.surface.screen.pixel x y

theorem wp_flushEgfx (hs : Coherent s) (hsize : s.egfxSize = s.surface.size)
    (hQ : ∀ s', Coherent s' → s'.surface.dirty = [] → Alike s s' → s'.future.2 = s.future.2 →
      Q () s') : wp flushEgfx Q E s := by
  let rects : List Rect :=
    (s.surface.dirty.filter fun b => b.left < b.right ∧ b.top < b.bottom).map fun b =>
      ⟨b.left, b.top, b.right - b.left, b.bottom - b.top⟩
  have hrects : ∀ rect ∈ rects, s.surface.screen.contains rect = true ∧ 0 < rect.width ∧
      0 < rect.height := by
    intro rect hrect
    obtain ⟨b, hb, rfl⟩ := List.mem_map.mp hrect
    obtain ⟨hleft, hright, htop, hbottom⟩ := hs.sound.inside b (List.mem_of_mem_filter hb)
    exact ⟨contains_iff.mpr ⟨by dsimp only; omega, by dsimp only; omega⟩, by dsimp only; omega,
      by dsimp only; omega⟩
  have hcovered : ∀ x y, s.surface.Marked x y → ∃ rect ∈ rects, rect.covers x y := by
    rintro x y ⟨b, hb, ⟨hx, hx'⟩, hy, hy'⟩
    obtain ⟨hleft, hright, htop, hbottom⟩ := hs.sound.inside b hb
    refine ⟨_, List.mem_map_of_mem (List.mem_filter.mpr ⟨hb, ?_⟩), ⟨hx, ?_⟩, hy, ?_⟩
    · exact decide_eq_true ⟨hleft, htop⟩
    · dsimp only
      omega
    · dsimp only
      omega
  have hsound : Sound { s.surface with dirty := [] } :=
    { hs.sound with dirty_le := Nat.zero_le _, inside := fun b hb => absurd hb List.not_mem_nil }
  have htake : wp (onSurface takeDirty) (fun out s' => out = rects ∧
      s' = { s with surface := { s.surface with dirty := [] } }) E s :=
    wp_onSurface (wp_bind.mpr (wp_state.mpr (wp_bind.mpr (wp_put.mpr (wp_pure.mpr ⟨rfl, rfl⟩)))))
  refine wp_seq htake ?_
  rintro _ _ ⟨rfl, rfl⟩
  refine wp_forEach (fun i _ s' => Flushed s (rects.take i) s') ⟨rfl, rfl, rfl, rfl, rfl, ?_⟩ ?_ ?_
  · exact fun x y _ _ => .inl ⟨fun rect hrect => absurd hrect List.not_mem_nil, rfl⟩
  · intro i _ s' hi h
    obtain ⟨hrect, hwidth, hheight⟩ := hrects _ (List.getElem_mem hi)
    have hsound' : s'.surface.Sound := h.surface ▸ hsound
    have hrect' : s'.surface.screen.contains rects[i] = true := by rw [h.surface]; exact hrect
    refine wp_bind.mpr (wp_onSurface (wp_extract hsound' hrect' hwidth hheight ?_))
    intro pixels hlen hpixels
    have hpos : 0 < rects[i].width * 4 * rects[i].height := by positivity
    refine wp_ite (fun hnil => by rw [hnil, List.length_nil] at hlen; omega) fun _ => ?_
    refine wp_sendEvent fun s'' hsurface hsize' husable hfuture => ?_
    have hfuture : s''.future = (s'.future.1.overwrite rects[i] pixels, s'.future.2) :=
      hfuture.trans (receive_frame s'.future hlen)
    refine ⟨hsurface.trans h.surface, hsize'.trans h.egfxSize, husable.trans h.egfxUnusable, ?_, ?_,
      ?_⟩
    · rw [← h.viewed, System.viewed, System.viewed, hfuture]
      rfl
    · rw [hfuture]
      exact h.refresh
    · intro x y hx hy
      rw [hfuture]
      dsimp only [Canvas.overwrite]
      by_cases hcovers : rects[i].covers x y
      · rw [if_pos hcovers]
        obtain ⟨⟨hx', hx''⟩, hy', hy''⟩ := hcovers
        have hpixel := hpixels (x - rects[i].x) (y - rects[i].y) (by omega) (by omega)
        rw [Nat.add_sub_cancel' hx', Nat.add_sub_cancel' hy', h.surface] at hpixel
        exact .inr hpixel
      · rw [if_neg hcovers]
        refine (h.shown x y hx hy).imp_left fun hout => ⟨fun rect hrect => ?_, hout.2⟩
        rw [List.take_succ_eq_append_getElem hi, List.mem_append, List.mem_singleton] at hrect
        rcases hrect with hrect | rfl
        · exact hout.1 rect hrect
        · exact hcovers
  · intro _ s' h
    rw [List.take_length] at h
    have hsurface := h.surface
    have hsize' : s'.surface.size = s.surface.size := by rw [hsurface]; rfl
    refine hQ s' ⟨hsurface ▸ hsound, by rw [hsurface]; exact hs.pos, ?_, ?_⟩ (by rw [hsurface])
      ⟨⟨by rw [hsurface], h.egfxUnusable⟩, h.egfxSize⟩ h.refresh
    · intro hviewed
      rw [h.viewed, hsize'] at hviewed
      refine (hs.shown hviewed).imp (fun hrefresh => h.refresh.trans hrefresh) ?_
      intro hshown x y hx hy _
      rw [hsurface] at hx hy ⊢
      dsimp only at hx hy ⊢
      rcases h.shown x y hx hy with ⟨hout, hpixel⟩ | hpixel
      · refine hpixel.trans (hshown x y hx hy fun hmark => ?_)
        obtain ⟨rect, hrect, hcovers⟩ := hcovered x y hmark
        exact hout rect hrect hcovers
      · exact hpixel
    · intro hne
      rw [h.viewed, hsize'] at hne
      exact absurd hsize.symm (hs.announced hne)

/-- Every event that does no harm leaves the viewer with the screen but for what is marked, and none
makes the core panic. -/
theorem wp_handle {e : Event} (hs : Coherent s) (ht : e.Typed) (hharm : Harmless s e) :
    wp e.handle (fun _ => Coherent) (fun _ => True) s := by
  cases e with
  | operation o =>
    refine wp_bind.mpr (wp_onSurface (wp_perform hs.sound ht ?_ ?_))
    · exact fun usable surface h _ => wp_bind.mpr (wp_state.mpr (wp_put.mpr (hs.marks h)))
    · rintro width height surface rfl hsound hsize hne hpos
      rcases hharm with heq | ⟨hviewed, hegfx⟩
      · exact absurd heq hne
      · refine wp_bind.mpr (wp_state.mpr (wp_put.mpr (.other hsound (size_pos hsize hpos) ?_ ?_)))
        · rw [hsize]
          exact hviewed
        · rw [hsize]
          exact hegfx
  | reactivated width height =>
    refine wp_bind.mpr (wp_orFail (fun _ _ => wp_bind.mpr (wp_state.mpr ?_)) trivial)
    refine wp_ite (fun h => absurd h (size_ne_zero hs)) fun _ => ?_
    refine wp_bind.mpr (wp_onSurface (wp_tryResize ht.1 ht.2 ?_ ?_ trivial))
    · intro hsize _
      exact wp_sendEvent fun s' hsurface _ _ hfuture => hs.resized hsurface hsize.symm hfuture
    · intro surface hsound hsize hne hpos
      refine wp_sendEvent fun s' hsurface _ _ hfuture => ?_
      have hviewed : (width, height) ≠ s.viewed := hharm.resolve_left hne
      have hblank : s'.future = (.blank width height, true) := by
        exact hfuture.trans (if_neg hviewed.symm)
      refine ⟨hsurface ▸ hsound, ?_, fun _ => .inl (by rw [hblank]), fun h => ?_⟩
      · rw [hsurface]
        exact size_pos hsize hpos
      · rw [System.viewed, hblank, hsurface] at h
        exact absurd hsize.symm h
  | turn due =>
    refine wp_bind.mpr (wp_flushRefreshRequests hs fun s hs _ _ => wp_bind.mpr (wp_state.mpr ?_))
    refine wp_ite (fun _ => trivial) fun _ => ?_
    refine wp_bind.mpr (wp_announceSize hs fun s hs hsize _ _ _ => ?_)
    exact wp_ite (fun _ => wp_flushEgfx hs hsize fun s hs _ _ _ => hs) fun _ => hs
  | deliver =>
    refine wp_bind.mpr (wp_state.mpr ?_)
    cases hflight : s.inFlight with
    | nil => exact hs
    | cons e rest =>
      refine wp_put.mpr (hs.of_future ?_ rfl rfl)
      rw [System.future, System.future, hflight]
      rfl
  | requestRefresh =>
    refine wp_bind.mpr (wp_state.mpr (wp_put.mpr ?_))
    have hcanvas := foldl_receive_canvas s.inFlight s.canvas true s.refresh
    have hviewed : System.viewed { s with refresh := true } = s.viewed := by
      simp only [System.viewed, System.future, hcanvas]
    refine ⟨hs.sound, hs.pos, fun _ => .inl (foldl_receive_refresh _ _), fun hne => ?_⟩
    exact hs.announced (hviewed ▸ hne)

theorem coherent_connect {width height : Nat} (hwidth : width < 2 ^ 16) (hheight : height < 2 ^ 16)
    (h : connect width height = some s) : Coherent s := by
  have hresize : wp (tryResize width height) (fun _ surface => surface.Sound ∧
      surface.size = (width, height) ∧ 0 < width ∧ 0 < height) (fun _ => True) {} := by
    refine wp_tryResize hwidth hheight (fun hsize hpos => ?_) ?_ trivial
    · cases hsize
      exact absurd hpos (Nat.lt_irrefl 0)
    · exact fun surface hsound hsize _ hpos => ⟨hsound, hsize, hpos⟩
  unfold connect at h
  rcases wp_iff.mp hresize with ⟨_, surface, heq, hsound, hsize, hpos⟩ | ⟨_, _, heq, _⟩
  · rw [heq] at h
    cases h
    exact ⟨hsound, size_pos hsize hpos, fun _ => .inl rfl, fun hne => absurd hsize.symm hne⟩
  · rw [heq] at h
    cases h

theorem coherent_step {s' : System} {e : Event} (hs : Coherent s) (ht : e.Typed)
    (hharm : Harmless s e) (h : step s e = some s') : Coherent s' := by
  unfold step at h
  rcases wp_iff.mp (wp_handle hs ht hharm) with ⟨_, _, heq, hs'⟩ | ⟨_, _, heq, _⟩
  · rw [heq] at h
    cases h
    exact hs'
  · rw [heq] at h
    cases h

theorem coherent_run {s' : System} {events : List Event} (hs : Coherent s)
    (ht : ∀ e ∈ events, e.Typed) (hharm : Admissible Harmless step s events)
    (h : run step s events = some s') : Coherent s' := by
  have hok : Admissible (fun s e => Harmless s e ∧ Event.Typed e) step s events :=
    hharm.and (admissible_of_mem fun e he _ => ht e he)
  refine run_invariant_of_admissible ?_ hs hok h
  intro s e t hs hok h
  exact coherent_step hs hok.2 hok.1 h

theorem Coherent.shows (hs : Coherent s) (hquiet : s.Quiet) : Shows s.canvas s.surface.screen := by
  have hfuture : s.future = (s.canvas, false) := by
    rw [System.future, hquiet.inFlight, hquiet.refresh]
    rfl
  have hsize : s.viewed = s.surface.size :=
    by_contra fun hne => hs.announced hne hquiet.announced.symm
  have hshown := (hs.shown hsize).resolve_left (by rw [hfuture]; exact Bool.false_ne_true)
  rw [System.viewed, hfuture, EgfxSurface.size, Prod.mk.injEq] at hsize
  rw [hfuture] at hshown
  refine ⟨hsize.1, hsize.2, fun x y hx hy => hshown x y hx hy ?_⟩
  rintro ⟨b, hb, _⟩
  rw [hquiet.dirty] at hb
  cases hb

/-- Whatever the server draws and however the messages of both sides interleave: once nothing is on
its way the viewer shows the screen, pixel by pixel. -/
theorem quiet_shows {width height : Nat} {s₀ : System} {events : List Event}
    (hwidth : width < 2 ^ 16) (hheight : height < 2 ^ 16)
    (hconnect : connect width height = some s₀) (ht : ∀ e ∈ events, e.Typed)
    (hharm : Admissible Harmless step s₀ events) (hrun : run step s₀ events = some s)
    (hquiet : s.Quiet) : Shows s.canvas s.surface.screen :=
  (coherent_run (coherent_connect hwidth hheight hconnect) ht hharm hrun).shows hquiet

def enlarged : List Event :=
  [.turn true, .deliver, .operation (.resetGraphics 2 1), .operation (.fill 1 0 1 1 9 8 7),
    .turn true, .deliver, .deliver, .turn true, .deliver]

theorem quiet_shows_enlarged : ∃ s₀ s, connect 1 1 = some s₀ ∧ run step s₀ enlarged = some s ∧
    s.surface.screen.width = 2 ∧ Shows s.canvas s.surface.screen := by
  have hcheck : ((connect 1 1).any fun s₀ =>
      allows (fun s e => decide (Harmless s e)) step s₀ enlarged &&
      ((run step s₀ enlarged).any fun s => s.Quiet ∧ s.surface.screen.width = 2)) = true := by
    decide +kernel
  obtain ⟨s₀, hconnect, hcheck⟩ := (Option.any_eq_true _ _).mp hcheck
  obtain ⟨hallows, hcheck⟩ := (Bool.and_eq_true _ _).mp hcheck
  obtain ⟨s, hrun, hcheck⟩ := (Option.any_eq_true _ _).mp hcheck
  obtain ⟨hquiet, hwidth⟩ := of_decide_eq_true hcheck
  refine ⟨s₀, s, hconnect, hrun, hwidth,
    quiet_shows (by decide) (by decide) hconnect ?_ ?_ hrun hquiet⟩
  · intro e he
    fin_cases he <;> trivial
  · exact admissible_of_allows (fun _ _ h => of_decide_eq_true h) hallows

/-- A size that has come back within a turn is not announced, and the old picture stays. -/
example : ((connect 1 1).bind fun s₀ => run step s₀ [.operation (.fill 0 0 1 1 9 8 7), .turn true,
    .deliver, .operation (.resetGraphics 2 1), .operation (.resetGraphics 1 1)]).any (fun s =>
      s.Quiet ∧ s.canvas.pixel 0 0 ≠ s.surface.screen.pixel 0 0) = true := by
  decide +kernel

/-- A turn leaves nothing marked or unannounced, and nothing to be asked for unless the viewer has
not got all that was sent before. -/
structure Settled (s s' : System) : Prop where
  coherent : Coherent s'
  dirty : s'.surface.dirty = []
  announced : s'.egfxSize = s'.surface.size
  usable : s'.egfxUnusable = false
  screen : s'.surface.screen = s.surface.screen
  refresh : s.inFlight = [] → s.egfxSize = s.surface.size → s'.future.2 = false

theorem wp_turn (hs : Coherent s) (husable : s.egfxUnusable = false) :
    wp (turn true) (fun _ => Settled s) (fun _ => False) s := by
  refine wp_bind.mpr (wp_flushRefreshRequests hs fun s₁ hs₁ h₁ hrefresh => ?_)
  have husable₁ := h₁.1.2.trans husable
  refine wp_bind.mpr (wp_state.mpr (wp_ite (fun h => ?_) fun _ => ?_))
  · rw [husable₁] at h
    cases h
  refine wp_bind.mpr (wp_announceSize hs₁ fun s₂ hs₂ hsize₂ hsurface husable₂ hsame => ?_)
  refine wp_ite (fun _ => wp_flushEgfx hs₂ hsize₂ fun s₃ hs₃ hdirty h₃ hfuture => ?_) fun h => ?_
  · have hscreen := h₃.1.1.trans (hsurface ▸ h₁.1.1)
    refine ⟨hs₃, hdirty, ?_, h₃.1.2.trans (husable₂.trans husable₁), hscreen, fun hflight heq => ?_⟩
    · rw [h₃.2, hsize₂, EgfxSurface.size, EgfxSurface.size, h₃.1.1]
    · rw [hfuture, hsame ?_]
      · exact hrefresh hflight
      · rw [h₁.2, heq, EgfxSurface.size, EgfxSurface.size, h₁.1.1]
  · exact absurd rfl h

/-- Everything that has been sent arrives. -/
theorem delivered (s : System) : ∃ n s', run step s (List.replicate n .deliver) = some s' ∧
    s'.inFlight = [] ∧ s'.future = s.future ∧ s'.surface = s.surface ∧
      s'.egfxSize = s.egfxSize ∧ s'.egfxUnusable = s.egfxUnusable := by
  generalize hflight : s.inFlight = es
  induction es generalizing s with
  | nil => exact ⟨0, s, rfl, hflight, rfl, rfl, rfl, rfl⟩
  | cons e rest ih =>
    let viewer := receive (s.canvas, s.refresh) e
    let t : System := { s with inFlight := rest, canvas := viewer.1, refresh := viewer.2 }
    have hstep : step s .deliver = some t := by
      simp only [step, Event.handle, deliver, bind, Comp.bind, state, hflight]
      rfl
    obtain ⟨n, s', hrun, hnil, hfuture, hrest⟩ := ih t rfl
    refine ⟨n + 1, s', run_cons.mpr ⟨t, hstep, hrun⟩, hnil, hfuture.trans ?_, hrest⟩
    rw [System.future, System.future, hflight]
    rfl

theorem turned (hs : Coherent s) (husable : s.egfxUnusable = false) :
    ∃ n s', run step s (.turn true :: List.replicate n .deliver) = some s' ∧ s'.inFlight = [] ∧
      Settled s s' := by
  obtain ⟨_, s₁, hturn, h⟩ := wp_total (wp_turn hs husable)
  obtain ⟨n, s', hrun, hflight, hfuture, hsurface, hsize, husable'⟩ := delivered s₁
  have hstep : step s (.turn true) = some s₁ := by simp only [step, Event.handle, hturn]
  refine ⟨n, s', run_cons.mpr ⟨s₁, hstep, hrun⟩, hflight,
    h.coherent.of_future hfuture hsurface hsize, ?_, ?_, husable'.trans h.usable, ?_, ?_⟩
  · rw [hsurface]
    exact h.dirty
  · rw [hsize, hsurface]
    exact h.announced
  · rw [hsurface]
    exact h.screen
  · rw [hfuture]
    exact h.refresh

/-- Two turns of the pump and what they send bring the viewer to show the screen: the second serves
the refresh that the first may have led to. -/
theorem shows_after_turns {width height : Nat} {s₀ : System} {events : List Event}
    (hwidth : width < 2 ^ 16) (hheight : height < 2 ^ 16)
    (hconnect : connect width height = some s₀) (ht : ∀ e ∈ events, e.Typed)
    (hharm : Admissible Harmless step s₀ events) (hrun : run step s₀ events = some s)
    (husable : s.egfxUnusable = false) :
    ∃ n m s', run step s ((.turn true :: List.replicate n .deliver) ++
      (.turn true :: List.replicate m .deliver)) = some s' ∧ Shows s'.canvas s.surface.screen := by
  have hs := coherent_run (coherent_connect hwidth hheight hconnect) ht hharm hrun
  obtain ⟨n, s₁, hrun₁, hflight₁, h₁⟩ := turned hs husable
  obtain ⟨m, s₂, hrun₂, hflight₂, h₂⟩ := turned h₁.coherent h₁.usable
  have hrefresh := h₂.refresh hflight₁ h₁.announced
  rw [System.future, hflight₂] at hrefresh
  refine ⟨n, m, s₂, run_append.mpr ⟨s₁, hrun₁, hrun₂⟩, ?_⟩
  rw [← h₁.screen, ← h₂.screen]
  exact h₂.coherent.shows ⟨hflight₂, hrefresh, h₂.dirty, h₂.announced⟩

theorem shows_after_turns_drawn : ∃ s₀ s, connect 1 1 = some s₀ ∧
    run step s₀ [.operation (.fill 0 0 1 1 9 8 7)] = some s ∧ ∃ n m s', run step s
      ((.turn true :: List.replicate n .deliver) ++ (.turn true :: List.replicate m .deliver)) =
        some s' ∧ Shows s'.canvas s.surface.screen := by
  have ht : ∀ e ∈ [Event.operation (.fill 0 0 1 1 9 8 7)], e.Typed := by
    intro e he
    fin_cases he
    trivial
  exact ⟨_, _, rfl, rfl, shows_after_turns (by decide : 1 < 2 ^ 16) (by decide : 1 < 2 ^ 16) rfl ht
    ⟨trivial, fun _ _ => trivial⟩ rfl rfl⟩

end

end Dolgate.Egfx
