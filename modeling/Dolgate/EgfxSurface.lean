import Dolgate.Table
import Dolgate.VncMirror

set_option autoImplicit false

/-! The framebuffer that the graphics pipeline of the RDP core draws on, with the boxes that have
changed since it was last sent. -/

namespace Dolgate.Egfx
open Checked Vnc

def maxDirtyRects : Nat := 8

/-- As many pixels may be sent in vain for two boxes to become one. -/
def mergeSlack : Nat := 320 * 180

/-- `right` and `bottom` lie outside. -/
structure Bounds where
  left : Nat
  top : Nat
  right : Nat
  bottom : Nat
  deriving DecidableEq, Repr

namespace Bounds

def overlapArea (a b : Bounds) : Nat :=
  let left := max a.left b.left
  let top := max a.top b.top
  let right := min a.right b.right
  let bottom := min a.bottom b.bottom
  if right ≤ left ∨ bottom ≤ top then 0 else (right - left) * (bottom - top)

def union (a b : Bounds) : Bounds :=
  ⟨min a.left b.left, min a.top b.top, max a.right b.right, max a.bottom b.bottom⟩

def area (b : Bounds) : Nat := (b.right - b.left) * (b.bottom - b.top)

def covers (b : Bounds) (x y : Nat) : Prop := (b.left ≤ x ∧ x < b.right) ∧ b.top ≤ y ∧ y < b.bottom

end Bounds

structure FramebufferSizeError where
  width : Nat
  height : Nat
  deriving DecidableEq, Repr

/-- A tile of the cache is a framebuffer of its own. -/
structure EgfxSurface where
  screen : Framebuffer := ⟨0, 0, []⟩
  cache : Table Nat Framebuffer := ∅
  cacheBytes : Nat := 0
  dirty : List Bounds := []

abbrev Drawing : Type → Type := Comp EgfxSurface FramebufferSizeError

/-- What is drawn on the screen does not fail. -/
def onScreen (m : Decoder Unit) : Drawing Unit := fun s =>
  match m s.screen with
  | (.ok (), screen) => (.ok (), { s with screen })
  | (.error _, screen) => (.error .panic, { s with screen })

def satAdd (a b : Nat) : Nat := min (a + b) (2 ^ 16 - 1)

/-- Whether the size is another one now. -/
def tryResize (width height : Nat) : Drawing Bool := do
  let len ← orFail (checkedRgbaFramebufferLen width height) ⟨width, height⟩
  let s ← state
  if s.screen.width = width ∧ s.screen.height = height then return false
  else
    put { screen := ⟨width, height, List.replicate len 0⟩ }
    return true

namespace EgfxSurface

def size (s : EgfxSurface) : Nat × Nat := (s.screen.width, s.screen.height)

/-- The part of a rectangle that lies on the screen. -/
def clip (s : EgfxSurface) (x y width height : Nat) : Option Rect :=
  if (s.screen.width = 0 ∨ s.screen.height = 0) ∨ width = 0 ∨ height = 0 ∨ s.screen.width ≤ x ∨
      s.screen.height ≤ y then none
  else
    let right := min (satAdd x width) s.screen.width
    let bottom := min (satAdd y height) s.screen.height
    if right ≤ x ∨ bottom ≤ y then none else some ⟨x, y, right - x, bottom - y⟩

end EgfxSurface

section

variable {σ ε : Type}

/-- The first of the boxes that grow least, and by how much. -/
def cheapest (dirty : List Bounds) (rect : Bounds) : Comp σ ε (Option (Nat × Nat)) :=
  forEach dirty (fun i existing best => do
    let merged := (existing.union rect).area
    let separate ← sub (existing.area + rect.area) (existing.overlapArea rect)
    let added := merged - separate
    return if best.all (added < ·.2) then some (i, added) else best) none

/-- The first of the pairs whose union is smallest. -/
def closest (dirty : List Bounds) : Comp σ ε (Nat × Nat × Nat) :=
  forRange dirty.length (fun i pair =>
    forRange (dirty.length - (i + 1)) (fun k pair => do
      let j := i + 1 + k
      let cost := ((← index dirty i).union (← index dirty j)).area
      return if cost < pair.2.2 then (i, j, cost) else pair) pair) (0, 1, 2 ^ 64 - 1)

/-- The box at `i` takes up another one. -/
def mergeInto (dirty : List Bounds) (i : Nat) (other : Bounds) : Comp σ ε (List Bounds) := do
  store dirty i ((← index dirty i).union other)

def remove {α : Type} (xs : List α) (i : Nat) : Comp σ ε (List α) :=
  if i < xs.length then pure (xs.eraseIdx i) else crash

/-- The rows of a rectangle, one after the other. -/
def gather (fb : Framebuffer) (rect : Rect) : Comp σ ε (List UInt8) :=
  forRange rect.height (fun row out => do
    let start ← usize ((rect.y + row) * (fb.width * 4) + rect.x * 4)
    return out ++ (← slice fb.pixels start (start + rect.width * 4))) []

end

def markDirty (x y width height : Nat) : Drawing Unit := do
  let s ← state
  let rect : Bounds := ⟨x, y, satAdd x width, satAdd y height⟩
  match (← cheapest s.dirty rect).filter (·.2 ≤ mergeSlack) with
  | some (i, _) => put { s with dirty := ← mergeInto s.dirty i rect }
  | none =>
    let dirty := s.dirty ++ [rect]
    if s.dirty.length < maxDirtyRects then put { s with dirty }
    else
      let (i, j, _) ← closest dirty
      let merged ← mergeInto dirty i (← index dirty j)
      put { s with dirty := ← remove merged j }

/-- The rows of `rect` become those of the source, which begin `sourceStride` bytes apart. -/
def blit (rect : Rect) (source : List UInt8) (sourceStride : Nat) : Decoder Unit :=
  forRange rect.height (fun row _ => do
    let start ← usize (row * sourceStride)
    let fb ← state
    let target ← usize ((rect.y + row) * (fb.width * 4) + rect.x * 4)
    let bytes ← slice source start (start + rect.width * 4)
    copyRow target (target + rect.width * 4) bytes) ()

/-- The rows of `rect` become opaque. -/
def paint (rect : Rect) (r g b : UInt8) : Decoder Unit :=
  forRange rect.height (fun row _ => do
    let fb ← state
    let start ← usize ((rect.y + row) * (fb.width * 4) + rect.x * 4)
    copyRow start (start + rect.width * 4)
      (List.replicate rect.width (Rgba.bytes ⟨r, g, b, 0xFF⟩)).flatten) ()

def write (x y width height : Nat) (pixels : List UInt8) : Drawing Unit := do
  let s ← state
  match s.clip x y width height with
  | none => return ()
  | some rect =>
    let sourceStride := width * 4
    if pixels.length < (← usize (sourceStride * height)) then return ()
    else
      onScreen (blit rect pixels sourceStride)
      markDirty rect.x rect.y rect.width rect.height

def copy (sourceX sourceY width height destX destY : Nat) : Drawing Unit := do
  let s ← state
  match s.clip sourceX sourceY width height with
  | none => return ()
  | some source =>
    match s.clip destX destY source.width source.height with
    | none => return ()
    | some dest =>
      let scratch ← gather s.screen ⟨source.x, source.y, dest.width, dest.height⟩
      onScreen (blit dest scratch (dest.width * 4))
      markDirty dest.x dest.y dest.width dest.height

def fill (x y width height : Nat) (r g b : UInt8) : Drawing Unit := do
  let s ← state
  match s.clip x y width height with
  | none => return ()
  | some rect =>
    onScreen (paint rect r g b)
    markDirty rect.x rect.y rect.width rect.height

/-- Whether the cache has had room for it. -/
def cacheStore (slot sourceX sourceY width height : Nat) : Drawing Bool := do
  let s ← state
  match s.clip sourceX sourceY width height with
  | none => return true
  | some source =>
    match checkedRgbaFramebufferLen source.width source.height with
    | none => return false
    | some tileBytes =>
      let replacedBytes := ((s.cache.lookup slot).map (·.pixels.length)).getD 0
      let retainedBytes := s.cacheBytes - replacedBytes
      if maxFramebufferBytes - retainedBytes < tileBytes then return false
      else
        let pixels ← gather s.screen source
        let cacheBytes ← usize (retainedBytes + tileBytes)
        let tile : Framebuffer := ⟨source.width, source.height, pixels⟩
        put { s with cache := s.cache.insert slot tile, cacheBytes }
        return true

/-- Whether the slot is known. -/
def cacheRestore (slot destX destY : Nat) : Drawing Bool := do
  let s ← state
  match s.cache.lookup slot with
  | none => return false
  | some tile =>
    match s.clip destX destY tile.width tile.height with
    | none => return true
    | some dest =>
      let scratch ← gather tile ⟨0, 0, dest.width, dest.height⟩
      onScreen (blit dest scratch (dest.width * 4))
      markDirty dest.x dest.y dest.width dest.height
      return true

def cacheEvict (slot : Nat) : Drawing Unit := do
  let s ← state
  match s.cache.lookup slot with
  | none => return ()
  | some tile =>
    put { s with cache := s.cache.erase slot, cacheBytes := s.cacheBytes - tile.pixels.length }

def markAllDirty : Drawing Unit := do
  let s ← state
  if s.screen.width = 0 ∨ s.screen.height = 0 then return ()
  else put { s with dirty := [⟨0, 0, s.screen.width, s.screen.height⟩] }

def takeDirty : Drawing (List Rect) := do
  let s ← state
  put { s with dirty := [] }
  return (s.dirty.filter fun b => b.left < b.right ∧ b.top < b.bottom).map fun b =>
    ⟨b.left, b.top, b.right - b.left, b.bottom - b.top⟩

/-- The pixels of a rectangle, as they are sent. -/
def extract (rect : Rect) : Drawing (List UInt8) := do
  let s ← state
  match s.clip rect.x rect.y rect.width rect.height with
  | none => return []
  | some rect => gather s.screen rect

end Dolgate.Egfx
