import AnnotationBands.Bands
import AnnotationBands.Error
import AnnotationBands.Tag
/-!
Walks over the bands of a group. A cursor is a position in each band; each band
is read from its position on, as a decoder would, and the values that are
expanded below others are counted. A step that fails keeps the positions that
it reached.
-/

namespace AnnotationBands

/-- A place in the bands of a group. -/
structure Cursor where
  bands : Bands
  /-- The deepest value that a walk accepts; `none` for no limit. -/
  maxDepth : Option Nat
  /-- How many values of each band are behind. -/
  position : Mark
  /-- Array elements and pairs of nested annotations passed so far. A walk that
  gets through passes more tags than these. -/
  calls : Nat

abbrev Walk := EStateM BandError Cursor

namespace Cursor

def start (bands : Bands) (maxDepth : Option Nat) : Cursor := ⟨bands, maxDepth, PerBand.const 0, 0⟩

def ofMark (bands : Bands) (mark : Mark) (maxDepth : Option Nat) : Cursor := ⟨bands, maxDepth, mark, 0⟩

def remaining (c : Cursor) (b : Band) : Nat := (c.bands.get b).length - c.position.get b

/-- The error of reading past a band's end. -/
def pastEnd (c : Cursor) (b : Band) : BandError := .desync b (c.position.get b + 1) (c.bands.get b).length

end Cursor

namespace Walk

/-- The result of a walk, without the place where it ended. -/
def result {α : Type} (walk : Walk α) (c : Cursor) : Except BandError α :=
  match walk c with
  | .ok x _ => .ok x
  | .error e _ => .error e

/-- Reads the next value of a band. Past the end nothing is consumed. -/
def next (b : Band) : Walk Int := fun c =>
  match (c.bands.get b)[c.position.get b]? with
  | some v => .ok v { c with position := c.position.modify b (· + 1) }
  | none => .error (c.pastEnd b) c

/-- Reads the next value of a band as a count. A negative one is refused, but
it is consumed. -/
def nextCount (b : Band) : Walk Nat := do
  let v ← next b
  match v with
  | .ofNat n => return n
  | .negSucc _ => throw (.valueOutOfRange b.codec v)

/-- Reads the next tag. A number that is no tag is consumed. -/
def nextTag : Walk Tag := do
  let v ← next .tags
  match Tag.ofCode? v with
  | some tag => return tag
  | none => throw (.unknownTag v)

/-- Fails as reading past a band's end does. -/
def failPastEnd {α : Type} (b : Band) : Walk α := fun c => .error (c.pastEnd b) c

def checkDepth (depth : Nat) : Walk Unit := fun c =>
  match c.maxDepth with
  | some limit => if limit < depth then .error (.nestingTooDeep limit) c else .ok () c
  | none => .ok () c

def addCalls (n : Nat) : Walk Unit := fun c => .ok () { c with calls := c.calls + n }

def times : Nat → Walk Unit → Walk Unit
  | 0, _ => return ()
  | n + 1, walk => do
    walk
    times n walk

def collect {α : Type} : Nat → Walk α → Walk (List α)
  | 0, _ => return []
  | n + 1, walk => do
    let x ← walk
    let xs ← collect n walk
    return x :: xs

def forEach {α β : Type} (walk : α → Walk β) : List α → Walk (List β)
  | [] => return []
  | x :: xs => do
    let y ← walk x
    let ys ← forEach walk xs
    return y :: ys

def ensureExhausted : List Band → Walk Unit
  | [] => return ()
  | b :: bs => fun c =>
    let reached := c.position.get b
    let length := (c.bands.get b).length
    if reached = length then ensureExhausted bs c else .error (.desync b reached length) c

end Walk

end AnnotationBands
