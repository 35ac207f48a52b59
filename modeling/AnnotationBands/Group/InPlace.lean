import AnnotationBands.Group.Change
/-!
The operations as they change a group in place. Adding pushes values into the
bands while it goes through the trees, and pushes the mark of a tree behind it,
so an error leaves what was pushed until then; a transaction cuts it off again.
Removing makes all its checks ahead of its first change. The pool keeps what was
interned either way.
-/

namespace AnnotationBands

namespace Bands

/-- Cuts every band back to a mark. -/
def truncate (bands : Bands) (mark : Mark) : Bands := PerBand.ofFn fun b => (bands.get b).take (mark.get b)

def pop (bands : Bands) (b : Band) : Bands := bands.modify b List.dropLast

end Bands

/-- A computation that changes a group and a pool in place. What it has done
when it fails stays done. -/
abbrev InPlace (P : Type) := EStateM BandError (Group × P)

namespace InPlace

section Groups

variable {P : Type}

def group : InPlace P Group := fun s => .ok s.1 s

def update (f : Group → Group) : InPlace P Unit := fun s => .ok () (f s.1, s.2)

def pushTo (b : Band) (value : Int) : InPlace P Unit := update (·.push b value)

def addCalls (calls : Nat) : InPlace P Unit := update fun g => { g with calls := g.calls + calls }

def pushMark (mark : Mark) : InPlace P Unit := update fun g => { g with marks := g.marks ++ [mark] }

def pushCounts : List (List Annotation) → InPlace P Unit
  | [] => pure ()
  | annotations :: more => do
    pushTo .annoCounts annotations.length
    pushCounts more

def popTimes (b : Band) : Nat → InPlace P Unit
  | 0 => pure ()
  | n + 1 => do
    update fun g => { g with bands := g.bands.pop b }
    popTimes b n

def require (allowed : Kind → Bool) (operation : Operation) : InPlace P Unit := do
  let g ← group
  if allowed g.kind then pure () else throw (.wrongKind g.kind operation)

def checkDepth (depth : Nat) : InPlace P Unit := do
  let g ← group
  if g.config.maxNestingDepth < depth then throw (.nestingTooDeep g.config.maxNestingDepth) else pure ()

/-- Makes changes that are cut off again when one of them fails. -/
def transaction (x : InPlace P Unit) : InPlace P Unit := fun s =>
  match x s with
  | .ok () t => .ok () t
  | .error e (g, p) =>
    .error e ({ g with
      bands := g.bands.truncate s.1.bands.mark
      calls := s.1.calls
      marks := g.marks.take s.1.marks.length }, p)

def openEntry : InPlace P Unit := do
  require Kind.isMember .openEntry
  pushTo .annoCounts 1

def extendEntry : InPlace P Unit := do
  require Kind.isMember .extendEntry
  let g ← group
  match g.bands.annoCounts.getLast? with
  | none => throw (.noOpenEntry .annoCounts)
  | some n => update fun g => { g with bands := { g.bands with annoCounts := g.bands.annoCounts.dropLast ++ [n + 1] } }

def removeLatest : InPlace P Unit := do
  let g ← group
  let latest ← BandError.orThrow g.latestEntry
  if g.marks.length < latest.trees then
    throw (.desync .annoCounts latest.trees g.marks.length)
  else
    let kept := g.marks.length - latest.trees
    let start := g.marks[kept]?.getD g.bands.mark
    let calls ← BandError.orThrow (g.callsSince start latest.trees)
    -- nothing fails from here on
    popTimes .paramCounts latest.paramCounts
    popTimes .annoCounts latest.annoCounts
    update fun g => { g with marks := g.marks.take kept }
    update fun g => { g with bands := g.bands.truncateContent start }
    update fun g => { g with calls := g.calls - calls }

end Groups

variable {P : Type} [Interner P]

def pushReference (b : Band) (operand : Operand) : InPlace P Unit := fun (g, pool) =>
  let (index, pool) := operand.intern pool
  .ok () (g.push b index.toNat, pool)

/-- Interns literals and refers to each in its case band, as long as they fit
the bands. -/
def pushAll (tag : Tag) : List (CaseBand × Operand) → InPlace P Unit
  | [] => pure ()
  | (case, operand) :: more => do
    if operand.pool = case.pool then pushReference case.band operand
    else throw (.arityMismatch tag.toChar tag.dispatch.arity tag.cases.length)
    pushAll tag more

def pushOperands (tag : Tag) (operands : List Operand) : InPlace P Unit :=
  if operands.length = tag.cases.length then pushAll tag (tag.cases.zip operands)
  else throw (.arityMismatch tag.toChar tag.dispatch.arity operands.length)

mutual

def pushValue (depth : Nat) : ElementValue → InPlace P Unit
  | .array elements => do
    checkDepth depth
    pushTo .tags Tag.array.code
    pushTo .arrayCounts elements.length
    addCalls elements.length
    pushItems (depth + 1) elements
  | .nested descriptor named => do
    checkDepth depth
    pushTo .tags Tag.nested.code
    pushReference .nestTypes (.descriptor descriptor)
    pushTo .nestPairCounts named.length
    addCalls named.length
    pushPairs .nestNames (depth + 1) named
  | literal => do
    checkDepth depth
    pushTo .tags literal.tag.code
    pushOperands literal.tag literal.operands

def pushItems (depth : Nat) : List ElementValue → InPlace P Unit
  | [] => pure ()
  | v :: vs => do
    pushValue depth v
    pushItems depth vs

def pushPairs (nameBand : Band) (depth : Nat) : List (String × ElementValue) → InPlace P Unit
  | [] => pure ()
  | (name, v) :: more => do
    pushReference nameBand (.utf8 name)
    pushValue depth v
    pushPairs nameBand depth more

end

def pushRoot (a : Annotation) : InPlace P Unit := do
  -- the mark is taken ahead of the tree and recorded behind it
  let g ← group
  pushReference .types (.descriptor a.descriptor)
  pushTo .pairCounts a.pairs.length
  pushPairs .names 1 a.pairs
  pushMark g.bands.mark

def pushRoots : List Annotation → InPlace P Unit
  | [] => pure ()
  | a :: more => do
    pushRoot a
    pushRoots more

def addOne (a : Annotation) : InPlace P Unit := do
  require Kind.isMember .addOne
  transaction (pushRoot a)

def addMember (annotations : List Annotation) : InPlace P Unit := do
  require Kind.isMember .addMember
  if annotations.isEmpty then pure ()
  else
    transaction do
      pushRoots annotations
      pushTo .annoCounts annotations.length

def addParameters (parameters : List (List Annotation)) : InPlace P Unit := do
  require Kind.isParameter .addParameters
  if Group.maxParameters < parameters.length then throw (.tooManyParameters parameters.length)
  else
    transaction do
      pushTo .paramCounts parameters.length
      pushCounts parameters
      pushRoots parameters.flatten

def addDefault (v : ElementValue) : InPlace P Unit := do
  require (!·.hasDescriptors) .addDefault
  transaction do
    let g ← group
    pushValue 1 v
    pushMark g.bands.mark

def change : Group.Change → InPlace P Unit
  | .openEntry => openEntry
  | .extendEntry => extendEntry
  | .addOne a => addOne a
  | .addMember as => addMember as
  | .addParameters ps => addParameters ps
  | .addDefault v => addDefault v
  | .removeLatest => removeLatest

/-- The result of a change, and what it leaves. -/
def step (c : Group.Change) (s : Group × P) : Except BandError Unit × Group × P :=
  match change c s with
  | .ok () t => (.ok (), t)
  | .error e t => (.error e, t)

end InPlace

end AnnotationBands
