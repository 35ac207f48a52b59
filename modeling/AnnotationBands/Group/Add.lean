import AnnotationBands.Group
/-!
Adding to a group. The kind is checked first. Trees are flattened one after the
other, and the group changes only when all of them were.
-/

namespace AnnotationBands.Group

/-- The most parameters that one entry can count. -/
def maxParameters : Nat := 255

def require {P : Type} (g : Group) (allowed : Bool) (operation : Operation) : Flatten P Unit :=
  if allowed then pure () else throw (.wrongKind g.kind operation)

section Counts

variable {P : Type}

def openEntry (g : Group) : Flatten P Group := do
  g.require g.kind.isMember .openEntry
  return g.push .annoCounts 1

def extendEntry (g : Group) : Flatten P Group := do
  g.require g.kind.isMember .extendEntry
  match g.bands.annoCounts.getLast? with
  | none => throw (.noOpenEntry .annoCounts)
  | some n => return { g with bands := { g.bands with annoCounts := g.bands.annoCounts.dropLast ++ [n + 1] } }

end Counts

variable {P : Type} [Interner P]

/-- Adds one annotation of a member. The entry that counts it is left to
`openEntry` and `extendEntry`. -/
def addOne (g : Group) (a : Annotation) : Flatten P Group := do
  g.require g.kind.isMember .addOne
  let s ← Flatten.root g.config.maxNestingDepth a
  return g.attach s

/-- Adds all annotations of one member as one entry. A member without
annotations has no entry. -/
def addMember (g : Group) (annotations : List Annotation) : Flatten P Group := do
  g.require g.kind.isMember .addMember
  if annotations.isEmpty then
    return g
  else
    let segments ← Flatten.roots g.config.maxNestingDepth annotations
    return (segments.foldl attach g).push .annoCounts annotations.length

/-- Adds the annotations of all parameters of one method as one entry. The
counts come ahead of the trees. -/
def addParameters (g : Group) (parameters : List (List Annotation)) : Flatten P Group := do
  g.require g.kind.isParameter .addParameters
  if maxParameters < parameters.length then
    throw (.tooManyParameters parameters.length)
  else
    let segments ← Flatten.roots g.config.maxNestingDepth parameters.flatten
    let counted := parameters.foldl (fun g annotations => g.push .annoCounts annotations.length)
      (g.push .paramCounts parameters.length)
    return segments.foldl attach counted

def addDefault (g : Group) (v : ElementValue) : Flatten P Group := do
  g.require (!g.kind.hasDescriptors) .addDefault
  let s ← Flatten.value g.config.maxNestingDepth 1 v
  return g.attach s

end AnnotationBands.Group
