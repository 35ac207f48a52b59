import AnnotationBands.Codec
import AnnotationBands.Kind
/-!
The eighteen bands of a group, in the order in which they are sent, and records
with one field for each band (`PerBand`). A record is determined by its fields
(`PerBand.ext_get`), and `PerBand.ofFn` builds one from a function of the band
(`PerBand.get_ofFn`); every other operation goes through these two.
-/

namespace AnnotationBands

/-- The parallel sequences of one group, in wire order. -/
inductive Band where
  /-- The number of parameters of each method. -/
  | paramCounts
  /-- The number of annotations of each declaration or parameter. -/
  | annoCounts
  /-- The type descriptor of each annotation. -/
  | types
  /-- The number of pairs of each annotation. -/
  | pairCounts
  /-- The name of each pair. -/
  | names
  /-- The tag of each value, nested ones included. -/
  | tags
  | ints
  | doubles
  | floats
  | longs
  /-- The descriptor of each class literal. -/
  | classes
  /-- The type descriptor of each enum constant. -/
  | enumTypes
  /-- The name of each enum constant. -/
  | enumNames
  | strings
  /-- The number of elements of each array. -/
  | arrayCounts
  /-- The type descriptor of each nested annotation. -/
  | nestTypes
  /-- The number of pairs of each nested annotation. -/
  | nestPairCounts
  /-- The name of each pair of a nested annotation. -/
  | nestNames
  deriving DecidableEq

namespace Band

def all : List Band :=
  [paramCounts, annoCounts, types, pairCounts, names, tags, ints, doubles, floats, longs, classes, enumTypes,
    enumNames, strings, arrayCounts, nestTypes, nestPairCounts, nestNames]

theorem mem_all (b : Band) : b ∈ all := by cases b <;> decide

theorem nodup_all : all.Nodup := by decide

def ofIndex? (i : Nat) : Option Band := all[i]?

def name : Band → String
  | paramCounts => "param_NB"
  | annoCounts => "anno_N"
  | types => "type_RS"
  | pairCounts => "pair_N"
  | names => "name_RU"
  | tags => "T"
  | ints => "caseI_KI"
  | doubles => "caseD_KD"
  | floats => "caseF_KF"
  | longs => "caseJ_KJ"
  | classes => "casec_RS"
  | enumTypes => "caseet_RS"
  | enumNames => "caseec_RU"
  | strings => "cases_RU"
  | arrayCounts => "casearray_N"
  | nestTypes => "nesttype_RS"
  | nestPairCounts => "nestpair_N"
  | nestNames => "nestname_RU"

/-- The codec that the band's values are sent with: parameter counts and tags
fit one byte. -/
def codec : Band → Codec
  | paramCounts | tags => .byte1
  | _ => .unsigned5

/-- Bands that count entries of the surrounding structure rather than
annotation content. -/
def isEntryCount : Band → Bool
  | paramCounts | annoCounts => true
  | _ => false

/-- Whether a group of the given kind sends the band. -/
def isTransmitted (kind : Kind) : Band → Bool
  | paramCounts => kind.isParameter
  | annoCounts | types | pairCounts | names => kind.hasDescriptors
  | _ => true

def content : List Band := all.filter (!·.isEntryCount)

def transmitted (kind : Kind) : List Band := all.filter (·.isTransmitted kind)

end Band

/-- One value of type `α` for each band. -/
@[ext]
structure PerBand (α : Type u) where
  paramCounts : α
  annoCounts : α
  types : α
  pairCounts : α
  names : α
  tags : α
  ints : α
  doubles : α
  floats : α
  longs : α
  classes : α
  enumTypes : α
  enumNames : α
  strings : α
  arrayCounts : α
  nestTypes : α
  nestPairCounts : α
  nestNames : α
  deriving DecidableEq

namespace PerBand

variable {α : Type u} {β : Type v}

def get (r : PerBand α) : Band → α
  | .paramCounts => r.paramCounts
  | .annoCounts => r.annoCounts
  | .types => r.types
  | .pairCounts => r.pairCounts
  | .names => r.names
  | .tags => r.tags
  | .ints => r.ints
  | .doubles => r.doubles
  | .floats => r.floats
  | .longs => r.longs
  | .classes => r.classes
  | .enumTypes => r.enumTypes
  | .enumNames => r.enumNames
  | .strings => r.strings
  | .arrayCounts => r.arrayCounts
  | .nestTypes => r.nestTypes
  | .nestPairCounts => r.nestPairCounts
  | .nestNames => r.nestNames

/-- The record whose value for each band is that of a function. -/
def ofFn (f : Band → α) : PerBand α where
  paramCounts := f .paramCounts
  annoCounts := f .annoCounts
  types := f .types
  pairCounts := f .pairCounts
  names := f .names
  tags := f .tags
  ints := f .ints
  doubles := f .doubles
  floats := f .floats
  longs := f .longs
  classes := f .classes
  enumTypes := f .enumTypes
  enumNames := f .enumNames
  strings := f .strings
  arrayCounts := f .arrayCounts
  nestTypes := f .nestTypes
  nestPairCounts := f .nestPairCounts
  nestNames := f .nestNames

@[simp] theorem get_ofFn (f : Band → α) (b : Band) : (ofFn f).get b = f b := by cases b <;> rfl

theorem ext_get {r s : PerBand α} (h : ∀ b, r.get b = s.get b) : r = s :=
  PerBand.ext (h .paramCounts) (h .annoCounts) (h .types) (h .pairCounts) (h .names) (h .tags) (h .ints) (h .doubles)
    (h .floats) (h .longs) (h .classes) (h .enumTypes) (h .enumNames) (h .strings) (h .arrayCounts) (h .nestTypes)
    (h .nestPairCounts) (h .nestNames)

def const (x : α) : PerBand α := ofFn fun _ => x

def map (f : α → β) (r : PerBand α) : PerBand β := ofFn fun b => f (r.get b)

def modify (r : PerBand α) (b : Band) (f : α → α) : PerBand α :=
  ofFn fun b' => if b' = b then f (r.get b') else r.get b'

def toList (r : PerBand α) : List α := Band.all.map r.get

@[simp] theorem get_const (x : α) (b : Band) : (const x).get b = x := get_ofFn _ b

@[simp] theorem get_map (f : α → β) (r : PerBand α) (b : Band) : (r.map f).get b = f (r.get b) := get_ofFn _ b

theorem get_modify (r : PerBand α) (b b' : Band) (f : α → α) :
    (r.modify b f).get b' = if b' = b then f (r.get b') else r.get b' := get_ofFn _ b'

@[simp] theorem get_modify_self (r : PerBand α) (b : Band) (f : α → α) : (r.modify b f).get b = f (r.get b) := by
  simp [get_modify]

end PerBand

end AnnotationBands
