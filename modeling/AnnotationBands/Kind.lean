/-!
What a group of annotation bands holds: the class-file attribute its
annotations belong to (`Kind`) and the sort of declaration that carries them
(`Context`).
-/

namespace AnnotationBands

/-- The class-file attribute whose annotations a group holds. -/
inductive Kind where
  /-- Default values of annotation-type methods. -/
  | annotationDefault
  /-- Annotations of a declaration, visible at run time. -/
  | visible
  /-- Annotations of a declaration, invisible at run time. -/
  | invisible
  /-- Annotations of a method's parameters, visible at run time. -/
  | visibleParameter
  /-- Annotations of a method's parameters, invisible at run time. -/
  | invisibleParameter
  deriving DecidableEq

namespace Kind

def all : List Kind := [annotationDefault, visible, invisible, visibleParameter, invisibleParameter]

theorem mem_all (k : Kind) : k ∈ all := by cases k <;> decide

/-- The short code that labels of groups and bands are made of. -/
def code : Kind → String
  | annotationDefault => "AD"
  | visible => "RVA"
  | invisible => "RIA"
  | visibleParameter => "RVPA"
  | invisibleParameter => "RIPA"

def ofCode? (code : String) : Option Kind := all.find? (·.code == code)

def name : Kind → String
  | annotationDefault => "Default"
  | visible => "RuntimeVisible"
  | invisible => "RuntimeInvisible"
  | visibleParameter => "RuntimeVisibleParameter"
  | invisibleParameter => "RuntimeInvisibleParameter"

/-- Parameter kinds send the number of parameters of each method ahead of
everything else. -/
def isParameter : Kind → Bool
  | visibleParameter | invisibleParameter => true
  | _ => false

/-- Every kind but the default values holds annotations, which have type
descriptors and named pairs. -/
def hasDescriptors : Kind → Bool
  | annotationDefault => false
  | _ => true

/-- Member kinds hold the annotations of a class, field or method as a whole. -/
def isMember (k : Kind) : Bool := k.hasDescriptors && !k.isParameter

end Kind

/-- The sort of declaration that carries a group's annotations. -/
inductive Context where
  | classDeclaration
  | field
  | method
  deriving DecidableEq

namespace Context

def all : List Context := [classDeclaration, field, method]

def label : Context → String
  | classDeclaration => "Class"
  | field => "Field"
  | method => "Method"

end Context

end AnnotationBands
