import AnnotationBands.Ieee.Binary
/-!
Constants, and the index spaces of the constant pool.
-/

namespace AnnotationBands

open Ieee (Binary32 Binary64)

/-- The separate index spaces of a constant pool. -/
inductive PoolKind where
  | utf8
  | signature
  | int
  | float
  | long
  | double
  deriving DecidableEq

namespace PoolKind

def all : List PoolKind := [utf8, signature, int, float, long, double]

/-- The index space's name in messages. -/
def wireName : PoolKind → String
  | utf8 => "cp_Utf8"
  | signature => "cp_Signature"
  | int => "cp_Int"
  | float => "cp_Float"
  | long => "cp_Long"
  | double => "cp_Double"

def name : PoolKind → String
  | utf8 => "Utf8"
  | signature => "Signature"
  | int => "Int"
  | float => "Float"
  | long => "Long"
  | double => "Double"

end PoolKind

/-- A numeric literal. Floating-point literals are equal when their bit
patterns are. -/
inductive Constant where
  | int (value : Int32)
  | float (value : Binary32)
  | long (value : Int64)
  | double (value : Binary64)
  deriving DecidableEq

def Constant.pool : Constant → PoolKind
  | .int _ => .int
  | .float _ => .float
  | .long _ => .long
  | .double _ => .double

end AnnotationBands
