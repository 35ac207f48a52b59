import AnnotationBands.Json.Number
/-!
JSON texts as trees.
-/

namespace AnnotationBands

/-- A JSON value. Members of an object keep their order and may repeat. A
string is `none` if it has an escape for half of a surrogate pair: such a
string can be passed over, but it is no text. -/
inductive Json where
  | null
  | bool (value : Bool)
  | number (value : Json.Number)
  | string (text : Option String)
  | array (items : List Json)
  | object (members : List (Option String × Json))

end AnnotationBands
