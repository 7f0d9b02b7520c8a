/-!
# JSON values

The values of a JSON text, as far as puzzles need them: of numbers, only integers keep their value.
-/

namespace TapePuzzle

/-- The text of a JSON string. It is missing if escapes in the string give half a surrogate pair
    without the other half, which no text contains. -/
abbrev JsonText := Option String

/-- A JSON value. -/
inductive Json where
  | null
  | bool (value : Bool)
  | integer (value : Int)
  /-- A number with a fraction or an exponent, and minus zero. -/
  | inexact
  | string (text : JsonText)
  | array (items : List Json)
  /-- The members in their order, repeated names included. -/
  | object (members : List (JsonText × Json))
  deriving Inhabited

end TapePuzzle
