import GuardElision.Node

namespace GuardElision

inductive Value where
  | int (value : Word)
  | null
  /-- The object at an index of the heap. -/
  | ref (index : Nat)
  | bool (value : Bool)
deriving DecidableEq

namespace Value

def text : Value → String
  | .int v => "Int(" ++ Word.text v ++ ")"
  | .null => "Null"
  | .ref i => s!"Ref({i})"
  | .bool b => s!"Bool({b})"

/-- Compares two integers by any operator, and two references, null included, for identity; other
pairs are not comparable. -/
def compare? (op : Comparison) : Value → Value → Option Bool
  | .int a, .int b =>
    match op with
    | .eq => some (a = b)
    | .ne => some (a ≠ b)
    | .lt => some (a < b)
    | .le => some (a ≤ b)
    | .gt => some (b < a)
    | .ge => some (b ≤ a)
    | .below => some (Word.below a b)
  | .int _, _ | _, .int _ | .bool _, _ | _, .bool _ => none
  | a, b =>
    match op with
    | .eq => some (a = b)
    | .ne => some (a ≠ b)
    | _ => none

end Value

/-- An object: its class and the fields that were given a value. -/
structure Obj where
  cls : ClassId
  fields : List (Nat × Word) := []
deriving DecidableEq

namespace Obj

/-- The value of a field, zero unless given. The last entry of a field counts. -/
def field (o : Obj) (f : Nat) : Word :=
  (o.fields.reverse.lookup f).getD 0

end Obj

abbrev Heap := List Obj

end GuardElision
