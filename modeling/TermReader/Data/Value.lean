import TermReader.Number.Binary64

/-!
Data as it comes from a configuration file, a program's caller or a log record:
scalars, lists, and objects whose fields keep their order.
-/

namespace TermReader

inductive Value
  | null
  | truth (value : Bool)
  | int (value : Int)
  | real (negative : Bool) (magnitude : Binary64)
  | text (value : String)
  /-- A scalar of another kind, by its spelling. -/
  | scalar (spelling : String)
  | list (items : List Value)
  | object (fields : List (String × Value))

namespace Value

/-- Whether the value stands for nothing: null, false, zero, or without content. -/
def isBlank : Value → Bool
  | null => true
  | truth value => !value
  | int value => value == 0
  | real _ magnitude => magnitude == Binary64.zero
  | text value => value.isEmpty
  | scalar spelling => spelling.isEmpty
  | list items => items.isEmpty
  | object fields => fields.isEmpty

def isText : Value → Bool
  | text _ => true
  | _ => false

end Value

end TermReader
