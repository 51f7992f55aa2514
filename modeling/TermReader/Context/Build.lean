import TermReader.Context.Validator

/-!
Contexts are built from data, and extended by data, through a validator. Names
must be identifiers, and all tables are checked whenever a context is made, so
it stays well named however often it is extended.
-/

namespace TermReader.Context

/-- What is wrong with the names of a table, if anything is. -/
def complaint? (names : List String) : Option String :=
  (names.find? fun name => !Token.isIdentifier name).map fun name =>
    "'" ++ name ++ "' is not a valid identifier"

variable (V : Validator)

/-- The context that fields describe. -/
def ofFields (fields : Fields) : Except Problem Context := V.validate complaint? fields

/-- The context that data describes; only objects do. -/
def ofValue : Value → Except Problem Context
  | .object fields => ofFields V (fields.map fun field => (field.1, .value field.2))
  | v => .error (V.refusal v)

/-- Why an extension is refused. -/
inductive Refusal
  | unknownTable (key : String)
  | notIterable
  | problem (problem : Problem)
  deriving DecidableEq

def unknownTableMessage (key : String) : String := "unknown table '" ++ key ++ "'"

/-- The items of a set that is made of a value: the characters of a text, the
fields of an object, or the items of a list that holds no collections. -/
def enumerated : Value → Except Refusal (List Value)
  | .text value => .ok (value.toList.map fun c => .text (String.ofList [c]))
  | .object fields => .ok (fields.map fun field => .text field.1)
  | .list items =>
    if items.any fun
      | .list _ | .object _ => true
      | _ => false
    then .error .notIterable
    else .ok items
  | _ => .error .notIterable

/-- The items of a set together with the names of a table. -/
def joined (items : List Value) (names : List String) : List Value := items ++ names.map .text

/-- Collects the fields to be changed. A table takes the names that it has and
those that are listed for it. -/
def collect (ctx : Context) (changed : Fields) : List (String × Value) → Except Refusal Fields
  | [] => .ok changed
  | (key, value) :: rest =>
    if key = "name" then ctx.collect (changed.set key (.value value)) rest
    else
      match NameTable.ofLabel? key with
      | none => .error (.unknownTable key)
      | some table =>
        match enumerated value with
        | .error refusal => .error refusal
        | .ok items =>
          ctx.collect (changed.set key (.items (joined items (ctx.names table)))) rest

/-- The fields of one record, with those of another in their place. -/
def merged (fields changed : Fields) : Fields := Entries.ofList (fields ++ changed)

/-- The context with names merged into its tables. A key given again counts as
given last. The fields of the context are merged with those to be changed, and
the whole is validated anew. -/
def extend (ctx : Context) (changes : List (String × Value)) : Except Refusal Context :=
  match ctx.collect [] (Entries.ofList changes) with
  | .error refusal => .error refusal
  | .ok changed => (ofFields V (merged (V.dump ctx) changed)).mapError .problem

/-- Contexts do not change; assigning a field is always refused. -/
def assignFault (field : String) : Fault := ⟨[.field field], .frozen⟩

/-- The names of a table in the order of their code points. -/
def sortedNames (ctx : Context) (table : NameTable) : List String :=
  (ctx.names table).mergeSort fun a b => decide (a ≤ b)

end TermReader.Context
