import TermReader.Context.Basic
import TermReader.Data.Value
import TermReader.Data.Entries
import TermReader.Data.Problem

/-!
Validators turn fields into contexts and back. What a validator takes for a text
and for a set of names is its own; what else is wrong with the names of a table
it is told by a check that comes with the fields. The standard validator takes
texts alone, and reports every fault in the order of the fields.
-/

namespace TermReader

/-- Data for a field: a value, or a set of items. -/
inductive Datum
  | value (value : Value)
  | items (items : List Value)

/-- Fields by name. The last datum for a name counts. -/
abbrev Fields := Entries Datum

/-- A validator. Data is a text or a set of names only if the validator takes it
for one. Contexts are validated from fields with a check of the names in each
table, data that is no object is refused, and a context can be dumped. -/
structure Validator where
  text? : Value → Option String
  names? : Datum → Option (List String)
  validate : (check : List String → Option String) → Fields → Except Problem Context
  refusal : Value → Problem
  dump : Context → Fields

namespace Validator

/-- Adds names that are not there yet, in order. -/
def insertNames (names : List String) (additions : List String) : List String :=
  additions.foldl (fun names name => if name ∈ names then names else names ++ [name]) names

def plainText? : Value → Option String
  | .text text => some text
  | _ => none

/-- The items that are texts, if all are. -/
def texts? (items : List Value) : Option (List String) :=
  (items.mapM plainText?).map (insertNames [])

/-- The items of a set of names, which may come as a list. -/
def items? : Datum → Option (List Value)
  | .items items | .value (.list items) => some items
  | _ => none

/-- Every item that is no text is a fault of its own. -/
def textFaults (table : NameTable) (items : List Value) : List Fault :=
  items.zipIdx.filterMap fun (item, i) =>
    if item.isText then none else some ⟨[.field table.label, .item i], .notText⟩

section Standard

variable (check : List String → Option String) (fields : Fields)

/-- The faults of a table. What the names are is looked at when all are texts. -/
def tableFaults (table : NameTable) : List Fault :=
  match Entries.last? fields table.label with
  | none => []
  | some d =>
    match items? d with
    | none => [⟨[.field table.label], .notNames⟩]
    | some items =>
      match texts? items with
      | none => textFaults table items
      | some names => ((check names).map fun complaint =>
          (⟨[.field table.label], .refused complaint⟩ : Fault)).toList

def nameFaults : List Fault :=
  match Entries.last? fields "name" with
  | none | some (.value (.text _)) => []
  | some _ => [⟨[.field "name"], .notText⟩]

def faults : List Fault := nameFaults fields ++ NameTable.all.flatMap (tableFaults check fields)

/-- The context that fields without faults describe. -/
def described : Context where
  name :=
    match Entries.last? fields "name" with
    | some (.value (.text name)) => name
    | _ => "Default"
  names table := ((Entries.last? fields table.label).bind fun d => (items? d).bind texts?).getD []

end Standard

def standard : Validator where
  text? := plainText?
  names? d := (items? d).bind texts?
  validate check fields :=
    match faults check fields with
    | [] => .ok (described fields)
    | faults => .error (.ofFaults faults)
  refusal _ := .ofFaults [⟨[], .notAContext⟩]
  dump ctx := ("name", .value (.text ctx.name)) ::
    NameTable.all.map fun table => (table.label, .items ((ctx.names table).map .text))

end Validator

end TermReader
