/-!
Faults found in data. Checking reports every fault, each with the place where it
was found: a field, and perhaps an item of it.
-/

namespace TermReader

inductive Place
  | field (name : String)
  | item (index : Nat)
  deriving DecidableEq

inductive FaultKind
  | notAContext
  | notText
  | notNames
  | refused (complaint : String)
  | frozen
  | notTruth
  | unreadableTruth
  | notInt
  | unreadableInt
  | oversizedInt
  | fractionalInt
  deriving DecidableEq

namespace FaultKind

/-- The name of a kind of fault for programs. -/
def code : FaultKind → String
  | notAContext => "model_type"
  | notText => "string_type"
  | notNames => "frozen_set_type"
  | refused _ => "value_error"
  | frozen => "frozen_instance"
  | notTruth => "bool_type"
  | unreadableTruth => "bool_parsing"
  | notInt => "int_type"
  | unreadableInt => "int_parsing"
  | oversizedInt => "int_parsing_size"
  | fractionalInt => "int_from_float"

def message : FaultKind → String
  | notAContext => "Input should be a valid dictionary or instance of Context"
  | notText => "Input should be a valid string"
  | notNames => "Input should be a valid frozenset"
  | refused complaint => "Value error, " ++ complaint
  | frozen => "Instance is frozen"
  | notTruth => "Input should be a valid boolean"
  | unreadableTruth => "Input should be a valid boolean, unable to interpret input"
  | notInt => "Input should be a valid integer"
  | unreadableInt => "Input should be a valid integer, unable to parse string as an integer"
  | oversizedInt => "Unable to parse input string as an integer, exceeded maximum size"
  | fractionalInt => "Input should be a valid integer, got a number with a fractional part"

end FaultKind

structure Fault where
  place : List Place
  kind : FaultKind
  deriving DecidableEq

end TermReader
