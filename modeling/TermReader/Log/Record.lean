import TermReader.Data.OneLine

/-!
A log record is a message of some level from a named source. It may carry
fields about the expression at hand, and the text of a problem. Both ways to
format a record put it on one line, but for the problem in plain text.
-/

namespace TermReader.Log

namespace Level

def debug : Int := 10

def info : Int := 20

def warning : Int := 30

/-- The names of the levels. -/
def names : List (Int × String) :=
  [(0, "NOTSET"), (10, "DEBUG"), (20, "INFO"), (30, "WARNING"), (40, "ERROR"), (50, "CRITICAL")]

def name (level : Int) : String :=
  match names.lookup level with
  | some name => name
  | none => "Level " ++ toString level

end Level

/-- What a record may say about the expression at hand. -/
inductive Field
  | expression
  | tokens
  | errorTag
  | position
  deriving DecidableEq

namespace Field

def all : List Field := [expression, tokens, errorTag, position]

def label : Field → String
  | expression => "expression"
  | tokens => "tokens"
  | errorTag => "error_tag"
  | position => "position"

end Field

structure Record where
  level : Int
  source : String
  message : String
  fields : Field → Option Value
  problem : Option String

namespace Record

/-- The fields that the record carries, in order. -/
def present (r : Record) : List (Field × Value) :=
  Field.all.filterMap fun f => (r.fields f).map fun v => (f, v)

/-- The kind of a problem, and its text unless that is empty. -/
def problemText (text : String) : String :=
  if text.isEmpty then "ValueError" else "ValueError: " ++ text

/-- A record in plain text. The expression comes last, in quotes. -/
def textLine (r : Record) : String :=
  let head := Level.name r.level ++ " " ++ r.source ++ ": " ++ r.message
  let body :=
    match r.problem with
    | some text =>
      (if head.toList.getLast? = some '\n' then head else head ++ "\n") ++ problemText text
    | none => head
  match r.fields .expression with
  | none | some .null => body
  | some v => body ++ " [expression=" ++ v.listing ++ "]"

/-- A record as a JSON object. -/
def jsonLine (time : String) (r : Record) : String :=
  let fields : List (String × Value) :=
    [("time", .text time), ("level", .text (Level.name r.level)), ("logger", .text r.source),
      ("message", .text r.message)]
      ++ r.present.map (fun (f, v) => (f.label, v))
      ++ (r.problem.map fun text => ("exception", Value.text (problemText text))).toList
  (Value.object fields).json

end Record

/-- Fills the places of a message with values: as shown, or as listed. There must
be as many values as places. -/
def fill? : List Char → List Value → Option (List Char)
  | '%' :: 's' :: rest, v :: vs => (fill? rest vs).map (v.shown.toList ++ ·)
  | '%' :: 'r' :: rest, v :: vs => (fill? rest vs).map (v.listing.toList ++ ·)
  | '%' :: 's' :: _, [] | '%' :: 'r' :: _, [] => none
  | '%' :: '%' :: rest, vs => (fill? rest vs).map ('%' :: ·)
  | c :: rest, vs => (fill? rest vs).map (c :: ·)
  | [], vs => if vs.isEmpty then some [] else none

/-- A message without values stands as it is. -/
def filled? (message : String) (values : List Value) : Option String :=
  if values.isEmpty then some message else (fill? message.toList values).map String.ofList

end TermReader.Log
