import TermReader.Log.Record
import TermReader.Settings.Basic
import TermReader.Data.Problem

/-!
Which records are written, and how. The level comes from a name, which does not
depend on case; names that are not known mean warnings, and a few are reserved.
Records below the level are dropped.
-/

namespace TermReader.Log

/-- The names that set a level. -/
def levelNames : List (String × Int) :=
  [("DEBUG", 10), ("INFO", 20), ("WARN", 30), ("WARNING", 30), ("ERROR", 40), ("CRITICAL", 50),
    ("FATAL", 50), ("NOTSET", 0)]

/-- Names that are reserved for something else than a level. -/
def reserved : List (String × Problem) :=
  [("BASIC_FORMAT",
      .foreign "ValueError" "Unknown level: '%(levelname)s:%(name)s:%(message)s'"),
    ("_STYLES",
      .foreign "TypeError"
        ("Level not an integer or a valid string: \x7b'%': (<class 'logging.PercentStyle'>, "
          ++ "'%(levelname)s:%(name)s:%(message)s'), '\x7b': (<class 'logging.StrFormatStyle'>, "
          ++ "'\x7blevelname\x7d:\x7bname\x7d:\x7bmessage\x7d'), "
          ++ "'$': (<class 'logging.StringTemplateStyle'>, "
          ++ "'$\x7blevelname\x7d:$\x7bname\x7d:$\x7bmessage\x7d')\x7d"))]

/-- The capitals of a letter, where these are ASCII letters. Two ligatures have
two of them. -/
def capital (c : Char) : List Char :=
  if c = '\u0131' then ['I']
  else if c = '\u017f' then ['S']
  else if c = '\ufb05' ∨ c = '\ufb06' then ['S', 'T']
  else [c.toUpper]

def capitals (text : String) : String := String.ofList (text.toList.flatMap capital)

inductive Format
  | text
  | json
  deriving DecidableEq

def Format.ofName (name : String) : Format := if name = "json" then .json else .text

structure Setup where
  level : Int
  format : Format
  deriving DecidableEq

namespace Setup

/-- The set-up that settings ask for. A reserved name for the level is a
problem. -/
def ofSettings (settings : Settings) : Except Problem Setup :=
  let name := capitals settings.logLevel
  match reserved.lookup name with
  | some problem => .error problem
  | none => .ok ⟨(levelNames.lookup name).getD Level.warning, Format.ofName settings.logFormat⟩

/-- Where no level is set, warnings and what is worse are written. -/
def writes (setup : Setup) (r : Record) : Bool :=
  (if setup.level = 0 then Level.warning else setup.level) ≤ r.level

def line (setup : Setup) (time : String) (r : Record) : String :=
  match setup.format with
  | .text => r.textLine
  | .json => r.jsonLine time

/-- The lines that are written for records. -/
def lines (setup : Setup) (time : String) (records : List Record) : List String :=
  (records.filter setup.writes).map (setup.line time)

end Setup

end TermReader.Log
