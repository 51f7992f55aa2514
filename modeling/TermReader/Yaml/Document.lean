import TermReader.Yaml.Plain
import TermReader.Yaml.Quoted

/-!
A document is one value. In block style the columns of lines nest values, in
flow style brackets do. A word followed by a colon is a key where a key may
start: at the start of a line, or right after a dash; it stands on one line.
Block scalars, marked keys and merged objects are no part of this; texts with
them count as malformed.
-/

namespace TermReader.Yaml

/-- The characters that mark structure and do not start a plain scalar. -/
def indicators : List Char :=
  ['-', '?', ':', ',', '[', ']', '{', '}', '#', '&', '*', '!', '|', '>', '\'', '"', '%', '@',
    '\x60']

def isFlowEnd (c : Char) : Bool := [',', '[', ']', '{', '}'].contains c

/-- Whether a plain scalar may start with the characters. -/
def startsPlain (inFlow : Bool) : List Char → Bool
  | [] => false
  | c :: rest =>
    if isBlank c then false
    else if !indicators.contains c then true
    else !startsBlank rest && (c == '-' || (!inFlow && (c == '?' || c == ':')))

/-- The length of the word that starts a plain scalar or goes on with it. -/
def plainLength (inFlow : Bool) : List Char → Nat
  | [] => 0
  | c :: rest =>
    if isBlank c then 0
    else if c == ':' && (startsBlank rest || (inFlow && rest.head?.any isFlowEnd)) then 0
    else if inFlow && (isFlowEnd c || c == '?') then 0
    else plainLength inFlow rest + 1

def isSpace (c : Char) : Bool := c == ' '

/-- The breaks after a first one, with spaces around them. Nothing when a marker
of a document comes among them. -/
def plainBreaks : Nat → List Char → Scan (Option (List Char))
  | 0, _ => malformed
  | fuel + 1, breaks => do
    if !(← get).rest.isEmpty && (← get).atBoundary then return none
    let _ ← takeAll isSpace
    match ← peek with
    | some c =>
      if isBreak c then
        advance
        plainBreaks fuel (breaks ++ [if c = '\x85' then '\n' else c])
      else return some breaks
    | none => return some breaks

/-- What a stretch of blanks inside a plain scalar stands for, if it may go on
after them. -/
def plainBlanks : Scan (Option (List Char)) := do
  let spaces ← takeAll isSpace
  match ← peek with
  | none => return none
  | some c =>
    if isBreak c then
      advance
      match ← plainBreaks ((← get).rest.length + 1) [] with
      | none => return none
      | some breaks =>
        if c != '\n' && c != '\x85' then return some (c :: breaks)
        else if breaks.isEmpty then return some [' ']
        else return some breaks
    else return if spaces.isEmpty then none else some spaces

/-- A plain scalar; its later lines stand further right than the surrounding
block. -/
def plainScalar (inFlow : Bool) (parent : Int) : Nat → List Char → Scan (List Char)
  | 0, _ => malformed
  | fuel + 1, text => do
    let word ← take (plainLength inFlow (← get).rest)
    if word.isEmpty then return text
    let text := text ++ word
    match ← plainBlanks with
    | none => return text
    | some blanks =>
      let i ← get
      if i.rest.head? = some '#' ∨ i.rest.isEmpty ∨ (!inFlow ∧ (i.column : Int) ≤ parent) then
        return text
      else if plainLength inFlow i.rest = 0 then return text
      else plainScalar inFlow parent fuel (text ++ blanks)

def isNameChar (c : Char) : Bool := c.isAlphanum || c == '-' || c == '_'

/-- A name after the mark of an anchor or of an alias. -/
def anchorName : Scan String := do
  advance
  let name ← takeAll isNameChar
  demand (!name.isEmpty)
  let rest := (← get).rest
  demand (startsBlank rest || rest.head?.any ['?', ':', ',', ']', '}', '%', '@', '\x60'].contains)
  return String.ofList name

/-- What an alias stands for. -/
def aliased : Scan Value := do
  let name ← anchorName
  match (← get).named.lookup name with
  | some v => return v
  | none => malformed

/-- A name is given once. -/
def nameValue (name : String) (v : Value) : Scan Unit := do
  demand ((← get).named.lookup name).isNone
  modify fun i => { i with named := (name, v) :: i.named }

/-- Marks before a value: a name, and that the value is text. -/
structure Marks where
  name : Option String
  asText : Bool

/-- Reads the marks that stand on one line. -/
def marks : Nat → Marks → Scan Marks
  | 0, _ => malformed
  | fuel + 1, m => do
    match ← peek with
    | some '&' =>
      demand m.name.isNone
      let name ← anchorName
      let _ ← takeAll isSpace
      marks fuel { m with name := some name }
    | some '!' =>
      let tag ← takeAll fun c => !isBlank c && !isFlowEnd c
      demand (tag == ['!'] || tag == ['!', '!', 's', 't', 'r'])
      let _ ← takeAll isSpace
      marks fuel { m with asText := true }
    | _ => return m

/-- Applies marks to a value whose spelling may be known. -/
def Marks.apply (m : Marks) (spelling : Option (List Char)) (v : Value) : Scan Value := do
  let v ←
    if m.asText then
      match spelling with
      | some cs => pure (Value.text (String.ofList cs))
      | none => malformed
    else pure v
  match m.name with
  | some name =>
    nameValue name v
    return v
  | none => return v

/-- The entry of an object for a key. Only texts name fields; a collection is no
key, and keys of other kinds are passed over. -/
def keyed (key value : Value) : Option (List (String × Value)) :=
  match key with
  | .text name => some [(name, value)]
  | .list _ | .object _ => none
  | _ => some []

def entry (key value : Value) : Scan (List (String × Value)) := fun i =>
  (keyed key value).map fun fields => (fields, i)

/-- Whether a key from the start to the present place is one line and not longer
than keys may be. -/
def isKey (start now : Input) : Bool :=
  start.line == now.line && start.rest.length - now.rest.length ≤ 1024

mutual

/-- A value in flow style. -/
def flowNode (parent : Int) : Nat → Scan Value
  | 0 => malformed
  | fuel + 1 => do
    skipGap
    let m ← marks (fuel + 1) ⟨none, false⟩
    skipGap
    inlineNode true parent m fuel

/-- A value that is not in block style. -/
def inlineNode (inFlow : Bool) (parent : Int) (m : Marks) : Nat → Scan Value
  | 0 => malformed
  | fuel + 1 => do
    match ← peek with
    | some '*' =>
      demand (m.name.isNone && !m.asText)
      aliased
    | some '[' =>
      advance
      m.apply none (.list (← flowItems parent fuel []))
    | some '{' =>
      advance
      m.apply none (.object (← flowFields parent fuel []))
    | some '\'' =>
      let cs ← quotedScalar '\''
      m.apply (some cs) (.text (String.ofList cs))
    | some '"' =>
      let cs ← quotedScalar '"'
      m.apply (some cs) (.text (String.ofList cs))
    | _ =>
      demand (startsPlain inFlow (← get).rest)
      let cs ← plainScalar inFlow parent (fuel + 1) []
      if m.asText then m.apply (some cs) .null
      else
        match plainValue cs with
        | some v => m.apply (some cs) v
        | none => malformed

/-- A key, and the value after a colon, in flow style. -/
def flowPair (parent : Int) : Nat → Scan (Value × Option Value)
  | 0 => malformed
  | fuel + 1 => do
    skipGap
    let start ← get
    let key ← flowNode parent fuel
    let keyEnd ← get
    skipGap
    if (← peek) = some ':' then
      let now ← get
      demand (start.line == now.line && isKey start keyEnd)
      advance
      skipGap
      match ← peek with
      | some ',' | some ']' | some '}' => return (key, some .null)
      | _ => return (key, some (← flowNode parent fuel))
    else return (key, none)

/-- The items of a list up to its closing bracket. -/
def flowItems (parent : Int) : Nat → List Value → Scan (List Value)
  | 0, _ => malformed
  | fuel + 1, items => do
    skipGap
    if (← peek) = some ']' then
      advance
      return items
    else
      let (key, value) ← flowPair parent fuel
      let item ←
        match value with
        | some v => pure (Value.object (← entry key v))
        | none => pure key
      skipGap
      match ← peek with
      | some ',' =>
        advance
        flowItems parent fuel (items ++ [item])
      | some ']' =>
        advance
        return items ++ [item]
      | _ => malformed

/-- The fields of an object up to its closing brace. -/
def flowFields (parent : Int) : Nat → List (String × Value) → Scan (List (String × Value))
  | 0, _ => malformed
  | fuel + 1, fields => do
    skipGap
    if (← peek) = some '}' then
      advance
      return fields
    else
      let (key, value) ← flowPair parent fuel
      let fields := fields ++ (← entry key (value.getD .null))
      skipGap
      match ← peek with
      | some ',' =>
        advance
        flowFields parent fuel fields
      | some '}' =>
        advance
        return fields
      | _ => malformed

end

/-- Whether a dash that starts an item comes next. -/
def Input.atItem (i : Input) : Bool :=
  i.rest.head? == some '-' && startsBlank (i.rest.drop 1)

/-- Whether a colon that ends a key comes next. -/
def Input.atColon (i : Input) : Bool :=
  i.rest.head? == some ':' && startsBlank (i.rest.drop 1)

mutual

/-- A value in block style. It stands further right than the block around it,
save that the items of a list may stand below their key. A key may start only at
a fresh place. -/
def blockNode (parent : Int) (fresh ofKey : Bool) : Nat → Scan Value
  | 0 => malformed
  | fuel + 1 => do
    let before ← get
    skipGap
    let i ← get
    let fresh := fresh || before.line != i.line
    if i.atBoundary then return .null
    else if (i.column : Int) ≤ parent then
      if ofKey && fresh && (i.column : Int) = parent && i.atItem then
        return .list (← blockItems true i.column fuel [])
      else return .null
    else if i.atItem then
      demand fresh
      return .list (← blockItems false i.column fuel [])
    else
      let m ← marks (fuel + 1) ⟨none, false⟩
      let marked ← get
      skipGap
      let j ← get
      if marked.rest.length != i.rest.length && (j.line != marked.line || j.atBoundary) then
        demand !m.asText
        m.apply none (← blockNode parent true ofKey fuel)
      else blockInline parent fresh i m fuel

/-- A value that starts in the middle of a line, and the object whose first key
it may be. -/
def blockInline (parent : Int) (fresh : Bool) (start : Input) (m : Marks) : Nat → Scan Value
  | 0 => malformed
  | fuel + 1 => do
    let v ← inlineNode false parent m fuel
    let keyEnd ← get
    skipGap
    let now ← get
    if now.atColon then
      demand (fresh && start.line == now.line && isKey start keyEnd)
      return .object (← blockFields start.column v fuel [])
    else return v

/-- The items of a list in one column. -/
def blockItems (ofKey : Bool) (column : Nat) : Nat → List Value → Scan (List Value)
  | 0, _ => malformed
  | fuel + 1, items => do
    advance
    let v ← blockNode column true false fuel
    let items := items ++ [v]
    skipGap
    let i ← get
    if i.atBoundary || i.column < column then return items
    else if i.column = column && i.atItem then blockItems ofKey column fuel items
    else if i.column = column && ofKey then return items
    else malformed

/-- The fields of an object in one column, from the colon after a first key on. -/
def blockFields (column : Nat) (key : Value) : Nat → List (String × Value) →
    Scan (List (String × Value))
  | 0, _ => malformed
  | fuel + 1, fields => do
    advance
    let v ← blockNode column false true fuel
    let fields := fields ++ (← entry key v)
    skipGap
    let i ← get
    if i.atBoundary || i.column < column then return fields
    else
      demand (i.column == column && !i.atItem)
      let m ← marks (fuel + 1) ⟨none, false⟩
      let key ← inlineNode false column m fuel
      let keyEnd ← get
      skipGap
      let now ← get
      demand (now.atColon && i.line == now.line && isKey i keyEnd)
      blockFields column key fuel fields

end

/-- Directives stand on lines of their own before the first marker. -/
def directives : Nat → Bool → Scan Bool
  | 0, _ => malformed
  | fuel + 1, seen => do
    skipGap
    let i ← get
    if i.column = 0 ∧ i.rest.head? = some '%' then
      let _ ← takeAll fun c => !isBreak c
      directives fuel true
    else return seen

/-- Passes over closing markers; nothing else may follow. -/
def closing : Nat → Scan Unit
  | 0 => malformed
  | fuel + 1 => do
    skipGap
    let i ← get
    if i.rest.isEmpty then return ()
    else
      demand (i.column == 0 && isMarker '.' i.rest)
      let _ ← take 3
      closing fuel

/-- A single document. Without an opening marker a closing one has nothing to
close. -/
def document : Scan Value := do
  let fuel := 8 * ((← get).rest.length + 8)
  let declared ← directives fuel false
  let i ← get
  let marked := i.column == 0 && isMarker '-' i.rest
  demand (marked || !(declared || (i.column == 0 && isMarker '.' i.rest)))
  if marked then
    let _ ← take 3
  let v ← blockNode (-1) (!marked) false fuel
  closing fuel
  return v

/-- The value of a text, or nothing when the text is malformed. -/
def read? (text : String) : Option Value :=
  let chars := text.toList
  let chars := if chars.head? = some '\ufeff' then chars.tail else chars
  if chars.all isAllowed then (document.run (Input.ofText chars)).map (·.1) else none

end TermReader.Yaml
