import TermReader.Expression
import TermReader.Grammar.Descent

/-!
A session reads expressions one after another. It owns the token list of the
expression parsed last, and keeps the position and the token that parsing it
has come to. Other lists are handed out, and whoever gets one may change it.
-/

namespace TermReader

/-- A session, and all token lists that have been made in it. Lists are known by
their places in the order in which they were made. -/
structure Session (ρ : Type) where
  context : Context
  random : ρ
  splits : Bool
  lists : List (List Token)
  own : Nat
  handedOut : List Nat
  position : Nat
  lookahead : Token

namespace Session

variable {ρ σ τ : Type}

/-- A session that has not parsed anything owns an empty list. -/
def start (context : Context) (random : ρ) (splits : Bool) : Session ρ :=
  ⟨context, random, splits, [[]], 0, [], 0, Token.endMark⟩

/-- The tokens in the list that the session owns. -/
def tokens (session : Session ρ) : List Token := session.lists.getD session.own []

/-- The stream that the session reads. -/
def stream (session : Session ρ) : TokenStream :=
  ⟨session.tokens, session.position, session.lookahead⟩

/-- Makes a list and hands it out. -/
def handOut (session : Session ρ) (tokens : List Token) : Session ρ :=
  { session with
    lists := session.lists ++ [tokens]
    handedOut := session.handedOut ++ [session.lists.length] }

/-- Makes a list that the session owns from then on, and starts at its first
token. The token in sight is not looked at. -/
def receive (session : Session ρ) (tokens : List Token) : Session ρ :=
  { session with
    lists := session.lists ++ [tokens]
    own := session.lists.length
    position := 0 }

/-- Hands out a copy of the list that the session owns. -/
def handOutCopy (session : Session ρ) : Session ρ := session.handOut session.tokens

/-- Appends a token to one of the lists that have been handed out. -/
def append (session : Session ρ) (which : Nat) (token : Token) : Session ρ :=
  match session.handedOut[which]? with
  | some place => { session with lists := session.lists.modify place (· ++ [token]) }
  | none => session

variable (chooser : Chooser ρ)

/-- An expression made ready in the session. Only the random source moves on. -/
def prepare (session : Session ρ) (source : String) (splits : Option Bool) :
    Prepared × Session ρ :=
  let (prepared, random) :=
    Expression.prepare session.context (splits.getD session.splits) chooser source session.random
  (prepared, { session with random })

/-- Prepares an expression without reading it, and hands out its tokens. -/
def tokenize (session : Session ρ) (source : String) (splits : Option Bool) :
    Prepared × Session ρ :=
  let (prepared, session) := session.prepare chooser source splits
  (prepared, session.handOut prepared.tokens)

/-- What parsing an expression yields. -/
structure Reply (σ τ : Type) where
  prepared : Prepared
  result : EStateM.Result Stop σ τ

/-- Why the expression was rejected, if it was. -/
def Reply.rejection? (reply : Reply σ τ) : Option Rejection :=
  match reply.result with
  | .error (.failed (.rejected rejection)) _ => some rejection
  | _ => none

/-- Parses an expression, with room for so many calls within one another. Its
tokens are kept whether or not it could be read, and so is the place where
reading has stopped. -/
def parse (session : Session ρ) (b : Builder σ τ) (room : Nat) (source : String)
    (splits : Option Bool) (state : σ) : Reply σ τ × Session ρ :=
  let (prepared, session) := session.prepare chooser source splits
  let session := session.receive prepared.tokens
  let run := Grammar.descend session.context b room (session.stream, state)
  let left := Descent.streamLeft run
  (⟨prepared, Descent.outcome run⟩,
    { session with position := left.position, lookahead := left.lookahead })

end Session

end TermReader
