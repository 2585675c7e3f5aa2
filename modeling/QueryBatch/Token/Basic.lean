import QueryBatch.Source.Span

/-!
# Tokens of the query language

A token is a lexeme of the source with its kind and its place. Main statements:

* `Keyword.ofText?_eq_some_iff`: a word is a keyword exactly if it is that keyword's text;
* `Kind.isName_ofWord`: every word, keyword or not, may stand where a name is asked for.
-/

namespace QueryBatch

/-- The words that have a meaning of their own at some place. -/
inductive Keyword
  | query
  | mutation
  | subscription
  | fragment
  | on
  | trueWord
  | falseWord
  | nullWord
  deriving DecidableEq, Repr

namespace Keyword

def text : Keyword → String
  | query => "query"
  | mutation => "mutation"
  | subscription => "subscription"
  | fragment => "fragment"
  | on => "on"
  | trueWord => "true"
  | falseWord => "false"
  | nullWord => "null"

def all : List Keyword :=
  [query, mutation, subscription, fragment, on, trueWord, falseWord, nullWord]

def ofText? (word : String) : Option Keyword := all.find? (·.text == word)

theorem ofText?_eq_some_iff {word : String} {k : Keyword} :
    ofText? word = some k ↔ k.text = word := by
  constructor
  · intro h
    simpa using List.find?_some h
  · rintro rfl
    cases k <;> decide

end Keyword

/-- The punctuators. -/
inductive Punctuator
  | braceOpen
  | braceClose
  | parenOpen
  | parenClose
  | bracketOpen
  | bracketClose
  | colon
  | spread
  | equals
  | at
  | bang
  | dollar
  deriving DecidableEq, Repr

namespace Punctuator

def text : Punctuator → String
  | braceOpen => "\x7b"
  | braceClose => "\x7d"
  | parenOpen => "("
  | parenClose => ")"
  | bracketOpen => "["
  | bracketClose => "]"
  | colon => ":"
  | spread => "..."
  | equals => "="
  | .at => "@"
  | bang => "!"
  | dollar => "$"

/-- The punctuators that consist of one character. -/
def ofChar? : Char → Option Punctuator
  | '{' => some braceOpen
  | '}' => some braceClose
  | '(' => some parenOpen
  | ')' => some parenClose
  | '[' => some bracketOpen
  | ']' => some bracketClose
  | ':' => some colon
  | '=' => some equals
  | '@' => some .at
  | '!' => some bang
  | '$' => some dollar
  | _ => none

end Punctuator

/-- What a token is; `eof` is the end of the source, and `error` a lexeme that is no token of the
language. -/
inductive Kind
  | eof
  | error
  | name
  | int
  | float
  | string
  | blockString
  | keyword (word : Keyword)
  | punctuator (mark : Punctuator)
  deriving DecidableEq, Repr

namespace Kind

def text : Kind → String
  | eof => "<eof>"
  | error => "<error>"
  | name => "<name>"
  | int => "<int>"
  | float => "<float>"
  | string => "<string>"
  | blockString => "<block-string>"
  | keyword word => word.text
  | punctuator mark => mark.text

def isKeyword : Kind → Bool
  | keyword _ => true
  | _ => false

/-- Whether a token of this kind may stand where a name is asked for. -/
def isName : Kind → Bool
  | name | keyword _ => true
  | _ => false

/-- The kind of a word: its keyword, or a name. -/
def ofWord (word : String) : Kind :=
  match Keyword.ofText? word with
  | some k => keyword k
  | none => name

theorem isName_ofWord (word : String) : (ofWord word).isName = true := by
  unfold ofWord; split <;> rfl

end Kind

/-- A lexeme with its kind and the byte offset of its first character. `Bytes.ofToken` has the
places of a token with 32 bits. -/
structure Token where
  kind : Kind
  text : String
  start : Nat
  deriving DecidableEq, Repr

namespace Token

def span (t : Token) : Span := .ofLength t.start (Text.utf8Length t.text.toList)

def stop (t : Token) : Nat := t.span.stop

end Token

end QueryBatch
