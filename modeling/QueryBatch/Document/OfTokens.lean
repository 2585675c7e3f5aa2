import QueryBatch.Document.Literal
import QueryBatch.Document.Production
import QueryBatch.Document.Variables

/-!
# The document of a sequence of tokens

One production for each phrase of the language. Fragments are reported and skipped, and so are
directives on an operation.
-/

namespace QueryBatch

namespace Production

/-- Whether a kind is a given punctuator. -/
def isMark (mark : Punctuator) (kind : Kind) : Bool := kind == .punctuator mark

/-! ## Groups in braces -/

/-- Leaves out the tokens up to the brace that closes the current group, inside which `depth`
further groups are open. -/
def closeBraces : Nat → List Token → List Token
  | _, [] => []
  | depth, t :: ts =>
    if t.kind = .punctuator .braceOpen then closeBraces (depth + 1) ts
    else if t.kind = .punctuator .braceClose then
      match depth with
      | 0 => ts
      | depth + 1 => closeBraces depth ts
    else closeBraces depth ts

/-- Leaves out one group in braces, if the tokens start with one. -/
def skipBraces : List Token → List Token
  | [] => []
  | t :: ts => if t.kind = .punctuator .braceOpen then closeBraces 0 ts else t :: ts

/-- Leaves out the tokens up to the end of the next group in braces. -/
def skipDefinition (ts : List Token) : List Token :=
  skipBraces (ts.dropWhile fun t => t.kind != .punctuator .braceOpen)

/-! ## Types -/

/-- A name or a list type, and a mark that excludes null. -/
def typeWithin : Nat → Production TypeRef
  | 0 => pure (.named "")
  | depth + 1 => do
    let inner ←
      if (← peek) = .punctuator .bracketOpen then do
        advance
        let element ← typeWithin depth
        expect (.punctuator .bracketClose)
        pure (.list element)
      else do
        pure (.named (← name))
    if (← peek) = .punctuator .bang then do
      advance
      pure (.nonNull inner)
    else pure inner

def type : Production TypeRef := nested typeWithin

/-! ## Values -/

/-- A name, a colon and a value. -/
def entry (value : Production Value) : Production (String × Value) := do
  let key ← name
  expect (.punctuator .colon)
  return (key, ← value)

/-- A value, which in a `constant` place must not be a variable. -/
def valueWithin (constant : Bool) : Nat → Production Value
  | 0 => pure .null
  | depth + 1 => do
    match ← current with
    | none => expected "a value" *> pure .null
    | some t =>
      match Literal.ofToken? t with
      | some literal => reportHere literal.issues *> advance *> pure literal.value
      | none =>
        match t.kind with
        | .punctuator .dollar => do
          advance
          let variableName ← name
          if constant then report (.variableInConstant variableName) (some t.span)
          pure (.var variableName)
        | .punctuator .bracketOpen => do
          advance
          let items ← many (isMark .bracketClose) (valueWithin constant depth)
          expect (.punctuator .bracketClose)
          pure (.list items)
        | .punctuator .braceOpen => do
          advance
          let entries ← many (isMark .braceClose) (entry (valueWithin constant depth))
          expect (.punctuator .braceClose)
          pure (.object entries)
        | kind =>
          if kind.isName then advance *> pure (.enum t.text)
          else expected "a value" *> advance *> pure .null

def value (constant : Bool) : Production Value := nested (valueWithin constant)

def argument : Production Argument := do
  let (key, value) ← entry (value false)
  pure ⟨key, value⟩

/-- Arguments in parentheses, or nothing. -/
def arguments : Production (List Argument) := do
  if (← peek) = .punctuator .parenOpen then do
    advance
    let args ← many (isMark .parenClose) argument
    expect (.punctuator .parenClose)
    pure args
  else pure []

def directive : Production Directive := do
  advance
  let directiveName ← name
  return ⟨directiveName, ← arguments⟩

/-- The directives up to the first token that starts none. -/
def directives : Production (List Directive) := many (fun kind => !isMark .at kind) directive

/-! ## Selections -/

/-- A field, whose selection is read by `selection`. -/
def field (selection : Production (List Field)) : Production Field := do
  let first ← name
  let (alias?, fieldName) ←
    if (← peek) = .punctuator .colon then do
      advance
      pure (some first, ← name)
    else pure (none, first)
  let args ← arguments
  let dirs ← directives
  let fields ←
    if (← peek) = .punctuator .braceOpen then some <$> selection else pure none
  pure ⟨alias?, fieldName, args, dirs, fields⟩

/-- Steps over a fragment selection: a spread, or an inline fragment with its group. -/
def skipFragmentSelection : Production Unit := do
  advance
  let kind ← peek
  if kind = .keyword .on then advance *> discard name
  else if kind.isName then advance
  let _ ← directives
  skip skipBraces

/-- Reads a field behind those that were kept, or reports a fragment selection and skips it. -/
def selectionStep (selection : Production (List Field)) (kept : List Field) :
    Production (List Field) := do
  if (← peek) = .punctuator .spread then do
    reportHere [.fragmentSelection]
    skipFragmentSelection
    pure kept
  else return kept ++ [← field selection]

/-- Fields in braces, of which there must be one. -/
def selectionWithin : Nat → Production (List Field)
  | 0 => pure []
  | depth + 1 => do
    if (← peek) = .punctuator .braceOpen then do
      advance
      let fields ← iterate (isMark .braceClose) (selectionStep (selectionWithin depth)) []
      expect (.punctuator .braceClose)
      if fields.isEmpty then reportHere [.emptySelection]
      pure fields
    else expected Punctuator.braceOpen.text *> pure []

def selection : Production (List Field) := nested selectionWithin

/-! ## Operations -/

/-- A variable with its type and, after an equals sign, its default. -/
def variableDefinition : Production VariableDefinition := do
  expect (.punctuator .dollar)
  let variableName ← name
  expect (.punctuator .colon)
  let variableType ← type
  let default ←
    if (← peek) = .punctuator .equals then advance *> some <$> value true else pure none
  pure ⟨variableName, variableType, default⟩

/-- Reads a definition behind those that were kept, unless it repeats the name of one. -/
def variableStep (kept : List VariableDefinition) : Production (List VariableDefinition) := do
  let start ← here
  let v ← variableDefinition
  if kept.any (·.name == v.name) then report (.duplicateVariable v.name) start *> pure kept
  else pure (kept ++ [v])

/-- Definitions in parentheses, or nothing. -/
def variableDefinitions : Production (List VariableDefinition) := do
  if (← peek) = .punctuator .parenOpen then do
    advance
    let definitions ← iterate (isMark .parenClose) variableStep []
    expect (.punctuator .parenClose)
    pure definitions
  else pure []

/-- Reads the directives of an operation and reports where they start. -/
def operationDirectives : Production Unit := do
  if (← peek) = .punctuator .at then do
    let start ← here
    let _ ← directives
    report .operationDirectives start

/-- The kind of operation that a token starts. -/
def operationKind : Kind → OperationKind
  | .keyword .mutation => .mutation
  | .keyword .subscription => .subscription
  | _ => .query

/-- A name, if one follows. -/
def optionalName : Production (Option String) := do
  if (← peek).isName then some <$> name else pure none

/-- A selection, which is a query, or a keyword, a name, variables and a selection. -/
def plainOperation : Production Operation := do
  let start ← peek
  if start = .punctuator .braceOpen then return ⟨.query, none, [], ← selection⟩
  else do
    advance
    let operationName ← optionalName
    let definitions ← variableDefinitions
    operationDirectives
    return ⟨operationKind start, operationName, definitions, ← selection⟩

/-- An operation, after which its undeclared variables are reported. -/
def operation : Production Operation := do
  let op ← plainOperation
  reportHere (op.undeclared.map .undeclaredVariable)
  pure op

/-- Whether an operation starts with a token of this kind. -/
def startsOperation (kind : Kind) : Bool :=
  kind == .keyword .query || kind == .keyword .mutation || kind == .keyword .subscription ||
    kind == .punctuator .braceOpen

/-- Reads an operation behind those that were kept, or skips what is none. -/
def definitionStep (kept : List Operation) : Production (List Operation) := do
  let start ← peek
  if startsOperation start then return kept ++ [← operation]
  else if start = .keyword .fragment then do
    reportHere [.fragmentDefinition]
    skip skipDefinition
    pure kept
  else do
    expected "an operation"
    advance
    pure kept

/-- The operations up to the end of the tokens. -/
def document : Production Document := do
  return ⟨← iterate (fun _ => false) definitionStep []⟩

end Production

namespace Document

/-- Reads all tokens. -/
def ofTokens (ts : List Token) : Reading Document := Production.document ts

end Document

end QueryBatch
