/-
  The command: a query on the text of a document, to the text of the results.

  A document is JSON when its text opens with a brace or a bracket, and block text otherwise.
  Results are written as block text, one after the other, with a `---` line between two when one of
  them takes lines of its own, or as JSON, one line for each.  The query is compiled before the
  document is looked at, so its faults are reported first.
-/
import BlockQuery.Block.Reader
import BlockQuery.Block.Writer
import BlockQuery.Json.Tree
import BlockQuery.Query.Cache

namespace BlockQuery

/-- How results are written. -/
inductive OutputFormat where
  | block
  | json
deriving DecidableEq, Repr

/-- How a stream of results is written. -/
structure RenderOptions where
  output : OutputFormat := .block
  /-- strings are written without quotes -/
  raw : Bool := false
  /-- the columns by which block text indents -/
  indent : Nat := Block.defaultStep
deriving DecidableEq, Repr

/-- One run of the command. -/
structure Command where
  query : String := "."
  /-- the text of the document, if there is any -/
  input : Option String := none
  rendering : RenderOptions := {}
  /-- a run without a result other than null has an exit code of its own -/
  exitOnNull : Bool := false
  /-- the query is compiled and nothing else -/
  compileOnly : Bool := false
  evaluation : EvalOptions := {}
deriving DecidableEq, Repr

/-- What a run gives. -/
inductive Outcome where
  | valid
  | results (rendered : String) (exitCode : Nat)
deriving DecidableEq, Repr

/-- The reasons why a run fails. -/
inductive CommandError where
  | query (e : SyntaxError)
  | evaluation (e : EvalError)
  | document (e : DocumentError)
  | malformedJson
  | numberRange (n : JsonNumber)
  | noInput
deriving Repr

/-- The wording of a reason. -/
def CommandError.message : CommandError → String
  | query e => "syntax error: " ++ e.message
  | evaluation e => "evaluation error: " ++ e.message
  | document e => "invalid document: " ++ e.message
  | malformedJson => "invalid JSON"
  | numberRange n => "invalid JSON: number " ++ String.ofList n.chars ++ " is out of range"
  | noInput => "no input provided; pass a FILE or pipe a document to stdin"

namespace Command

/-! ## Reading

  The format of a document is not told but seen: a text is JSON when its first character that is no
  blank opens a container.  A scalar is therefore always read as block text. -/

/-- Whether a text is taken as JSON. -/
def looksLikeJson (cs : List Char) : Bool :=
  (Text.trimStart cs).head?.any fun c => c == '\x7b' || c == '['

/-- The document of a text that is taken as JSON. -/
def readJson (cs : List Char) : Except CommandError Value :=
  match Json.ofChars? cs with
  | none => .error .malformedJson
  | some j => j.toValue.mapError .numberRange

/-- The document that a text holds. -/
def readDocument (text : String) : Except CommandError Value :=
  if looksLikeJson text.toList then readJson text.toList
  else (Block.read text).mapError .document

/-! ## Rendering

  Results are joined by what stands between two neighbours, which in block text depends on both: a
  value that takes lines of its own is set apart by a marker line. -/

/-- One result. -/
def renderValue (options : RenderOptions) (v : Value) : List Char :=
  match v, options.output with
  | .string s, .block => if options.raw then s.toList else Block.chars options.indent v
  | .string s, .json => if options.raw then s.toList else v.jsonChars
  | v, .block => Block.chars options.indent v
  | v, .json => v.jsonChars

/-- What stands between two results. -/
def separator (options : RenderOptions) (v w : Value) : List Char :=
  match options.output with
  | .json => ['\n']
  | .block => if v.isBlock || w.isBlock then '\n' :: (Block.marker ++ ['\n']) else ['\n']

/-- The text of a stream of results as characters. -/
def renderChars (options : RenderOptions) : List Value → List Char
  | [] => []
  | v :: vs =>
      renderValue options v ++
        match vs with
        | [] => []
        | w :: _ => separator options v w ++ renderChars options vs

/-- The text of a stream of results. -/
def render (options : RenderOptions) (vs : List Value) : String :=
  String.ofList (renderChars options vs)

/-! ## Running

  The query is compiled before the document is looked at, and a check of the syntax alone needs no
  document. -/

/-- The exit code of a run without a result other than null, where that counts. -/
def nullExitCode : Nat := 5

/-- The exit code of a run that fails. -/
def failureExitCode : Nat := 1

/-- Runs a command. -/
def run (c : Command) : Except CommandError Outcome := do
  let query ← (Query.compile c.query).mapError .query
  if c.compileOnly then return .valid
  match c.input with
  | none => throw .noInput
  | some text =>
      let document ← readDocument text
      let results ← (query.run c.evaluation document).mapError .evaluation
      let exitCode := if c.exitOnNull && results.all Value.isNull then nullExitCode else 0
      return .results (render c.rendering results) exitCode

end Command

end BlockQuery
