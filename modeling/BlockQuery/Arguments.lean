/-
  The arguments of the command line.

  The first argument that is no option is the query, the second the file with the document.  Options
  may stand anywhere in front of a `--`; short ones may share a dash, and a value may stand behind
  its option with or without `=`, or in the next argument.

  Reading goes in two steps.  An argument is first split into words without regard to what came
  before it, and a word then changes the progress of the reading, which knows whether an option is
  waiting for its value and whether options are over.

  Reading goes in two steps.  An argument is split into words by its own characters alone, and a
  word then changes the progress of the reading, which knows whether an option is waiting for its
  value and whether options are over; in either of these cases the argument is taken as it stands.
-/
import BlockQuery.Command

namespace BlockQuery

/-- The arguments of a run. -/
structure Arguments where
  query : Option String := none
  file : Option String := none
  exitStatus : Bool := false
  rawOutput : Bool := false
  output : OutputFormat := .block
  json : Bool := false
  indent : Nat := Block.defaultStep
  strict : Bool := false
  nestedHas : Bool := false
  syntaxOnly : Bool := false
deriving DecidableEq, Repr

/-- What the arguments ask for. -/
inductive Request where
  | run (arguments : Arguments)
  | help
  | version
deriving DecidableEq, Repr

namespace Arguments

/-! ## Setting one argument -/

/-! ## Setting one argument -/

/-- The options that stand alone. -/
def setFlag? (a : Arguments) : String → Option Arguments
  | "exit-status" => some { a with exitStatus := true }
  | "raw-output" => some { a with rawOutput := true }
  | "json" => some { a with json := true }
  | "strict" => some { a with strict := true }
  | "nested-has" => some { a with nestedHas := true }
  | "syntax-only" => some { a with syntaxOnly := true }
  | _ => none

/-- The long name of an option with one letter. -/
def longName? : Char → Option String
  | 'e' => some "exit-status"
  | 'r' => some "raw-output"
  | 'o' => some "output"
  | 'j' => some "json"
  | 'I' => some "indent"
  | 'h' => some "help"
  | 'V' => some "version"
  | _ => none

/-- Whether an option has a value. -/
def takesValue (name : String) : Bool :=
  name == "output" || name == "indent"

/-- Gives an option its value. -/
def setValue (a : Arguments) (name value : String) : Except String Arguments :=
  if name = "output" then
    match value with
    | "yaml" => .ok { a with output := .block }
    | "json" => .ok { a with output := .json }
    | _ => .error ("invalid value '" ++ value ++ "' for '--output'")
  else
    match value.toNat? with
    | some n => .ok { a with indent := n }
    | none => .error ("invalid value '" ++ value ++ "' for '--indent'")

/-- Takes an argument that is no option. -/
def setPositional (a : Arguments) (value : String) : Except String Arguments :=
  match a.query, a.file with
  | none, _ => .ok { a with query := some value }
  | some _, none => .ok { a with file := some value }
  | some _, some _ => .error ("unexpected argument '" ++ value ++ "'")

/-! ## Words -/

/-! ## Words -/

/-- What an argument says, before options get their values. -/
inductive Word where
  | positional (value : String)
  | option (name : String) (value : Option String)
  | endOfOptions
deriving DecidableEq, Repr

/-- The options that letters behind one dash are.  What stands behind a letter with a value is the
    value. -/
def shortWords : List Char → Except String (List Word)
  | [] => .ok []
  | c :: cs =>
      match longName? c with
      | none => .error ("unexpected argument '-" ++ String.ofList [c] ++ "'")
      | some name =>
          if takesValue name then
            let value :=
              match cs with
              | '=' :: cs => cs
              | cs => cs
            .ok [.option name (if cs.isEmpty then none else some (String.ofList value))]
          else (shortWords cs).map (.option name none :: ·)

/-- The words of an argument in front of `--`. -/
def words (argument : String) : Except String (List Word) :=
  match argument.toList with
  | ['-', '-'] => .ok [.endOfOptions]
  | '-' :: '-' :: cs =>
      let name := String.ofList (cs.takeWhile (· != '='))
      let value :=
        match cs.dropWhile (· != '=') with
        | [] => none
        | _ :: value => some (String.ofList value)
      .ok [.option name value]
  | '-' :: c :: cs => shortWords (c :: cs)
  | _ => .ok [.positional argument]

/-! ## Progress

  Help and version are remembered and the rest is read on, so an error behind them is still an
  error; the first of the two that was asked for wins. -/

/-! ## Progress

  Help and version are remembered and the rest is read on, so an error behind them is still an
  error; the first of the two that was asked for wins. -/

/-- What a run of words asks for; the last option may wait for a value. -/
structure Progress where
  arguments : Arguments
  waiting : Option String := none
  onlyPositional : Bool := false
  request : Option Request := none
deriving DecidableEq, Repr

/-- Takes one word. -/
def Progress.word (p : Progress) : Word → Except String Progress
  | .positional value => do return { p with arguments := ← p.arguments.setPositional value }
  | .endOfOptions => .ok { p with onlyPositional := true }
  | .option name value =>
      if name = "help" then .ok { p with request := p.request.or (some .help) }
      else if name = "version" then .ok { p with request := p.request.or (some .version) }
      else if takesValue name then
        match value with
        | none => .ok { p with waiting := some name }
        | some value => do return { p with arguments := ← p.arguments.setValue name value }
      else
        match value, p.arguments.setFlag? name with
        | none, some arguments => .ok { p with arguments := arguments }
        | _, _ => .error ("unexpected argument '--" ++ name ++ "'")

/-- Takes one argument. -/
def Progress.argument (p : Progress) (argument : String) : Except String Progress :=
  match p.waiting with
  | some name => do
      let arguments ← p.arguments.setValue name argument
      return { p with arguments := arguments, waiting := none }
  | none =>
      if p.onlyPositional then p.word (.positional argument)
      else do
        let ws ← words argument
        ws.foldlM Progress.word p

/-- What a command line asks for. -/
def read (arguments : List String) : Except String Request := do
  let p ← arguments.foldlM Progress.argument ⟨{}, none, false, none⟩
  match p.request, p.waiting, p.arguments.query with
  | some request, _, _ => return request
  | none, some name, _ => throw ("a value is required for '--" ++ name ++ "'")
  | none, none, none => throw "the following required arguments were not provided: <QUERY>"
  | none, none, some _ => return .run p.arguments

/-- The command that arguments describe, on the text of a document. -/
def command (a : Arguments) (input : Option String) : Command where
  query := a.query.getD "."
  input := input
  rendering := ⟨if a.json then .json else a.output, a.rawOutput, a.indent⟩
  exitOnNull := a.exitStatus
  compileOnly := a.syntaxOnly
  evaluation := ⟨a.strict, a.nestedHas⟩

end Arguments

end BlockQuery
