/-
  The grammar of queries: expressions from lexemes.

      query       = [ "|" ] pipe
      pipe        = commas [ "|" pipe ]
      commas      = assignment { "," assignment }
      assignment  = alternative [ ( "=" | "|=" ) alternative ]
      alternative = comparison [ "//" alternative ]
      comparison  = sum [ ( "==" | "!=" | "<" | "<=" | ">" | ">=" ) sum ]
      sum         = product { ( "+" | "-" ) product }
      product     = operand { ( "*" | "/" ) operand }
      operand     = "-" operand | atom { step }
      step        = FIELD | [ "." ] "[" brackets
      brackets    = "]" | INTEGER "]" | [ INTEGER ] ":" [ INTEGER ] "]" | STRING "]"
      atom        = "." | "." "[" brackets | ".." | FIELD | NUMBER | STRING | BOOLEAN | "null"
                  | "(" pipe ")" | "[" [ pipe ] "]" | FUNCTION [ "(" pipe ")" ]

  One function for each rule reads what it derives off the front of the lexemes and returns the rest
  (`Taken`).  They end because every call takes lexemes away or goes one rule further down.  Where
  the lexemes run out, the query is at its end or at the fault that stopped the lexemes, and the
  fault is what is reported.
-/
import BlockQuery.Query.SyntaxError

namespace BlockQuery

namespace Grammar

/-! ## One lexeme

  A reader gets the lexemes that are left and the fault that stopped them, if there was one.  The
  fault is an error only when the reader comes to it: what stands in front of it is read as in any
  other query. -/

/-- The error at a place where something else was expected: the lexeme that stands there, the fault
    that stands there, or the end of the query. -/
def unexpected (fault : Option LexError) (ts : List Lexeme) (expected : Expectation) :
    SyntaxError :=
  match ts, fault with
  | t :: _, _ => .unexpectedToken t expected
  | [], some e => .lex e
  | [], none => .unexpectedEnd expected

/-- The next lexeme, if it is the token `t`. -/
def accept? (t : Token) (ts : List Lexeme) : Option (Taken Lexeme Unit ts.length) :=
  takeFirst? (fun l => if l.token = t then some () else none) ts

/-- The next lexeme, which has to be the token `t`. -/
def expect (fault : Option LexError) (t : Token) (ts : List Lexeme) :
    Except SyntaxError (Taken Lexeme Unit ts.length) :=
  match accept? t ts with
  | some a => .ok a
  | none => .error (unexpected fault ts (.token t))

/-- Fails if the next thing in the query is its fault.  A call that is wrong in itself is not
    reported before a fault that follows it. -/
def settle (fault : Option LexError) (ts : List Lexeme) : Except SyntaxError Unit :=
  match ts, fault with
  | [], some e => .error (.lex e)
  | _, _ => .ok ()

/-! ## Operators

  Each level with operators knows its signs by a function from tokens.  The trees are put together
  here as well, so that the readers below only read. -/

/-- The operators between sums. -/
def compareOp? : Token → Option CompareOp
  | .equal => some .equal
  | .notEqual => some .notEqual
  | .less => some .less
  | .greater => some .greater
  | .lessEqual => some .lessEqual
  | .greaterEqual => some .greaterEqual
  | _ => none

/-- The operators between products. -/
def sumOp? : Token → Option ArithOp
  | .plus => some .add
  | .minus => some .subtract
  | _ => none

/-- The operators between operands. -/
def productOp? : Token → Option ArithOp
  | .star => some .multiply
  | .slash => some .divide
  | _ => none

/-- The signs of an assignment. -/
def assignOp? : Token → Option AssignOp
  | .assign => some .store
  | .updateAssign => some .change
  | _ => none

/-- The next lexeme, if `f` knows it as an operator. -/
def operator? {α : Type} (f : Token → Option α) (ts : List Lexeme) :
    Option (Taken Lexeme α ts.length) :=
  takeFirst? (fun l => f l.token) ts

/-- The pipe from `left` to `right`; behind `..` it is one operation. -/
def pipeOf (left right : Expr) : Expr :=
  match left with
  | .recursiveDescent => .descendPipe right
  | left => .pipe left right

/-- The expression `left` with a step behind it; a step behind `.` stands for itself. -/
def stepOf (left step : Expr) : Expr :=
  match left with
  | .identity => step
  | left => .pipe left step

/-- Whether an expression is a text that stands in the query. -/
def isStringLiteral : Expr → Bool
  | .literal (.string _) => true
  | _ => false

/-- The sum of `first` and more operands.  It is a concatenation if only `+` stands in it and some
    operand is a string literal. -/
def sumOf (first : Expr) (more : List (ArithOp × Expr)) : Expr :=
  let operands := first :: more.map (·.2)
  if more.all (·.1 == .add) && operands.any isStringLiteral && !more.isEmpty then
    .concat operands
  else more.foldl (fun left m => .arithmetic m.1 left m.2) first

/-- An operand behind a minus sign: a number literal changes its sign, and anything else is taken
    from zero. -/
def negated : Expr → Expr
  | .literal (.number n) => .literal (.number n.neg)
  | e => .arithmetic .subtract (.literal (.number .zero)) e

/-- The assignment to a path. -/
def assignOf (op : AssignOp) (path : Path) (right : Expr) : Expr :=
  match op with
  | .store => .assign path right
  | .change => .update path right

/-- The path that the target of an operation is. -/
def targetPath (operation : PathOperation) (target : Expr) : Except SyntaxError Path :=
  match target.path? with
  | .ok path => .ok path
  | .error cause => .error (.invalidPath operation cause)

/-- A call, checked: the number of arguments is right, and what `del` removes is a path. -/
def callOf (function : Builtin) (args : List Expr) : Except SyntaxError Expr :=
  if args.length ≠ function.arity then .error (.wrongArity function args.length)
  else
    match function, args with
    | .del, [target] => do
        let _ ← targetPath .del target
        return .call function args
    | _, _ => .ok (.call function args)

/-! ## Steps

  What may follow an expression without an operator.  No rule is called from here, so the steps can
  be read before the expressions are defined; what stands in brackets is an index or a bound and
  never a query. -/

/-- The greatest index, that of a signed word of 64 bits. -/
def maxIndex : Nat := 9223372036854775807

/-- The index that a number token is. -/
def index? : Token → Option Int
  | .number n => if n.isInteger && n.wholePart ≤ maxIndex then some n.wholePart else none
  | _ => none

/-- An integer, perhaps with a minus sign. -/
def integer (fault : Option LexError) (ts : List Lexeme) :
    Except SyntaxError (Taken Lexeme Int ts.length) :=
  let unsigned (ts : List Lexeme) : Except SyntaxError (Taken Lexeme Int ts.length) :=
    match operator? index? ts with
    | some i => .ok i
    | none => .error (unexpected fault ts .integer)
  match accept? .minus ts with
  | some minus =>
      (unsigned minus.rest).map fun i => (i.map (- ·)).widen (Nat.le_of_lt minus.shorter)
  | none => unsigned ts

/-- An integer, or nothing in front of a closing bracket. -/
def bound (fault : Option LexError) (ts : List Lexeme) :
    Except SyntaxError (Taken Lexeme (Option Int) (ts.length + 1)) :=
  match accept? .rightBracket ts with
  | some _ => .ok ⟨none, ts, Nat.lt_succ_self _⟩
  | none => (integer fault ts).map fun i => (i.map some).widen (Nat.le_succ _)

/-- The rest of a slice behind its colon. -/
def sliceEnd (fault : Option LexError) (start : Option Int) (ts : List Lexeme) :
    Except SyntaxError (Taken Lexeme Expr ts.length) := do
  let stop ← bound fault ts
  let close ← expect fault .rightBracket stop.rest
  return (close.map fun _ => .slice start stop.value).widen (Nat.le_of_lt_succ stop.shorter)

/-- What stands behind an opening bracket in a step. -/
def brackets (fault : Option LexError) (ts : List Lexeme) :
    Except SyntaxError (Taken Lexeme Expr ts.length) :=
  match ts with
  | ⟨.rightBracket, _, _⟩ :: rest => .ok ⟨.iterate, rest, Nat.lt_succ_self _⟩
  | ⟨.colon, _, _⟩ :: rest => (sliceEnd fault none rest).map (·.widen (Nat.le_succ _))
  | ⟨.string name, _, _⟩ :: rest =>
      (expect fault .rightBracket rest).map fun close =>
        (close.map fun _ => .field name).widen (Nat.le_succ _)
  | ⟨.number n, offset, stop⟩ :: rest => indexOrSlice fault (⟨.number n, offset, stop⟩ :: rest)
  | ⟨.minus, offset, stop⟩ :: rest => indexOrSlice fault (⟨.minus, offset, stop⟩ :: rest)
  | ts => .error (unexpected fault ts .stepInBrackets)
where
  /-- An index, or a slice with a first bound. -/
  indexOrSlice (fault : Option LexError) (ts : List Lexeme) :
      Except SyntaxError (Taken Lexeme Expr ts.length) := do
    let start ← integer fault ts
    match accept? .colon start.rest with
    | some colon =>
        let slice ← sliceEnd fault (some start.value) colon.rest
        return slice.widen (Nat.le_of_lt (Nat.lt_trans colon.shorter start.shorter))
    | none =>
        let close ← expect fault .rightBracket start.rest
        return (close.map fun _ => .index start.value).widen (Nat.le_of_lt start.shorter)

/-- A step, if one comes next.  A dot must be followed by a bracket here, since the names behind
    dots are tokens of their own. -/
def step? (fault : Option LexError) (ts : List Lexeme) :
    Except SyntaxError (Option (Taken Lexeme Expr ts.length)) :=
  match ts with
  | ⟨.field name, _, _⟩ :: rest => .ok (some ⟨.field name, rest, Nat.lt_succ_self _⟩)
  | ⟨.leftBracket, _, _⟩ :: rest =>
      (brackets fault rest).map fun b => some (b.widen (Nat.le_succ _))
  | ⟨.dot, _, _⟩ :: rest =>
      match accept? .leftBracket rest with
      | some bracket =>
          (brackets fault bracket.rest).map fun b =>
            some (b.widen (Nat.le_of_lt (Nat.lt_succ_of_lt bracket.shorter)))
      | none => .error (unexpected fault rest .bracketAfterDot)
  | _ => .ok none

/-- An expression with all steps that stand behind it. -/
def steps (fault : Option LexError) (left : Expr) (ts : List Lexeme) :
    Except SyntaxError (Taken Lexeme Expr (ts.length + 1)) := do
  match ← step? fault ts with
  | none => return ⟨left, ts, Nat.lt_succ_self _⟩
  | some step =>
      let all ← steps fault (stepOf left step.value) step.rest
      return all.widen (Nat.succ_le_succ (Nat.le_of_lt step.shorter))
termination_by ts.length
decreasing_by exact step.shorter

/-! ## Expressions

  One function for each rule, from loose to tight.  The second part of the measure is the level, and
  a function with a name that starts with `more` has the level of the one that calls it.  A level
  that is grouped to the left goes on in such a function, with what it has read so far. -/

mutual
/-- A pipe, grouped to the right. -/
def pipe (fault : Option LexError) (ts : List Lexeme) :
    Except SyntaxError (Taken Lexeme Expr ts.length) := do
  let left ← commas fault ts
  match accept? .pipe left.rest with
  | none => return left
  | some bar =>
      let right ← pipe fault bar.rest
      return (right.map (pipeOf left.value)).widen
        (Nat.le_of_lt (Nat.lt_trans bar.shorter left.shorter))
termination_by (ts.length, 8)
decreasing_by
  · exact Prod.Lex.right _ (by decide)
  · exact Prod.Lex.left _ _ (Nat.lt_trans bar.shorter left.shorter)

/-- A list, grouped to the left. -/
def commas (fault : Option LexError) (ts : List Lexeme) :
    Except SyntaxError (Taken Lexeme Expr ts.length) := do
  let first ← assignment fault ts
  let all ← moreCommas fault first.value first.rest
  return all.widen first.shorter
termination_by (ts.length, 7)
decreasing_by
  · exact Prod.Lex.right _ (by decide)
  · exact Prod.Lex.left _ _ first.shorter

/-- The members of a list behind `left`. -/
def moreCommas (fault : Option LexError) (left : Expr) (ts : List Lexeme) :
    Except SyntaxError (Taken Lexeme Expr (ts.length + 1)) :=
  match accept? .comma ts with
  | none => .ok ⟨left, ts, Nat.lt_succ_self _⟩
  | some comma => do
      let right ← assignment fault comma.rest
      let all ← moreCommas fault (.comma left right.value) right.rest
      return all.widen (Nat.succ_le_succ (Nat.le_of_lt (Nat.lt_trans right.shorter comma.shorter)))
termination_by (ts.length, 7)
decreasing_by
  · exact Prod.Lex.left _ _ comma.shorter
  · exact Prod.Lex.left _ _ (Nat.lt_trans right.shorter comma.shorter)

/-- An assignment: what stands in front of the sign must walk a path. -/
def assignment (fault : Option LexError) (ts : List Lexeme) :
    Except SyntaxError (Taken Lexeme Expr ts.length) := do
  let left ← alternative fault ts
  match operator? assignOp? left.rest with
  | none => return left
  | some op =>
      let path ← targetPath (.assignment op.value) left.value
      let right ← alternative fault op.rest
      return (right.map (assignOf op.value path)).widen
        (Nat.le_of_lt (Nat.lt_trans op.shorter left.shorter))
termination_by (ts.length, 6)
decreasing_by
  · exact Prod.Lex.right _ (by decide)
  · exact Prod.Lex.left _ _ (Nat.lt_trans op.shorter left.shorter)

/-- An alternative, grouped to the right. -/
def alternative (fault : Option LexError) (ts : List Lexeme) :
    Except SyntaxError (Taken Lexeme Expr ts.length) := do
  let left ← comparison fault ts
  match accept? .alternative left.rest with
  | none => return left
  | some op =>
      let right ← alternative fault op.rest
      return (right.map (.alternative left.value)).widen
        (Nat.le_of_lt (Nat.lt_trans op.shorter left.shorter))
termination_by (ts.length, 5)
decreasing_by
  · exact Prod.Lex.right _ (by decide)
  · exact Prod.Lex.left _ _ (Nat.lt_trans op.shorter left.shorter)

/-- A comparison of two sums, or one sum. -/
def comparison (fault : Option LexError) (ts : List Lexeme) :
    Except SyntaxError (Taken Lexeme Expr ts.length) := do
  let left ← sum fault ts
  match operator? compareOp? left.rest with
  | none => return left
  | some op =>
      let right ← sum fault op.rest
      return (right.map (.compare op.value left.value)).widen
        (Nat.le_of_lt (Nat.lt_trans op.shorter left.shorter))
termination_by (ts.length, 4)
decreasing_by
  · exact Prod.Lex.right _ (by decide)
  · exact Prod.Lex.left _ _ (Nat.lt_trans op.shorter left.shorter)

/-- A sum, whose tree is made when all its operands are read. -/
def sum (fault : Option LexError) (ts : List Lexeme) :
    Except SyntaxError (Taken Lexeme Expr ts.length) := do
  let first ← product fault ts
  let more ← moreSum fault first.rest
  return (more.map (sumOf first.value)).widen first.shorter
termination_by (ts.length, 3)
decreasing_by
  · exact Prod.Lex.right _ (by decide)
  · exact Prod.Lex.left _ _ first.shorter

/-- The operators and operands of a sum behind its first operand. -/
def moreSum (fault : Option LexError) (ts : List Lexeme) :
    Except SyntaxError (Taken Lexeme (List (ArithOp × Expr)) (ts.length + 1)) :=
  match operator? sumOp? ts with
  | none => .ok ⟨[], ts, Nat.lt_succ_self _⟩
  | some op => do
      let right ← product fault op.rest
      let more ← moreSum fault right.rest
      return (more.map ((op.value, right.value) :: ·)).widen
        (Nat.succ_le_succ (Nat.le_of_lt (Nat.lt_trans right.shorter op.shorter)))
termination_by (ts.length, 3)
decreasing_by
  · exact Prod.Lex.left _ _ op.shorter
  · exact Prod.Lex.left _ _ (Nat.lt_trans right.shorter op.shorter)

/-- A product, grouped to the left. -/
def product (fault : Option LexError) (ts : List Lexeme) :
    Except SyntaxError (Taken Lexeme Expr ts.length) := do
  let first ← operand fault ts
  let all ← moreProduct fault first.value first.rest
  return all.widen first.shorter
termination_by (ts.length, 2)
decreasing_by
  · exact Prod.Lex.right _ (by decide)
  · exact Prod.Lex.left _ _ first.shorter

/-- The factors behind `left`. -/
def moreProduct (fault : Option LexError) (left : Expr) (ts : List Lexeme) :
    Except SyntaxError (Taken Lexeme Expr (ts.length + 1)) :=
  match operator? productOp? ts with
  | none => .ok ⟨left, ts, Nat.lt_succ_self _⟩
  | some op => do
      let right ← operand fault op.rest
      let all ← moreProduct fault (.arithmetic op.value left right.value) right.rest
      return all.widen (Nat.succ_le_succ (Nat.le_of_lt (Nat.lt_trans right.shorter op.shorter)))
termination_by (ts.length, 2)
decreasing_by
  · exact Prod.Lex.left _ _ op.shorter
  · exact Prod.Lex.left _ _ (Nat.lt_trans right.shorter op.shorter)

/-- An operand, behind any number of minus signs, with the steps that stand behind it. -/
def operand (fault : Option LexError) (ts : List Lexeme) :
    Except SyntaxError (Taken Lexeme Expr ts.length) :=
  match accept? .minus ts with
  | some minus =>
      (operand fault minus.rest).map fun e =>
        (e.map negated).widen (Nat.le_of_lt minus.shorter)
  | none => do
      let first ← atom fault ts
      let all ← steps fault first.value first.rest
      return all.widen first.shorter
termination_by (ts.length, 1)
decreasing_by
  · exact Prod.Lex.left _ _ minus.shorter
  · exact Prod.Lex.right _ (by decide)

/-- An atom, by its first token. -/
def atom (fault : Option LexError) (ts : List Lexeme) :
    Except SyntaxError (Taken Lexeme Expr ts.length) :=
  match ts with
  | ⟨.dot, _, _⟩ :: rest =>
      match accept? .leftBracket rest with
      | some bracket =>
          (brackets fault bracket.rest).map
            (·.widen (Nat.le_of_lt (Nat.lt_succ_of_lt bracket.shorter)))
      | none => .ok ⟨.identity, rest, Nat.lt_succ_self _⟩
  | ⟨.dotDot, _, _⟩ :: rest => .ok ⟨.recursiveDescent, rest, Nat.lt_succ_self _⟩
  | ⟨.field name, _, _⟩ :: rest => .ok ⟨.field name, rest, Nat.lt_succ_self _⟩
  | ⟨.number n, _, _⟩ :: rest => .ok ⟨.literal (.number n), rest, Nat.lt_succ_self _⟩
  | ⟨.string s, _, _⟩ :: rest => .ok ⟨.literal (.string s), rest, Nat.lt_succ_self _⟩
  | ⟨.boolean b, _, _⟩ :: rest => .ok ⟨.literal (.boolean b), rest, Nat.lt_succ_self _⟩
  | ⟨.null, _, _⟩ :: rest => .ok ⟨.literal .null, rest, Nat.lt_succ_self _⟩
  | ⟨.leftParen, _, _⟩ :: rest => do
      let inner ← pipe fault rest
      let close ← expect fault .rightParen inner.rest
      return (close.map fun _ => inner.value).widen
        (Nat.le_of_lt (Nat.lt_succ_of_lt inner.shorter))
  | ⟨.leftBracket, _, _⟩ :: rest =>
      match accept? .rightBracket rest with
      | some close => .ok ((close.map fun _ => .emptyCollection).widen (Nat.le_succ _))
      | none => do
          let inner ← pipe fault rest
          let close ← expect fault .rightBracket inner.rest
          return (close.map fun _ => .collect inner.value).widen
            (Nat.le_of_lt (Nat.lt_succ_of_lt inner.shorter))
  | ⟨.identifier name, offset, _⟩ :: rest =>
      match Builtin.ofName? name with
      | none => .error (.unknownFunction name offset)
      | some function => do
          let args ← arguments fault rest
          let _ ← settle fault args.rest
          let e ← callOf function args.value
          return args.map fun _ => e
  | ts => .error (unexpected fault ts .expression)
termination_by (ts.length, 0)
decreasing_by
  all_goals exact Prod.Lex.left _ _ (Nat.lt_succ_self _)

/-- The arguments of a call; without parentheses there are none. -/
def arguments (fault : Option LexError) (ts : List Lexeme) :
    Except SyntaxError (Taken Lexeme (List Expr) (ts.length + 1)) :=
  match accept? .leftParen ts with
  | none => .ok ⟨[], ts, Nat.lt_succ_self _⟩
  | some paren => do
      let inner ← pipe fault paren.rest
      let close ← expect fault .rightParen inner.rest
      return (close.map fun _ => [inner.value]).widen
        (Nat.le_succ_of_le (Nat.le_of_lt (Nat.lt_trans inner.shorter paren.shorter)))
termination_by (ts.length, 0)
decreasing_by exact Prod.Lex.left _ _ paren.shorter
end

end Grammar

/-! ## Queries -/

/-- The expression that a whole query is.  A pipe in front of everything reads as `. | …`. -/
def Expr.ofLexemes (ts : Lexemes) : Except SyntaxError Expr := do
  let body :=
    match ts.list with
    | ⟨.pipe, _, _⟩ :: rest => rest
    | list => list
  let e ← Grammar.pipe ts.fault body
  match e.rest, ts.fault with
  | [], none => return e.value
  | rest, fault => throw (Grammar.unexpected fault rest .operatorOrEnd)

/-- The expression that a query text denotes. -/
def Expr.ofChars (cs : List Char) : Except SyntaxError Expr :=
  Expr.ofLexemes (Lexemes.ofChars cs)

end BlockQuery
