/-
  Derivations: which tokens are a query, and which tree they stand for.

  The rules say nothing about how a query is read: they put words together, a word being a list of
  tokens, and each gives the tree of the whole from the trees of the parts.

      query       = [ "|" ] pipe
      pipe        = list | list "|" pipe
      list        = assignment | list "," assignment
      assignment  = alternative | alternative ( "=" | "|=" ) alternative
      alternative = comparison | comparison "//" alternative
      comparison  = sum | sum ( "==" | "!=" | "<" | ">" | "<=" | ">=" ) sum
      sum         = terms
      terms       = product | terms ( "+" | "-" ) product
      product     = operand | product ( "*" | "/" ) operand
      operand     = "-" operand | walk
      walk        = atom | walk step
      step        = FIELD | [ "." ] "[" ( "]" | int "]" | [ int ] ":" [ int ] "]" | STRING "]" )
      int         = [ "-" ] NUMBER
      atom        = "." | ".." | FIELD | NUMBER | STRING | BOOLEAN | "null"
                  | "(" pipe ")" | "[" "]" | "[" pipe "]" | FUNCTION | FUNCTION "(" pipe ")"

  What the rules ask for besides the shape of the word: the target of an assignment and the argument
  of `del` walk a path, a function has the number of arguments that it takes, and an index is an
  integer in range.
-/
import BlockQuery.Query.Grammar

namespace BlockQuery

namespace Derivation

/-! ## Operators

  The tokens that join two expressions and may be one of several.  All others are named in the
  rules. -/

/-- The signs of comparison. -/
inductive CompareSign : Token → CompareOp → Prop where
  | equal : CompareSign .equal .equal
  | notEqual : CompareSign .notEqual .notEqual
  | less : CompareSign .less .less
  | greater : CompareSign .greater .greater
  | lessEqual : CompareSign .lessEqual .lessEqual
  | greaterEqual : CompareSign .greaterEqual .greaterEqual

/-- The signs between the terms of a sum. -/
inductive TermSign : Token → ArithOp → Prop where
  | plus : TermSign .plus .add
  | minus : TermSign .minus .subtract

/-- The signs between the factors of a product. -/
inductive FactorSign : Token → ArithOp → Prop where
  | star : FactorSign .star .multiply
  | slash : FactorSign .slash .divide

/-! ## Steps

  Steps are words of their own: nothing in them is an expression. -/

/-- An integer: a number token without a fraction that is in the range of an index, with or without
    a minus sign. -/
inductive Integer : List Token → Int → Prop where
  | plain {n : Decimal} (whole : n.isInteger) (small : n.wholePart ≤ Grammar.maxIndex) :
      Integer [.number n] n.wholePart
  | negative {n : Decimal} (whole : n.isInteger) (small : n.wholePart ≤ Grammar.maxIndex) :
      Integer [.minus, .number n] (-n.wholePart)

/-- A bound of a slice, which may be left out. -/
inductive Bound : List Token → Option Int → Prop where
  | missing : Bound [] none
  | given {w : List Token} {i : Int} (h : Integer w i) : Bound w (some i)

/-- What stands behind the opening bracket of a step. -/
inductive Bracketed : List Token → Expr → Prop where
  | iterate : Bracketed [.rightBracket] .iterate
  | index {w : List Token} {i : Int} (h : Integer w i) :
      Bracketed (w ++ [.rightBracket]) (.index i)
  | slice {v w : List Token} {start stop : Option Int} (lower : Bound v start)
      (upper : Bound w stop) :
      Bracketed (v ++ .colon :: (w ++ [.rightBracket])) (.slice start stop)
  | field (name : String) : Bracketed [.string name, .rightBracket] (.field name)

/-- One step from a value to a part of it. -/
inductive IsStep : List Token → Expr → Prop where
  | field (name : String) : IsStep [.field name] (.field name)
  | brackets {w : List Token} {e : Expr} (h : Bracketed w e) : IsStep (.leftBracket :: w) e
  | dotted {w : List Token} {e : Expr} (h : Bracketed w e) : IsStep (.dot :: .leftBracket :: w) e

/-! ## Expressions

  A word is derived at a level, and the name of a level says what the word may be, not how it is
  found.  Each rule that joins two words names the levels on both sides; that alone makes an
  operator go to the left, to the right, or not be nested.  Two rules have a condition on the tree
  on their left, because the trees of `.. | e` and of `. step` are not those of a pipe. -/

/-- The kinds of expression, from loose to tight. -/
inductive Level where
  | pipe
  | list
  | assignment
  | alternative
  | comparison
  | sum
  | product
  | operand
  | walk
  | atom

/-- Whether a sum is a concatenation of texts: it has a sign, no sign but `+`, and a string literal
    among its terms. -/
def Concatenates (first : Expr) (more : List (ArithOp × Expr)) : Prop :=
  more ≠ [] ∧ (∀ m ∈ more, m.1 = .add) ∧
    ∃ s, .literal (.string s) ∈ first :: more.map (·.2)

/-- The tree of terms that are added and subtracted one after the other. -/
def summed (first : Expr) (more : List (ArithOp × Expr)) : Expr :=
  more.foldl (fun left m => .arithmetic m.1 left m.2) first

mutual
/-- A word stands for a tree at a level. -/
inductive Derives : Level → List Token → Expr → Prop where
  /- pipes, to the right -/
  | pipeEnd {w e} (only : Derives .list w e) : Derives .pipe w e
  | pipe {v w l r} (left : Derives .list v l) (plain : l ≠ .recursiveDescent)
      (right : Derives .pipe w r) : Derives .pipe (v ++ .pipe :: w) (.pipe l r)
  | descendPipe {v w r} (left : Derives .list v .recursiveDescent) (right : Derives .pipe w r) :
      Derives .pipe (v ++ .pipe :: w) (.descendPipe r)
  /- lists, to the left -/
  | listStart {w e} (only : Derives .assignment w e) : Derives .list w e
  | list {v w l r} (left : Derives .list v l) (right : Derives .assignment w r) :
      Derives .list (v ++ .comma :: w) (.comma l r)
  /- assignments, not nested -/
  | noAssignment {w e} (only : Derives .alternative w e) : Derives .assignment w e
  | assign {v w l r p} (left : Derives .alternative v l) (target : l.path? = .ok p)
      (right : Derives .alternative w r) : Derives .assignment (v ++ .assign :: w) (.assign p r)
  | update {v w l r p} (left : Derives .alternative v l) (target : l.path? = .ok p)
      (right : Derives .alternative w r) :
      Derives .assignment (v ++ .updateAssign :: w) (.update p r)
  /- alternatives, to the right -/
  | alternativeEnd {w e} (only : Derives .comparison w e) : Derives .alternative w e
  | alternative {v w l r} (left : Derives .comparison v l) (right : Derives .alternative w r) :
      Derives .alternative (v ++ .alternative :: w) (.alternative l r)
  /- comparisons, not nested -/
  | noComparison {w e} (only : Derives .sum w e) : Derives .comparison w e
  | compare {v w l r t op} (left : Derives .sum v l) (sign : CompareSign t op)
      (right : Derives .sum w r) : Derives .comparison (v ++ t :: w) (.compare op l r)
  /- sums, concatenations or to the left -/
  | concat {w first more} (terms : Terms w first more) (texts : Concatenates first more) :
      Derives .sum w (.concat (first :: more.map (·.2)))
  | sum {w first more} (terms : Terms w first more) (numbers : ¬ Concatenates first more) :
      Derives .sum w (summed first more)
  /- products, to the left -/
  | productStart {w e} (only : Derives .operand w e) : Derives .product w e
  | product {v w l r t op} (left : Derives .product v l) (sign : FactorSign t op)
      (right : Derives .operand w r) : Derives .product (v ++ t :: w) (.arithmetic op l r)
  /- operands -/
  | positive {w e} (only : Derives .walk w e) : Derives .operand w e
  | negativeNumber {w n} (h : Derives .operand w (.literal (.number n))) :
      Derives .operand (.minus :: w) (.literal (.number n.neg))
  | negative {w e} (h : Derives .operand w e) (other : ∀ n, e ≠ .literal (.number n)) :
      Derives .operand (.minus :: w) (.arithmetic .subtract (.literal (.number .zero)) e)
  /- walks, to the left -/
  | walkStart {w e} (only : Derives .atom w e) : Derives .walk w e
  | walkFromInput {v w e} (left : Derives .walk v .identity) (step : IsStep w e) :
      Derives .walk (v ++ w) e
  | walk {v w l e} (left : Derives .walk v l) (further : l ≠ .identity) (step : IsStep w e) :
      Derives .walk (v ++ w) (.pipe l e)
  /- atoms -/
  | identity : Derives .atom [.dot] .identity
  | recursiveDescent : Derives .atom [.dotDot] .recursiveDescent
  | field (name : String) : Derives .atom [.field name] (.field name)
  | number (n : Decimal) : Derives .atom [.number n] (.literal (.number n))
  | string (s : String) : Derives .atom [.string s] (.literal (.string s))
  | boolean (b : Bool) : Derives .atom [.boolean b] (.literal (.boolean b))
  | null : Derives .atom [.null] (.literal .null)
  | group {w e} (inner : Derives .pipe w e) :
      Derives .atom (.leftParen :: (w ++ [.rightParen])) e
  | emptyCollection : Derives .atom [.leftBracket, .rightBracket] .emptyCollection
  | collect {w e} (inner : Derives .pipe w e) :
      Derives .atom (.leftBracket :: (w ++ [.rightBracket])) (.collect e)
  | call {f : Builtin} (arity : f.arity = 0) :
      Derives .atom [.identifier f.name] (.call f [])
  | callOn {f : Builtin} {w e} (arity : f.arity = 1) (argument : Derives .pipe w e)
      (target : f = .del → ∃ p, e.path? = .ok p) :
      Derives .atom (.identifier f.name :: .leftParen :: (w ++ [.rightParen])) (.call f [e])

/-- A word is a first product and more of them with signs in front. -/
inductive Terms : List Token → Expr → List (ArithOp × Expr) → Prop where
  | start {w e} (only : Derives .product w e) : Terms w e []
  | more {v w first more t op e} (left : Terms v first more) (sign : TermSign t op)
      (right : Derives .product w e) : Terms (v ++ t :: w) first (more ++ [(op, e)])
end

/-- A word stands for a tree as a whole query.  A pipe in front of everything is idle. -/
inductive DerivesQuery : List Token → Expr → Prop where
  | plain {w e} (h : Derives .pipe w e) : DerivesQuery w e
  | piped {w e} (h : Derives .pipe w e) : DerivesQuery (.pipe :: w) e

end Derivation

end BlockQuery
