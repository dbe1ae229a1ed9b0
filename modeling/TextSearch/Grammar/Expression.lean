import TextSearch.Config
import TextSearch.Error

/-! Expressions of literals and operators, read into a disjunction of conjunctions. -/
namespace TextSearch

inductive Operator where
  | and
  | or
  | not
  deriving DecidableEq, Repr

/-- Literals that stand or fall together, each with whether it is positive. -/
abbrev Conjunction (α : Type) := List (α × Bool)

inductive Ending where
  | nothing
  | literal
  | operator (op : Operator)
  deriving DecidableEq, Repr

/-- An expression read so far, with its open conjunction. The junction joins literals without an operator between them. -/
structure Expression (α : Type) where
  junction : Junction
  ending : Ending := .nothing
  current : Conjunction α := []
  closed : List (Conjunction α) := []

namespace Expression

variable {α : Type}

def literalExpected : Error :=
  .syntactic "Boolean expression error. Error message: 'Literal expected.'." none

def close (e : Expression α) : Expression α :=
  if e.current.isEmpty then e
  else { e with current := [], closed := e.closed ++ [e.current] }

/-- Closes the open conjunction where literals without an operator between them are alternatives. -/
def closeImplicitly (e : Expression α) : Expression α :=
  if e.junction = .or then e.close else e

/-- A literal may stand anywhere. A negation before it counts for it alone. -/
def addLiteral (e : Expression α) (literal : α) : Expression α :=
  let positive := e.ending != .operator .not
  let e := if e.ending = .literal then e.closeImplicitly else e
  { e with current := e.current ++ [(literal, positive)], ending := .literal }

/-- A conjunction or disjunction needs a literal before it. A negation may follow anything but a negation;
behind a literal it also joins. With the outcome comes the expression as it is then. -/
def addOperator (e : Expression α) (op : Operator) : Except Error Unit × Expression α :=
  match e.ending, op with
  | .literal, .and => (.ok (), { e with ending := .operator .and })
  | .literal, .or => (.ok (), { e.close with ending := .operator .or })
  | .literal, .not => (.ok (), { e.closeImplicitly with ending := .operator .not })
  | .operator .not, _ => (.error literalExpected, e)
  | _, .not => (.ok (), { e with ending := .operator .not })
  | _, _ => (.error literalExpected, e)

def finish (e : Expression α) : Except Error (List (Conjunction α)) :=
  if e.ending = .literal then .ok e.close.closed else .error literalExpected

end Expression

end TextSearch
