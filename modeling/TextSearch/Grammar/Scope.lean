import TextSearch.Grammar.Entry
import TextSearch.Grammar.Expression

/-! One level of brackets of a query string. Its entries are joined either by signs or by operators. -/
namespace TextSearch

inductive Style where
  | signs
  | operators
  deriving DecidableEq, Repr

/-- An entry with the sign before it, if there is one, or an operator with its position. -/
inductive Item where
  | entry (entry : Entry) (sign : Option Occur)
  | operator (op : Operator) (position : Nat)

/-- A level read so far. The pending field and sign belong to the next entry; the first sign or operator sets the style,
and without either the junction joins entries. -/
structure Scope where
  inheritedField : Option String
  pendingField : Option String := none
  pendingSign : Option Occur := none
  junction : Junction
  style : Option Style := none
  items : List Item := []

namespace Scope

def mixedStyles : Error :=
  .syntactic "It's not allowed to mix boolean and signs styles in the same subquery." none

def field (s : Scope) : Option String := s.pendingField.or s.inheritedField

def setField (s : Scope) (field : String) : Scope := { s with pendingField := some field }

def setSign (s : Scope) (sign : Occur) : Except Error Scope :=
  if s.style = some .operators then .error mixedStyles
  else .ok { s with style := some .signs, pendingSign := some sign }

/-- Adds an entry, which takes the field and the sign set for it. -/
def addEntry (s : Scope) (entry : Entry) : Scope :=
  { s with
    items := s.items ++ [.entry entry s.pendingSign]
    pendingField := none
    pendingSign := none }

def addOperator (s : Scope) (op : Operator) (position : Nat) : Except Error Scope :=
  if s.style = some .signs then .error mixedStyles
  else .ok { s with style := some .operators, items := s.items ++ [.operator op position] }

/-- Changes the entry directly before, unless a field or a sign stands in between. -/
def modifyLast (s : Scope) (misplaced : Error) (change : Entry → Except Error Entry) : Except Error Scope :=
  if s.pendingField.isSome || s.pendingSign.isSome then .error misplaced
  else
    match s.items.getLast? with
    | some (.entry entry sign) =>
      (change entry).map fun entry => { s with items := s.items.dropLast ++ [.entry entry sign] }
    | _ => .error misplaced

def loosen (s : Scope) (parameter : Option Float32) : Except Error Scope :=
  s.modifyLast (.syntactic "'~' modifier must follow word or phrase." none) (·.loosen parameter)

def boost (s : Scope) (factor : Float32) : Except Error Scope :=
  s.modifyLast (.syntactic "'^' modifier must follow word, phrase or subquery." none)
    fun entry => .ok (entry.multiplyBoost factor)

/-- The clauses of signed entries; one without a sign gets the default one. -/
def signedClauses (default : Occur) : List Item → Except Error (List (Occur × Query))
  | [] => .ok []
  | .entry entry sign :: rest =>
    match entry.toQuery with
    | .error e => .error e
    | .ok query => (signedClauses default rest).map fun clauses => (sign.getD default, query) :: clauses
  | .operator .. :: rest => signedClauses default rest

/-- Reads items as an expression. A refused operator is reported at its position. -/
def readExpression (e : Expression Entry) : List Item → Except Error (Expression Entry)
  | [] => .ok e
  | .entry entry _ :: rest => readExpression (e.addLiteral entry) rest
  | .operator op position :: rest =>
    match e.addOperator op with
    | (.error failure, _) => .error (failure.locate position)
    | (.ok (), e) => readExpression e rest

def lastOperator? (items : List Item) : Option Nat :=
  items.reverse.findSome? fun
    | .operator _ position => some position
    | .entry .. => none

def literalClauses : Conjunction Entry → Except Error (List (Occur × Query))
  | [] => .ok []
  | (entry, positive) :: rest =>
    match entry.toQuery with
    | .error e => .error e
    | .ok query =>
      (literalClauses rest).map fun clauses =>
        (if positive then .required else .prohibited, query) :: clauses

/-- The queries of conjunctions. One without a positive literal would match nothing and has none; one of
a single literal is that literal. -/
def conjunctionQueries : List (Conjunction Entry) → Except Error (List Query)
  | [] => .ok []
  | conjunction :: rest =>
    if conjunction.all fun (_, positive) => !positive then conjunctionQueries rest
    else
      match literalClauses conjunction with
      | .error e => .error e
      | .ok clauses =>
        let query := match clauses with
          | [(_, query)] => query
          | clauses => .ofClauses clauses 1
        (conjunctionQueries rest).map fun queries => query :: queries

def disjunction (queries : List Query) : Query :=
  match queries with
  | [] => .insignificant 1
  | [query] => query
  | queries => .ofClauses (queries.map fun query => (.optional, query)) 1

/-- The query of a level whose entries are joined by operators. An expression that ends too early is
reported at its last operator. -/
def expressionQuery (s : Scope) : Except Error Query := do
  let e ← readExpression { junction := s.junction } s.items
  let conjunctions ← match e.finish with
    | .error failure => .error ((lastOperator? s.items).elim failure failure.locate)
    | .ok conjunctions => .ok conjunctions
  let queries ← conjunctionQueries conjunctions
  .ok (disjunction queries)

def toQuery (s : Scope) : Except Error Query :=
  if s.style = some .operators then s.expressionQuery
  else (signedClauses (.ofJunction s.junction) s.items).map fun clauses => .ofClauses clauses 1

end Scope

end TextSearch
