import TextSearch.Grammar.Fields
import TextSearch.Grammar.Machine
import TextSearch.Grammar.Scope
import TextSearch.Lexeme.Literal
import TextSearch.Query.Context

/-! Query strings read into query trees. -/
namespace TextSearch

structure Parser where
  config : Config
  context : Context

namespace Parser

def withAnalyzer (p : Parser) (analyzer : Analyzer) : Parser :=
  { p with context := .ofConfig p.config analyzer }

def ofConfig (packages : Packages) (c : Config) : Except Error Parser :=
  c.validate.map fun _ => { config := c, context := .ofConfig c (.ofConfig packages c.analyzer) }

/-- A query string read so far: its innermost level of brackets and those around it, the nearest one first. An open range
keeps its lower bound. -/
structure Progress where
  scope : Scope
  outer : List Scope := []
  previousKind : Option LexemeKind := none
  lowerText : String := ""

namespace Progress

def withScope (r : Progress) (scope : Scope) : Progress := { r with scope }

/-- Goes one level down. The new level has the field its entries would have outside. -/
def openGroup (r : Progress) : Progress :=
  { r with
    scope := { inheritedField := r.scope.field, junction := r.scope.junction }
    outer := r.scope :: r.outer }

def mismatched (position : Option Nat) : Error :=
  .syntactic "Syntax Error: mismatched parentheses, every opening must have closing." position

def closeGroup (r : Progress) (position : Nat) : Except Error Progress :=
  match r.outer with
  | [] => .error (mismatched (some position))
  | parent :: outer =>
    r.scope.toQuery.map fun query => { r with scope := parent.addEntry (.ofQuery query), outer }

def applyParameter (r : Progress) (text : String) : Except Error Progress :=
  match Decimal.read? text.toList with
  | none => .error (.internal s!"Wrong number syntax '{text}'.")
  | some value =>
    match r.previousKind with
    | some .fuzzy => (r.scope.loosen (some value)).map r.withScope
    | some .boost => (r.scope.boost value).map r.withScope
    | _ => .error (.internal "Lexeme modifier parameter must follow lexeme modifier.")

end Progress

/-- The field of the next entry; `missing` is reported if there has to be one and is none. -/
def entryField (p : Parser) (r : Progress) (missing : String) : Except Error (Option String) :=
  if p.config.requireExplicitField && r.scope.field.isNone then .error (.semantic missing)
  else p.config.resolveField r.scope.field

def addWord (p : Parser) (word : String) (r : Progress) : Except Error Progress :=
  (p.entryField r "A term without a specified field is not allowed.").map fun field =>
    r.withScope (r.scope.addEntry (.ofWord word field))

def addPhrase (p : Parser) (text : String) (r : Progress) : Except Error Progress :=
  (p.entryField r "A phrase without a specified field is not allowed.").map fun field =>
    r.withScope (r.scope.addEntry (.ofPhrase text field))

/-- The analyzed bound of a range, if anything is left of it. -/
def rangeBound (p : Parser) (text : String) : Except Error (Option String) :=
  match p.context.analyzer.terms text with
  | [] => .ok none
  | [t] => .ok (some t)
  | _ => .error (.semantic "Range query boundary terms must be non-multiple word terms")

def addRange (p : Parser) (upperText : String) (inclusive : Bool) (r : Progress) : Except Error Progress := do
  let lower ← p.rangeBound r.lowerText
  let upper ← p.rangeBound upperText
  if lower.isNone && upper.isNone then
    .error (.semantic "At least one range query boundary term must be non-empty term")
  let field ← p.entryField r "Field declaration is missing in range."
  let range ← RangeQuery.between (lower.map (Term.mk field)) (upper.map (Term.mk field)) inclusive
  .ok (r.withScope (r.scope.addEntry
    (.ofQuery (.range { range with termsLimit := p.context.termsLimit }))))

def input (p : Parser) (x : Lexeme) (r : Progress) : Except Error Progress :=
  match x.kind with
  | .word => p.addWord x.text r
  | .phrase => p.addPhrase x.text r
  | .field => .ok (r.withScope (r.scope.setField x.text))
  | .required => (r.scope.setSign .required).map r.withScope
  | .prohibited => (r.scope.setSign .prohibited).map r.withScope
  | .fuzzy => (r.scope.loosen none).map r.withScope
  | .number => r.applyParameter x.text
  | .groupStart => .ok r.openGroup
  | .groupEnd => r.closeGroup x.position
  | .and => (r.scope.addOperator .and x.position).map r.withScope
  | .or => (r.scope.addOperator .or x.position).map r.withScope
  | .not => (r.scope.addOperator .not x.position).map r.withScope
  -- a boost is applied by its number
  | .boost | .closedStart | .closedEnd | .openedStart | .openedEnd | .upTo => .ok r

def actions (p : Parser) : Actions Progress where
  input phase x r := if phase = .common then p.input x r else .ok r
  entry phase x r :=
    match phase with
    | .range _ .first => .ok { r with lowerText := x.text }
    | .range brackets .last => p.addRange x.text (brackets = .closed) r
    | _ => .ok r

def advance (p : Parser) (m : Machine Progress) (x : Lexeme) : Except Error (Machine Progress) :=
  match m.step p.actions x with
  | (_, some e) => .error e
  | (m, none) => .ok { m with data := { m.data with previousKind := some x.kind } }

def start (p : Parser) : Machine Progress where
  data := { scope := { inheritedField := none, junction := p.config.defaultOperator } }

def finish (m : Machine Progress) : Except Error Query :=
  if m.phase ≠ .common then .error (.syntactic "Syntax Error: range query is not closed." none)
  else if !m.data.outer.isEmpty then .error (Progress.mismatched none)
  else m.data.scope.toQuery

/-- Reads lexemes. None at all ask for nothing. -/
def parseLexemes (p : Parser) (lexemes : List Lexeme) : Except Error Query :=
  if lexemes.isEmpty then .ok (.insignificant 1)
  else (lexemes.foldlM p.advance p.start).bind finish

def parseStrict (p : Parser) (query : String) : Except Error Query :=
  (Lexeme.tokenize query).bind p.parseLexemes

/-- A query for the words of a string, whatever its structure. -/
def fallback (p : Parser) (query : String) : Query :=
  .ofTerms ((p.context.analyzer.terms query).map fun word =>
    (.ofJunction p.config.defaultOperator, ⟨none, word⟩)) 1

/-- A parsed query and the failure it stands in for, if it is a fallback. -/
structure Outcome where
  query : Query
  suppressed : Option Error

/-- Reads a query string. A malformed one falls back to a query for its words, if the configuration says
so. -/
def parse (p : Parser) (query : String) : Except Error Outcome :=
  match p.parseStrict query with
  | .ok q => .ok { query := q, suppressed := none }
  | .error e =>
    if p.config.suppressExceptions && e.isSuppressible then
      .ok { query := p.fallback query, suppressed := some e }
    else .error e

end Parser

end TextSearch
