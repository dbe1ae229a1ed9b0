/-! The classified pieces of a query string. -/
namespace TextSearch

inductive LexemeKind where
  | word
  | phrase
  | field
  | required
  | prohibited
  | fuzzy
  | boost
  | closedStart
  | closedEnd
  | openedStart
  | openedEnd
  | groupStart
  | groupEnd
  | and
  | or
  | not
  | upTo
  | number
  deriving DecidableEq, Repr

namespace LexemeKind

def name : LexemeKind → String
  | word => "word"
  | phrase => "phrase"
  | field => "field"
  | required => "required"
  | prohibited => "prohibited"
  | fuzzy => "fuzzy"
  | boost => "boost"
  | closedStart => "range-incl-start"
  | closedEnd => "range-incl-end"
  | openedStart => "range-excl-start"
  | openedEnd => "range-excl-end"
  | groupStart => "subquery-start"
  | groupEnd => "subquery-end"
  | and => "and"
  | or => "or"
  | not => "not"
  | upTo => "to"
  | number => "number"

def all : List LexemeKind :=
  [word, phrase, field, required, prohibited, fuzzy, boost, closedStart, closedEnd, openedStart,
    openedEnd, groupStart, groupEnd, and, or, not, upTo, number]

def ofName? (text : String) : Option LexemeKind :=
  all.find? (·.name == text)

end LexemeKind

/-- A lexeme where it starts, counted in characters from one. Its text has no escapes and a phrase no quotes. -/
structure Lexeme where
  kind : LexemeKind
  text : String
  position : Nat
  deriving DecidableEq, Repr

end TextSearch
