/-! Failures of reading, resolving and running queries, with their wording. -/
namespace TextSearch

/-- Failures: lexical ones of characters, syntactic ones of the order of lexemes, semantic ones of what a well-formed query
asks for. Positions count the characters of the query from one. -/
inductive Error where
  | lexical (message : String) (position : Nat)
  | syntactic (message : String) (position : Option Nat)
  | semantic (message : String)
  | unauthorized (field : String) (allowed : List String)
  | unsupported (message : String)
  | tooManyTerms (limit : Nat)
  | configuration (message : String)
  | file
  | json
  | internal (message : String)
  deriving DecidableEq, Repr, Inhabited

namespace Error

def withoutStops (message : String) : String :=
  String.ofList (message.toList.reverse.dropWhile (· == '.')).reverse

def message : Error → String
  | lexical text p => s!"{text} Char position {p}."
  | syntactic text none => text
  | syntactic text (some p) => s!"{withoutStops text} at char position {p}."
  | semantic text | unsupported text => text
  | unauthorized field allowed =>
    s!"Field {field} is not authorized. Authorized fields are: " ++ ", ".intercalate allowed ++ "."
  | tooManyTerms limit => s!"Terms per query limit ({limit}) is reached."
  | configuration text => s!"Configuration error: {text}"
  | file => "IO error"
  | json => "JSON error"
  | internal text => s!"Internal error: {text}"

/-- Places a syntactic failure that has no position yet. -/
def locate (p : Nat) : Error → Error
  | syntactic text none => syntactic text (some p)
  | e => e

def position? : Error → Option Nat
  | lexical _ p => some p
  | syntactic _ p => p
  | _ => none

/-- Only a syntactic failure may be replaced by a best-effort query. -/
def isSuppressible : Error → Bool
  | syntactic .. => true
  | _ => false

end Error

end TextSearch
