import TextSearch.Number.Decimal
import TextSearch.Query.Basic

/-! The canonical text of a query. -/
namespace TextSearch

def defaultSimilarity : Float32 := 0.5

def boostMark (boost : Float32) : String :=
  if boost == 1 then "" else "^" ++ Decimal.fourPlaces boost

def fieldMark : Option String → String
  | some field => field ++ ":"
  | none => ""

def slopMark (slop : UInt32) : String :=
  if slop = 0 then "" else "~" ++ toString slop.toNat

def needsEscape (c : Char) : Bool := ":()[]\x7b\x7d!|&+-~^?".toList.contains c

/-- Puts a backslash before characters that need one and have none. -/
def escapeAfter (previous : Option Char) : List Char → List Char
  | [] => []
  | c :: rest =>
    if needsEscape c && previous != some '\\' then '\\' :: c :: escapeAfter (some c) rest
    else c :: escapeAfter (some c) rest

def escapeWord (word : String) : String := String.ofList (escapeAfter none word.toList)

def escapeAll (text : String) : String :=
  String.ofList (text.toList.flatMap fun c => ['\\', c])

def boosted (boost : Float32) (text : String) : String :=
  if boost == 1 then text else "(" ++ text ++ ")^" ++ Decimal.fourPlaces boost

namespace Query

def renderRange (n : RangeQuery) : String :=
  let (opening, closing) := if n.inclusive then ("[", "]") else ("\x7b", "\x7d")
  fieldMark n.field ++ opening ++ n.lower.getD "null" ++ " TO " ++ n.upper.getD "null" ++ closing ++
    boostMark n.boost

def renderRawFuzzy (n : RawFuzzy) : String :=
  let similarity :=
    if n.minSimilarity == defaultSimilarity then "" else Decimal.fourPlaces n.minSimilarity
  fieldMark n.field ++ escapeWord n.word ++ "~" ++ similarity ++ boostMark n.boost

mutual

def render : Query → String
  | boolean clauses n => boosted n.boost (" ".intercalate (renderClauses clauses))
  | term n => n.term.render ++ boostMark n.boost
  | multiTerm n =>
    boosted n.boost (" ".intercalate (n.terms.map fun (occur, t) => occur.sign ++ t.render))
  | phrase n =>
    fieldMark n.field ++ "\"" ++ " ".intercalate (n.terms.map (·.1.text)) ++ "\"" ++ slopMark n.slop ++
      boostMark n.boost
  | wildcard n => n.pattern.render ++ boostMark n.boost
  | fuzzy n => n.term.render ++ "~" ++ Decimal.fourPlaces n.minSimilarity ++ boostMark n.boost
  | range n => renderRange n
  | insignificant _ => "<InsignificantQuery>"
  | emptyResult _ => "<EmptyQuery>"
  | rawTerm n => fieldMark n.field ++ escapeWord n.word ++ boostMark n.boost
  | rawPhrase n => fieldMark n.field ++ "\"" ++ n.phrase ++ "\"" ++ slopMark n.slop ++ boostMark n.boost
  | rawFuzzy n => renderRawFuzzy n

def renderClauses : List (Occur × Query) → List String
  | [] => []
  | (occur, query) :: rest => (occur.sign ++ "(" ++ query.render ++ ")") :: renderClauses rest

end

end Query

end TextSearch
