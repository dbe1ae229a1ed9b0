import TextSearch.Query.Render

/-! The entries of a query string: words, phrases and what stands in brackets. -/
namespace TextSearch

inductive Entry where
  | term (word : String) (field : Option String) (similarity : Option Float32) (boost : Float32)
  | phrase (text : String) (field : Option String) (slop : Option UInt32) (boost : Float32)
  | subquery (query : Query) (boost : Float32)

namespace Entry

def ofWord (word : String) (field : Option String) : Entry := term word field none 1

def ofPhrase (text : String) (field : Option String) : Entry := phrase text field none 1

def ofQuery (query : Query) : Entry := subquery query 1

/-- A distance without its fraction, zero if it is negative. -/
def slopOf (distance : Float32) : UInt32 := distance.toUInt32

def loosen (parameter : Option Float32) : Entry → Except Error Entry
  | term word field _ boost => .ok (term word field (some (parameter.getD defaultSimilarity)) boost)
  | phrase text field _ boost => .ok (phrase text field (some (parameter.elim 0 slopOf)) boost)
  | subquery .. => .error (.syntactic "'~' sign must follow term or phrase" none)

def multiplyBoost (factor : Float32) : Entry → Entry
  | term word field similarity boost => term word field similarity (boost * factor)
  | phrase text field slop boost => phrase text field slop (boost * factor)
  | subquery query boost => subquery query (boost * factor)

def toQuery : Entry → Except Error Query
  | term word field (some minSimilarity) boost =>
    (FuzzyQuery.checkSimilarity minSimilarity).map fun _ => .rawFuzzy { word, field, minSimilarity, boost }
  | term word field none boost => .ok (.rawTerm { word, field, boost })
  | phrase text field slop boost => .ok (.rawPhrase { phrase := text, field, slop := slop.getD 0, boost })
  | subquery query boost => .ok (query.withBoost (query.boost * boost))

end Entry

end TextSearch
