import TextSearch.Query.PhraseFrequency
import TextSearch.Query.Weigh

/-! The documents a query tree matches. -/
namespace TextSearch

def DocSet.filtered (docs : DocSet) (filter : Option DocSet) : DocSet :=
  match filter with
  | some allowed => docs ∩ allowed
  | none => docs

/-- The documents of signed parts: of all required parts, or without one of any optional part; but of no
prohibited part. -/
def DocSet.combine (parts : List (Occur × DocSet)) : DocSet :=
  let signed (occur : Occur) := (parts.filter (·.1 == occur)).map (·.2)
  let any (sets : List DocSet) : DocSet := sets.foldl (· ∪ ·) ∅
  let base := match signed .required with
    | [] => any (signed .optional)
    | first :: others => others.foldl (· ∩ ·) first
  base \ any (signed .prohibited)

/-- A norm handed down from above takes the place of a node's own. -/
def normOr (given : Option Float32) (sumOfSquares : Float32) : Float32 :=
  given.getD (Scoring.queryNorm sumOfSquares)

namespace TermQuery

/-- Has a normalized weight: a new one for a given norm, and otherwise the one it has. -/
def weigh (ix : Index) (given : Option Float32) (n : TermQuery) : TermQuery :=
  if n.weight.isSome && given.isNone then n
  else
    let w := n.newWeight ix
    { n with weight := some (w.normalize (normOr given w.sumOfSquares)) }

def find (ix : Index) (filter : Option DocSet) (n : TermQuery) : TermQuery :=
  let docs := DocSet.filtered (ix.termDocs n.term) filter
  { n with docs, frequencies := (ix.frequencies n.term).filter fun doc _ => docs.contains doc }

end TermQuery

namespace MultiTermQuery

def weigh (ix : Index) (given : Option Float32) (n : MultiTermQuery) : MultiTermQuery :=
  if n.weights.isSome && given.isNone then n
  else
    let ws := n.newWeights ix
    let norm := normOr given (n.sumOfSquares ws) * n.boost
    { n with weights := some (ws.map (·.normalize norm)) }

def find (ix : Index) (filter : Option DocSet) (n : MultiTermQuery) : MultiTermQuery :=
  { n with
    docs := DocSet.combine (n.terms.map fun (occur, t) => (occur, DocSet.filtered (ix.termDocs t) filter))
    frequencies := n.terms.map fun (_, t) => ix.frequencies t }

end MultiTermQuery

namespace PhraseQuery

def weigh (ix : Index) (given : Option Float32) (n : PhraseQuery) : PhraseQuery :=
  if n.weight.isSome && given.isNone then n
  else
    let w := n.newWeight ix
    { n with weight := some (w.normalize (normOr given w.sumOfSquares)) }

def candidates (ix : Index) (filter : Option DocSet) (n : PhraseQuery) : DocSet :=
  match n.terms.map fun (t, _) => ix.termDocs t with
  | [] => ∅
  | first :: others => DocSet.filtered (others.foldl (· ∩ ·) first) filter

def frequenciesIn (ix : Index) (n : PhraseQuery) (docs : DocSet) : DocTable Float32 :=
  let positions := n.terms.map fun (t, _) => ix.positions t
  .ofList (docs.toList.filterMap fun doc =>
    let frequency := n.frequency (positions.map (·.getD doc []))
    if frequency > 0 then some (doc, frequency) else none)

def find (ix : Index) (filter : Option DocSet) (n : PhraseQuery) : PhraseQuery :=
  let docs := n.candidates ix filter
  { n with docs, frequencies := n.frequenciesIn ix docs }

end PhraseQuery

namespace Query

def docs : Query → DocSet
  | boolean _ n => n.docs
  | term n => n.docs
  | multiTerm n => n.docs
  | phrase n => n.docs
  | _ => ∅

/-- The documents the last execution found. Only resolved queries can have any. -/
def matchedDocs (q : Query) : Except Error DocSet :=
  match q with
  | wildcard _ => .error (notExpanded "Wildcard")
  | fuzzy _ => .error (notExpanded "Fuzzy")
  | range _ => .error (notExpanded "Range")
  | rawTerm _ | rawPhrase _ | rawFuzzy _ => .error notExecutable
  | q => .ok q.docs

def combinedDocs (clauses : List (Occur × Query)) : DocSet :=
  DocSet.combine (clauses.map fun (occur, q) => (occur, q.docs))

def withDocs (n : Combination) (result : Except Error Unit × List (Occur × Query)) :
    Except Error Unit × Query :=
  match result with
  | (.ok (), clauses) => (.ok (), boolean clauses { n with docs := combinedDocs clauses })
  | (.error e, clauses) => (.error e, boolean clauses n)

mutual

/-- Executes a node. A given norm comes from a node above that has just created all weights; without one
a node that has weights keeps them, and any other creates weights for itself and all below it. -/
def executeGiven (ix : Index) (filter : Option DocSet) (given : Option Float32) :
    Query → Except Error Unit × Query
  | boolean clauses n =>
    match given with
    | some norm =>
      withDocs { n with weighted := true } (executeClauses ix filter (some (norm * n.boost)) clauses)
    | none =>
      if n.weighted then withDocs n (executeClauses ix filter none clauses)
      else
        match (boolean clauses n).createWeight ix with
        | (.error e, q) => (.error e, q)
        | (.ok (), q) =>
          match q.sumOfSquares with
          | .error e => (.error e, q)
          | .ok sum =>
            let norm := Scoring.queryNorm sum * n.boost
            withDocs { n with weighted := true } (executeClauses ix filter (some norm) clauses)
  | term n => (.ok (), term ((n.weigh ix given).find ix filter))
  | multiTerm n => (.ok (), multiTerm ((n.weigh ix given).find ix filter))
  | phrase n => (.ok (), phrase ((n.weigh ix given).find ix filter))
  | insignificant b => (.ok (), insignificant b)
  | emptyResult b => (.ok (), emptyResult b)
  | wildcard n => (.error (notExpanded "Wildcard"), wildcard n)
  | fuzzy n => (.error (notExpanded "Fuzzy"), fuzzy n)
  | range n => (.error (notExpanded "Range"), range n)
  | rawTerm n => (.error notExecutable, rawTerm n)
  | rawPhrase n => (.error notExecutable, rawPhrase n)
  | rawFuzzy n => (.error notExecutable, rawFuzzy n)

def executeClauses (ix : Index) (filter : Option DocSet) (given : Option Float32) :
    List (Occur × Query) → Except Error Unit × List (Occur × Query)
  | [] => (.ok (), [])
  | (occur, query) :: rest =>
    match query.executeGiven ix filter given with
    | (.error e, query) => (.error e, (occur, query) :: rest)
    | (.ok (), query) =>
      let (outcome, rest) := executeClauses ix filter given rest
      (outcome, (occur, query) :: rest)

end

/-- Finds the documents that match, among those of a filter if there is one. A failure leaves the nodes
behind it as they were. -/
def execute (ix : Index) (filter : Option DocSet) (q : Query) : Except Error Unit × Query :=
  q.executeGiven ix filter none

end Query

end TextSearch
