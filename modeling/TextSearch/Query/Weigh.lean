import TextSearch.Query.Basic

/-! Weights of query trees: created node by node, summed up to the root, and normalized from there down. -/
namespace TextSearch

namespace TermQuery

def newWeight (ix : Index) (n : TermQuery) : Weight :=
  .ofRarity (ix.rarity n.term) n.boost

def noWeight : Error := .internal "term weight is not initialized"

end TermQuery

namespace PhraseQuery

/-- The terms of a phrase are as rare as all of them together. -/
def newWeight (ix : Index) (n : PhraseQuery) : Weight :=
  .ofRarity ((n.terms.map fun (t, _) => ix.rarity t).foldl (· + ·) 0) n.boost

def noWeight : Error := .internal "phrase weight is not initialized"

end PhraseQuery

namespace MultiTermQuery

def newWeights (ix : Index) (n : MultiTermQuery) : List Weight :=
  n.terms.map fun (_, t) => .ofRarity (ix.rarity t) n.boost

def noWeights : Error := .internal "multi-term weights are not initialized"

/-- The sum over the terms that are not prohibited, or one if that is zero. -/
def sumOfSquares (n : MultiTermQuery) (weights : List Weight) : Float32 :=
  let counted := (weights.zip n.terms).filter fun (_, occur, _) => occur != .prohibited
  let sum := (counted.map fun (w, _) => w.sumOfSquares).foldl (· + ·) 0 * n.boost * n.boost
  if sum == 0 then 1 else sum

end MultiTermQuery

namespace Query

mutual

/-- Gives every node a new weight. Only resolved queries have weights; a failure leaves the nodes behind
it as they were. -/
def createWeight (ix : Index) : Query → Except Error Unit × Query
  | boolean clauses n =>
    match createWeights ix clauses with
    | (.ok (), clauses) => (.ok (), boolean clauses { n with weighted := true })
    | (.error e, clauses) => (.error e, boolean clauses n)
  | term n => (.ok (), term { n with weight := some (n.newWeight ix) })
  | multiTerm n => (.ok (), multiTerm { n with weights := some (n.newWeights ix) })
  | phrase n => (.ok (), phrase { n with weight := some (n.newWeight ix) })
  | insignificant b => (.ok (), insignificant b)
  | emptyResult b => (.ok (), emptyResult b)
  | wildcard n => (.error (notExpanded "Wildcard"), wildcard n)
  | fuzzy n => (.error (notExpanded "Fuzzy"), fuzzy n)
  | range n => (.error (notExpanded "Range"), range n)
  | rawTerm n => (.error notExecutable, rawTerm n)
  | rawPhrase n => (.error notExecutable, rawPhrase n)
  | rawFuzzy n => (.error notExecutable, rawFuzzy n)

def createWeights (ix : Index) : List (Occur × Query) → Except Error Unit × List (Occur × Query)
  | [] => (.ok (), [])
  | (occur, query) :: rest =>
    match query.createWeight ix with
    | (.error e, query) => (.error e, (occur, query) :: rest)
    | (.ok (), query) =>
      let (outcome, rest) := createWeights ix rest
      (outcome, (occur, query) :: rest)

end

def hasWeight : Query → Bool
  | boolean _ n => n.weighted
  | term n => n.weight.isSome
  | multiTerm n => n.weights.isSome
  | phrase n => n.weight.isSome
  | insignificant _ | emptyResult _ => true
  | _ => false

mutual

def sumOfSquares : Query → Except Error Float32
  | boolean clauses n => (sumOfClauses 0 clauses).map fun sum =>
    let sum := sum * (n.boost * n.boost)
    if sum == 0 then 1 else sum
  | term n =>
    match n.weight with
    | some w => .ok w.sumOfSquares
    | none => .error TermQuery.noWeight
  | multiTerm n =>
    match n.weights with
    | some ws => .ok (n.sumOfSquares ws)
    | none => .error MultiTermQuery.noWeights
  | phrase n =>
    match n.weight with
    | some w => .ok w.sumOfSquares
    | none => .error PhraseQuery.noWeight
  | insignificant _ | emptyResult _ => .ok 1
  | wildcard _ => .error (notExpanded "Wildcard")
  | fuzzy _ => .error (notExpanded "Fuzzy")
  | range _ => .error (notExpanded "Range")
  | rawTerm _ | rawPhrase _ | rawFuzzy _ => .error notExecutable

def sumOfClauses (sum : Float32) : List (Occur × Query) → Except Error Float32
  | [] => .ok sum
  | (occur, query) :: rest =>
    if occur = .prohibited then sumOfClauses sum rest
    else
      match query.sumOfSquares with
      | .error e => .error e
      | .ok s => sumOfClauses (sum + s) rest

end

mutual

/-- Multiplies a norm into the weights, and the boosts of combinations and term lists with it. -/
def normalize (norm : Float32) : Query → Except Error Unit × Query
  | boolean clauses n =>
    let (outcome, clauses) := normalizeClauses (norm * n.boost) clauses
    (outcome, boolean clauses n)
  | term n =>
    match n.weight with
    | some w => (.ok (), term { n with weight := some (w.normalize norm) })
    | none => (.error TermQuery.noWeight, term n)
  | multiTerm n =>
    match n.weights with
    | some ws => (.ok (), multiTerm { n with weights := some (ws.map (·.normalize (norm * n.boost))) })
    | none => (.error MultiTermQuery.noWeights, multiTerm n)
  | phrase n =>
    match n.weight with
    | some w => (.ok (), phrase { n with weight := some (w.normalize norm) })
    | none => (.error PhraseQuery.noWeight, phrase n)
  | insignificant b => (.ok (), insignificant b)
  | emptyResult b => (.ok (), emptyResult b)
  | wildcard n => (.error (notExpanded "Wildcard"), wildcard n)
  | fuzzy n => (.error (notExpanded "Fuzzy"), fuzzy n)
  | range n => (.error (notExpanded "Range"), range n)
  | rawTerm n => (.error notExecutable, rawTerm n)
  | rawPhrase n => (.error notExecutable, rawPhrase n)
  | rawFuzzy n => (.error notExecutable, rawFuzzy n)

def normalizeClauses (norm : Float32) : List (Occur × Query) → Except Error Unit × List (Occur × Query)
  | [] => (.ok (), [])
  | (occur, query) :: rest =>
    match query.normalize norm with
    | (.error e, query) => (.error e, (occur, query) :: rest)
    | (.ok (), query) =>
      let (outcome, rest) := normalizeClauses norm rest
      (outcome, (occur, query) :: rest)

end

def initWeight (ix : Index) (q : Query) : Except Error Unit × Query :=
  if q.hasWeight then (.ok (), q)
  else
    match q.createWeight ix with
    | (.error e, q) => (.error e, q)
    | (.ok (), q) =>
      match q.sumOfSquares with
      | .error e => (.error e, q)
      | .ok sum => q.normalize (Scoring.queryNorm sum)

mutual

def reset : Query → Query
  | boolean clauses n => boolean (resetClauses clauses) { n with weighted := false, docs := ∅ }
  | term n => term { n with weight := none, docs := ∅, frequencies := ∅ }
  | multiTerm n => multiTerm { n with weights := none, docs := ∅, frequencies := [] }
  | phrase n => phrase { n with weight := none, docs := ∅, frequencies := ∅ }
  | q => q

def resetClauses : List (Occur × Query) → List (Occur × Query)
  | [] => []
  | (occur, query) :: rest => (occur, query.reset) :: resetClauses rest

end

end Query

end TextSearch
