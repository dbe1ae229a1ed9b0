import TextSearch.Query.Execute

/-! Scores of documents by an executed query tree. -/
namespace TextSearch

/-- A sum of scores with the number of parts that match and of those that could. -/
structure Tally where
  score : Float32 := 0
  matched : Nat := 0
  most : Nat := 0

namespace Tally

def miss (t : Tally) : Tally := { t with most := t.most + 1 }

def hit (t : Tally) (score : Float32) : Tally :=
  { score := t.score + score, matched := t.matched + 1, most := t.most + 1 }

def total (t : Tally) (boost : Float32) : Float32 :=
  t.score * Scoring.overlapFactor t.matched t.most * boost

end Tally

def TermQuery.score (ix : Index) (doc : Nat) (n : TermQuery) : Except Error Float32 :=
  match n.frequencies[doc]? with
  | none => .ok 0
  | some frequency =>
    match n.weight with
    | none => .error TermQuery.noWeight
    | some w =>
      .ok (Scoring.termFactor frequency.toFloat32 * w.value * ix.norm doc (n.term.field.getD "") * n.boost)

def PhraseQuery.score (ix : Index) (doc : Nat) (n : PhraseQuery) : Except Error Float32 :=
  match n.frequencies[doc]? with
  | none => .ok 0
  | some frequency =>
    match n.weight with
    | none => .error PhraseQuery.noWeight
    | some w =>
      .ok (Scoring.termFactor frequency * w.value * ix.norm doc (n.field.getD "") * n.boost)

namespace MultiTermQuery

/-- A term that was added behind the weights has none. -/
def missingWeight : Error := .internal "multi-term weights do not cover every term"

def tally (ix : Index) (doc : Nat) (t : Tally) :
    List (Occur × Term) → List Weight → List (DocTable Nat) → Except Error Tally
  | [], _, _ => .ok t
  | (occur, term) :: terms, weights, frequencies =>
    if occur = .prohibited then tally ix doc t terms weights.tail frequencies.tail
    else
      match frequencies.head?.bind (·[doc]?) with
      | none => tally ix doc t.miss terms weights.tail frequencies.tail
      | some frequency =>
        match weights.head? with
        | none => .error missingWeight
        | some w =>
          let score :=
            Scoring.termFactor frequency.toFloat32 * w.value * ix.norm doc (term.field.getD "")
          tally ix doc (t.hit score) terms weights.tail frequencies.tail

def score (ix : Index) (doc : Nat) (n : MultiTermQuery) : Except Error Float32 :=
  if n.docs.contains doc then
    match n.weights with
    | none => .error noWeights
    | some ws => (tally ix doc {} n.terms ws n.frequencies).map (·.total n.boost)
  else .ok 0

end MultiTermQuery

namespace Query

mutual

def score (ix : Index) (doc : Nat) : Query → Except Error Float32
  | boolean clauses n =>
    if n.docs.contains doc then
      (tallyClauses ix doc {} clauses).map fun
        | some t => t.total n.boost
        | none => 0
    else .ok 0
  | term n => n.score ix doc
  | multiTerm n => n.score ix doc
  | phrase n => n.score ix doc
  | insignificant _ | emptyResult _ => .ok 0
  | wildcard _ => .error (notExpanded "Wildcard")
  | fuzzy _ => .error (notExpanded "Fuzzy")
  | range _ => .error (notExpanded "Range")
  | rawTerm _ | rawPhrase _ | rawFuzzy _ => .error notExecutable

/-- Adds the scores of clauses up; there is no sum if a prohibited clause scores or a required one does
not. -/
def tallyClauses (ix : Index) (doc : Nat) (t : Tally) :
    List (Occur × Query) → Except Error (Option Tally)
  | [] => .ok (some t)
  | (occur, query) :: rest =>
    match query.score ix doc with
    | .error e => .error e
    | .ok s =>
      if s == 0 then
        match occur with
        | .prohibited => tallyClauses ix doc t rest
        | .required => .ok none
        | .optional => tallyClauses ix doc t.miss rest
      else if occur = .prohibited then .ok none
      else tallyClauses ix doc (t.hit s) rest

end

end Query

end TextSearch
