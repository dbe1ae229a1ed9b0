import TextSearch.Query.Basic

/-! Resolved query trees made cheaper to run, with the same matches. -/
namespace TextSearch

def TermQuery.optimize (ix : Index) (n : TermQuery) : Query :=
  if ix.hasTerm n.term then .term n else .emptyResult 1

/-- Drops the terms the index does not have; without a required one nothing matches. -/
def MultiTermQuery.optimize (ix : Index) (n : MultiTermQuery) : Query :=
  let known := n.terms.filter fun (_, t) => ix.hasTerm t
  if n.terms.any fun (occur, t) => occur == .required && !ix.hasTerm t then .emptyResult 1
  else if known.all fun (occur, _) => occur == .prohibited then .emptyResult 1
  else
    match known with
    | [(_, t)] => .ofTerm t n.boost
    | _ => .ofTerms known n.boost

def PhraseQuery.optimize (ix : Index) (n : PhraseQuery) : Query :=
  if n.terms.any fun (t, _) => !ix.hasTerm t then .emptyResult 1
  else
    match n.terms with
    | [] => .emptyResult 1
    | [(t, _)] => .ofTerm t n.boost
    | _ => .phrase n

namespace Query

structure SignedTerm where
  occur : Occur
  term : Term
  boost : Float32

/-- The signed terms a clause amounts to, if it amounts to any: a required list must have a required term
and no prohibited one, any other list only optional terms. -/
def signedTerms? : Occur × Query → Option (List SignedTerm)
  | (occur, term n) => some [⟨occur, n.term, n.boost⟩]
  | (occur, multiTerm n) =>
    let signs := n.terms.map (·.1)
    if occur = .required then
      if signs.contains .required && !signs.contains .prohibited then
        some (n.terms.map fun (sign, t) => ⟨sign, t, n.boost⟩)
      else none
    else if signs.all (· == .optional) then some (n.terms.map fun (_, t) => ⟨occur, t, n.boost⟩)
    else none
  | _ => none

def sameBoosts : List SignedTerm → Bool
  | a :: b :: rest => a.boost == b.boost && sameBoosts (b :: rest)
  | _ => true

/-- The clause for terms that are not prohibited, if one node can hold them. -/
def keptClause? (kept : List SignedTerm) : Option (List (Occur × Query)) :=
  match kept with
  | [] => some []
  | [t] => some [(t.occur, ofTerm t.term t.boost)]
  | t :: _ =>
    if sameBoosts kept then
      let occur := if kept.any (·.occur == .required) then .required else .optional
      some [(occur, ofTerms (kept.map fun t => (t.occur, t.term)) t.boost)]
    else none

/-- The clause for prohibited terms. Their boosts do not matter. -/
def prohibitedClause (terms : List SignedTerm) : List (Occur × Query) :=
  match terms with
  | [] => []
  | [t] => [(.prohibited, ofTerm t.term 1)]
  | _ => [(.prohibited, ofTerms (terms.map fun t => (.optional, t.term)) 1)]

/-- Gathers the terms among clauses into as few nodes as their boosts allow. -/
def mergeTerms (clauses : List (Occur × Query)) (boost : Float32) : Query :=
  let terms := (clauses.filterMap signedTerms?).flatten
  let others := clauses.filter fun c => (signedTerms? c).isNone
  match terms with
  | [] => ofClauses clauses boost
  | first :: _ =>
    if others.isEmpty && sameBoosts terms then
      ofTerms (terms.map fun t => (t.occur, t.term)) (first.boost * boost)
    else
      match keptClause? (terms.filter (·.occur != .prohibited)) with
      | none => ofClauses clauses boost
      | some kept =>
        ofClauses (others ++ kept ++ prohibitedClause (terms.filter (·.occur == .prohibited))) boost

def allProhibited (clauses : List (Occur × Query)) : Bool :=
  clauses.all fun (occur, _) => occur == .prohibited

def combineOptimized (clauses : List (Occur × Query)) (boost : Float32) : Query :=
  let significant := clauses.filter fun (_, q) => !q.isInsignificant
  let matching := significant.filter fun (_, q) => !q.isEmptyResult
  if allProhibited significant then insignificant 1
  else if significant.any fun (occur, q) => q.isEmptyResult && occur == .required then emptyResult 1
  else if allProhibited matching then emptyResult 1
  else
    match matching with
    | [(_, q)] => q.withBoost (q.boost * boost)
    | _ => mergeTerms matching boost

mutual

/-- Drops clauses that cannot match and gathers terms. Only resolved queries can be optimized. -/
def optimize (ix : Index) : Query → Except Error Query
  | boolean clauses n => (optimizeClauses ix clauses).map fun clauses => combineOptimized clauses n.boost
  | term n => .ok (n.optimize ix)
  | multiTerm n => .ok (n.optimize ix)
  | phrase n => .ok (n.optimize ix)
  | insignificant b => .ok (insignificant b)
  | emptyResult b => .ok (emptyResult b)
  | wildcard _ => .error (notExpanded "Wildcard")
  | fuzzy _ => .error (notExpanded "Fuzzy")
  | range _ => .error (notExpanded "Range")
  | rawTerm _ | rawPhrase _ | rawFuzzy _ => .error notExecutable

def optimizeClauses (ix : Index) : List (Occur × Query) → Except Error (List (Occur × Query))
  | [] => .ok []
  | (occur, query) :: rest =>
    match query.optimize ix with
    | .error e => .error e
    | .ok query => (optimizeClauses ix rest).map fun rest => (occur, query) :: rest

end

end Query

end TextSearch
