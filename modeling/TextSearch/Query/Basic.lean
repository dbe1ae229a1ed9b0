import TextSearch.Error
import TextSearch.Index.Basic

/-! Query trees. A node holds what it was built from and, beside it, what the last expansion, weighting or
execution left in it. -/
namespace TextSearch

inductive Occur where
  | required
  | optional
  | prohibited
  deriving DecidableEq, Repr

namespace Occur

def sign : Occur → String
  | required => "+"
  | optional => ""
  | prohibited => "-"

def ofJunction : Junction → Occur
  | .and => required
  | .or => optional

end Occur

/-- The part of a score that does not depend on the document. -/
structure Weight where
  rarity : Float32
  queryWeight : Float32
  queryNorm : Float32 := 1
  value : Float32 := 0

namespace Weight

def ofRarity (rarity boost : Float32) : Weight where
  rarity := rarity
  queryWeight := rarity * boost

def sumOfSquares (w : Weight) : Float32 := w.queryWeight * w.queryWeight

def normalize (norm : Float32) (w : Weight) : Weight :=
  let queryWeight := w.queryWeight * norm
  { w with queryNorm := norm, queryWeight, value := queryWeight * w.rarity }

end Weight

structure TermQuery where
  term : Term
  boost : Float32 := 1
  weight : Option Weight := none
  docs : DocSet := ∅
  frequencies : DocTable Nat := ∅

/-- Documents with signed terms, scored together. There is a weight and a table of frequencies for each term. -/
structure MultiTermQuery where
  terms : List (Occur × Term)
  boost : Float32 := 1
  weights : Option (List Weight) := none
  docs : DocSet := ∅
  frequencies : List (DocTable Nat) := []

/-- Documents with terms at offsets from a common start, out of place by no more than the slop in all. Those with every
term in whatever place are its documents; it has frequencies in the ones where it occurs. -/
structure PhraseQuery where
  terms : List (Term × UInt32) := []
  slop : UInt32 := 0
  boost : Float32 := 1
  weight : Option Weight := none
  docs : DocSet := ∅
  frequencies : DocTable Float32 := ∅

structure WildcardQuery where
  pattern : Term
  boost : Float32 := 1
  minPrefixLength : Nat := 3
  termsLimit : Nat := 1024
  matched : Option (List Term) := none

structure FuzzyQuery where
  term : Term
  minSimilarity : Float32
  prefixLength : Nat := 3
  boost : Float32 := 1
  termsLimit : Nat := 1024
  matched : Option (List Term) := none

/-- Terms between two bounds, of which one may be missing. -/
structure RangeQuery where
  field : Option String
  lower : Option String
  upper : Option String
  inclusive : Bool
  boost : Float32 := 1
  termsLimit : Nat := 1024
  matched : Option (List Term) := none
  bounded : lower.isSome || upper.isSome

/-- A word of a query string, not yet looked up. -/
structure RawTerm where
  word : String
  field : Option String
  boost : Float32 := 1
  matched : Option (List Term) := none

structure RawPhrase where
  phrase : String
  field : Option String
  slop : UInt32 := 0
  boost : Float32 := 1
  matched : Option (List Term) := none

structure RawFuzzy where
  word : String
  field : Option String
  minSimilarity : Float32
  boost : Float32 := 1
  matched : Option (List Term) := none

/-- What a combination holds beside its clauses. -/
structure Combination where
  boost : Float32 := 1
  weighted : Bool := false
  docs : DocSet := ∅

/-- Query trees. Insignificant nodes and empty results match nothing, but a combination goes on as if an insignificant
node were not there. -/
inductive Query where
  | boolean (clauses : List (Occur × Query)) (node : Combination)
  | term (node : TermQuery)
  | multiTerm (node : MultiTermQuery)
  | phrase (node : PhraseQuery)
  | wildcard (node : WildcardQuery)
  | fuzzy (node : FuzzyQuery)
  | range (node : RangeQuery)
  | insignificant (boost : Float32)
  | emptyResult (boost : Float32)
  | rawTerm (node : RawTerm)
  | rawPhrase (node : RawPhrase)
  | rawFuzzy (node : RawFuzzy)

namespace Query

def ofClauses (clauses : List (Occur × Query)) (boost : Float32) : Query :=
  boolean clauses { boost }

def ofTerm (t : Term) (boost : Float32) : Query := term { term := t, boost }

def ofTerms (terms : List (Occur × Term)) (boost : Float32) : Query := multiTerm { terms, boost }

def kindName : Query → String
  | boolean .. => "boolean"
  | term _ => "term"
  | multiTerm _ => "multi_term"
  | phrase _ => "phrase"
  | wildcard _ => "wildcard"
  | fuzzy _ => "fuzzy"
  | range _ => "range"
  | insignificant _ => "insignificant"
  | emptyResult _ => "empty_result"
  | rawTerm _ => "preprocessing_term"
  | rawPhrase _ => "preprocessing_phrase"
  | rawFuzzy _ => "preprocessing_fuzzy"

def boost : Query → Float32
  | boolean _ n => n.boost
  | term n => n.boost
  | multiTerm n => n.boost
  | phrase n => n.boost
  | wildcard n => n.boost
  | fuzzy n => n.boost
  | range n => n.boost
  | insignificant b => b
  | emptyResult b => b
  | rawTerm n => n.boost
  | rawPhrase n => n.boost
  | rawFuzzy n => n.boost

def withBoost (b : Float32) : Query → Query
  | boolean clauses n => boolean clauses { n with boost := b }
  | term n => term { n with boost := b }
  | multiTerm n => multiTerm { n with boost := b }
  | phrase n => phrase { n with boost := b }
  | wildcard n => wildcard { n with boost := b }
  | fuzzy n => fuzzy { n with boost := b }
  | range n => range { n with boost := b }
  | insignificant _ => insignificant b
  | emptyResult _ => emptyResult b
  | rawTerm n => rawTerm { n with boost := b }
  | rawPhrase n => rawPhrase { n with boost := b }
  | rawFuzzy n => rawFuzzy { n with boost := b }

def isInsignificant : Query → Bool
  | insignificant _ => true
  | _ => false

def isEmptyResult : Query → Bool
  | emptyResult _ => true
  | _ => false

def notExpanded (what : String) : Error :=
  .unsupported s!"{what} query should not be directly used for search. Use rewrite() first."

def notExecutable : Error := .unsupported "This query is not intended to be executed."

def recorded (matched : Option (List Term)) : Except Error (List Term) :=
  match matched with
  | some terms => .ok terms
  | none => .error (.unsupported "Rewrite operation has to be done before retrieving query terms.")

mutual

/-- The terms whose documents a query matches. Prohibited clauses do not count, and nodes that stand for
terms know them only once they were expanded. -/
def terms : Query → Except Error (List Term)
  | boolean clauses _ => clauseTerms clauses
  | term n => .ok [n.term]
  | multiTerm n => .ok ((n.terms.filter (·.1 != .prohibited)).map (·.2))
  | phrase n => .ok (n.terms.map (·.1))
  | insignificant _ | emptyResult _ => .ok []
  | wildcard n => recorded n.matched
  | fuzzy n => recorded n.matched
  | range n => recorded n.matched
  | rawTerm n => recorded n.matched
  | rawPhrase n => recorded n.matched
  | rawFuzzy n => recorded n.matched

def clauseTerms : List (Occur × Query) → Except Error (List Term)
  | [] => .ok []
  | (occur, query) :: rest =>
    if occur = .prohibited then clauseTerms rest
    else
      match query.terms with
      | .error e => .error e
      | .ok found => (clauseTerms rest).map (found ++ ·)

end

def matchedWords (q : Query) : Except Error (List String) :=
  q.terms.map (·.map (·.text))

end Query

/-- Appends a term. Weights and matches are those of the terms before it. -/
def MultiTermQuery.addTerm (n : MultiTermQuery) (occur : Occur) (t : Term) : MultiTermQuery :=
  { n with terms := n.terms ++ [(occur, t)] }

namespace PhraseQuery

def ofTerms (terms : List Term) : PhraseQuery where
  terms := terms.zipIdx.map fun (t, i) => (t, UInt32.ofNat i)

def field (p : PhraseQuery) : Option String :=
  p.terms.head?.bind (·.1.field)

/-- Where the next term goes: behind the last one. -/
def nextOffset (p : PhraseQuery) : UInt32 :=
  match p.terms.getLast? with
  | some (_, offset) => offset + 1
  | none => 0

/-- Appends a term at an offset, or else behind the last one. All terms have the field of the first. -/
def addTerm (p : PhraseQuery) (t : Term) (offset : Option UInt32) : Except Error PhraseQuery :=
  let added := { p with terms := p.terms ++ [(t, offset.getD p.nextOffset)] }
  match p.terms with
  | [] => .ok added
  | (first, _) :: _ =>
    if first.field = t.field then .ok added
    else .error (.semantic ("All phrase terms must be in the same field: " ++ t.field.getD "" ++ ":" ++ t.text))

end PhraseQuery

namespace FuzzyQuery

/-- The similarity a match needs is at least zero and less than one. -/
def checkSimilarity (s : Float32) : Except Error Unit :=
  if s < 0 then .error (.semantic "Minimum similarity cannot be less than 0.")
  else if s ≥ 1 then .error (.semantic "Minimum similarity cannot be greater than or equal to 1.")
  else .ok ()

end FuzzyQuery

namespace RangeQuery

def between (lower upper : Option Term) (inclusive : Bool) : Except Error RangeQuery :=
  match lower, upper with
  | none, none => .error (.semantic "At least one range boundary must be specified.")
  | some l, none =>
    .ok { field := l.field, lower := some l.text, upper := none, inclusive, bounded := rfl }
  | none, some u =>
    .ok { field := u.field, lower := none, upper := some u.text, inclusive, bounded := rfl }
  | some l, some u =>
    if l.field = u.field then
      .ok { field := l.field, lower := some l.text, upper := some u.text, inclusive, bounded := rfl }
    else .error (.semantic "Both range boundaries must be for the same field.")

end RangeQuery

end TextSearch
