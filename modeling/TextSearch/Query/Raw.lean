import TextSearch.Query.Context
import TextSearch.Query.Expand

/-! Words and phrases of a query string looked up in an index. -/
namespace TextSearch

namespace Expansion

def ofQuery (query : Query) : Except Error Expansion :=
  query.terms.map fun found => ⟨query, found⟩

end Expansion

/-- The pattern with its literal parts analyzed. `part` holds the open part, the last character first. A
part may be one term at most. -/
def analyzePatternAfter (analyzer : Analyzer) (part : List Char) : List Char → Except Error (List Char)
  | [] => literal part
  | c :: rest =>
    if Glob.isWildcard c then
      match literal part with
      | .error e => .error e
      | .ok text => (analyzePatternAfter analyzer [] rest).map fun pattern => text ++ c :: pattern
    else analyzePatternAfter analyzer (c :: part) rest
where
  literal (part : List Char) : Except Error (List Char) :=
    match analyzer.terms (String.ofList part.reverse) with
    | [] => .ok []
    | [t] => .ok t.toList
    | _ => .error (.semantic "Wildcard search is supported only for non-multiple word terms")

def analyzePattern (analyzer : Analyzer) (word : String) : Except Error String :=
  (analyzePatternAfter analyzer [] word.toList).map String.ofList

def Query.ofWords (field : String) (words : List String) (boost : Float32) : Query :=
  match words with
  | [] => .insignificant 1
  | [w] => .ofTerm (.inField field w) boost
  | _ => .ofTerms (words.map fun w => (.required, .inField field w)) boost

def eachField {α : Type} (step : String → Except Error α) : List String → Except Error (List α)
  | [] => .ok []
  | field :: rest =>
    match step field with
    | .error e => .error e
    | .ok a => (eachField step rest).map (a :: ·)

/-- What a part found in no field is: without meaning if it was so in some field. -/
def Query.ofNothing (found : List Query) : Query :=
  if found.any isInsignificant then .insignificant 1 else .emptyResult 1

namespace RawTerm

/-- Looks a word up in a field: as it is, then as a pattern, then as analyzed text. -/
def expandIn (k : Context) (ix : Index) (word field : String) (boost : Float32) : Except Error Expansion :=
  let exact := Term.inField field word
  if ix.hasTerm exact then .ok ⟨.ofTerm exact boost, [exact]⟩
  else if word.toList.any Glob.isWildcard then
    match analyzePattern k.analyzer word with
    | .error e => .error e
    | .ok pattern =>
      let node : WildcardQuery := {
        pattern := .inField field pattern
        boost
        minPrefixLength := k.wildcardMinPrefixLength
        termsLimit := k.termsLimit }
      node.expand ix
  else Expansion.ofQuery (.ofWords field (k.analyzer.terms word) boost)

def expandEverywhere (k : Context) (ix : Index) (word : String) (boost : Float32) : Except Error Query :=
  match eachField (fun field => (expandIn k ix word field 1).map (·.query)) (k.searchFields ix) with
  | .error e => .error e
  | .ok found =>
    match found.mapM Query.terms with
    | .error e => .error e
    | .ok terms =>
      match terms.flatten with
      | [] => .ok (.ofNothing found)
      | terms => .ok (.ofTerms (terms.map fun t => (.optional, t)) boost)

def expand (k : Context) (ix : Index) (n : RawTerm) : Except Error Expansion :=
  match n.field with
  | some field => expandIn k ix n.word field n.boost
  | none => (expandEverywhere k ix n.word n.boost).bind Expansion.ofQuery

end RawTerm

namespace RawPhrase

/-- Terms at the offsets of their tokens; the first of them stands at its increment less one. -/
def placed (field : String) (tokens : List Token) : List (Term × UInt32) :=
  (place (-1) tokens).1.map fun (text, position) => (.inField field text, position)

def expandIn (k : Context) (ix : Index) (phrase field : String) (slop : UInt32) (boost : Float32) : Query :=
  let exact := Term.inField field phrase
  if ix.hasTerm exact then .ofTerm exact boost
  else
    let tokens := k.analyzer.tokenize phrase
    match tokens with
    | [] | [_] => .ofWords field (tokens.map (·.text)) boost
    | _ => .phrase { terms := placed field tokens, slop, boost }

def expand (k : Context) (ix : Index) (n : RawPhrase) : Except Error Expansion :=
  Expansion.ofQuery (match n.field with
    | some field => expandIn k ix n.phrase field n.slop n.boost
    | none => .ofClauses ((k.searchFields ix).map fun field =>
        (.optional, expandIn k ix n.phrase field n.slop 1)) n.boost)

end RawPhrase

namespace RawFuzzy

def similarTo (k : Context) (ix : Index) (t : Term) (similarity boost : Float32) : Except Error Expansion := do
  FuzzyQuery.checkSimilarity similarity
  let node : FuzzyQuery := {
    term := t
    minSimilarity := similarity
    prefixLength := k.fuzzyPrefixLength
    boost
    termsLimit := k.termsLimit }
  node.expand ix

def expandIn (k : Context) (ix : Index) (word field : String) (similarity boost : Float32) :
    Except Error Expansion :=
  let exact := Term.inField field word
  if ix.hasTerm exact then similarTo k ix exact similarity boost
  else if word.toList.any Glob.isWildcard then
    .error (.semantic "Fuzzy search doesn't support wildcards (except within Keyword fields).")
  else
    match k.analyzer.terms word with
    | [] => .ok ⟨.insignificant 1, []⟩
    | [t] => similarTo k ix (.inField field t) similarity boost
    | _ => .error (.semantic "Fuzzy search is supported only for non-multiple word terms")

/-- Queries of several fields as one; the boost replaces that of a single query. -/
def ofFields (found : List Query) (boost : Float32) : Query :=
  match found.filter fun q => !q.isInsignificant && !q.isEmptyResult with
  | [] => .ofNothing found
  | [q] => q.withBoost boost
  | qs => .ofClauses (qs.map fun q => (.optional, q)) boost

def expand (k : Context) (ix : Index) (n : RawFuzzy) : Except Error Expansion :=
  match n.field with
  | some field => expandIn k ix n.word field n.minSimilarity n.boost
  | none =>
    match eachField (fun field => expandIn k ix n.word field n.minSimilarity 1) (k.searchFields ix) with
    | .error e => .error e
    | .ok found => Expansion.ofQuery (ofFields (found.map (·.query)) n.boost)

end RawFuzzy

end TextSearch
