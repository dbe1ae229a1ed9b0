import TextSearch.Query.Basic
import TextSearch.Text.EditDistance
import TextSearch.Text.Glob

/-! Patterns, ranges and similar words expanded into the terms of an index. -/
namespace TextSearch

def Index.fieldsOf (ix : Index) (field : Option String) : List String :=
  match field with
  | some field => [field]
  | none => ix.fieldNames

/-- Terms within a limit; zero is none. -/
def withinLimit {α : Type} (limit : Nat) (found : List α) : Except Error (List α) :=
  if limit ≠ 0 ∧ found.length > limit then .error (.tooManyTerms limit) else .ok found

/-- Adds what is found in a term to what was found before it, unless that exceeds the limit. -/
def collectTerm {α : Type} (limit : Nat) (find? : Term → Option α) (found : List α) (t : Term) :
    Except Error (List α) :=
  match find? t with
  | none => .ok found
  | some a => withinLimit limit (found ++ [a])

/-- What is found in the terms of fields, field by field. The first term beyond the limit ends the search. -/
def Index.collect {α : Type} (ix : Index) (fields : List String) (limit : Nat) (find? : Term → Option α) :
    Except Error (List α) :=
  fields.foldlM (fun found field => (ix.vocabulary field).foldlM (fun found text =>
    collectTerm limit find? found (.inField field text)) found) []

def Query.ofMatches (terms : List Term) (boost : Float32) : Query :=
  match terms with
  | [] => .emptyResult 1
  | [t] => .ofTerm t boost
  | _ => .ofTerms (terms.map fun t => (.optional, t)) boost

/-- A query in place of a node and the terms the node is found to stand for. -/
structure Expansion where
  query : Query
  matched : List Term

namespace WildcardQuery

def literalStart (w : WildcardQuery) : List Char := Glob.literalStart w.pattern.text.toList

def hasWildcards (w : WildcardQuery) : Bool := w.pattern.text.toList.any Glob.isWildcard

/-- The whole text of a term has to match, and it has to start as the pattern does. -/
def accepts (w : WildcardQuery) (t : Term) : Bool :=
  w.literalStart.isPrefixOf t.text.toList && Glob.accepts w.pattern.text.toList t.text.toList

def expand (w : WildcardQuery) (ix : Index) : Except Error Expansion :=
  if w.literalStart.length < w.minPrefixLength then
    .error (.semantic
      s!"At least {w.minPrefixLength} non-wildcard characters are required at the beginning of pattern.")
  else
    (ix.collect (ix.fieldsOf w.pattern.field) w.termsLimit (Option.guard w.accepts)).map fun found =>
      ⟨.ofMatches found w.boost, found⟩

end WildcardQuery

namespace RangeQuery

/-- Texts are ordered by the code points of their characters. -/
def accepts (r : RangeQuery) (t : Term) : Bool :=
  let above := match r.lower with
    | none => true
    | some l => if r.inclusive then !(t.text < l) else l < t.text
  let below := match r.upper with
    | none => true
    | some u => if r.inclusive then !(u < t.text) else t.text < u
  above && below

def expand (r : RangeQuery) (ix : Index) : Except Error Expansion :=
  (ix.collect (ix.fieldsOf r.field) r.termsLimit (Option.guard r.accepts)).map fun found =>
    ⟨.ofMatches found r.boost, found⟩

end RangeQuery

/-- Numbers that can measure similarities; `whole` drops the fraction. -/
class Gauge (α : Type) where
  ofCount : Nat → α
  whole : α → Nat

instance : Gauge Float32 where
  ofCount := Nat.toFloat32
  whole x := x.toUInt64.toNat

namespace Similarity

variable {α : Type} [Gauge α] [Sub α] [Mul α] [Div α] [LT α] [DecidableLT α]

/-- How similar two texts are that have `common` characters of a start in common and go on with `rest` and
`target`. Texts of too different lengths are not compared. -/
def ofRests (least : α) (common : Nat) (rest target : List Char) : α :=
  let one : α := Gauge.ofCount 1
  let r := rest.length
  let q := target.length
  if r = 0 then
    if common = 0 then Gauge.ofCount 0 else one - Gauge.ofCount q / Gauge.ofCount common
  else if q = 0 then
    if common = 0 then Gauge.ofCount 0 else one - Gauge.ofCount r / Gauge.ofCount common
  else
    let most := Gauge.whole ((one - least) * Gauge.ofCount (min r q + common))
    if most < max r q - min r q then Gauge.ofCount 0
    else
      let distance := editDistance (String.ofList rest) (String.ofList target)
      one - Gauge.ofCount distance / Gauge.ofCount (common + min r q)

/-- How similar a text is to a word, if it starts with as many characters of the word as it must. -/
def ofTexts? (least : α) (prefixLength : Nat) (word text : List Char) : Option α :=
  let start := word.take prefixLength
  if start.isPrefixOf text then
    some (ofRests least start.length (word.drop prefixLength) (text.drop start.length))
  else none

def score? (least : α) (prefixLength : Nat) (word text : List Char) : Option α := do
  let s ← ofTexts? least prefixLength word text
  if least < s then
    let one : α := Gauge.ofCount 1
    some ((s - least) * (one / (one - least)))
  else none

end Similarity

def Index.similarTerms {α : Type} [Gauge α] [Sub α] [Mul α] [Div α] [LT α] [DecidableLT α] (ix : Index)
    (fields : List String) (limit : Nat) (least : α) (prefixLength : Nat) (word : String) :
    Except Error (List (Term × α)) :=
  ix.collect fields limit fun t =>
    (Similarity.score? least prefixLength word.toList t.text.toList).map (t, ·)

namespace FuzzyQuery

def similarity? (f : FuzzyQuery) (t : Term) : Option Float32 :=
  Similarity.ofTexts? f.minSimilarity f.prefixLength f.term.text.toList t.text.toList

def score? (f : FuzzyQuery) (t : Term) : Option Float32 :=
  Similarity.score? f.minSimilarity f.prefixLength f.term.text.toList t.text.toList

/-- Higher scores first; equal ones in the order of fields and texts. -/
def ranksBefore (a b : Term × Float32) : Bool :=
  if b.2 < a.2 then true
  else if a.2 < b.2 then false
  else
    let fieldA := a.1.field.getD ""
    let fieldB := b.1.field.getD ""
    fieldA < fieldB || (fieldA == fieldB && !(b.1.text < a.1.text))

def maxClauses : Nat := 1024

def ofScored (scored : List (Term × Float32)) (boost : Float32) : Query :=
  match scored with
  | [] => .emptyResult 1
  | [(t, _)] => .ofTerm t boost
  | _ => .ofClauses ((scored.take maxClauses).map fun (t, score) => (.optional, .ofTerm t score)) boost

def expand (f : FuzzyQuery) (ix : Index) : Except Error Expansion :=
  let similar :=
    ix.similarTerms (ix.fieldsOf f.term.field) f.termsLimit f.minSimilarity f.prefixLength f.term.text
  similar.map fun found =>
    let ranked := found.mergeSort ranksBefore
    ⟨ofScored ranked f.boost, ranked.map (·.1)⟩

end FuzzyQuery

end TextSearch
