import Std.Data.ExtTreeMap
import Std.Data.ExtTreeSet
import TextSearch.Analysis.Analyzer
import TextSearch.Index.Scoring

/-! An index from terms to the documents and positions they stand at. -/
namespace TextSearch

abbrev DocSet := Std.ExtTreeSet Nat

abbrev DocTable (α : Type) := Std.ExtTreeMap Nat α

def DocTable.docs {α : Type} (table : DocTable α) : DocSet := .ofList table.keys

/-- A term of a field, or of any field if it names none. -/
structure Term where
  field : Option String
  text : String
  deriving DecidableEq, Repr

namespace Term

def inField (field text : String) : Term := ⟨some field, text⟩

def render (t : Term) : String :=
  match t.field with
  | some field => field ++ ":" ++ t.text
  | none => t.text

end Term

/-- The value of a field of a document. A keyword is a single term as it is. -/
inductive FieldValue where
  | text (value : String)
  | keyword (value : String)
  deriving DecidableEq, Repr

/-- Named values, in order. A field may have several. -/
abbrev Document := List (String × FieldValue)

abbrev Postings := DocTable (List UInt32)

abbrev FieldPostings := Std.ExtTreeMap String Postings

/-- The terms of tokens with their positions, where `current` is the position of the token before them, and the
position of the last one. -/
def place (current : Int) : List Token → List (String × UInt32) × Int
  | [] => ([], current)
  | t :: rest =>
    let position := current + t.increment
    let (placed, last) := place position rest
    ((t.text, UInt32.ofInt (max position 0)) :: placed, last)

/-- The terms of a value with their positions, where `next` is free, and the next free position. -/
def FieldValue.store (analyzer : Analyzer) (next : UInt32) : FieldValue → List (String × UInt32) × UInt32
  | .keyword value => ([(value, next)], next + 1)
  | .text value =>
    let (placed, last) := place (next.toNat - 1) (analyzer.tokenize value)
    (placed, UInt32.ofInt (max (last + 1) next.toNat))

/-- Adds a position of a term in a document behind those it has there. -/
def FieldPostings.record (doc : Nat) (terms : FieldPostings) (term : String) (position : UInt32) :
    FieldPostings :=
  let old := terms.getD term ∅
  terms.insert term (old.insert doc (old.getD doc [] ++ [position]))

abbrev Norms := Std.ExtTreeMap (Nat × String) Float32 (compareLex (compareOn Prod.fst) (compareOn Prod.snd))

instance Norms.lawfulEqCmp :
    Std.LawfulEqCmp (compareLex (compareOn (Prod.fst : Nat × String → Nat)) (compareOn Prod.snd)) where
  eq_of_compare h := by
    obtain ⟨hdoc, hfield⟩ := compareLex_eq_eq.1 h
    exact Prod.ext (Std.compare_eq_iff_eq.1 hdoc) (Std.compare_eq_iff_eq.1 hfield)

/-- Documents are numbered from zero in the order in which they are added. Fields stand in the order in which
they were first named. -/
structure Index where
  analyzer : Analyzer
  fields : List String := []
  postings : Std.ExtTreeMap String FieldPostings := ∅
  norms : Norms := ∅
  docCount : Nat := 0

namespace Index

def fieldNames (ix : Index) : List String := ix.fields

def declare (ix : Index) (field : String) : Index :=
  if ix.fields.contains field then ix
  else { ix with fields := ix.fields ++ [field], postings := ix.postings.insertIfNew field ∅ }

/-- The index while a document is added, and the next free position in each field of the document. -/
structure Filling where
  index : Index
  next : Std.ExtTreeMap String UInt32 := ∅

def Filling.addValue (doc : Nat) (f : Filling) (entry : String × FieldValue) : Filling :=
  let (field, value) := entry
  let ix := f.index.declare field
  let (placed, after) := value.store ix.analyzer (f.next.getD field 0)
  let terms := placed.foldl (fun terms (term, position) => terms.record doc term position)
    (ix.postings.getD field ∅)
  { index := { ix with postings := ix.postings.insert field terms }, next := f.next.insert field after }

def Filling.norms (doc : Nat) (f : Filling) : List ((Nat × String) × Float32) :=
  f.next.toList.map fun (field, length) => ((doc, field), Scoring.lengthNorm length.toNat)

/-- Adds a document, which gets the next number. The number is returned. -/
def addDocument (ix : Index) (document : Document) : Nat × Index :=
  let doc := ix.docCount
  let filled := document.foldl (Filling.addValue doc) { index := { ix with docCount := doc + 1 } }
  (doc, { filled.index with norms := filled.index.norms.insertMany (filled.norms doc) })

def add (ix : Index) (document : Document) : Index := (ix.addDocument document).2

/-- The postings of a term. A term without a field has none. -/
def postings? (ix : Index) (t : Term) : Option Postings := do
  let terms ← ix.postings[← t.field]?
  terms[t.text]?

def hasTerm (ix : Index) (t : Term) : Bool := (ix.postings? t).isSome

def vocabulary (ix : Index) (field : String) : List String :=
  (ix.postings[field]?.map (·.keys)).getD []

def positions (ix : Index) (t : Term) : DocTable (List Nat) :=
  ((ix.postings? t).getD ∅).map fun _ positions => positions.map (·.toNat)

def docFrequency (ix : Index) (t : Term) : Nat := (ix.positions t).size

def termDocs (ix : Index) (t : Term) : DocSet := DocTable.docs (ix.positions t)

def frequencies (ix : Index) (t : Term) : DocTable Nat :=
  (ix.positions t).map fun _ positions => positions.length

def norm (ix : Index) (doc : Nat) (field : String) : Float32 :=
  ix.norms.getD (doc, field) 0

def rarity (ix : Index) (t : Term) : Float32 :=
  Scoring.rarity (ix.docFrequency t) ix.docCount

end Index

end TextSearch
