import TextSearch.Proofs.Candidates
import TextSearch.Proofs.Positions

/-! What an index promises after any changes: its fields, the documents and positions of each term, and the
length factors of fields. All of it is told from the documents that were added. -/
namespace TextSearch

namespace FieldPostings

/-- No term is kept without a document, and no document of a term without a position. -/
structure Tidy (terms : FieldPostings) : Prop where
  ne_empty : ∀ (text : String) (postings : Postings), terms[text]? = some postings → postings ≠ ∅
  ne_nil : ∀ (text : String) (doc : Nat) (positions : List UInt32),
    (terms.getD text ∅)[doc]? = some positions → positions ≠ []

theorem tidy_empty : Tidy ∅ where
  ne_empty _ _ h := by simp at h
  ne_nil _ _ _ h := by simp at h

variable {terms : FieldPostings}

theorem Tidy.record (h : Tidy terms) (doc : Nat) (term : String) (position : UInt32) :
    Tidy (terms.record doc term position) := by
  constructor
  · intro text postings ht
    simp only [FieldPostings.record, Std.ExtTreeMap.getElem?_insert] at ht
    split at ht
    · cases ht
      exact Std.ExtTreeMap.insert_ne_empty
    · exact h.ne_empty text postings ht
  · intro text d positions hd
    simp only [FieldPostings.record, Std.ExtTreeMap.getD_insert] at hd
    split at hd
    · rw [Std.ExtTreeMap.getElem?_insert] at hd
      split at hd
      · cases hd
        exact List.append_ne_nil_of_right_ne_nil _ nofun
      · exact h.ne_nil term d positions hd
    · exact h.ne_nil text d positions hd

theorem Tidy.recordAll (h : Tidy terms) (doc : Nat) (placed : List (String × UInt32)) :
    Tidy (recordAll terms doc placed) := by
  induction placed generalizing terms with
  | nil => exact h
  | cons p rest ih => exact ih (h.record doc p.1 p.2)

/-- Where a document has a term is told by its positions. -/
theorem Tidy.getElem?_eq (h : Tidy terms) (text : String) (doc : Nat) :
    (terms.getD text ∅)[doc]? =
      if positionsOf terms text doc = [] then none else some (positionsOf terms text doc) := by
  have hpositions : positionsOf terms text doc = (terms.getD text ∅)[doc]?.getD [] :=
    Std.ExtTreeMap.getD_eq_getD_getElem?
  rw [hpositions]
  cases hd : (terms.getD text ∅)[doc]? with
  | none => rfl
  | some positions => rw [Option.getD_some, if_neg (h.ne_nil text doc positions hd)]

end FieldPostings

namespace Index

variable {ix : Index} {a : Analyzer} {names : List String} {documents : List Document}

/-- The fields of an index, in the order in which they were first named; these and no others have postings. -/
structure Lists (ix : Index) (names : List String) : Prop where
  fieldNames_eq : ix.fieldNames = names.eraseDups
  nodup : ix.fieldNames.Nodup
  mem_fieldNames : ∀ field, field ∈ ix.fieldNames ↔ field ∈ ix.postings
  tidy : ∀ field, FieldPostings.Tidy (ix.termsOf field)

theorem lists_empty (a : Analyzer) : Lists { analyzer := a } [] where
  fieldNames_eq := rfl
  nodup := .nil
  mem_fieldNames _ := by simp [fieldNames]
  tidy _ := FieldPostings.tidy_empty

theorem Lists.declare (h : ix.Lists names) (name : String) : (ix.declare name).Lists (names ++ [name]) := by
  have hnames : (ix.declare name).fieldNames =
      if name ∈ ix.fieldNames then ix.fieldNames else ix.fieldNames ++ [name] := by
    unfold Index.declare fieldNames
    simp only [List.contains_iff_mem]
    split <;> rfl
  have hmem : name ∈ ix.fieldNames ↔ name ∈ names := by rw [h.fieldNames_eq, List.mem_eraseDups]
  refine ⟨?_, ?_, fun field => ?_, fun field => by rw [termsOf_declare]; exact h.tidy field⟩
  · rw [hnames, List.eraseDups_append, ← h.fieldNames_eq]
    by_cases hname : name ∈ names
    · simp [hmem, hname, List.removeAll]
    · simp [hmem, hname, List.removeAll, List.eraseDups_cons]
  · rw [hnames]
    split
    · exact h.nodup
    · rename_i hnew
      rw [← List.concat_eq_append]
      exact h.nodup.concat hnew
  · unfold Index.declare
    split
    · exact h.mem_fieldNames field
    · have hold := h.mem_fieldNames field
      unfold fieldNames at hold ⊢
      simp only [List.mem_append, List.mem_singleton, Std.ExtTreeMap.mem_insertIfNew, Std.compare_eq_iff_eq, hold]
      rw [or_comm, eq_comm]

/-- A value goes to the postings of its field. -/
theorem Lists.addValue {f : Filling} (h : f.index.Lists names) (doc : Nat) (entry : String × FieldValue) :
    (f.addValue doc entry).index.Lists (names ++ [entry.1]) := by
  have hdeclared := h.declare entry.1
  have hmem : entry.1 ∈ (f.index.declare entry.1).postings := by
    rw [← hdeclared.mem_fieldNames, hdeclared.fieldNames_eq]
    simp
  refine ⟨hdeclared.fieldNames_eq, hdeclared.nodup, fun field => ?_, fun field => ?_⟩
  · rw [show (f.addValue doc entry).index.fieldNames = (f.index.declare entry.1).fieldNames from rfl,
      hdeclared.mem_fieldNames]
    refine ⟨fun hfield => Std.ExtTreeMap.mem_insert.2 (.inr hfield), fun hfield => ?_⟩
    rcases Std.ExtTreeMap.mem_insert.1 hfield with heq | hfield
    · exact Std.compare_eq_iff_eq.1 heq ▸ hmem
    · exact hfield
  · rw [Filling.termsOf_addValue]
    split
    · exact (h.tidy field).recordAll doc _
    · exact h.tidy field

theorem Lists.foldl_addValue {f : Filling} (h : f.index.Lists names) (doc : Nat) (document : Document) :
    (document.foldl (Filling.addValue doc) f).index.Lists (names ++ document.map (·.1)) := by
  induction document generalizing f names with
  | nil => simpa using h
  | cons entry rest ih =>
    rw [List.foldl_cons, List.map_cons, List.append_cons]
    exact ih (h.addValue doc entry)

theorem Lists.add (h : ix.Lists names) (document : Document) :
    (ix.add document).Lists (names ++ document.map (·.1)) := by
  have hstart : Lists { ix with docCount := ix.docCount + 1 } names :=
    ⟨h.fieldNames_eq, h.nodup, h.mem_fieldNames, h.tidy⟩
  have hfilled := hstart.foldl_addValue (f := { index := { ix with docCount := ix.docCount + 1 } }) ix.docCount document
  exact ⟨hfilled.fieldNames_eq, hfilled.nodup, hfilled.mem_fieldNames, hfilled.tidy⟩

def Change.fieldNames : Change → List String
  | .field name => [name]
  | .document values => values.map (·.1)

theorem Lists.change (h : ix.Lists names) (c : Change) : (ix.change c).Lists (names ++ c.fieldNames) :=
  match c with
  | .field name => h.declare name
  | .document values => h.add values

theorem ofChanges_lists (a : Analyzer) (changes : List Change) :
    (ofChanges a changes).Lists (changes.flatMap Change.fieldNames) := by
  refine ofChanges_induction (P := fun ix made => ix.Lists (made.flatMap Change.fieldNames)) a changes
    (lists_empty a) fun ix made c h => ?_
  rw [List.flatMap_append, List.flatMap_singleton]
  exact h.change c

/-- What changes keep: the fields in their order, and for each document what it has and nothing more. -/
structure Keeps (ix : Index) (a : Analyzer) (names : List String) (documents : List Document) : Prop
    extends HoldsAll ix a documents, Lists ix names

theorem Keeps.change (h : ix.Keeps a names documents) (ha : a.Advances) (c : Change) :
    (ix.change c).Keeps a (names ++ c.fieldNames) (documents ++ c.document?.toList) :=
  ⟨h.toHoldsAll.change ha c, h.toLists.change c⟩

theorem ofChanges_keeps {a : Analyzer} (ha : a.Advances) (changes : List Change) :
    (ofChanges a changes).Keeps a (changes.flatMap Change.fieldNames) (changes.filterMap Change.document?) :=
  ⟨ofChanges_holdsAll ha changes, ofChanges_lists a changes⟩

/-- The numbers that documents get as they are added. -/
def numbers (ix : Index) : List Change → List Nat
  | [] => []
  | .field name :: rest => numbers (ix.declare name) rest
  | .document values :: rest => (ix.addDocument values).1 :: numbers (ix.addDocument values).2 rest

theorem numbers_eq (ix : Index) (changes : List Change) :
    ix.numbers changes = List.range' ix.docCount (changes.filterMap Change.document?).length := by
  induction changes generalizing ix with
  | nil => rfl
  | cons c rest ih =>
    cases c with
    | field name => exact (ih _).trans (by rw [docCount_declare]; rfl)
    | document values =>
      have hcount : (ix.addDocument values).2.docCount = ix.docCount + 1 := ix.docCount_add values
      rw [numbers, ih, hcount]
      rfl

theorem vocabulary_eq (ix : Index) (field : String) : ix.vocabulary field = (ix.termsOf field).keys := by
  rw [vocabulary, termsOf, Std.ExtTreeMap.getD_eq_getD_getElem?]
  cases ix.postings[field]? with
  | none => simp
  | some terms => rfl

/-- The terms of values that follow each other in a field, with their positions. -/
def placedIn (a : Analyzer) (values : List FieldValue) : List (String × Nat) := (placeValues a 0 values).1

/-- The answers of an index about a term fit together. -/
structure Agrees (ix : Index) (t : Term) : Prop where
  vocabulary : ix.hasTerm t = true ↔ ∃ field, t.field = some field ∧ t.text ∈ ix.vocabulary field
  docs : ix.hasTerm t = true ↔ ix.termDocs t ≠ ∅
  docFrequency : ix.docFrequency t = (ix.termDocs t).size
  positions : ∀ doc, doc ∈ ix.termDocs t ↔ doc ∈ ix.positions t
  frequencies : ∀ doc : Nat, (ix.frequencies t)[doc]? = (ix.positions t)[doc]?.map List.length

/-- A term is kept for documents before `docCount`, each with positions. -/
structure Sound (positions : DocTable (List Nat)) (docCount : Nat) : Prop where
  ne_empty : positions ≠ ∅
  documents : ∀ (doc : Nat) (found : List Nat), positions[doc]? = some found → doc < docCount ∧ found ≠ []

/-- In a document the terms of a field stand at their true positions: in ascending order for each term, no two
terms at one position, and the length is one more than the largest position. -/
structure Exact (ix : Index) (a : Analyzer) (doc : Nat) (field : String) (values : List FieldValue) : Prop where
  positions : ∀ text, (ix.positions (.inField field text)).getD doc [] = positionsAt text (placedIn a values)
  increasing : ∀ text, ((ix.positions (.inField field text)).getD doc []).Pairwise (· < ·)
  exclusive : ∀ text other position, position ∈ (ix.positions (.inField field text)).getD doc [] →
    position ∈ (ix.positions (.inField field other)).getD doc [] → text = other
  norm : ix.norms[(doc, field)]? =
    if values = [] then none else some (Scoring.lengthNorm (extent (placedIn a values)))

/-- A document has the values in a field, and nothing else: each of their terms once, one behind the other. In
the index positions and lengths are words of 32 bits, so these are exact as long as the length is one. -/
structure Stores (ix : Index) (a : Analyzer) (doc : Nat) (field : String) (values : List FieldValue) : Prop where
  texts : (placedIn a values).map (·.1) = values.flatMap (·.terms a)
  increasing : (placedIn a values).Pairwise fun p q => p.2 < q.2
  words : ∀ text, (ix.positions (.inField field text)).getD doc [] =
    (positionsAt text (placedIn a values)).map (· % UInt32.size)
  norm : ix.norms[(doc, field)]? = if values = [] then none else
    some (Scoring.lengthNorm (extent (placedIn a values) % UInt32.size))
  exact : extent (placedIn a values) < UInt32.size → ix.Exact a doc field values

/-- An index of documents, which are numbered in order, with the fields that were named. -/
structure Inverts (ix : Index) (a : Analyzer) (names : List String) (documents : List Document) : Prop where
  fieldNames_eq : ix.fieldNames = names.eraseDups
  fieldNames_nodup : ix.fieldNames.Nodup
  mem_fieldNames : ∀ field, field ∈ ix.fieldNames ↔ field ∈ ix.postings
  docCount_eq : ix.docCount = documents.length
  agrees : ∀ t, ix.Agrees t
  sound : ∀ t, ix.hasTerm t = true → Sound (ix.positions t) ix.docCount
  stores : ∀ (doc : Nat) document, documents[doc]? = some document → ∀ field, ix.Stores a doc field (document.valuesOf field)

section promises
variable (h : ix.Keeps a names documents)
include h

theorem Keeps.getElem?_positions (field text : String) (doc : Nat) :
    let positions := (positionsAt text (placedIn a ((documents.getD doc []).valuesOf field))).map (· % UInt32.size)
    (ix.positions (.inField field text))[doc]? = if positions = [] then none else some positions := by
  have hwords (placed : List Nat) : (placed.map UInt32.ofNat).map (·.toNat) = placed.map (· % UInt32.size) := by
    rw [List.map_map]
    exact List.map_congr_left fun p _ => UInt32.toNat_ofNat'
  dsimp only
  rw [Index.getElem?_positions, (h.tidy field).getElem?_eq, h.positions, ← hwords, placedIn]
  simp only [List.map_eq_nil_iff]
  split <;> rfl

theorem Keeps.hasTerm_iff (t : Term) : ix.hasTerm t = true ↔ ix.positions t ≠ ∅ := by
  unfold hasTerm positions
  obtain ⟨_ | field, text⟩ := t
  · simp [postings?]
  · rw [show (⟨some field, text⟩ : Term) = .inField field text from rfl, postings?_inField]
    cases hpostings : (ix.termsOf field)[text]? with
    | none => simp
    | some postings =>
      have hne := (h.tidy field).ne_empty text postings hpostings
      simpa using hne

/-- A later document leaves what is known of the ones before it. -/
theorem Keeps.getElem?_positions_add (ha : a.Advances) (document : Document) {doc : Nat} (hdoc : doc < ix.docCount)
    (t : Term) : ((ix.add document).positions t)[doc]? = (ix.positions t)[doc]? := by
  obtain ⟨_ | field, text⟩ := t
  · rfl
  · have hother : doc ≠ documents.length := Nat.ne_of_lt (h.docCount ▸ hdoc)
    have hadded := (h.change ha (.document document)).getElem?_positions field text doc
    rw [Change.document?, Option.toList_some, getD_concat, if_neg hother] at hadded
    exact hadded.trans (h.getElem?_positions field text doc).symm

theorem Keeps.norms_add (ha : a.Advances) (document : Document) {doc : Nat} (hdoc : doc < ix.docCount)
    (field : String) : (ix.add document).norms[(doc, field)]? = ix.norms[(doc, field)]? := by
  rw [Index.norms_add ix document (h.analyzer ▸ ha), if_neg fun hnew => Nat.ne_of_lt hdoc hnew.1]

theorem Keeps.agrees (t : Term) : ix.Agrees t := by
  have hdocs : ix.termDocs t ≠ ∅ ↔ ix.positions t ≠ ∅ := by
    simp only [ne_eq, Std.ExtTreeSet.eq_empty_iff_forall_not_mem, Std.ExtTreeMap.eq_empty_iff_forall_not_mem,
      termDocs, DocTable.mem_docs]
  constructor
  · obtain ⟨_ | field, text⟩ := t
    · simp [hasTerm, postings?]
    · rw [show (⟨some field, text⟩ : Term) = .inField field text from rfl, hasTerm, postings?_inField,
        ← Std.ExtTreeMap.mem_iff_isSome_getElem?]
      simp [vocabulary_eq, Term.inField]
  · rw [hdocs, h.hasTerm_iff]
  · rw [docFrequency, termDocs, DocTable.docs, Std.ExtTreeSet.size_ofList Std.ExtTreeMap.distinct_keys,
      Std.ExtTreeMap.length_keys]
  · intro doc
    rw [termDocs, DocTable.mem_docs]
  · intro doc
    rw [frequencies, Std.ExtTreeMap.getElem?_map]

theorem Keeps.sound {t : Term} (ht : ix.hasTerm t = true) : Sound (ix.positions t) ix.docCount := by
  refine ⟨(h.hasTerm_iff t).1 ht, fun doc positions hdoc => ?_⟩
  obtain ⟨_ | field, text⟩ := t
  · cases ht
  · have hpositions := (h.getElem?_positions field text doc).symm.trans hdoc
    split at hpositions
    · cases hpositions
    rename_i hne
    cases hpositions
    refine ⟨?_, hne⟩
    by_contra hge
    rw [h.docCount, Nat.not_lt] at hge
    refine hne ?_
    rw [List.getD_eq_getElem?_getD, List.getElem?_eq_none hge]
    rfl

theorem Keeps.stores (ha : a.Advances) {doc : Nat} {document : Document} (hdoc : documents[doc]? = some document)
    (field : String) : ix.Stores a doc field (document.valuesOf field) := by
  have hlaid := laid_placeValues ha 0 (document.valuesOf field)
  have hdocument : documents.getD doc [] = document := by
    rw [List.getD_eq_getElem?_getD, hdoc]
    rfl
  have hwords (text : String) : (ix.positions (.inField field text)).getD doc [] =
      (positionsAt text (placedIn a (document.valuesOf field))).map (· % UInt32.size) := by
    rw [Std.ExtTreeMap.getD_eq_getD_getElem?, h.getElem?_positions, hdocument]
    split
    · rename_i hnil
      rw [hnil]
      rfl
    · rfl
  have hnorm := h.norms doc field
  rw [hdocument, hlaid.stop_eq] at hnorm
  refine ⟨texts_placeValues a 0 _, hlaid.increasing, hwords, hnorm, fun hfits => ?_⟩
  have hpositions (text : String) : (ix.positions (.inField field text)).getD doc [] =
      positionsAt text (placedIn a (document.valuesOf field)) := by
    rw [hwords]
    refine (List.map_congr_left fun position hposition => ?_).trans (List.map_id _)
    have hlt := (hlaid.within _ (mem_positionsAt.1 hposition)).2
    rw [hlaid.stop_eq] at hlt
    exact Nat.mod_eq_of_lt (Nat.lt_trans hlt hfits)
  refine ⟨hpositions, fun text => ?_, fun text other position htext hother => ?_, ?_⟩
  · rw [hpositions]
    exact hlaid.positionsAt_increasing text
  · rw [hpositions, mem_positionsAt] at htext hother
    exact congrArg Prod.fst (hlaid.eq_of_position htext hother rfl)
  · rw [← placedIn, Nat.mod_eq_of_lt hfits] at hnorm
    exact hnorm

theorem Keeps.inverts (ha : a.Advances) : ix.Inverts a names documents where
  fieldNames_eq := h.fieldNames_eq
  fieldNames_nodup := h.nodup
  mem_fieldNames := h.mem_fieldNames
  docCount_eq := h.docCount
  agrees := h.agrees
  sound _ ht := h.sound ht
  stores _ _ hdoc := h.stores ha hdoc

end promises

/-- After any declarations of fields and additions of documents an index is one of these documents, which have got
the numbers from zero on, in order; and another document leaves the postings and norms of the ones before it as they
are. -/
theorem ofChanges_inverts (a : StandardAnalyzer) (changes : List Change) :
    let ix := ofChanges a.toAnalyzer changes
    ix.Inverts a.toAnalyzer (changes.flatMap Change.fieldNames) (changes.filterMap Change.document?) ∧
      numbers { analyzer := a.toAnalyzer } changes = List.range ix.docCount ∧
      ∀ (document : Document) (doc : Nat), doc < ix.docCount →
        (∀ t, ((ix.add document).positions t)[doc]? = (ix.positions t)[doc]?) ∧
        ∀ field : String, (ix.add document).norms[(doc, field)]? = ix.norms[(doc, field)]? := by
  have hkeeps := ofChanges_keeps a.advances changes
  refine ⟨hkeeps.inverts a.advances, ?_, fun document doc hdoc => ⟨fun t => ?_, fun field => ?_⟩⟩
  · rw [numbers_eq, hkeeps.docCount, List.range_eq_range']
  · exact hkeeps.getElem?_positions_add a.advances document hdoc t
  · exact hkeeps.norms_add a.advances document hdoc field

end Index

end TextSearch
