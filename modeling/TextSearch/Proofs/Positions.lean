import TextSearch.Proofs.Placing

/-! What an index holds after any changes: each term of a field at just the positions where the values of a
document have it, and the length factors of the fields of a document. -/
namespace TextSearch

namespace FieldPostings

/-- The positions of a term in a document. -/
def positionsOf (terms : FieldPostings) (text : String) (doc : Nat) : List UInt32 := (terms.getD text ∅).getD doc []

variable (terms : FieldPostings) (doc : Nat)

theorem positionsOf_record (term : String) (position : UInt32) (text : String) (d : Nat) :
    positionsOf (terms.record doc term position) text d =
      positionsOf terms text d ++ if d = doc then positionsAt text [(term, position)] else [] := by
  unfold positionsOf record
  dsimp only
  rw [Std.ExtTreeMap.getD_insert]
  by_cases hterm : term = text
  · subst hterm
    simp only [Std.compare_self, if_true, Std.ExtTreeMap.getD_insert, Std.compare_eq_iff_eq]
    by_cases hd : d = doc
    · simp [hd, positionsAt]
    · simp [hd, Ne.symm hd]
  · simp [hterm, positionsAt]

/-- The terms of a document added one by one. -/
def recordAll (placed : List (String × UInt32)) : FieldPostings :=
  placed.foldl (fun terms (term, position) => terms.record doc term position) terms

theorem positionsOf_recordAll (placed : List (String × UInt32)) (text : String) (d : Nat) :
    positionsOf (recordAll terms doc placed) text d =
      positionsOf terms text d ++ if d = doc then positionsAt text placed else [] := by
  induction placed generalizing terms with
  | nil => simp [recordAll]
  | cons p rest ih =>
    have hrest := ih (terms.record doc p.1 p.2)
    rw [recordAll, List.foldl_cons]
    rw [recordAll] at hrest
    rw [hrest, positionsOf_record]
    by_cases hd : d = doc
    · simp only [hd, if_true, List.append_assoc, ← positionsAt_append, List.singleton_append]
    · simp [hd]

end FieldPostings

namespace Index

/-- The postings of a field, if only that there are none. -/
def termsOf (ix : Index) (field : String) : FieldPostings := ix.postings.getD field ∅

theorem postings?_inField (ix : Index) (field text : String) :
    ix.postings? (.inField field text) = (ix.termsOf field)[text]? := by
  have hpostings : ix.postings? (.inField field text) = ix.postings[field]?.bind (·[text]?) := rfl
  rw [hpostings, termsOf, Std.ExtTreeMap.getD_eq_getD_getElem?]
  cases ix.postings[field]? with
  | none => simp
  | some terms => rfl

theorem getElem?_positions (ix : Index) (field text : String) (doc : Nat) :
    (ix.positions (.inField field text))[doc]? =
      (((ix.termsOf field).getD text ∅)[doc]?).map fun positions => positions.map (·.toNat) := by
  rw [positions, postings?_inField, ← Std.ExtTreeMap.getD_eq_getD_getElem?, Std.ExtTreeMap.getElem?_map]

theorem positions_inField (ix : Index) (field text : String) (doc : Nat) :
    (ix.positions (.inField field text)).getD doc [] =
      (FieldPostings.positionsOf (ix.termsOf field) text doc).map (·.toNat) := by
  rw [Std.ExtTreeMap.getD_eq_getD_getElem?, getElem?_positions, FieldPostings.positionsOf,
    Std.ExtTreeMap.getD_eq_getD_getElem? (a := doc)]
  cases ((ix.termsOf field).getD text ∅)[doc]? <;> rfl

section declare
variable (ix : Index) (name : String)

theorem termsOf_declare (field : String) : (ix.declare name).termsOf field = ix.termsOf field := by
  unfold declare termsOf
  split
  · rfl
  · dsimp only
    rw [Std.ExtTreeMap.getD_insertIfNew]
    split
    · rename_i hnew
      obtain rfl := Std.compare_eq_iff_eq.1 hnew.1
      exact (Std.ExtTreeMap.getD_eq_fallback hnew.2).symm
    · rfl

theorem analyzer_declare : (ix.declare name).analyzer = ix.analyzer := by
  unfold declare
  split <;> rfl

theorem docCount_declare : (ix.declare name).docCount = ix.docCount := by
  unfold declare
  split <;> rfl

theorem norms_declare : (ix.declare name).norms = ix.norms := by
  unfold declare
  split <;> rfl

end declare

namespace Filling
variable (f : Filling) (doc : Nat) (entry : String × FieldValue)

/-- What a value adds to its field. -/
def stored (f : Filling) (entry : String × FieldValue) : List (String × UInt32) × UInt32 :=
  entry.2.store f.index.analyzer (f.next.getD entry.1 0)

theorem termsOf_addValue (field : String) : (f.addValue doc entry).index.termsOf field =
    if field = entry.1 then FieldPostings.recordAll (f.index.termsOf field) doc (f.stored entry).1
    else f.index.termsOf field := by
  have hpostings : (f.addValue doc entry).index.postings = (f.index.declare entry.1).postings.insert entry.1
      (FieldPostings.recordAll ((f.index.declare entry.1).termsOf entry.1) doc (f.stored entry).1) := by
    unfold stored
    rw [← analyzer_declare f.index entry.1]
    rfl
  rw [termsOf, hpostings, Std.ExtTreeMap.getD_insert, termsOf_declare]
  by_cases hfield : field = entry.1
  · simp [hfield]
  · simp only [Std.compare_eq_iff_eq, Ne.symm hfield, hfield, if_false]
    exact termsOf_declare f.index entry.1 field

theorem next_addValue : (f.addValue doc entry).next = f.next.insert entry.1 (f.stored entry).2 := by
  unfold stored
  rw [← analyzer_declare f.index entry.1]
  rfl

theorem analyzer_addValue : (f.addValue doc entry).index.analyzer = f.index.analyzer :=
  analyzer_declare f.index entry.1

/-- Values only go to fields and postings. -/
theorem foldl_addValue_kept (document : Document) :
    let filled := document.foldl (addValue doc) f
    filled.index.analyzer = f.index.analyzer ∧ filled.index.docCount = f.index.docCount ∧
      filled.index.norms = f.index.norms := by
  induction document generalizing f with
  | nil => exact ⟨rfl, rfl, rfl⟩
  | cons entry rest ih =>
    obtain ⟨hanalyzer, hcount, hnorms⟩ := ih (f.addValue doc entry)
    exact ⟨hanalyzer.trans (analyzer_declare _ _), hcount.trans (docCount_declare _ _),
      hnorms.trans (norms_declare _ _)⟩

theorem mem_next_foldl_addValue (document : Document) (field : String) :
    field ∈ (document.foldl (addValue doc) f).next ↔ field ∈ f.next ∨ document.valuesOf field ≠ [] := by
  induction document generalizing f with
  | nil => simp [Document.valuesOf]
  | cons entry rest ih =>
    rw [List.foldl_cons, ih, next_addValue, Std.ExtTreeMap.mem_insert, Std.compare_eq_iff_eq]
    by_cases hfield : entry.1 = field
    · simp [Document.valuesOf, hfield]
    · simp [Document.valuesOf, hfield]

/-- The values of a document stand one behind the other in their fields. -/
theorem foldl_addValue (ha : f.index.analyzer.Advances) (document : Document) (start : String → Nat)
    (hstart : ∀ field, f.next.getD field 0 = UInt32.ofNat (start field)) :
    let filled := document.foldl (addValue doc) f
    let placed (field : String) := placeValues f.index.analyzer (start field) (document.valuesOf field)
    (∀ field text d, FieldPostings.positionsOf (filled.index.termsOf field) text d =
      FieldPostings.positionsOf (f.index.termsOf field) text d ++
        if d = doc then (positionsAt text (placed field).1).map UInt32.ofNat else []) ∧
    ∀ field, filled.next.getD field 0 = UInt32.ofNat (placed field).2 := by
  induction document generalizing f start with
  | nil =>
    refine ⟨fun field text d => ?_, hstart⟩
    simp [Document.valuesOf, placeValues]
  | cons entry rest ih =>
    have hstored : f.stored entry = ((entry.2.placed f.index.analyzer (start entry.1)).1.map atWord,
        UInt32.ofNat (entry.2.placed f.index.analyzer (start entry.1)).2) := by
      rw [stored, hstart, FieldValue.store_eq ha]
    obtain ⟨hpositions, hnext⟩ := ih (f.addValue doc entry) (by rwa [analyzer_addValue])
      (fun field => if field = entry.1 then (entry.2.placed f.index.analyzer (start field)).2 else start field)
      (fun field => by
        rw [next_addValue, Std.ExtTreeMap.getD_insert, hstored]
        by_cases hfield : field = entry.1
        · simp [hfield]
        · simp [hfield, Ne.symm hfield, hstart])
    rw [analyzer_addValue] at hpositions hnext
    refine ⟨fun field text d => ?_, fun field => ?_⟩
    · rw [List.foldl_cons, hpositions, termsOf_addValue, hstored]
      by_cases hfield : field = entry.1
      · subst hfield
        rw [if_pos rfl, FieldPostings.positionsOf_recordAll, positionsAt_atWord]
        by_cases hd : d = doc <;> simp [hd, Document.valuesOf, placeValues]
      · simp [hfield, Ne.symm hfield, Document.valuesOf]
    · rw [List.foldl_cons, hnext]
      by_cases hfield : field = entry.1
      · subst hfield
        simp [Document.valuesOf, placeValues]
      · simp [hfield, Ne.symm hfield, Document.valuesOf]

/-- The length factors of a document are filed under it. -/
theorem getElem?_norms_self {field : String} (h : field ∈ f.next) (old : Norms) :
    (old.insertMany (f.norms doc))[(doc, field)]? =
      some (Scoring.lengthNorm (f.next.getD field 0).toNat) := by
  have hlength : (field, f.next.getD field 0) ∈ f.next.toList :=
    Std.ExtTreeMap.mem_toList_iff_getElem?_eq_some.2 (Std.ExtTreeMap.getElem?_eq_some_getD h)
  refine Std.ExtTreeMap.getElem?_insertMany_list_of_mem (k := (doc, field)) Std.ReflCmp.compare_self ?_
    (List.mem_map_of_mem hlength)
  refine List.pairwise_map.2 (Std.ExtTreeMap.distinct_keys_toList.imp fun {p q} hne heq => hne ?_)
  exact Std.compare_eq_iff_eq.2 (congrArg Prod.snd (Std.LawfulEqCmp.eq_of_compare heq))

/-- Other length factors stay as they are. -/
theorem getElem?_norms_other {d : Nat} {field : String} (h : d = doc → field ∉ f.next) (old : Norms) :
    (old.insertMany (f.norms doc))[(d, field)]? = old[(d, field)]? := by
  apply Std.ExtTreeMap.getElem?_insertMany_list_of_contains_eq_false
  rw [← Bool.not_eq_true, List.contains_iff_mem]
  intro hmem
  rw [Filling.norms, List.map_map, List.mem_map] at hmem
  obtain ⟨⟨other, length⟩, hmem, heq⟩ := hmem
  obtain ⟨rfl, rfl⟩ := Prod.mk.inj heq
  refine h rfl ?_
  rw [← Std.ExtTreeMap.mem_keys, ← Std.ExtTreeMap.map_fst_toList_eq_keys]
  exact List.mem_map_of_mem hmem

end Filling

section add
variable (ix : Index) (document : Document)

/-- An index with the values of a new document. -/
def filled : Filling :=
  document.foldl (Filling.addValue ix.docCount) { index := { ix with docCount := ix.docCount + 1 } }

theorem analyzer_add : (ix.add document).analyzer = ix.analyzer :=
  (Filling.foldl_addValue_kept _ ix.docCount document).1

theorem docCount_add : (ix.add document).docCount = ix.docCount + 1 :=
  (Filling.foldl_addValue_kept _ ix.docCount document).2.1

theorem mem_next_filled (field : String) :
    field ∈ (ix.filled document).next ↔ document.valuesOf field ≠ [] := by
  rw [filled, Filling.mem_next_foldl_addValue]
  simp

variable (ha : ix.analyzer.Advances)
include ha

theorem positionsOf_add (field text : String) (d : Nat) :
    FieldPostings.positionsOf ((ix.add document).termsOf field) text d =
      FieldPostings.positionsOf (ix.termsOf field) text d ++ if d = ix.docCount then
        (positionsAt text (placeValues ix.analyzer 0 (document.valuesOf field)).1).map UInt32.ofNat else [] :=
  (Filling.foldl_addValue { index := { ix with docCount := ix.docCount + 1 } } ix.docCount ha document
    (fun _ => 0) fun _ => rfl).1 field text d

theorem next_filled (field : String) : (ix.filled document).next.getD field 0 =
    UInt32.ofNat (placeValues ix.analyzer 0 (document.valuesOf field)).2 :=
  (Filling.foldl_addValue { index := { ix with docCount := ix.docCount + 1 } } ix.docCount ha document
    (fun _ => 0) fun _ => rfl).2 field

theorem norms_add (d : Nat) (field : String) : (ix.add document).norms[(d, field)]? =
    if d = ix.docCount ∧ document.valuesOf field ≠ [] then
      some (Scoring.lengthNorm ((placeValues ix.analyzer 0 (document.valuesOf field)).2 % UInt32.size))
    else ix.norms[(d, field)]? := by
  have hold : (ix.filled document).index.norms = ix.norms :=
    (Filling.foldl_addValue_kept _ ix.docCount document).2.2
  have hadd : (ix.add document).norms = ix.norms.insertMany ((ix.filled document).norms ix.docCount) := by
    rw [← hold]
    rfl
  rw [hadd]
  split
  · rename_i hnew
    rw [hnew.1, Filling.getElem?_norms_self _ _ ((ix.mem_next_filled document field).2 hnew.2),
      ix.next_filled document ha, UInt32.toNat_ofNat']
  · rename_i hother
    refine Filling.getElem?_norms_other _ _ (fun hd hfield => hother ⟨hd, ?_⟩) _
    exact (ix.mem_next_filled document field).1 hfield

end add

/-- A step in the making of an index. -/
inductive Change where
  | field (name : String)
  | document (values : Document)

def change (ix : Index) : Change → Index
  | .field name => ix.declare name
  | .document values => ix.add values

/-- The index that changes make of an empty one. -/
def ofChanges (a : Analyzer) (changes : List Change) : Index := changes.foldl change { analyzer := a }

def Change.document? : Change → Option Document
  | .field _ => none
  | .document values => some values

/-- The index holds documents under their numbers: each term of a field at the positions where the values of
the document have it, in 32 bits, and nowhere else; and for each field of the document a length factor. -/
structure HoldsAll (ix : Index) (a : Analyzer) (documents : List Document) : Prop where
  analyzer : ix.analyzer = a
  docCount : ix.docCount = documents.length
  positions : ∀ field text d, FieldPostings.positionsOf (ix.termsOf field) text d =
    (positionsAt text (placeValues a 0 ((documents.getD d []).valuesOf field)).1).map UInt32.ofNat
  norms : ∀ (d : Nat) field, ix.norms[(d, field)]? = if (documents.getD d []).valuesOf field = [] then none else
    some (Scoring.lengthNorm ((placeValues a 0 ((documents.getD d []).valuesOf field)).2 % UInt32.size))

variable {ix : Index} {a : Analyzer} {documents : List Document}

theorem holdsAll_empty (a : Analyzer) : HoldsAll { analyzer := a } a [] where
  analyzer := rfl
  docCount := rfl
  positions _ text d := by simp [termsOf, FieldPostings.positionsOf, Document.valuesOf, placeValues]
  norms _ _ := by simp [Document.valuesOf]

theorem HoldsAll.declare (h : ix.HoldsAll a documents) (name : String) :
    (ix.declare name).HoldsAll a documents where
  analyzer := by rw [analyzer_declare, h.analyzer]
  docCount := by rw [docCount_declare, h.docCount]
  positions field text d := by rw [termsOf_declare, h.positions]
  norms d field := by rw [norms_declare, h.norms]

theorem getD_concat (documents : List Document) (document : Document) (d : Nat) :
    (documents ++ [document]).getD d [] = if d = documents.length then document else documents.getD d [] := by
  split
  · rename_i hd
    simp [hd]
  · rename_i hd
    simp only [List.getD_eq_getElem?_getD]
    rcases Nat.lt_or_gt_of_ne hd with hlt | hgt
    · rw [List.getElem?_append_left hlt]
    · have hlen : (documents ++ [document]).length ≤ d := by simpa using Nat.succ_le_of_lt hgt
      rw [List.getElem?_eq_none hlen, List.getElem?_eq_none (Nat.le_of_lt hgt)]

theorem HoldsAll.add (h : ix.HoldsAll a documents) (ha : a.Advances) (document : Document) :
    (ix.add document).HoldsAll a (documents ++ [document]) := by
  have hadvances : ix.analyzer.Advances := h.analyzer ▸ ha
  have hnew : documents.getD documents.length [] = [] := by simp
  refine ⟨(ix.analyzer_add document).trans h.analyzer, ?_, fun field text d => ?_, fun d field => ?_⟩
  · rw [docCount_add, h.docCount, List.length_append, List.length_singleton]
  · rw [positionsOf_add ix document hadvances, h.positions, h.analyzer, h.docCount, getD_concat]
    by_cases hd : d = documents.length
    · rw [if_pos hd, if_pos hd, hd, hnew]
      simp [Document.valuesOf, placeValues]
    · rw [if_neg hd, if_neg hd, List.append_nil]
  · rw [norms_add ix document hadvances, h.norms, h.analyzer, h.docCount, getD_concat]
    by_cases hd : d = documents.length
    · subst hd
      by_cases hvalues : document.valuesOf field = []
      · rw [if_neg (fun h => h.2 hvalues), if_pos rfl, if_pos hvalues, hnew]
        exact if_pos rfl
      · rw [if_pos ⟨rfl, hvalues⟩, if_pos rfl, if_neg hvalues]
    · rw [if_neg (fun h => hd h.1), if_neg hd]

theorem HoldsAll.change (h : ix.HoldsAll a documents) (ha : a.Advances) (c : Change) :
    (ix.change c).HoldsAll a (documents ++ c.document?.toList) := by
  cases c with
  | field name =>
    rw [Change.document?, Option.toList_none, List.append_nil]
    exact h.declare name
  | document values => exact h.add ha values

theorem filterMap_document? (c : Change) : [c].filterMap Change.document? = c.document?.toList := by
  cases c <;> rfl

/-- What holds of an empty index and is kept by each change holds after any changes. -/
theorem ofChanges_induction {P : Index → List Change → Prop} (a : Analyzer) (changes : List Change)
    (start : P { analyzer := a } []) (step : ∀ ix made c, P ix made → P (ix.change c) (made ++ [c])) :
    P (ofChanges a changes) changes := by
  have hrun (ix : Index) (made rest : List Change) (hix : P ix made) :
      P (rest.foldl change ix) (made ++ rest) := by
    induction rest generalizing ix made with
    | nil => rwa [List.append_nil]
    | cons c rest ih =>
      rw [List.foldl_cons, List.append_cons]
      exact ih _ _ (step ix made c hix)
  exact hrun _ [] changes start

/-- After any changes an index holds the documents that were added, numbered in the order of their
additions. -/
theorem ofChanges_holdsAll {a : Analyzer} (ha : a.Advances) (changes : List Change) :
    (ofChanges a changes).HoldsAll a (changes.filterMap Change.document?) := by
  refine ofChanges_induction (P := fun ix made => ix.HoldsAll a (made.filterMap Change.document?)) a changes
    (holdsAll_empty a) fun ix made c h => ?_
  rw [List.filterMap_append, filterMap_document?]
  exact h.change ha c

theorem HoldsAll.mem_positions (h : ix.HoldsAll a documents) {document : Document} {doc : Nat}
    (hdoc : documents.getD doc [] = document) {field text : String} {position : Nat}
    (hplaced : (text, position) ∈ (placeValues a 0 (document.valuesOf field)).1) :
    position % UInt32.size ∈ (ix.positions (.inField field text)).getD doc [] := by
  rw [positions_inField, h.positions, hdoc]
  refine List.mem_map.2 ⟨_, List.mem_map_of_mem (mem_positionsAt.2 hplaced), ?_⟩
  exact UInt32.toNat_ofNat'

/-- The tokens of a text that a document has in a field stand in the document at their own positions, moved by
where the text starts in the field. -/
theorem HoldsAll.exists_start (h : ix.HoldsAll a documents) (ha : a.Advances) {document : Document} {doc : Nat}
    (hdoc : documents.getD doc [] = document) {field text : String} (hvalue : (field, .text text) ∈ document) :
    ∃ start, ∀ p ∈ (spread 0 (a.tokenize text)).1,
      (start + p.2) % UInt32.size ∈ (ix.positions (.inField field p.1)).getD doc [] ∧
        start + p.2 < (placeValues a 0 (document.valuesOf field)).2 := by
  have hmem : .text text ∈ document.valuesOf field :=
    List.mem_map.mpr ⟨_, List.mem_filter.mpr ⟨hvalue, beq_self_eq_true _⟩, rfl⟩
  obtain ⟨start, hsubset, hle⟩ := exists_start_of_mem ha hmem
  have hmoved := spread_add start 0 (ha text)
  rw [FieldValue.placed, ← Nat.add_zero start, hmoved] at hsubset hle
  refine ⟨start, fun p hp => ⟨?_, ?_⟩⟩
  · exact h.mem_positions hdoc (hsubset (List.mem_map_of_mem hp))
  · have hlt := ((laid_spread 0 (ha text)).within p hp).2
    dsimp only at hle
    omega

/-- A document is held under the number of documents before it. -/
theorem getD_documents {a : Analyzer} (ha : a.Advances) (before after : List Change) (document : Document) :
    ((before ++ .document document :: after).filterMap Change.document?).getD (ofChanges a before).docCount [] =
      document := by
  rw [(ofChanges_holdsAll ha before).docCount, List.filterMap_append]
  simp [Change.document?]

end Index

end TextSearch
