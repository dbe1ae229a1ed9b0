import TextSearch.Proofs.Collecting
import TextSearch.Proofs.Failures
import TextSearch.Proofs.NormalForm

/-! Every query that can be resolved is resolved to its normal form, with terms of the fields its leaves are
looked for in. -/
namespace TextSearch

theorem Index.of_mem_termsIn {ix : Index} {fields : List String} {t : Term} (h : t ∈ ix.termsIn fields) :
    t.Of fields := by
  obtain ⟨field, hf, ht⟩ := List.mem_flatMap.1 h
  obtain ⟨text, -, rfl⟩ := List.mem_map.1 ht
  exact Term.of_inField hf text

theorem eachField_ok {α : Type} {step : String → Except Error α} {fields : List String} {found : List α}
    (h : eachField step fields = .ok found) : ∀ a ∈ found, ∃ field ∈ fields, step field = .ok a := by
  induction fields generalizing found with
  | nil =>
    cases h
    nofun
  | cons field rest ih =>
    rw [eachField] at h
    split at h
    · cases h
    rename_i a ha
    obtain ⟨others, ho, rfl⟩ := Lexeme.map_eq_ok.1 h
    refine List.forall_mem_cons.2 ⟨⟨field, List.mem_cons_self, ha⟩, fun b hb => ?_⟩
    obtain ⟨g, hg, hb⟩ := ih ho b hb
    exact ⟨g, List.mem_cons_of_mem _ hg, hb⟩

theorem length_place (current : Int) (tokens : List Token) : (place current tokens).1.length = tokens.length := by
  induction tokens generalizing current with
  | nil => rfl
  | cons t rest ih => simp [place, ih]

theorem Expansion.ofQuery_ok {q : Query} {x : Expansion} (h : Expansion.ofQuery q = .ok x) : x.query = q := by
  obtain ⟨found, -, rfl⟩ := Lexeme.map_eq_ok.1 h
  rfl

section patterns
variable {ix : Index} {x : Expansion}

theorem WildcardQuery.expand_built {w : WildcardQuery} (h : w.expand ix = .ok x) :
    x.query.Built (ix.fieldsOf w.pattern.field) := by
  rw [WildcardQuery.expand_eq] at h
  split at h
  · cases h
  obtain ⟨found, hfound, rfl⟩ := Lexeme.map_eq_ok.1 h
  rw [withinLimit_ok hfound]
  exact .ofMatches (fun t ht => Index.of_mem_termsIn (List.mem_filter.1 ht).1) _

theorem RangeQuery.expand_built {r : RangeQuery} (h : r.expand ix = .ok x) :
    x.query.Built (ix.fieldsOf r.field) := by
  rw [RangeQuery.expand_eq] at h
  obtain ⟨found, hfound, rfl⟩ := Lexeme.map_eq_ok.1 h
  rw [withinLimit_ok hfound]
  exact .ofMatches (fun t ht => Index.of_mem_termsIn (List.mem_filter.1 ht).1) _

theorem FuzzyQuery.ofScored_built {fields : List String} {scored : List (Term × Float32)}
    (h : ∀ t ∈ scored, t.1.Of fields) (boost : Float32) : (ofScored scored boost).Built fields := by
  unfold ofScored
  split
  · exact .emptyResult 1
  · exact .ofTerm (h _ (List.mem_singleton_self _)) boost
  · refine .ofClauses (List.forall_mem_map.2 fun t ht => ?_) boost
    exact .ofTerm (h t (List.mem_of_mem_take ht)) t.2

theorem FuzzyQuery.expand_built {f : FuzzyQuery} (h : f.expand ix = .ok x) :
    x.query.Built (ix.fieldsOf f.term.field) := by
  rw [FuzzyQuery.expand_eq] at h
  obtain ⟨found, hfound, rfl⟩ := Lexeme.map_eq_ok.1 h
  rw [withinLimit_ok hfound]
  refine ofScored_built (fun t ht => ?_) _
  obtain ⟨t', ht', hs⟩ := List.mem_filterMap.1 (List.mem_mergeSort.1 ht)
  obtain ⟨score, -, rfl⟩ := Option.map_eq_some_iff.1 hs
  exact Index.of_mem_termsIn ht'

end patterns

section words
variable {k : Context} {ix : Index} {x : Expansion} {q : Query} {word field : String} {boost : Float32}

theorem RawTerm.expandIn_built (h : RawTerm.expandIn k ix word field boost = .ok x) : x.query.Built [field] := by
  unfold RawTerm.expandIn at h
  dsimp only at h
  split at h
  · cases h
    exact .ofTerm (Term.of_inField List.mem_cons_self word) boost
  split at h
  · split at h
    · cases h
    · exact WildcardQuery.expand_built h
  · rw [Expansion.ofQuery_ok h]
    exact .ofWords List.mem_cons_self _ boost

private theorem mapM_terms_of {fields : List String} {found : List Query} {terms : List (List Term)}
    (h : ∀ q ∈ found, q.Primitive fields) (hterms : found.mapM Query.terms = .ok terms) :
    ∀ t ∈ terms.flatten, t.Of fields := by
  induction found generalizing terms with
  | nil =>
    cases hterms
    nofun
  | cons q rest ih =>
    obtain ⟨hq, hrest⟩ := List.forall_mem_cons.1 h
    rw [List.mapM_cons] at hterms
    obtain ⟨ts, hts, hbind⟩ := bind_eq_ok.1 hterms
    obtain ⟨others, hothers, hpure⟩ := bind_eq_ok.1 hbind
    cases hpure
    rw [List.flatten_cons]
    exact List.forall_mem_append.2 ⟨hq.terms_of hts, ih hrest hothers⟩

theorem RawTerm.expandEverywhere_built (h : RawTerm.expandEverywhere k ix word boost = .ok q) :
    q.Built (k.searchFields ix) := by
  unfold RawTerm.expandEverywhere at h
  split at h
  · cases h
  rename_i found hfound
  split at h
  · cases h
  rename_i terms hterms
  have hbuilt : ∀ q ∈ found, q.Primitive (k.searchFields ix) := by
    intro q hq
    obtain ⟨g, hg, hq⟩ := eachField_ok hfound q hq
    obtain ⟨x, hx, rfl⟩ := Lexeme.map_eq_ok.1 hq
    exact ((RawTerm.expandIn_built hx).among hg).primitive
  split at h
  · cases h
    exact .ofNothing found
  · rename_i hne
    cases h
    exact .ofTerms (by simpa using hne) (List.forall_mem_map.2 (mapM_terms_of hbuilt hterms)) boost

theorem RawTerm.expand_built {n : RawTerm} (h : n.expand k ix = .ok x) :
    x.query.Built (k.fieldsOf ix n.field) := by
  unfold RawTerm.expand at h
  cases hf : n.field with
  | some field =>
    simp only [hf] at h
    exact expandIn_built h
  | none =>
    simp only [hf] at h
    obtain ⟨q, hq, hx⟩ := bind_eq_ok.1 h
    rw [Expansion.ofQuery_ok hx]
    exact expandEverywhere_built hq

theorem RawPhrase.expandIn_built {phrase : String} {slop : UInt32} :
    (RawPhrase.expandIn k ix phrase field slop boost).Built [field] := by
  unfold RawPhrase.expandIn
  dsimp only
  split
  · exact .ofTerm (Term.of_inField List.mem_cons_self phrase) boost
  split
  · exact .ofWords List.mem_cons_self _ boost
  · exact .ofWords List.mem_cons_self _ boost
  · rename_i hne _
    refine ⟨.phrase ?_ ?_, rfl⟩
    · intro hnil
      have hlength := length_place (-1) (k.analyzer.tokenize phrase)
      rw [List.map_eq_nil_iff.1 hnil] at hlength
      exact hne (List.length_eq_zero_iff.1 hlength.symm)
    · exact List.forall_mem_map.2 fun t _ => Term.of_inField List.mem_cons_self t.1

theorem RawPhrase.expand_built {n : RawPhrase} (h : n.expand k ix = .ok x) :
    x.query.Built (k.fieldsOf ix n.field) := by
  rw [Expansion.ofQuery_ok h]
  cases n.field with
  | some field => exact expandIn_built
  | none =>
    refine .ofClauses (List.forall_mem_map.2 fun field hfield => ?_) n.boost
    exact expandIn_built.among hfield

theorem RawFuzzy.similarTo_built {t : Term} {similarity : Float32}
    (h : RawFuzzy.similarTo k ix t similarity boost = .ok x) : x.query.Built (ix.fieldsOf t.field) := by
  obtain ⟨_, -, hx⟩ := bind_eq_ok.1 h
  exact FuzzyQuery.expand_built hx

theorem RawFuzzy.expandIn_built {similarity : Float32}
    (h : RawFuzzy.expandIn k ix word field similarity boost = .ok x) : x.query.Built [field] := by
  unfold RawFuzzy.expandIn at h
  dsimp only at h
  split at h
  · exact similarTo_built h
  split at h
  · cases h
  split at h
  · cases h
    exact .insignificant 1
  · exact similarTo_built h
  · cases h

theorem RawFuzzy.ofFields_built {fields : List String} {found : List Query}
    (h : ∀ q ∈ found, q.Built fields) (boost : Float32) : (ofFields found boost).Built fields := by
  have hkept : ∀ q ∈ found.filter fun q => !q.isInsignificant && !q.isEmptyResult, q.Built fields :=
    fun q hq => h q (List.mem_filter.1 hq).1
  unfold ofFields
  split
  · exact .ofNothing found
  · rename_i q hq
    rw [hq] at hkept
    exact (hkept q (List.mem_singleton_self q)).withBoost boost
  · exact .ofClauses (List.forall_mem_map.2 hkept) boost

theorem RawFuzzy.expand_built {n : RawFuzzy} (h : n.expand k ix = .ok x) :
    x.query.Built (k.fieldsOf ix n.field) := by
  unfold RawFuzzy.expand at h
  cases hf : n.field with
  | some field =>
    simp only [hf] at h
    exact expandIn_built h
  | none =>
    simp only [hf] at h
    split at h
    · cases h
    rename_i found hfound
    rw [Expansion.ofQuery_ok h]
    refine ofFields_built (List.forall_mem_map.2 fun y hy => ?_) n.boost
    obtain ⟨field, hfield, hy⟩ := eachField_ok hfound y hy
    exact (expandIn_built hy).among hfield

end words

section terms
variable {ix : Index}

theorem TermQuery.resolve_cases (n : TermQuery) :
    (n.resolve ix = .term n ∧ n.term.field.isSome) ∨ (n.resolve ix).Built (ix.fieldsOf n.term.field) := by
  unfold TermQuery.resolve
  cases hf : n.term.field with
  | some field => exact .inl ⟨rfl, rfl⟩
  | none =>
    refine .inr ?_
    dsimp only
    split
    · exact .emptyResult 1
    · rename_i fields hne
      exact .ofTerms (by simpa using hne) (List.forall_mem_map.2 fun g hg => Term.of_inField hg _) n.boost

theorem Term.of_fieldsOf {t : Term} (h : t.field.isSome) : t.Of (ix.fieldsOf t.field) := by
  obtain ⟨field, hf⟩ := Option.isSome_iff_exists.1 h
  exact ⟨field, by rw [hf]; exact List.mem_cons_self, hf⟩

theorem TermQuery.resolve_built (t : Term) : (TermQuery.resolve ix { term := t }).Built (ix.fieldsOf t.field) := by
  rcases @TermQuery.resolve_cases ix { term := t } with ⟨hr, hf⟩ | hbuilt
  · rw [hr]
    exact ⟨.term (Term.of_fieldsOf hf), rfl⟩
  · exact hbuilt

theorem MultiTermQuery.resolve_cases (n : MultiTermQuery) :
    (n.resolve ix = .multiTerm n ∧ n.terms ≠ [] ∧ ∀ t ∈ n.terms, t.2.field.isSome) ∨
      (n.resolve ix).Built (n.terms.flatMap fun t => ix.fieldsOf t.2.field) := by
  unfold MultiTermQuery.resolve
  split
  · exact .inr (.emptyResult 1)
  split
  · rename_i hne hall
    exact .inl ⟨rfl, by simpa using hne, List.all_eq_true.1 hall⟩
  · refine .inr (.ofClauses (List.forall_mem_map.2 fun t ht => ?_) n.boost)
    exact (TermQuery.resolve_built t.2).mono fun g hg => List.mem_flatMap.2 ⟨t, ht, hg⟩

theorem PhraseQuery.resolve_cases (n : PhraseQuery) :
    (n.resolve ix = .phrase n ∧ n.terms ≠ [] ∧ n.field.isSome) ∨
      (n.resolve ix).Built (ix.fieldsOf n.field) := by
  unfold PhraseQuery.resolve
  split
  · exact .inr (.emptyResult 1)
  rename_i hempty
  have hne : n.terms ≠ [] := by simpa using hempty
  split
  · rename_i hf
    exact .inl ⟨rfl, hne, hf⟩
  · rename_i hf
    rw [Option.not_isSome_iff_eq_none.1 hf]
    refine .inr (.ofClauses (List.forall_mem_map.2 fun field hfield => ?_) n.boost)
    refine ⟨.phrase ?_ ?_, rfl⟩
    · simpa using hne
    · exact List.forall_mem_map.2 fun t _ => Term.of_inField hfield t.1.text

end terms

namespace Query

/-- All terms of a phrase are of the field of its first term. -/
def SharesField : Query → Prop
  | phrase n => ∀ t ∈ n.terms, t.1.field = n.field
  | _ => True

/-- The fields a leaf is looked for in. -/
def searchedFields (k : Context) (ix : Index) : Query → List String
  | term n => ix.fieldsOf n.term.field
  | multiTerm n => n.terms.flatMap fun t => ix.fieldsOf t.2.field
  | phrase n => ix.fieldsOf n.field
  | wildcard n => ix.fieldsOf n.pattern.field
  | fuzzy n => ix.fieldsOf n.term.field
  | range n => ix.fieldsOf n.field
  | rawTerm n => k.fieldsOf ix n.field
  | rawPhrase n => k.fieldsOf ix n.field
  | rawFuzzy n => k.fieldsOf ix n.field
  | _ => []

section resolving
variable {k : Context} {ix : Index} {q r l s : Query}

theorem settle_ok {expansion : Except Error Expansion} {record : Option (List Term) → Query}
    (h : (settle expansion q record).1 = .ok r) : ∃ x, expansion = .ok x ∧ r = x.query := by
  unfold settle at h
  split at h
  · cases h
    exact ⟨_, rfl, rfl⟩
  · cases h

/-- A leaf that can be run as it is stays, and any other gives way to a new query. -/
theorem resolve_leaf_cases (hl : l ∈ q.leaves) (h : (l.resolve k ix).1 = .ok s) :
    (s = l ∧ l.Resolved ∧ (l.SharesField → l.Primitive (l.searchedFields k ix))) ∨
      s.Built (l.searchedFields k ix) := by
  cases l with
  | boolean => exact absurd hl boolean_not_mem_leaves
  | term n =>
    cases h
    refine n.resolve_cases.imp_left fun ⟨hr, hf⟩ => ⟨hr, .term n, fun _ => .term (Term.of_fieldsOf hf)⟩
  | multiTerm n =>
    cases h
    refine n.resolve_cases.imp_left fun ⟨hr, hne, hf⟩ => ⟨hr, .multiTerm n, fun _ => .multiTerm hne ?_⟩
    exact fun t ht => (Term.of_fieldsOf (hf t ht)).mono fun g hg => List.mem_flatMap.2 ⟨t, ht, hg⟩
  | phrase n =>
    cases h
    refine n.resolve_cases.imp_left fun ⟨hr, hne, hf⟩ => ⟨hr, .phrase n, fun hshared => .phrase hne ?_⟩
    intro t ht
    rw [searchedFields, ← hshared t ht]
    rw [← hshared t ht] at hf
    exact Term.of_fieldsOf hf
  | wildcard n =>
    obtain ⟨x, hx, rfl⟩ := settle_ok h
    exact .inr (WildcardQuery.expand_built hx)
  | fuzzy n =>
    obtain ⟨x, hx, rfl⟩ := settle_ok h
    exact .inr (FuzzyQuery.expand_built hx)
  | range n =>
    obtain ⟨x, hx, rfl⟩ := settle_ok h
    exact .inr (RangeQuery.expand_built hx)
  | insignificant b =>
    cases h
    exact .inr (.insignificant b)
  | emptyResult b =>
    cases h
    exact .inr (.emptyResult b)
  | rawTerm n =>
    obtain ⟨x, hx, rfl⟩ := settle_ok h
    exact .inr (RawTerm.expand_built hx)
  | rawPhrase n =>
    obtain ⟨x, hx, rfl⟩ := settle_ok h
    exact .inr (RawPhrase.expand_built hx)
  | rawFuzzy n =>
    obtain ⟨x, hx, rfl⟩ := settle_ok h
    exact .inr (RawFuzzy.expand_built hx)

theorem resolve_primitive (hq : ∀ l ∈ q.leaves, l.SharesField) (h : (q.resolve k ix).1 = .ok r) :
    r.Primitive (q.leaves.flatMap (searchedFields k ix)) := by
  refine resolve_of_leaves (fun clauses b => .boolean b) (fun l hl s hs => ?_) h
  have hsub : l.searchedFields k ix ⊆ q.leaves.flatMap (searchedFields k ix) :=
    fun g hg => List.mem_flatMap.2 ⟨l, hl, hg⟩
  rcases resolve_leaf_cases hl hs with ⟨rfl, -, hprimitive⟩ | hbuilt
  · exact (hprimitive (hq s hl)).mono hsub
  · exact hbuilt.primitive.mono hsub

theorem resolve_resolved (h : (q.resolve k ix).1 = .ok r) : r.Resolved := by
  refine resolve_of_leaves (fun clauses b => .boolean) (fun l hl s hs => ?_) h
  rcases resolve_leaf_cases hl hs with ⟨rfl, hresolved, -⟩ | hbuilt
  · exact hresolved
  · exact hbuilt.primitive.resolved

/-- Resolving a query leads to its normal form, and any further resolving leaves that as it is. -/
theorem resolve_normal (hq : ∀ l ∈ q.leaves, l.SharesField) (h : (q.resolve k ix).1 = .ok r) :
    r.Primitive (q.leaves.flatMap (searchedFields k ix)) ∧ ∀ k' ix', r.resolve k' ix' = (.ok r, r) :=
  ⟨resolve_primitive hq h, (resolve_primitive hq h).resolve_eq⟩

end resolving

/-- Words, a phrase and a pattern that are to be looked for in all fields. -/
def fieldlessParts : Query :=
  ofClauses [
    (.required, ofClauses [(.optional, ofTerm ⟨none, "a"⟩ 2),
      (.prohibited, ofTerms [(.optional, ⟨none, "b"⟩)] 1)] 1),
    (.optional, phrase (.ofTerms [⟨none, "a"⟩, ⟨none, "b"⟩])),
    (.optional, rawTerm { word := "abc*", field := none })] 1

/-- A document with two fields. -/
def twoFields : Index :=
  ({ analyzer := .ofConfig .bare {} } : Index).add [("f", .keyword "a"), ("g", .keyword "b"), ("g", .keyword "abcd")]

theorem fieldlessParts_resolve_normal : (∀ l ∈ fieldlessParts.leaves, l.SharesField) ∧
    ∃ r, (fieldlessParts.resolve { analyzer := .ofConfig .bare {} } twoFields).1 = .ok r ∧
      r.Primitive (fieldlessParts.leaves.flatMap (searchedFields { analyzer := .ofConfig .bare {} } twoFields)) ∧
      ∀ k' ix', r.resolve k' ix' = (.ok r, r) := by
  have hshared : ∀ l ∈ fieldlessParts.leaves, l.SharesField := by
    simp [fieldlessParts, ofClauses, leaves, clauseLeaves, ofTerm, ofTerms, SharesField, PhraseQuery.ofTerms,
      PhraseQuery.field]
    rintro t offset (⟨rfl, -⟩ | ⟨rfl, -⟩) <;> rfl
  have hok : (fieldlessParts.resolve { analyzer := .ofConfig .bare {} } twoFields).1.toBool = true := by
    decide +kernel
  cases hr : (fieldlessParts.resolve { analyzer := .ofConfig .bare {} } twoFields).1 with
  | error e =>
    rw [hr] at hok
    cases hok
  | ok r => exact ⟨hshared, r, rfl, resolve_normal hshared hr⟩

end Query
end TextSearch
