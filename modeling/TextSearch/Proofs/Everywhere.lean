import TextSearch.Proofs.Meaning
import TextSearch.Proofs.Records

/-! What a word without a field finds. The terms it stands for in its search fields are alternatives, even those
that a field asks for together. -/
namespace TextSearch

theorem eachField_eq_map {α : Type} {step : String → Except Error α} {g : String → α} {fields : List String}
    (h : ∀ field ∈ fields, step field = .ok (g field)) : eachField step fields = .ok (fields.map g) := by
  induction fields with
  | nil => rfl
  | cons field rest ih =>
    obtain ⟨hfield, hrest⟩ := List.forall_mem_cons.1 h
    rw [eachField, hfield, ih hrest]
    rfl

theorem mapM_map_eq {ε α β γ : Type} {f : β → Except ε γ} {a : α → β} {g : α → γ} {xs : List α}
    (h : ∀ x ∈ xs, f (a x) = .ok (g x)) : (xs.map a).mapM f = .ok (xs.map g) := by
  induction xs with
  | nil => rfl
  | cons x rest ih =>
    obtain ⟨hx, hrest⟩ := List.forall_mem_cons.1 h
    rw [List.map_cons, List.mapM_cons, hx, ih hrest]
    rfl

namespace Query

section searching
variable {k : Context} {ix : Index} {filter : Option DocSet} {q r : Query}

/-- The documents that a query finds once it is resolved and optimized. -/
def search (k : Context) (ix : Index) (filter : Option DocSet) (q : Query) : Except Error DocSet :=
  (q.resolve k ix).1.bind fun resolved =>
    (resolved.optimize ix).bind fun optimized =>
      (optimized.execute ix filter).1.bind fun _ => (optimized.execute ix filter).2.matchedDocs

/-- A query that is resolved to a single node finds the candidates of that. -/
theorem search_leaf (h : (q.resolve k ix).1 = .ok r) (hr : r.leaves = [r]) :
    ∃ docs, q.search k ix filter = .ok docs ∧ ∀ doc, doc ∈ docs ↔ DocSet.Passes filter doc ∧ r.Candidate ix doc := by
  have hresolved : r.Resolved := resolve_resolved h
  obtain ⟨s, hs, hkeeps⟩ := hresolved.optimize_ok ix filter
  obtain ⟨found, hfound, hfinds⟩ := hkeeps.resolved.execute_ok ix filter
  have hmeant : r.RequiresOnlyMeant ix filter := by
    intro clauses n hin
    cases hin with
    | self => exact absurd (hr ▸ List.mem_singleton_self _) boolean_not_mem_leaves
    | clause => exact absurd (hr ▸ List.mem_singleton_self _) boolean_not_mem_leaves
  refine ⟨found.docs, ?_, fun doc => ?_⟩
  · simp only [search, h, hs, hfound, Except.bind]
    exact hfinds.resolved.matchedDocs_ok
  · rw [hfinds.mem_docs_iff, ← hkeeps.mem_iff, hresolved.candidate_iff_mem_meaning hmeant]

end searching

section candidates
variable {ix : Index} {doc : Nat} {ts : List Term}

theorem candidate_ofTerms (occur : Occur) (boost : Float32) :
    (ofTerms (ts.map fun t => (occur, t)) boost).Candidate ix doc ↔
      Conditions.Holds (ts.map fun t => (occur, doc ∈ ix.termDocs t)) := by
  rw [ofTerms, Candidate, Answers, List.map_map]
  rfl

theorem candidate_ofMatches (boost : Float32) :
    (ofMatches ts boost).Candidate ix doc ↔ ∃ t ∈ ts, doc ∈ ix.termDocs t := by
  unfold ofMatches
  split
  · simp [Candidate, Answers]
  · simp [Candidate, Answers, ofTerm]
  · rw [candidate_ofTerms, Conditions.holds_map_of_all_optional fun _ _ => rfl]

theorem candidate_ofNothing (found : List Query) : ¬(ofNothing found).Candidate ix doc := by
  unfold ofNothing
  split <;> simp [Candidate, Answers]

end candidates

theorem ofMatches_leaves (ts : List Term) (boost : Float32) : (ofMatches ts boost).leaves = [ofMatches ts boost] := by
  unfold ofMatches
  split <;> rfl

theorem ofWords_leaves (field : String) (words : List String) (boost : Float32) :
    (ofWords field words boost).leaves = [ofWords field words boost] := by
  unfold ofWords
  split <;> rfl

theorem ofNothing_leaves (found : List Query) : (ofNothing found).leaves = [ofNothing found] := by
  unfold ofNothing
  split <;> rfl

/-- A word to be looked for in a field, or in all search fields. -/
def ofWord (word : String) (field : Option String) (boost : Float32) : Query := rawTerm { word, field, boost }

end Query

theorem WildcardQuery.expand_ofMatches {w : WildcardQuery} {ix : Index} {x : Expansion} (h : w.expand ix = .ok x) :
    x.query = .ofMatches x.matched w.boost := by
  obtain ⟨-, found, -, rfl⟩ := WildcardQuery.expand_eq_ok.1 h
  rfl

/-- A pattern stands for the same terms whatever its boost. -/
theorem WildcardQuery.expand_boost {w : WildcardQuery} {ix : Index} {x : Expansion} (h : w.expand ix = .ok x)
    (boost : Float32) : ∃ y, { w with boost }.expand ix = .ok y ∧ y.matched = x.matched := by
  obtain ⟨hlong, found, hfound, rfl⟩ := WildcardQuery.expand_eq_ok.1 h
  exact ⟨_, WildcardQuery.expand_eq_ok.2 ⟨hlong, found, hfound, rfl⟩, rfl⟩

namespace RawTerm

variable {k : Context} {ix : Index} {word field : String} {boost : Float32} {x : Expansion} {doc : Nat}
  {ts : List Term}

/-- A field asks for several terms of a word together. -/
def Conjunctive (k : Context) (ix : Index) (word field : String) : Prop :=
  ix.hasTerm (.inField field word) = false ∧ word.toList.any Glob.isWildcard = false ∧
    2 ≤ (k.analyzer.terms word).length

/-- A document matches a word in a field, given the terms the word stands for there. -/
def Matches (k : Context) (ix : Index) (word field : String) (ts : List Term) (doc : Nat) : Prop :=
  (∃ t ∈ ts, doc ∈ ix.termDocs t) ∧ (Conjunctive k ix word field → ∀ t ∈ ts, doc ∈ ix.termDocs t)

theorem matches_of_not_conjunctive (h : ¬Conjunctive k ix word field) :
    Matches k ix word field ts doc ↔ ∃ t ∈ ts, doc ∈ ix.termDocs t := by
  rw [Matches, iff_true_intro (fun hc => absurd hc h), and_true]

theorem candidate_ofWords (hexact : ix.hasTerm (.inField field word) = false)
    (hwild : word.toList.any Glob.isWildcard = false) :
    (Query.ofWords field (k.analyzer.terms word) boost).Candidate ix doc ↔
      Matches k ix word field ((k.analyzer.terms word).map (Term.inField field)) doc := by
  have hfew (h : (k.analyzer.terms word).length < 2) : ¬Conjunctive k ix word field := by
    rintro ⟨-, -, hlength⟩
    omega
  unfold Query.ofWords
  split
  · rename_i hnil
    rw [matches_of_not_conjunctive (hfew (by simp [hnil])), hnil]
    simp [Query.Candidate, Query.Answers]
  · rename_i w hone
    rw [matches_of_not_conjunctive (hfew (by simp [hone])), hone]
    simp [Query.Candidate, Query.Answers, Query.ofTerm]
  · rename_i hnil hone
    have hlength : 2 ≤ (k.analyzer.terms word).length := by
      rcases hwords : k.analyzer.terms word with _ | ⟨w, _ | ⟨w', rest⟩⟩
      · exact absurd hwords hnil
      · exact absurd hwords (hone w)
      · simp
    have hne : (k.analyzer.terms word).map (Term.inField field) ≠ [] := by
      simpa using hnil
    have hsigned : (k.analyzer.terms word).map (fun w => (Occur.required, Term.inField field w)) =
        ((k.analyzer.terms word).map (Term.inField field)).map fun t => (.required, t) := by
      rw [List.map_map]
      rfl
    rw [hsigned, Query.candidate_ofTerms, Conditions.holds_map_of_all_required (fun _ _ => rfl) hne, Matches]
    constructor
    · intro hall
      obtain ⟨t, ht⟩ := List.exists_mem_of_ne_nil _ hne
      exact ⟨⟨t, ht, hall t ht⟩, fun _ => hall⟩
    · intro h
      exact h.2 ⟨hexact, hwild, hlength⟩

theorem expandIn_candidate (h : expandIn k ix word field boost = .ok x) (doc : Nat) :
    x.query.Candidate ix doc ↔ Matches k ix word field x.matched doc := by
  rcases expandIn_eq_ok.1 h with ⟨hexact, rfl⟩ | ⟨-, hwild, pattern, -, hx⟩ | ⟨hexact, hwild, rfl⟩
  · have hc : ¬Conjunctive k ix word field := fun hc => by simp [hc.1] at hexact
    rw [matches_of_not_conjunctive hc]
    simp [Query.Candidate, Query.Answers, Query.ofTerm]
  · have hc : ¬Conjunctive k ix word field := fun hc => by simp [hc.2.1] at hwild
    rw [matches_of_not_conjunctive hc, WildcardQuery.expand_ofMatches hx, Query.candidate_ofMatches]
  · exact candidate_ofWords hexact hwild

theorem expandIn_leaves (h : expandIn k ix word field boost = .ok x) : x.query.leaves = [x.query] := by
  rcases expandIn_eq_ok.1 h with ⟨-, rfl⟩ | ⟨-, -, pattern, -, hx⟩ | ⟨-, -, rfl⟩
  · rfl
  · rw [WildcardQuery.expand_ofMatches hx]
    exact Query.ofMatches_leaves _ _
  · exact Query.ofWords_leaves _ _ _

/-- A word stands for the same terms of a field whatever its boost. -/
theorem expandIn_boost (h : expandIn k ix word field boost = .ok x) (boost' : Float32) :
    ∃ y, expandIn k ix word field boost' = .ok y ∧ y.matched = x.matched := by
  rcases expandIn_eq_ok.1 h with ⟨hexact, rfl⟩ | ⟨hexact, hwild, pattern, hpattern, hx⟩ | ⟨hexact, hwild, rfl⟩
  · exact ⟨_, expandIn_eq_ok.2 (.inl ⟨hexact, rfl⟩), rfl⟩
  · obtain ⟨y, hy, hmatched⟩ := WildcardQuery.expand_boost hx boost'
    exact ⟨y, expandIn_eq_ok.2 (.inr (.inl ⟨hexact, hwild, pattern, hpattern, hy⟩)), hmatched⟩
  · exact ⟨_, expandIn_eq_ok.2 (.inr (.inr ⟨hexact, hwild, rfl⟩)), rfl⟩

section searching
variable {filter : Option DocSet}

theorem resolve_ofWord_inField {r : Query} :
    ((Query.ofWord word (some field) boost).resolve k ix).1 = .ok r ↔
      ∃ x, expandIn k ix word field boost = .ok x ∧ r = x.query := by
  constructor
  · exact Query.settle_ok
  · rintro ⟨x, hx, rfl⟩
    have hexpand : RawTerm.expand k ix { word, field := some field, boost } = .ok x := hx
    rw [Query.ofWord, Query.resolve, hexpand]
    rfl

/-- What a word finds in a field, and the terms it stands for there. -/
theorem search_inField (h : expandIn k ix word field boost = .ok x) :
    ((Query.ofWord word (some field) boost).resolve k ix).1.bind Query.terms = .ok x.matched ∧
      ∃ docs, (Query.ofWord word (some field) boost).search k ix filter = .ok docs ∧
        ∀ doc, doc ∈ docs ↔ DocSet.Passes filter doc ∧ Matches k ix word field x.matched doc := by
  have hresolve := resolve_ofWord_inField.2 ⟨x, h, rfl⟩
  obtain ⟨docs, hdocs, hmem⟩ := @Query.search_leaf k ix filter _ _ hresolve (expandIn_leaves h)
  refine ⟨by rw [hresolve]; exact expandIn_exact h, docs, hdocs, fun doc => ?_⟩
  rw [hmem, expandIn_candidate h]

/-- The terms a word stands for in its search fields become alternatives. -/
theorem expandEverywhere_ok {found : String → Expansion}
    (h : ∀ field ∈ k.searchFields ix, expandIn k ix word field 1 = .ok (found field)) :
    ∃ q, expandEverywhere k ix word boost = .ok q ∧ q.leaves = [q] ∧ ∀ doc, q.Candidate ix doc ↔
      ∃ field ∈ k.searchFields ix, ∃ t ∈ (found field).matched, doc ∈ ix.termDocs t := by
  have heach : eachField (fun field => (expandIn k ix word field 1).map (·.query)) (k.searchFields ix) =
      .ok ((k.searchFields ix).map fun field => (found field).query) :=
    eachField_eq_map fun field hf => by rw [h field hf]; rfl
  have hterms : ((k.searchFields ix).map fun field => (found field).query).mapM Query.terms =
      .ok ((k.searchFields ix).map fun field => (found field).matched) :=
    mapM_map_eq fun field hf => expandIn_exact (h field hf)
  have hmem {doc : Nat} : (∃ t ∈ ((k.searchFields ix).map fun field => (found field).matched).flatten,
      doc ∈ ix.termDocs t) ↔ ∃ field ∈ k.searchFields ix, ∃ t ∈ (found field).matched, doc ∈ ix.termDocs t := by
    simp only [List.mem_flatten, List.mem_map]
    grind
  simp only [expandEverywhere, heach, hterms]
  split
  · rename_i hnil
    refine ⟨_, rfl, Query.ofNothing_leaves _, fun doc => ?_⟩
    rw [← hmem, hnil]
    exact iff_of_false (Query.candidate_ofNothing _) (by simp)
  · refine ⟨_, rfl, rfl, fun doc => ?_⟩
    rw [Query.candidate_ofTerms, Conditions.holds_map_of_all_optional fun _ _ => rfl]
    exact hmem

/-- What a word finds in all of its search fields. -/
theorem search_anywhere {found : String → Expansion}
    (h : ∀ field ∈ k.searchFields ix, expandIn k ix word field 1 = .ok (found field)) :
    ∃ docs, (Query.ofWord word none boost).search k ix filter = .ok docs ∧ ∀ doc, doc ∈ docs ↔
      DocSet.Passes filter doc ∧
        ∃ field ∈ k.searchFields ix, ∃ t ∈ (found field).matched, doc ∈ ix.termDocs t := by
  obtain ⟨q, hq, hleaves, hcandidate⟩ := @expandEverywhere_ok k ix word boost found h
  obtain ⟨ts, hts⟩ := (expandEverywhere_built hq).primitive.resolved.terms_ok
  have hexpand : RawTerm.expand k ix { word, field := none, boost } = .ok ⟨q, ts⟩ := by
    simp only [RawTerm.expand, hq, Except.bind, Expansion.ofQuery, hts, Except.map]
  have hresolve : ((Query.ofWord word none boost).resolve k ix).1 = .ok q := by
    rw [Query.ofWord, Query.resolve, hexpand]
    rfl
  obtain ⟨docs, hdocs, hmem⟩ := @Query.search_leaf k ix filter _ _ hresolve hleaves
  exact ⟨docs, hdocs, fun doc => by rw [hmem, hcandidate]⟩

/-- What a word finds without a field, in relation to what it stands for and finds in each search field. -/
structure FoundEverywhere (k : Context) (ix : Index) (word : String) (boost : Float32) (filter : Option DocSet)
    (docs : DocSet) (terms : String → List Term) (found : String → DocSet) : Prop where
  search_eq : (Query.ofWord word none boost).search k ix filter = .ok docs
  terms_eq : ∀ field ∈ k.searchFields ix,
    ((Query.ofWord word (some field) boost).resolve k ix).1.bind Query.terms = .ok (terms field)
  searchIn_eq : ∀ field ∈ k.searchFields ix,
    (Query.ofWord word (some field) boost).search k ix filter = .ok (found field)
  mem_found : ∀ field ∈ k.searchFields ix, ∀ doc,
    doc ∈ found field ↔ DocSet.Passes filter doc ∧ Matches k ix word field (terms field) doc
  mem_docs : ∀ doc, doc ∈ docs ↔
    DocSet.Passes filter doc ∧ ∃ field ∈ k.searchFields ix, ∃ t ∈ terms field, doc ∈ ix.termDocs t
  found_subset : ∀ field ∈ k.searchFields ix, ∀ doc ∈ found field, doc ∈ docs
  union : (∀ field ∈ k.searchFields ix, ¬Conjunctive k ix word field) →
    ∀ doc, doc ∈ docs ↔ ∃ field ∈ k.searchFields ix, doc ∈ found field

/-- A word without a field finds the documents with any of the terms it stands for in its search fields. These
include what it finds in each of the fields, and are no more than that unless a field asks for several terms of
the word together. -/
theorem search_everywhere (k : Context) (ix : Index) (word : String) (boost : Float32) (filter : Option DocSet)
    (h : ∀ field ∈ k.searchFields ix, ∃ r, ((Query.ofWord word (some field) boost).resolve k ix).1 = .ok r) :
    ∃ docs terms found, FoundEverywhere k ix word boost filter docs terms found := by
  have hnonempty : Nonempty Expansion := ⟨⟨.emptyResult 1, []⟩⟩
  have hfields : ∀ field ∈ k.searchFields ix, ∃ x docs, expandIn k ix word field 1 = .ok x ∧
      ((Query.ofWord word (some field) boost).resolve k ix).1.bind Query.terms = .ok x.matched ∧
      (Query.ofWord word (some field) boost).search k ix filter = .ok docs ∧
      ∀ doc, doc ∈ docs ↔ DocSet.Passes filter doc ∧ Matches k ix word field x.matched doc := by
    intro field hf
    obtain ⟨r, hr⟩ := h field hf
    obtain ⟨y, hy, -⟩ := resolve_ofWord_inField.1 hr
    obtain ⟨x, hx, hmatched⟩ := expandIn_boost hy 1
    obtain ⟨hterms, docs, hdocs⟩ := @search_inField k ix word field boost y filter hy
    rw [← hmatched] at hterms hdocs
    exact ⟨x, docs, hx, hterms, hdocs⟩
  choose! x found hx hterms hfound hmem using hfields
  obtain ⟨docs, hdocs, hanywhere⟩ := @search_anywhere k ix word boost filter x hx
  refine ⟨docs, fun field => (x field).matched, found, hdocs, hterms, hfound, hmem, hanywhere,
    fun field hf doc hd => ?_, fun hplain doc => ?_⟩
  · obtain ⟨hpasses, hterm, -⟩ := (hmem field hf doc).1 hd
    exact (hanywhere doc).2 ⟨hpasses, field, hf, hterm⟩
  · rw [hanywhere]
    constructor
    · rintro ⟨hpasses, field, hf, hterm⟩
      refine ⟨field, hf, (hmem field hf doc).2 ⟨hpasses, ?_⟩⟩
      exact (matches_of_not_conjunctive (hplain field hf)).2 hterm
    · rintro ⟨field, hf, hd⟩
      obtain ⟨hpasses, hterm, -⟩ := (hmem field hf doc).1 hd
      exact ⟨hpasses, field, hf, hterm⟩

/-- A document with both parts of a word, and one with the first part only. -/
def wordParts : Index :=
  ({ analyzer := .ofConfig .bare {} } : Index).add [("f", .text "red blue")] |>.add [("f", .text "red")]

private theorem hyphenatedWord_resolves : ∀ field ∈ Context.searchFields { analyzer := .ofConfig .bare {} } wordParts,
    ∃ r, ((Query.ofWord "red-blue" (some field) 1).resolve { analyzer := .ofConfig .bare {} } wordParts).1 = .ok r := by
  have hok : ∀ field ∈ Context.searchFields { analyzer := .ofConfig .bare {} } wordParts,
      ((Query.ofWord "red-blue" (some field) 1).resolve { analyzer := .ofConfig .bare {} } wordParts).1.toBool = true := by
    decide +kernel
  intro field hf
  have hfield := hok field hf
  cases hr : ((Query.ofWord "red-blue" (some field) 1).resolve { analyzer := .ofConfig .bare {} } wordParts).1 with
  | error e =>
    rw [hr] at hfield
    cases hfield
  | ok r => exact ⟨r, rfl⟩

theorem hyphenatedWord_everywhere : Context.searchFields { analyzer := .ofConfig .bare {} } wordParts = ["f"] ∧
    (∀ field ∈ Context.searchFields { analyzer := .ofConfig .bare {} } wordParts,
      ∃ r, ((Query.ofWord "red-blue" (some field) 1).resolve { analyzer := .ofConfig .bare {} } wordParts).1 = .ok r) ∧
    ∃ docs terms found,
      FoundEverywhere { analyzer := .ofConfig .bare {} } wordParts "red-blue" 1 none docs terms found :=
  ⟨by decide +kernel, hyphenatedWord_resolves,
    search_everywhere { analyzer := .ofConfig .bare {} } wordParts "red-blue" 1 none hyphenatedWord_resolves⟩

/-- A word without a field finds the document with its first part only, which it does not find in the field. -/
theorem hyphenatedWord_not_union :
    (∀ field ∈ Context.searchFields { analyzer := .ofConfig .bare {} } wordParts,
      ∃ r, ((Query.ofWord "red-blue" (some field) 1).resolve { analyzer := .ofConfig .bare {} } wordParts).1 = .ok r) ∧
    ¬∃ (docs : DocSet) (found : String → DocSet),
      (Query.ofWord "red-blue" none 1).search { analyzer := .ofConfig .bare {} } wordParts none = .ok docs ∧
      (∀ field ∈ Context.searchFields { analyzer := .ofConfig .bare {} } wordParts,
        (Query.ofWord "red-blue" (some field) 1).search { analyzer := .ofConfig .bare {} } wordParts none =
          .ok (found field)) ∧
      ∀ doc, doc ∈ docs ↔
        ∃ field ∈ Context.searchFields { analyzer := .ofConfig .bare {} } wordParts, doc ∈ found field := by
  have hanywhere : (((Query.ofWord "red-blue" none 1).search { analyzer := .ofConfig .bare {} } wordParts none).map
      (·.contains 1)).toOption = some true := by
    decide +kernel
  have hin : ∀ field ∈ Context.searchFields { analyzer := .ofConfig .bare {} } wordParts,
      (((Query.ofWord "red-blue" (some field) 1).search { analyzer := .ofConfig .bare {} } wordParts none).map
        (·.contains 1)).toOption = some false := by
    decide +kernel
  refine ⟨hyphenatedWord_resolves, ?_⟩
  rintro ⟨docs, found, hdocs, hfound, hunion⟩
  rw [hdocs] at hanywhere
  obtain ⟨field, hf, hmem⟩ := (hunion 1).1 (Option.some.inj hanywhere)
  have hmissed := hin field hf
  rw [hfound field hf] at hmissed
  have hnot : (found field).contains 1 = false := Option.some.inj hmissed
  have hcontains : (found field).contains 1 = true := hmem
  rw [hnot] at hcontains
  cases hcontains

end searching

end RawTerm

end TextSearch
