import TextSearch.Proofs.Leaves

/-! The form of resolved queries. All their terms have fields, no list of terms is empty, and resolving them
once more changes nothing. -/
namespace TextSearch

/-- A term of one of these fields. -/
def Term.Of (fields : List String) (t : Term) : Prop := ∃ field ∈ fields, t.field = some field

theorem Term.of_inField {fields : List String} {field : String} (h : field ∈ fields) (text : String) :
    (Term.inField field text).Of fields :=
  ⟨field, h, rfl⟩

theorem Term.Of.mono {fields wider : List String} {t : Term} (h : t.Of fields) (hw : fields ⊆ wider) :
    t.Of wider := by
  obtain ⟨field, hm, hf⟩ := h
  exact ⟨field, hw hm, hf⟩

/-- The fields a part without a resolved field is looked for in. -/
def Context.fieldsOf (k : Context) (ix : Index) (field : Option String) : List String :=
  match field with
  | some field => [field]
  | none => k.searchFields ix

namespace Query

/-- A query as it is built, without weights and matches to forget. -/
def Fresh (q : Query) : Prop := q.reset = q

theorem resetClauses_eq_self {clauses : List (Occur × Query)} :
    resetClauses clauses = clauses ↔ ∀ c ∈ clauses, c.2.Fresh := by
  induction clauses with
  | nil => simp [resetClauses]
  | cons c rest ih =>
    rw [resetClauses, List.cons.injEq, ih, List.forall_mem_cons, Prod.ext_iff, and_iff_right rfl, Fresh]

theorem fresh_boolean {clauses : List (Occur × Query)} {n : Combination} :
    (boolean clauses n).Fresh ↔ (n.weighted = false ∧ n.docs = ∅) ∧ ∀ c ∈ clauses, c.2.Fresh := by
  obtain ⟨b, weighted, docs⟩ := n
  rw [Fresh, reset, boolean.injEq, resetClauses_eq_self, and_comm]
  simp [eq_comm]

theorem Fresh.withBoost {q : Query} (h : q.Fresh) (b : Float32) : (q.withBoost b).Fresh := by
  have hreset : (q.withBoost b).reset = q.reset.withBoost b := by cases q <;> rfl
  rw [Fresh, hreset, h]

/-- The normal form: combinations as they are built, and terms and phrases in some of these fields. -/
inductive Primitive (fields : List String) : Query → Prop
  | boolean {clauses : List (Occur × Query)} (b : Float32) :
    (∀ c ∈ clauses, Primitive fields c.2) → Primitive fields (ofClauses clauses b)
  | term {n : TermQuery} : n.term.Of fields → Primitive fields (term n)
  | multiTerm {n : MultiTermQuery} :
    n.terms ≠ [] → (∀ t ∈ n.terms, t.2.Of fields) → Primitive fields (multiTerm n)
  | phrase {n : PhraseQuery} :
    n.terms ≠ [] → (∀ t ∈ n.terms, t.1.Of fields) → Primitive fields (phrase n)
  | insignificant (b : Float32) : Primitive fields (insignificant b)
  | emptyResult (b : Float32) : Primitive fields (emptyResult b)

namespace Primitive
variable {fields wider : List String} {q : Query}

theorem mono (h : q.Primitive fields) (hw : fields ⊆ wider) : q.Primitive wider := by
  induction h with
  | boolean b _ ih => exact .boolean b ih
  | term ht => exact .term (ht.mono hw)
  | multiTerm hne ht => exact .multiTerm hne fun t hm => (ht t hm).mono hw
  | phrase hne ht => exact .phrase hne fun t hm => (ht t hm).mono hw
  | insignificant b => exact .insignificant b
  | emptyResult b => exact .emptyResult b

theorem resolved (h : q.Primitive fields) : q.Resolved := by
  induction h with
  | boolean b _ ih => exact .boolean ih
  | term => exact .term _
  | multiTerm => exact .multiTerm _
  | phrase => exact .phrase _
  | insignificant b => exact .insignificant b
  | emptyResult b => exact .emptyResult b

theorem withBoost (h : q.Primitive fields) (b : Float32) : (q.withBoost b).Primitive fields := by
  cases h with
  | boolean _ hc => exact .boolean b hc
  | term ht => exact .term ht
  | multiTerm hne ht => exact .multiTerm hne ht
  | phrase hne ht => exact .phrase hne ht
  | insignificant => exact .insignificant b
  | emptyResult => exact .emptyResult b

private theorem clauseTerms_of {clauses : List (Occur × Query)}
    (h : ∀ c ∈ clauses, ∀ ts, c.2.terms = .ok ts → ∀ t ∈ ts, t.Of fields) :
    ∀ ts, clauseTerms clauses = .ok ts → ∀ t ∈ ts, t.Of fields := by
  induction clauses with
  | nil =>
    rintro _ ⟨⟩
    nofun
  | cons c rest ih =>
    obtain ⟨hc, hrest⟩ := List.forall_mem_cons.1 h
    intro ts hts
    rw [clauseTerms] at hts
    split at hts
    · exact ih hrest ts hts
    split at hts
    · cases hts
    rename_i found hfound
    obtain ⟨others, ho, rfl⟩ := Lexeme.map_eq_ok.1 hts
    exact List.forall_mem_append.2 ⟨hc found hfound, ih hrest others ho⟩

theorem terms_of (h : q.Primitive fields) {ts : List Term} (hts : q.terms = .ok ts) :
    ∀ t ∈ ts, t.Of fields := by
  induction h generalizing ts with
  | boolean b _ ih => exact clauseTerms_of (fun c hc ts => ih c hc) ts hts
  | term ht =>
    cases hts
    exact List.forall_mem_singleton.2 ht
  | multiTerm _ ht =>
    cases hts
    exact List.forall_mem_map.2 fun t hm => ht t (List.mem_filter.1 hm).1
  | phrase _ ht =>
    cases hts
    exact List.forall_mem_map.2 ht
  | insignificant | emptyResult =>
    cases hts
    nofun

private theorem resolveClauses_eq {k : Context} {ix : Index} {clauses : List (Occur × Query)}
    (h : ∀ c ∈ clauses, c.2.resolve k ix = (.ok c.2, c.2)) :
    resolveClauses k ix clauses = (.ok clauses, clauses) := by
  induction clauses with
  | nil => rfl
  | cons c rest ih =>
    obtain ⟨hc, hrest⟩ := List.forall_mem_cons.1 h
    rw [resolveClauses, hc, ih hrest]
    rfl

/-- Queries in normal form stay as they are. -/
theorem resolve_eq (h : q.Primitive fields) (k : Context) (ix : Index) :
    q.resolve k ix = (.ok q, q) := by
  induction h with
  | boolean b _ ih => simp only [ofClauses, resolve, resolveClauses_eq ih]
  | @term n ht =>
    obtain ⟨field, -, hf⟩ := ht
    simp only [resolve, TermQuery.resolve, hf]
  | @multiTerm n hne ht =>
    have hfields : ∀ t ∈ n.terms, t.2.field.isSome := by
      intro t hm
      obtain ⟨field, -, hf⟩ := ht t hm
      rw [hf]
      rfl
    simp only [resolve, MultiTermQuery.resolve, List.isEmpty_iff, hne, if_false]
    rw [if_pos (List.all_eq_true.2 hfields)]
  | @phrase n hne ht =>
    have hfield : n.field.isSome = true := by
      obtain ⟨t, rest, hterms⟩ := List.exists_cons_of_ne_nil hne
      obtain ⟨field, -, hf⟩ := ht t (by simp [hterms])
      simp [PhraseQuery.field, hterms, hf]
    simp [resolve, PhraseQuery.resolve, hne, hfield]
  | insignificant b => rfl
  | emptyResult b => rfl

end Primitive

/-- A new query for terms of these fields. -/
structure Built (fields : List String) (q : Query) : Prop where
  primitive : q.Primitive fields
  fresh : q.Fresh

namespace Built
variable {fields wider : List String} {q : Query}

theorem mono (h : q.Built fields) (hw : fields ⊆ wider) : q.Built wider := ⟨h.primitive.mono hw, h.fresh⟩

theorem among {field : String} (h : q.Built [field]) (hf : field ∈ fields) : q.Built fields :=
  h.mono (List.cons_subset.2 ⟨hf, List.nil_subset _⟩)

theorem insignificant (b : Float32) : (insignificant b).Built fields := ⟨.insignificant b, rfl⟩

theorem emptyResult (b : Float32) : (emptyResult b).Built fields := ⟨.emptyResult b, rfl⟩

theorem ofTerm {t : Term} (h : t.Of fields) (b : Float32) : (ofTerm t b).Built fields := ⟨.term h, rfl⟩

theorem ofTerms {terms : List (Occur × Term)} (hne : terms ≠ []) (h : ∀ t ∈ terms, t.2.Of fields)
    (b : Float32) : (ofTerms terms b).Built fields :=
  ⟨.multiTerm hne h, rfl⟩

theorem ofClauses {clauses : List (Occur × Query)} (h : ∀ c ∈ clauses, c.2.Built fields) (b : Float32) :
    (ofClauses clauses b).Built fields :=
  ⟨.boolean b fun c hc => (h c hc).primitive, fresh_boolean.2 ⟨⟨rfl, rfl⟩, fun c hc => (h c hc).fresh⟩⟩

theorem withBoost (h : q.Built fields) (b : Float32) : (q.withBoost b).Built fields :=
  ⟨h.primitive.withBoost b, h.fresh.withBoost b⟩

theorem ofMatches {terms : List Term} (h : ∀ t ∈ terms, t.Of fields) (b : Float32) :
    (ofMatches terms b).Built fields := by
  unfold Query.ofMatches
  split
  · exact .emptyResult 1
  · exact .ofTerm (h _ (List.mem_singleton_self _)) b
  · rename_i hnil _
    exact .ofTerms (by simpa using hnil) (List.forall_mem_map.2 h) b

theorem ofWords {field : String} (h : field ∈ fields) (words : List String) (b : Float32) :
    (ofWords field words b).Built fields := by
  unfold Query.ofWords
  split
  · exact .insignificant 1
  · exact .ofTerm (Term.of_inField h _) b
  · rename_i hnil _
    exact .ofTerms (by simpa using hnil) (List.forall_mem_map.2 fun w _ => Term.of_inField h w) b

theorem ofNothing (found : List Query) : (ofNothing found).Built fields := by
  unfold Query.ofNothing
  split
  · exact .insignificant 1
  · exact .emptyResult 1

end Built
end Query
end TextSearch
