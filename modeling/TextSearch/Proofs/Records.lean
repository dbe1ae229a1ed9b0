import TextSearch.Proofs.SearchFields
import TextSearch.Proofs.Weights

/-! What a query keeps of having been resolved. Each leaf records the terms it was found to stand for, which are
those of the resolved query, and nothing else about the query changes. -/
namespace TextSearch

/-- The query of an expansion matches the documents of the terms found. -/
def Expansion.Exact (x : Expansion) : Prop := x.query.terms = .ok x.matched

theorem Expansion.ofQuery_exact {q : Query} {x : Expansion} (h : Expansion.ofQuery q = .ok x) : x.Exact := by
  obtain ⟨found, hfound, rfl⟩ := Lexeme.map_eq_ok.1 h
  exact hfound

theorem Query.ofMatches_terms (found : List Term) (boost : Float32) :
    (Query.ofMatches found boost).terms = .ok found := by
  unfold Query.ofMatches
  split
  · rfl
  · rfl
  · simp [Query.ofTerms, Query.terms, List.filter_map, Function.comp_def]

theorem Query.ofWords_terms (field : String) (words : List String) (boost : Float32) :
    (Query.ofWords field words boost).terms = .ok (words.map (Term.inField field)) := by
  unfold Query.ofWords
  split
  · rfl
  · rfl
  · rw [Query.ofTerms, Query.terms, List.filter_eq_self.2 (List.forall_mem_map.2 fun _ _ => rfl), List.map_map]
    rfl

section patterns
variable {ix : Index} {x : Expansion}

theorem WildcardQuery.expand_eq_ok {w : WildcardQuery} : w.expand ix = .ok x ↔
    ¬w.literalStart.length < w.minPrefixLength ∧
      ∃ found, withinLimit w.termsLimit ((ix.termsIn (ix.fieldsOf w.pattern.field)).filter w.accepts) = .ok found ∧
        ⟨.ofMatches found w.boost, found⟩ = x := by
  rw [WildcardQuery.expand_eq]
  split
  · rename_i hshort
    exact iff_of_false nofun fun h => h.1 hshort
  · rename_i hlong
    rw [Lexeme.map_eq_ok, and_iff_right hlong]

theorem WildcardQuery.expand_exact {w : WildcardQuery} (h : w.expand ix = .ok x) : x.Exact := by
  obtain ⟨-, found, -, rfl⟩ := WildcardQuery.expand_eq_ok.1 h
  exact Query.ofMatches_terms found _

theorem RangeQuery.expand_exact {r : RangeQuery} (h : r.expand ix = .ok x) : x.Exact := by
  rw [RangeQuery.expand_eq] at h
  obtain ⟨found, -, rfl⟩ := Lexeme.map_eq_ok.1 h
  exact Query.ofMatches_terms found _

end patterns

namespace FuzzyQuery

/-- The terms of an index that are similar enough, in the order of the index. -/
def similar (f : FuzzyQuery) (ix : Index) : List Term :=
  (ix.termsIn (ix.fieldsOf f.term.field)).filter fun t => (f.score? t).isSome

private theorem clauseTerms_scored (scored : List (Term × Float32)) :
    Query.clauseTerms (scored.map fun (t, score) => (.optional, .ofTerm t score)) = .ok (scored.map (·.1)) := by
  induction scored with
  | nil => rfl
  | cons t rest ih =>
    rw [List.map_cons, Query.clauseTerms, ih]
    rfl

theorem ofScored_terms (scored : List (Term × Float32)) (boost : Float32) :
    (ofScored scored boost).terms = .ok ((scored.map (·.1)).take maxClauses) := by
  unfold ofScored
  split
  · rfl
  · rfl
  · rw [← List.map_take]
    exact clauseTerms_scored _

theorem map_scored (f : FuzzyQuery) (ts : List Term) :
    (ts.filterMap fun t => (f.score? t).map (t, ·)).map (·.1) = ts.filter fun t => (f.score? t).isSome := by
  induction ts with
  | nil => rfl
  | cons t rest ih =>
    cases ht : f.score? t with
    | none => simpa [ht] using ih
    | some score => simpa [ht] using ih

/-- All similar terms are found, and the best of them become clauses. -/
theorem expand_similar {f : FuzzyQuery} {ix : Index} {x : Expansion} (h : f.expand ix = .ok x) :
    x.matched.Perm (f.similar ix) ∧ x.query.terms = .ok (x.matched.take maxClauses) := by
  rw [expand_eq] at h
  obtain ⟨found, hfound, rfl⟩ := Lexeme.map_eq_ok.1 h
  refine ⟨?_, ofScored_terms _ _⟩
  rw [withinLimit_ok hfound, similar, ← map_scored]
  exact (List.mergeSort_perm _ _).map _

end FuzzyQuery

section words
variable {k : Context} {ix : Index} {x : Expansion} {word field : String}

/-- The three ways a word is looked up in a field. -/
theorem RawTerm.expandIn_eq_ok {boost : Float32} : RawTerm.expandIn k ix word field boost = .ok x ↔
    ix.hasTerm (.inField field word) = true ∧
        x = ⟨.ofTerm (.inField field word) boost, [.inField field word]⟩ ∨
      (ix.hasTerm (.inField field word) = false ∧ word.toList.any Glob.isWildcard = true ∧
        ∃ pattern, analyzePattern k.analyzer word = .ok pattern ∧
          WildcardQuery.expand {
            pattern := .inField field pattern
            boost
            minPrefixLength := k.wildcardMinPrefixLength
            termsLimit := k.termsLimit } ix = .ok x) ∨
      ix.hasTerm (.inField field word) = false ∧ word.toList.any Glob.isWildcard = false ∧
        x = ⟨.ofWords field (k.analyzer.terms word) boost, (k.analyzer.terms word).map (Term.inField field)⟩ := by
  unfold RawTerm.expandIn
  dsimp only
  cases ix.hasTerm (.inField field word) with
  | true => simp [eq_comm (a := x)]
  | false =>
    cases word.toList.any Glob.isWildcard with
    | true => cases analyzePattern k.analyzer word <;> simp
    | false => simp [Expansion.ofQuery, Query.ofWords_terms, Except.map, eq_comm (a := x)]

theorem RawTerm.expandIn_exact {boost : Float32} (h : RawTerm.expandIn k ix word field boost = .ok x) : x.Exact := by
  rcases RawTerm.expandIn_eq_ok.1 h with ⟨-, rfl⟩ | ⟨-, -, pattern, -, hx⟩ | ⟨-, -, rfl⟩
  · rfl
  · exact WildcardQuery.expand_exact hx
  · exact Query.ofWords_terms _ _ _

theorem RawTerm.expand_exact {n : RawTerm} (h : n.expand k ix = .ok x) : x.Exact := by
  unfold RawTerm.expand at h
  split at h
  · exact RawTerm.expandIn_exact h
  · obtain ⟨q, -, hx⟩ := bind_eq_ok.1 h
    exact Expansion.ofQuery_exact hx

namespace RawFuzzy

/-- The term of a field that a word is compared with, if there is one. -/
def target? (k : Context) (ix : Index) (word field : String) : Option Term :=
  if ix.hasTerm (.inField field word) then some (.inField field word)
  else
    match k.analyzer.terms word with
    | [t] => some (.inField field t)
    | _ => none

/-- The terms of a field that are similar enough to a word. -/
def similarIn (n : RawFuzzy) (k : Context) (ix : Index) (field : String) : List Term :=
  match target? k ix n.word field with
  | none => []
  | some t =>
    FuzzyQuery.similar {
      term := t
      minSimilarity := n.minSimilarity
      prefixLength := k.fuzzyPrefixLength
      boost := n.boost
      termsLimit := k.termsLimit } ix

theorem expandIn_similar {n : RawFuzzy} (h : expandIn k ix n.word field n.minSimilarity n.boost = .ok x) :
    x.matched.Perm (n.similarIn k ix field) ∧ x.query.terms = .ok (x.matched.take FuzzyQuery.maxClauses) := by
  have hsimilar {t : Term} (ht : target? k ix n.word field = some t)
      (hx : similarTo k ix t n.minSimilarity n.boost = .ok x) :
      x.matched.Perm (n.similarIn k ix field) ∧ x.query.terms = .ok (x.matched.take FuzzyQuery.maxClauses) := by
    obtain ⟨_, -, hx⟩ := bind_eq_ok.1 hx
    rw [similarIn, ht]
    exact FuzzyQuery.expand_similar hx
  unfold expandIn at h
  dsimp only at h
  split at h
  · rename_i hexact
    exact hsimilar (if_pos hexact) h
  rename_i hexact
  split at h
  · cases h
  split at h
  · rename_i hnone
    cases h
    simp [similarIn, target?, hexact, hnone, Query.terms]
  · rename_i t hone
    exact hsimilar (by simp [target?, hexact, hone]) h
  · cases h

theorem expand_similar {n : RawFuzzy} (hf : n.field = some field) (h : n.expand k ix = .ok x) :
    x.matched.Perm (n.similarIn k ix field) ∧ x.query.terms = .ok (x.matched.take FuzzyQuery.maxClauses) := by
  unfold expand at h
  simp only [hf] at h
  exact expandIn_similar h

theorem expand_exact {n : RawFuzzy} (hf : n.field = none) (h : n.expand k ix = .ok x) : x.Exact := by
  unfold expand at h
  simp only [hf] at h
  split at h
  · cases h
  · exact Expansion.ofQuery_exact h

end RawFuzzy

end words

namespace Query

section leafMaps
variable {f : Query → Query} {q : Query}

theorem render_mapLeaves (h : ∀ l ∈ q.leaves, (f l).render = l.render) : (q.mapLeaves f).render = q.render := by
  induction q using clauseInduction with
  | boolean clauses n ih =>
    have hclauses : renderClauses (clauses.map fun c => (c.1, c.2.mapLeaves f)) = renderClauses clauses := by
      replace ih : ∀ c ∈ clauses, (c.2.mapLeaves f).render = c.2.render :=
        fun c hc => ih c hc (forall_leaves_boolean.1 h c hc)
      clear h
      induction clauses with
      | nil => rfl
      | cons c rest ihr =>
        obtain ⟨hc, hrest⟩ := List.forall_mem_cons.1 ih
        simp only [List.map_cons, renderClauses, hc, ihr hrest]
    rw [mapLeaves_boolean, render, render, hclauses]
  | _ => exact h _ (List.mem_singleton_self _)

theorem terms_ok_of_leaves (h : ∀ l ∈ q.leaves, ∃ ts, l.terms = .ok ts) : ∃ ts, q.terms = .ok ts := by
  induction q using clauseInduction with
  | boolean clauses n ih => exact clauseTerms_ok fun c hc => ih c hc (forall_leaves_boolean.1 h c hc)
  | _ => exact h _ (List.mem_singleton_self _)

end leafMaps

section resolving
variable {f g : Query → Query} {q r : Query} {k : Context} {ix : Index} {clauses : List (Occur × Query)}
  {n : Combination}

/-- A query keeps its combinations when it is resolved. -/
theorem resolve_snd_of_ok (h : (q.resolve k ix).1 = .ok r) :
    (q.resolve k ix).2 = q.mapLeaves fun l => (l.resolve k ix).2 := by
  induction q using clauseInduction generalizing r with
  | boolean clauses n ih =>
    obtain ⟨resolved, hr, -⟩ := resolve_boolean_ok h
    have hsnd : (resolveClauses k ix clauses).2 =
        clauses.map fun c => (c.1, c.2.mapLeaves fun l => (l.resolve k ix).2) := by
      clear h
      induction clauses generalizing resolved with
      | nil => rfl
      | cons c rest ihr =>
        obtain ⟨occur, query⟩ := c
        obtain ⟨hquery, hrest⟩ := List.forall_mem_cons.1 ih
        rw [resolveClauses_cons_fst] at hr
        obtain ⟨s, hs, hr⟩ := bind_eq_ok.1 hr
        obtain ⟨others, hothers, -⟩ := Lexeme.map_eq_ok.1 hr
        rw [List.map_cons, ← ihr hrest others hothers, ← hquery hs, resolveClauses]
        split
        · rename_i he
          rw [he] at hs
          cases hs
        · rename_i he
          rw [he]
    rw [resolve_boolean_snd, mapLeaves_boolean, hsnd]
  | _ => rfl

theorem resolve_mapLeaves_fst (h : ∀ l ∈ q.leaves, ((f l).resolve k ix).1 = (l.resolve k ix).1) :
    ((q.mapLeaves f).resolve k ix).1 = (q.resolve k ix).1 := by
  induction q using clauseInduction with
  | boolean clauses n ih =>
    have hclauses : (resolveClauses k ix (clauses.map fun c => (c.1, c.2.mapLeaves f))).1 =
        (resolveClauses k ix clauses).1 := by
      replace ih : ∀ c ∈ clauses, ((c.2.mapLeaves f).resolve k ix).1 = (c.2.resolve k ix).1 :=
        fun c hc => ih c hc (forall_leaves_boolean.1 h c hc)
      clear h
      induction clauses with
      | nil => rfl
      | cons c rest ihr =>
        obtain ⟨hc, hrest⟩ := List.forall_mem_cons.1 ih
        rw [List.map_cons, resolveClauses_cons_fst, resolveClauses_cons_fst, hc, ihr hrest]
    rw [mapLeaves_boolean, resolve_boolean_fst, resolve_boolean_fst, hclauses]
  | _ => exact h _ (List.mem_singleton_self _)

/-- The terms of a resolved query, from those of each resolved leaf. -/
theorem resolve_terms (hleaf : ∀ l ∈ q.leaves, ∀ s, (l.resolve k ix).1 = .ok s → s.terms = (g l).terms)
    (h : (q.resolve k ix).1 = .ok r) : r.terms = (q.mapLeaves g).terms := by
  induction q using clauseInduction generalizing r with
  | boolean clauses n ih =>
    obtain ⟨resolved, hr, rfl⟩ := resolve_boolean_ok h
    have hclauses : clauseTerms resolved = clauseTerms (clauses.map fun c => (c.1, c.2.mapLeaves g)) := by
      replace hleaf := forall_leaves_boolean.1 hleaf
      have hpairs := resolveClauses_forall₂ hr
      clear h hr
      induction hpairs with
      | nil => rfl
      | cons hc _ ihr =>
        obtain ⟨hquery, hrest⟩ := List.forall_mem_cons.1 ih
        obtain ⟨hfirst, hothers⟩ := List.forall_mem_cons.1 hleaf
        rw [List.map_cons, clauseTerms, clauseTerms, ← hc.1, hquery hfirst hc.2, ihr hrest hothers]
    rw [mapLeaves_boolean, ofClauses, terms, terms, hclauses]
  | _ => exact hleaf _ (List.mem_singleton_self _) _ h

end resolving

/-- A leaf with another record of the terms it was found to stand for. -/
def withRecord (matched : Option (List Term)) : Query → Query
  | wildcard n => wildcard { n with matched }
  | fuzzy n => fuzzy { n with matched }
  | range n => range { n with matched }
  | rawTerm n => rawTerm { n with matched }
  | rawPhrase n => rawPhrase { n with matched }
  | rawFuzzy n => rawFuzzy { n with matched }
  | q => q

/-- A query without any record. -/
def unrecorded (q : Query) : Query := q.mapLeaves (withRecord none)

/-- A leaf without the similar terms that do not become clauses. -/
def cap : Query → Query
  | rawFuzzy n =>
    if n.field.isSome then rawFuzzy { n with matched := n.matched.map (·.take FuzzyQuery.maxClauses) }
    else rawFuzzy n
  | q => q

theorem cap_fieldless {n : RawFuzzy} (hf : n.field = none) : cap (rawFuzzy n) = rawFuzzy n :=
  if_neg (by simp [hf])

theorem cap_inField {n : RawFuzzy} {field : String} (hf : n.field = some field) :
    cap (rawFuzzy n) = rawFuzzy { n with matched := n.matched.map (·.take FuzzyQuery.maxClauses) } :=
  if_pos (by simp [hf])

/-- A query whose record holds no more similar terms of a word in a field than become clauses. -/
def capped (q : Query) : Query := q.mapLeaves cap

section recording
variable {q l s r : Query} {k : Context} {ix : Index}

/-- All that resolving changes about a leaf is its record. -/
theorem resolve_leaf_snd (hl : l.leaves = [l]) : ∃ matched, (l.resolve k ix).2 = l.withRecord matched := by
  have hsettle {expansion : Except Error Expansion} {matched : Option (List Term)} (h : l = l.withRecord matched) :
      ∃ matched, (settle expansion l fun m => l.withRecord m).2 = l.withRecord matched := by
    cases expansion with
    | ok x => exact ⟨some x.matched, rfl⟩
    | error e => exact ⟨matched, h⟩
  cases l with
  | boolean => exact absurd (hl ▸ List.mem_singleton_self _) boolean_not_mem_leaves
  | wildcard n | fuzzy n | range n | rawTerm n | rawPhrase n | rawFuzzy n => exact @hsettle _ n.matched rfl
  | _ => exact ⟨none, rfl⟩

theorem leaves_withRecord (hl : l.leaves = [l]) (matched : Option (List Term)) :
    (l.withRecord matched).leaves = [l.withRecord matched] := by
  cases l with
  | boolean => exact absurd (hl ▸ List.mem_singleton_self _) boolean_not_mem_leaves
  | _ => rfl

theorem render_withRecord (q : Query) (matched : Option (List Term)) : (q.withRecord matched).render = q.render := by
  cases q <;> rfl

theorem withRecord_withRecord (q : Query) (m m' : Option (List Term)) :
    (q.withRecord m).withRecord m' = q.withRecord m' := by
  cases q <;> rfl

/-- A record plays no part in resolving, and makes way for a new one. -/
theorem resolve_withRecord (q : Query) (matched : Option (List Term)) :
    ((q.withRecord matched).resolve k ix).1 = (q.resolve k ix).1 ∧
      ∀ r, (q.resolve k ix).1 = .ok r → ((q.withRecord matched).resolve k ix).2 = (q.resolve k ix).2 := by
  have hsettle {expansion : Except Error Expansion} {p : Query} {record : Option (List Term) → Query} :
      (settle expansion (p.withRecord matched) record).1 = (settle expansion p record).1 ∧
        ∀ r, (settle expansion p record).1 = .ok r →
          (settle expansion (p.withRecord matched) record).2 = (settle expansion p record).2 := by
    cases expansion with
    | ok x => exact ⟨rfl, fun _ _ => rfl⟩
    | error e => exact ⟨rfl, nofun⟩
  cases q with
  | wildcard n => exact @hsettle (n.expand ix) (wildcard n) _
  | fuzzy n => exact @hsettle (n.expand ix) (fuzzy n) _
  | range n => exact @hsettle (n.expand ix) (range n) _
  | rawTerm n => exact @hsettle (n.expand k ix) (rawTerm n) _
  | rawPhrase n => exact @hsettle (n.expand k ix) (rawPhrase n) _
  | rawFuzzy n => exact @hsettle (n.expand k ix) (rawFuzzy n) _
  | _ => exact ⟨rfl, fun _ _ => rfl⟩

theorem resolve_leaf_leaves (hl : l ∈ q.leaves) : (l.resolve k ix).2.leaves = [(l.resolve k ix).2] := by
  obtain ⟨matched, hm⟩ := @resolve_leaf_snd l k ix (leaves_of_mem_leaves hl)
  rw [hm]
  exact leaves_withRecord (leaves_of_mem_leaves hl) matched

/-- The second query is the first one with other records. -/
def Rerecords (q q' : Query) : Prop :=
  ∃ f : Query → Query, (∀ l ∈ q.leaves, ∃ matched, f l = l.withRecord matched) ∧ q' = q.mapLeaves f

theorem resolve_rerecords (h : (q.resolve k ix).1 = .ok r) : q.Rerecords (q.resolve k ix).2 :=
  ⟨_, fun _ hl => resolve_leaf_snd (leaves_of_mem_leaves hl), resolve_snd_of_ok h⟩

namespace Rerecords
variable {q' : Query}

private theorem leaves_eq {f : Query → Query} (hf : ∀ l ∈ q.leaves, ∃ matched, f l = l.withRecord matched) :
    ∀ l ∈ q.leaves, (f l).leaves = [f l] := by
  intro l hl
  obtain ⟨matched, hm⟩ := hf l hl
  rw [hm]
  exact leaves_withRecord (leaves_of_mem_leaves hl) matched

theorem unrecorded (h : q.Rerecords q') : q'.unrecorded = q.unrecorded := by
  obtain ⟨f, hf, rfl⟩ := h
  rw [Query.unrecorded, mapLeaves_mapLeaves (leaves_eq hf)]
  refine mapLeaves_congr fun l hl => ?_
  obtain ⟨matched, hm⟩ := hf l hl
  rw [hm, withRecord_withRecord]

theorem render (h : q.Rerecords q') : q'.render = q.render := by
  obtain ⟨f, hf, rfl⟩ := h
  refine render_mapLeaves fun l hl => ?_
  obtain ⟨matched, hm⟩ := hf l hl
  rw [hm, render_withRecord]

theorem resolve_fst (h : q.Rerecords q') (k : Context) (ix : Index) : (q'.resolve k ix).1 = (q.resolve k ix).1 := by
  obtain ⟨f, hf, rfl⟩ := h
  refine resolve_mapLeaves_fst fun l hl => ?_
  obtain ⟨matched, hm⟩ := hf l hl
  rw [hm]
  exact (resolve_withRecord l matched).1

theorem resolve_snd (h : q.Rerecords q') (hr : (q.resolve k ix).1 = .ok r) :
    (q'.resolve k ix).2 = (q.resolve k ix).2 := by
  have hr' := h.resolve_fst k ix
  rw [hr] at hr'
  obtain ⟨f, hf, rfl⟩ := h
  rw [resolve_snd_of_ok hr', resolve_snd_of_ok hr, mapLeaves_mapLeaves (leaves_eq hf)]
  refine mapLeaves_congr fun l hl => ?_
  obtain ⟨matched, hm⟩ := hf l hl
  obtain ⟨s, hs⟩ := resolve_leaf_ok hr l hl
  rw [hm]
  exact (resolve_withRecord l matched).2 s hs

end Rerecords

/-- The terms that are similar enough to a word in its field. -/
def similar? (k : Context) (ix : Index) : Query → Option (List Term)
  | rawFuzzy n => n.field.map (n.similarIn k ix)
  | _ => none

theorem similar?_withRecord (q : Query) (matched : Option (List Term)) :
    (q.withRecord matched).similar? k ix = q.similar? k ix := by
  cases q <;> rfl

/-- What `l'`, the leaf `l` after it was resolved to `s`, has recorded. -/
structure LeafRecorded (k : Context) (ix : Index) (l l' s : Query) : Prop where
  terms : s.terms = (cap l').terms
  terms_ok : ∃ found, l'.terms = .ok found
  similar : ∀ ts, l.similar? k ix = some ts → ∃ found, l'.terms = .ok found ∧ found.Perm ts
  cap_eq : (∀ ts, l.similar? k ix = some ts → ts.length ≤ FuzzyQuery.maxClauses) → cap l' = l'

/-- A leaf that records what it was resolved to, and is no word with a similarity in a field. -/
theorem LeafRecorded.whole {l' : Query} {found : List Term} (hs : s.terms = .ok found) (hl' : l'.terms = .ok found)
    (hcap : cap l' = l') (hsimilar : l.similar? k ix = none) : LeafRecorded k ix l l' s where
  terms := by rw [hcap, hl', hs]
  terms_ok := ⟨found, hl'⟩
  similar ts hts := by
    rw [hsimilar] at hts
    cases hts
  cap_eq _ := hcap

theorem resolve_leaf_recorded (hl : l.Parsed) (h : (l.resolve k ix).1 = .ok s) :
    LeafRecorded k ix l (l.resolve k ix).2 s := by
  cases l with
  | boolean | term | multiTerm | phrase | wildcard | fuzzy | emptyResult => cases hl
  | insignificant b =>
    cases h
    have hterms : (insignificant b).terms = .ok [] := rfl
    exact .whole hterms rfl rfl rfl
  | range n =>
    obtain ⟨x, hx, rfl⟩ := settle_ok h
    rw [resolve, hx]
    exact .whole (RangeQuery.expand_exact hx) rfl rfl rfl
  | rawTerm n =>
    obtain ⟨x, hx, rfl⟩ := settle_ok h
    rw [resolve, hx]
    exact .whole (RawTerm.expand_exact hx) rfl rfl rfl
  | rawPhrase n =>
    obtain ⟨x, hx, rfl⟩ := settle_ok h
    rw [resolve, hx]
    exact .whole (Expansion.ofQuery_exact hx) rfl rfl rfl
  | rawFuzzy n =>
    obtain ⟨x, hx, rfl⟩ := settle_ok h
    rw [resolve, hx]
    rcases Option.eq_none_or_eq_some n.field with hf | ⟨field, hf⟩
    · exact .whole (RawFuzzy.expand_exact hf hx) rfl (cap_fieldless hf) (by simp [similar?, hf])
    · have hcap (m : Option (List Term)) : cap (rawFuzzy { n with matched := m }) =
          rawFuzzy { n with matched := m.map (·.take FuzzyQuery.maxClauses) } :=
        cap_inField hf
      obtain ⟨hperm, hterms⟩ := RawFuzzy.expand_similar hf hx
      have hsimilar : similar? k ix (rawFuzzy n) = some (n.similarIn k ix field) := by simp [similar?, hf]
      refine ⟨?_, ⟨_, rfl⟩, fun ts hts => ?_, fun hfew => ?_⟩
      · rw [settle, hcap]
        exact hterms
      · rw [hsimilar] at hts
        cases hts
        exact ⟨x.matched, rfl, hperm⟩
      · have hlength : x.matched.length ≤ FuzzyQuery.maxClauses := hperm.length_eq ▸ hfew _ hsimilar
        rw [settle, hcap, Option.map_some, List.take_of_length_le hlength]

/-- What `source`, the query `q` after it was resolved to `r`, has recorded. -/
structure Recorded (k : Context) (ix : Index) (q source r : Query) : Prop where
  /-- The resolved query has the recorded terms, but only as many similar ones as become clauses. -/
  terms : r.terms = source.capped.terms
  /-- If no more terms are similar to a word in a field than become clauses, these are all recorded terms. -/
  exact : (∀ l ∈ q.leaves, ∀ ts, l.similar? k ix = some ts → ts.length ≤ FuzzyQuery.maxClauses) →
    ∃ found, source.terms = .ok found ∧ r.terms = .ok found
  terms_ok : ∃ found, source.terms = .ok found
  /-- All terms that are similar to a word in its field are recorded. -/
  similar : ∀ l ∈ source.leaves, ∀ ts, l.similar? k ix = some ts → ∃ found, l.terms = .ok found ∧ found.Perm ts
  unrecorded : source.unrecorded = q.unrecorded
  render : source.render = q.render
  /-- Resolving leads to the same query or failure as before, and to the same record as without one. -/
  resolve : ∀ k' ix', (source.resolve k' ix').1 = (q.resolve k' ix').1 ∧
    ∀ r', (q.resolve k' ix').1 = .ok r' → (source.resolve k' ix').2 = (q.resolve k' ix').2

theorem resolve_recorded (hq : ∀ l ∈ q.leaves, l.Parsed) (h : (q.resolve k ix).1 = .ok r) :
    Recorded k ix q (q.resolve k ix).2 r := by
  have hleaf : ∀ l ∈ q.leaves, ∃ s, LeafRecorded k ix l (l.resolve k ix).2 s := by
    intro l hl
    obtain ⟨s, hs⟩ := resolve_leaf_ok h l hl
    exact ⟨s, resolve_leaf_recorded (hq l hl) hs⟩
  have hleaves : ∀ l ∈ q.leaves, (l.resolve k ix).2.leaves = [(l.resolve k ix).2] :=
    fun l hl => resolve_leaf_leaves hl
  have hsource := resolve_snd_of_ok h
  have hcapped : (q.resolve k ix).2.capped = q.mapLeaves fun l => cap (l.resolve k ix).2 := by
    rw [hsource, capped, mapLeaves_mapLeaves hleaves]
  have hterms : r.terms = (q.resolve k ix).2.capped.terms := by
    rw [hcapped]
    exact resolve_terms (fun l hl s hs => (resolve_leaf_recorded (hq l hl) hs).terms) h
  have hok : ∃ found, (q.resolve k ix).2.terms = .ok found := by
    rw [hsource]
    refine terms_ok_of_leaves fun l' hl' => ?_
    obtain ⟨l, hl, rfl⟩ := (mem_leaves_mapLeaves hleaves).1 hl'
    obtain ⟨s, hs⟩ := hleaf l hl
    exact hs.terms_ok
  have hsame := resolve_rerecords h
  refine ⟨hterms, fun hfew => ?_, hok, fun l' hl' ts hts => ?_, hsame.unrecorded, hsame.render,
    fun k' ix' => ⟨hsame.resolve_fst k' ix', fun r' => hsame.resolve_snd⟩⟩
  · have huncapped : (q.resolve k ix).2.capped = (q.resolve k ix).2 := by
      rw [hcapped, hsource]
      refine mapLeaves_congr fun l hl => ?_
      obtain ⟨s, hs⟩ := hleaf l hl
      exact hs.cap_eq (hfew l hl)
    obtain ⟨found, hfound⟩ := hok
    rw [huncapped, hfound] at hterms
    exact ⟨found, hfound, hterms⟩
  · rw [hsource] at hl'
    obtain ⟨l, hl, rfl⟩ := (mem_leaves_mapLeaves hleaves).1 hl'
    obtain ⟨s, hs⟩ := hleaf l hl
    obtain ⟨matched, hm⟩ := @resolve_leaf_snd l k ix (leaves_of_mem_leaves hl)
    rw [hm, similar?_withRecord] at hts
    exact hs.similar ts hts

end recording

end Query

namespace Parser

/-- What is parsed without a fallback records its terms, and no more, when it is resolved. -/
theorem parse_recorded {p : Parser} {s : String} {out : Outcome} {ix : Index} {r : Query}
    (h : p.parse s = .ok out) (hs : out.suppressed = none)
    (hr : (out.query.resolve p.context ix).1 = .ok r) :
    Query.Recorded p.context ix out.query (out.query.resolve p.context ix).2 r := by
  refine Query.resolve_recorded ?_ hr
  rcases parse_ok_cases h with ⟨-, hq⟩ | ⟨e, he, -⟩
  · obtain ⟨xs, -, hq⟩ := bind_eq_ok.1 hq
    exact parseLexemes_parsed hq
  · rw [hs] at he
    cases he

theorem titledDocument_recorded : ∃ out r, titlesParser.parse "title:b~ -b [a TO c]" = .ok out ∧ out.suppressed = none ∧
    (out.query.resolve titlesParser.context titledDocument).1 = .ok r ∧
    r.terms = .ok [⟨some "title", "b"⟩, ⟨some "title", "b"⟩, ⟨some "text", "b"⟩] ∧
    Query.Recorded titlesParser.context titledDocument out.query
      (out.query.resolve titlesParser.context titledDocument).2 r := by
  have hread : ((titlesParser.parse "title:b~ -b [a TO c]").bind fun out =>
      (out.query.resolve titlesParser.context titledDocument).1.bind fun r =>
        r.terms.map fun found => (out.suppressed, found)).toOption =
      some (none, [⟨some "title", "b"⟩, ⟨some "title", "b"⟩, ⟨some "text", "b"⟩]) := by
    decide +kernel
  obtain ⟨out, hout, hread⟩ := bind_eq_ok.1 (toOption_eq_some.1 hread)
  obtain ⟨r, hr, hread⟩ := bind_eq_ok.1 hread
  obtain ⟨found, hterms, hread⟩ := Lexeme.map_eq_ok.1 hread
  obtain ⟨hs, rfl⟩ := Prod.mk.inj hread
  exact ⟨out, r, hout, hs, hr, hterms, parse_recorded hout hs hr⟩

end Parser
end TextSearch
