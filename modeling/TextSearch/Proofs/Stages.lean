import TextSearch.Proofs.Meaning
import TextSearch.Proofs.Resolving
import TextSearch.Proofs.Weights

/-! The stages between a resolved query and its scores. Only resolved queries get through any of them, and
these get through all of them, in whatever order. -/
namespace TextSearch.Query

theorem resolved_boolean {clauses : List (Occur × Query)} {n : Combination} :
    (boolean clauses n).Resolved ↔ ∀ c ∈ clauses, c.2.Resolved := by
  refine ⟨fun h => ?_, .boolean⟩
  cases h with
  | boolean hc => exact hc

/-- What is supported on resolved queries only: it succeeds on them and on no others. -/
def NeedsResolved {α : Type} (q : Query) (outcome : Except Error α) : Prop :=
  match outcome with
  | .ok _ => q.Resolved
  | .error e => ¬q.Resolved ∧ e.Unsupported

section refusing
variable {ix : Index} {filter : Option DocSet} {q : Query} {clauses : List (Occur × Query)} {n : Combination}

theorem needsResolved_map {α β : Type} {f : α → β} {outcome : Except Error α} :
    q.NeedsResolved (outcome.map f) ↔ q.NeedsResolved outcome := by
  cases outcome <;> rfl

theorem needsResolved_eachClause {step : Query → Except Error Unit × Query}
    (h : ∀ c ∈ clauses, c.2.NeedsResolved (step c.2).1) :
    (boolean clauses n).NeedsResolved (eachClause step clauses).1 := by
  unfold NeedsResolved
  split
  · rename_i hok
    refine resolved_boolean.2 fun c hc => ?_
    have hneeds := h c hc
    rwa [eachClause_ok_iff.1 hok c hc] at hneeds
  · rename_i he
    obtain ⟨c, hc, hce⟩ := eachClause_of_error he
    have hneeds := h c hc
    rw [hce] at hneeds
    exact ⟨fun hr => hneeds.1 (resolved_boolean.1 hr c hc), hneeds.2⟩

/-- Optimizing clauses stops where a step that keeps them would. -/
private theorem optimizeClauses_outcome : (optimizeClauses ix clauses).map (fun _ => ()) =
    (eachClause (fun q => ((q.optimize ix).map fun _ => (), q)) clauses).1 := by
  induction clauses with
  | nil => rfl
  | cons c rest ih =>
    rw [optimizeClauses, eachClause]
    cases c.2.optimize ix with
    | error e => rfl
    | ok r =>
      dsimp only
      rw [← ih]
      cases optimizeClauses ix rest <;> rfl

theorem optimize_needsResolved (q : Query) (ix : Index) : q.NeedsResolved (q.optimize ix) := by
  induction q using clauseInduction with
  | boolean clauses n ih =>
    rw [optimize, needsResolved_map, ← needsResolved_map, optimizeClauses_outcome]
    exact needsResolved_eachClause fun c hc => needsResolved_map.2 (ih c hc)
  | term n => exact .term n
  | multiTerm n => exact .multiTerm n
  | phrase n => exact .phrase n
  | insignificant b => exact .insignificant b
  | emptyResult b => exact .emptyResult b
  | _ => exact ⟨by rintro ⟨⟩, .unsupported _⟩

theorem createWeight_needsResolved (q : Query) (ix : Index) : q.NeedsResolved (q.createWeight ix).1 := by
  induction q using clauseInduction with
  | boolean clauses n ih =>
    rw [createWeight_boolean_fst]
    exact needsResolved_eachClause ih
  | term n => exact .term n
  | multiTerm n => exact .multiTerm n
  | phrase n => exact .phrase n
  | insignificant b => exact .insignificant b
  | emptyResult b => exact .emptyResult b
  | _ => exact ⟨by rintro ⟨⟩, .unsupported _⟩

theorem executeGiven_needsResolved (q : Query) (given : Option Float32) :
    q.NeedsResolved (q.executeGiven ix filter given).1 := by
  induction q using clauseInduction generalizing given with
  | boolean clauses n ih =>
    have hrun (m : Combination) (handed : Option Float32) :
        (boolean clauses n).NeedsResolved (withDocs m (executeClauses ix filter handed clauses)).1 := by
      rw [withDocs_fst, executeClauses_eq]
      exact needsResolved_eachClause fun c hc => ih c hc handed
    cases given with
    | some norm => exact hrun _ _
    | none =>
      cases hw : n.weighted with
      | true =>
        simp only [executeGiven, hw, if_true]
        exact hrun _ _
      | false =>
        -- the clauses are only reached once all weights are created
        have hcreate := createWeight_needsResolved (boolean clauses n) ix
        cases hc : (boolean clauses n).createWeight ix with
        | mk outcome r =>
          rw [hc] at hcreate
          cases outcome with
          | error e =>
            simp only [executeGiven, hw, hc, Bool.false_eq_true, if_false]
            exact hcreate
          | ok =>
            have hweighted : ((boolean clauses n).createWeight ix).2.Weighted :=
              createWeight_weighted (by rw [hc])
            rw [hc] at hweighted
            obtain ⟨sum, hsum⟩ := hweighted.sumOfSquares_ok
            simp only [executeGiven, hw, hc, hsum, Bool.false_eq_true, if_false]
            exact hrun _ _
  | term n => exact .term n
  | multiTerm n => exact .multiTerm n
  | phrase n => exact .phrase n
  | insignificant b => exact .insignificant b
  | emptyResult b => exact .emptyResult b
  | _ => exact ⟨by rintro ⟨⟩, .unsupported _⟩

end refusing

section leaves
variable {ix : Index} {q r : Query}

theorem Coherent.leaves (h : q.Coherent) : ∀ l ∈ q.leaves, l.Coherent := by
  induction q using clauseInduction with
  | boolean clauses n ih =>
    cases h with
    | boolean hc _ => exact forall_leaves_boolean.2 fun c hm => ih c hm (hc c hm)
  | _ => exact List.forall_mem_singleton.2 h

theorem Fresh.leaves (h : q.Fresh) : ∀ l ∈ q.leaves, l.Fresh := by
  induction q using clauseInduction with
  | boolean clauses n ih => exact forall_leaves_boolean.2 fun c hm => ih c hm ((fresh_boolean.1 h).2 c hm)
  | _ => exact List.forall_mem_singleton.2 h

/-- Resolving makes no use of weights and adds none. -/
theorem resolve_fresh {k : Context} (hq : q.Fresh) (h : (q.resolve k ix).1 = .ok r) : r.Fresh := by
  refine resolve_of_leaves (fun clauses b hc => fresh_boolean.2 ⟨⟨rfl, rfl⟩, hc⟩) (fun l hl s hs => ?_) h
  rcases resolve_leaf_cases hl hs with ⟨rfl, -⟩ | hbuilt
  · exact hq.leaves s hl
  · exact hbuilt.fresh

/-- What optimizing keeps at the leaves it keeps. -/
theorem Closed.optimize {P : Query → Prop} (hP : Closed P) (hq : ∀ l ∈ q.leaves, P l)
    (h : q.optimize ix = .ok r) : P r := by
  induction q using clauseInduction generalizing r with
  | boolean clauses n ih =>
    obtain ⟨cs, hcs, rfl⟩ := Lexeme.map_eq_ok.1 h
    refine hP.combineOptimized (fun d hd => ?_) n.boost
    obtain ⟨c, hc, hr⟩ := optimizeClauses_mem hcs d hd
    exact ih c hc (forall_leaves_boolean.1 hq c hc) hr
  | term n =>
    cases h
    unfold TermQuery.optimize
    split
    · exact hq _ (List.mem_singleton_self _)
    · exact hP.emptyResult 1
  | multiTerm n =>
    cases h
    unfold MultiTermQuery.optimize
    dsimp only
    split
    · exact hP.emptyResult 1
    split
    · exact hP.emptyResult 1
    split
    · exact hP.ofTerm _ _
    · exact hP.ofTerms _ _
  | phrase n =>
    cases h
    unfold PhraseQuery.optimize
    split
    · exact hP.emptyResult 1
    split
    · exact hP.emptyResult 1
    · exact hP.ofTerm _ _
    · exact hq _ (List.mem_singleton_self _)
  | insignificant b =>
    cases h
    exact hP.insignificant b
  | emptyResult b =>
    cases h
    exact hP.emptyResult b
  | _ => cases h

theorem coherent_closed : Closed Coherent where
  ofTerm _ _ := .term _
  ofTerms := .ofTerms
  ofClauses := .ofClauses
  withBoost := .withBoost
  insignificant := .insignificant
  emptyResult := .emptyResult

end leaves

/-- Everything that is asked of a query after its execution has an answer. -/
structure Readable (q : Query) : Prop where
  matchedDocs : ∃ docs, q.matchedDocs = .ok docs
  terms : ∃ ts, q.terms = .ok ts
  matchedWords : ∃ words, q.matchedWords = .ok words
  sumOfSquares : ∃ sum, q.sumOfSquares = .ok sum
  score : ∀ ix doc, ∃ s, q.score ix doc = .ok s

theorem Weighted.readable {q : Query} (h : q.Weighted) : q.Readable where
  matchedDocs := ⟨_, h.coherent.resolved.matchedDocs_ok⟩
  terms := h.coherent.resolved.terms_ok
  matchedWords := by
    obtain ⟨ts, hts⟩ := h.coherent.resolved.terms_ok
    exact ⟨_, by rw [Query.matchedWords, hts]; rfl⟩
  sumOfSquares := h.sumOfSquares_ok
  score := h.score_ok

theorem Coherent.execute_ok {q : Query} (h : q.Coherent) (ix : Index) (filter : Option DocSet) :
    ∃ r, q.execute ix filter = (.ok (), r) ∧ r.Weighted :=
  ⟨_, Prod.ext (h.resolved.executeGiven_fst none) rfl, h.executeGiven_weighted none⟩

/-- What may be done with a query once it is resolved. -/
inductive Stage where
  | optimize
  | initWeight
  | execute (filter : Option DocSet)

/-- The query a stage leads to. Each stage may find the index grown. -/
def Stage.run (q : Query) : Index × Stage → Except Error Query
  | (ix, optimize) => q.optimize ix
  | (ix, initWeight) => (q.initWeight ix).1.map fun _ => (q.initWeight ix).2
  | (ix, execute filter) => (q.execute ix filter).1.map fun _ => (q.execute ix filter).2

theorem Coherent.stage_ok {q : Query} (h : q.Coherent) (stage : Index × Stage) :
    ∃ r, Stage.run q stage = .ok r ∧ r.Coherent := by
  obtain ⟨ix, stage⟩ := stage
  cases stage with
  | optimize =>
    obtain ⟨r, hr, -⟩ := h.resolved.optimize_ok ix none
    exact ⟨r, hr, coherent_closed.optimize h.leaves hr⟩
  | initWeight =>
    obtain ⟨hok, hweighted, -⟩ := h.initWeight_ok ix
    exact ⟨_, by rw [Stage.run, hok]; rfl, hweighted.coherent⟩
  | execute filter =>
    obtain ⟨r, hr, hweighted⟩ := h.execute_ok ix filter
    exact ⟨r, by rw [Stage.run, hr]; rfl, hweighted.coherent⟩

/-- All stages can follow each other. -/
theorem Coherent.stages_ok {q : Query} (h : q.Coherent) (stages : List (Index × Stage)) :
    ∃ r, stages.foldlM Stage.run q = .ok r ∧ r.Coherent := by
  induction stages generalizing q with
  | nil => exact ⟨q, rfl, h⟩
  | cons stage rest ih =>
    obtain ⟨r, hr, hcoherent⟩ := h.stage_ok stage
    obtain ⟨s, hs, hlast⟩ := ih hcoherent
    exact ⟨s, by rw [List.foldlM_cons, hr]; exact hs, hlast⟩

/-- A new query is optimized and executed just if it is resolved, and unsupported otherwise. Once executed it
can be read, and once resolved it gets through all stages, after which it is executed and read. -/
theorem fresh_stages {q : Query} (hq : q.Fresh) (k : Context) (ix : Index) (filter : Option DocSet) :
    q.NeedsResolved (q.optimize ix) ∧ q.NeedsResolved (q.execute ix filter).1 ∧
      (∀ r, q.execute ix filter = (.ok (), r) → r.Readable) ∧
      ∀ r, (q.resolve k ix).1 = .ok r → ∀ stages : List (Index × Stage), ∃ s, stages.foldlM Stage.run r = .ok s ∧
        ∀ ix' filter', ∃ t, s.execute ix' filter' = (.ok (), t) ∧ t.Readable := by
  refine ⟨optimize_needsResolved q ix, executeGiven_needsResolved q none, fun r hr => ?_, fun r hr stages => ?_⟩
  · have hneeds : q.NeedsResolved (q.execute ix filter).1 := executeGiven_needsResolved q none
    rw [hr] at hneeds
    obtain ⟨r', hr', hweighted⟩ := (hq.coherent hneeds).execute_ok ix filter
    rw [hr] at hr'
    cases hr'
    exact hweighted.readable
  · have hcoherent : r.Coherent := (resolve_fresh hq hr).coherent (resolve_resolved hr)
    obtain ⟨s, hs, hs'⟩ := hcoherent.stages_ok stages
    refine ⟨s, hs, fun ix' filter' => ?_⟩
    obtain ⟨t, ht, hweighted⟩ := hs'.execute_ok ix' filter'
    exact ⟨t, ht, hweighted.readable⟩

theorem fieldlessParts_stages : fieldlessParts.Fresh ∧
    fieldlessParts.NeedsResolved (fieldlessParts.optimize twoFields) ∧
      fieldlessParts.NeedsResolved (fieldlessParts.execute twoFields none).1 ∧
      (∀ r, fieldlessParts.execute twoFields none = (.ok (), r) → r.Readable) ∧
      ∀ r, (fieldlessParts.resolve { analyzer := .ofConfig .bare {} } twoFields).1 = .ok r →
        ∀ stages : List (Index × Stage), ∃ s, stages.foldlM Stage.run r = .ok s ∧
          ∀ ix' filter', ∃ t, s.execute ix' filter' = (.ok (), t) ∧ t.Readable := by
  have hfresh : fieldlessParts.Fresh := rfl
  exact ⟨hfresh, fresh_stages hfresh { analyzer := .ofConfig .bare {} } twoFields none⟩

end TextSearch.Query
