import TextSearch.Proofs.Candidates
import TextSearch.Proofs.Stages

/-! What a query was used for before leaves no trace in an execution: weights are created and normalized once,
and matches are replaced. -/
namespace TextSearch

/-- A kind of nodes that get weights, which they keep as long as no norm is given for new ones. -/
structure Weighing {α : Type} (weighted : α → Bool) (weigh : Option Float32 → α → α) : Prop where
  keeps : ∀ n, weighted n = true → weigh none n = n
  weighs : ∀ given n, weighted (weigh given n) = true

namespace Weighing
variable {α : Type} {weighted : α → Bool}

theorem of_renew {renew : Option Float32 → α → α} (h : ∀ given n, weighted (renew given n) = true) :
    Weighing weighted fun given n => if weighted n && given.isNone then n else renew given n where
  keeps n hn := by
    rw [hn]
    rfl
  weighs given n := by
    split
    · rename_i hkept
      exact (Bool.and_eq_true_iff.1 hkept).1
    · exact h given n

/-- An execution behind another one finds what it would find in its place. -/
theorem find_again {weigh : Option Float32 → α → α} (h : Weighing weighted weigh) (find : Option DocSet → α → α)
    (hkept : ∀ filter n, weighted (find filter n) = weighted n)
    (hfound : ∀ filter filter' n, find filter' (find filter n) = find filter' n)
    (given : Option Float32) (filter filter' : Option DocSet) (n : α) :
    find filter' (weigh none (find filter (weigh given n))) = find filter' (weigh given n) := by
  have hweighted : weighted (find filter (weigh given n)) = true := by rw [hkept, h.weighs]
  rw [h.keeps _ hweighted, hfound]

end Weighing

theorem TermQuery.weighing (ix : Index) : Weighing (fun n : TermQuery => n.weight.isSome) (weigh ix) :=
  .of_renew fun _ _ => rfl

theorem MultiTermQuery.weighing (ix : Index) : Weighing (fun n : MultiTermQuery => n.weights.isSome) (weigh ix) :=
  .of_renew fun _ _ => rfl

theorem PhraseQuery.weighing (ix : Index) : Weighing (fun n : PhraseQuery => n.weight.isSome) (weigh ix) :=
  .of_renew fun _ _ => rfl

namespace Query

/-- Every leaf has new weights that a norm was multiplied into once, the norm being multiplied by the boosts of
the combinations around the leaf and by the boost of a list of terms. -/
inductive NormalizedOnce (ix : Index) : Float32 → Query → Prop
  | boolean {norm : Float32} {clauses : List (Occur × Query)} {n : Combination} :
    n.weighted = true → (∀ c ∈ clauses, NormalizedOnce ix (norm * n.boost) c.2) →
    NormalizedOnce ix norm (boolean clauses n)
  | term {norm : Float32} {n : TermQuery} :
    n.weight = some ((n.newWeight ix).normalize norm) → NormalizedOnce ix norm (term n)
  | multiTerm {norm : Float32} {n : MultiTermQuery} :
    n.weights = some ((n.newWeights ix).map (·.normalize (norm * n.boost))) → NormalizedOnce ix norm (multiTerm n)
  | phrase {norm : Float32} {n : PhraseQuery} :
    n.weight = some ((n.newWeight ix).normalize norm) → NormalizedOnce ix norm (phrase n)
  | insignificant {norm : Float32} (b : Float32) : NormalizedOnce ix norm (insignificant b)
  | emptyResult {norm : Float32} (b : Float32) : NormalizedOnce ix norm (emptyResult b)

section weights
variable {ix : Index} {norm : Float32} {q : Query}

theorem NormalizedOnce.resolved (h : q.NormalizedOnce ix norm) : q.Resolved := by
  induction h with
  | boolean _ _ ih => exact .boolean ih
  | term => exact .term _
  | multiTerm => exact .multiTerm _
  | phrase => exact .phrase _
  | insignificant b => exact .insignificant b
  | emptyResult b => exact .emptyResult b

theorem NormalizedOnce.hasWeight (h : q.NormalizedOnce ix norm) : q.hasWeight = true := by
  cases h with
  | boolean hw _ => exact hw
  | term hw => exact Option.isSome_of_eq_some hw
  | multiTerm hw => exact Option.isSome_of_eq_some hw
  | phrase hw => exact Option.isSome_of_eq_some hw
  | insignificant b => rfl
  | emptyResult b => rfl

theorem Resolved.normalize_createWeight (h : q.Resolved) (ix : Index) (norm : Float32) :
    ((q.createWeight ix).2.normalize norm).2.NormalizedOnce ix norm := by
  induction h generalizing norm with
  | @boolean clauses n hres ih =>
    rw [normalize_createWeight_boolean hres]
    exact .boolean rfl (List.forall_mem_map.2 fun c hc => ih c hc (norm * n.boost))
  | term n => exact .term rfl
  | multiTerm n => exact .multiTerm rfl
  | phrase n => exact .phrase rfl
  | insignificant b => exact .insignificant b
  | emptyResult b => exact .emptyResult b

end weights

section again
variable {ix : Index} {norm : Float32} {q : Query}

/-- With its weights a combination executes its clauses and combines what they find. -/
theorem execute_boolean_of_weighted {clauses : List (Occur × Query)} {n : Combination}
    (h : ∀ c ∈ clauses, c.2.Resolved) (hw : n.weighted = true) (ix : Index) (filter : Option DocSet) :
    (boolean clauses n).execute ix filter =
      withDocs n (.ok (), clauses.map fun c => (c.1, (c.2.execute ix filter).2)) := by
  simp only [execute, executeGiven, hw, if_true, executeClauses_eq]
  rw [eachClause_of_ok fun c hc => (h c hc).executeGiven_fst none]

/-- An execution leaves weights as they are. -/
theorem NormalizedOnce.execute (h : q.NormalizedOnce ix norm) (filter : Option DocSet) :
    (q.execute ix filter).2.NormalizedOnce ix norm := by
  induction h with
  | @boolean norm clauses n hw hclauses ih =>
    rw [execute_boolean_of_weighted (fun c hc => (hclauses c hc).resolved) hw]
    exact .boolean hw (List.forall_mem_map.2 ih)
  | @term norm n hw =>
    refine .term ?_
    rw [(TermQuery.weighing ix).keeps n (Option.isSome_of_eq_some hw)]
    exact hw
  | @multiTerm norm n hw =>
    refine .multiTerm ?_
    rw [(MultiTermQuery.weighing ix).keeps n (Option.isSome_of_eq_some hw)]
    exact hw
  | @phrase norm n hw =>
    refine .phrase ?_
    rw [(PhraseQuery.weighing ix).keeps n (Option.isSome_of_eq_some hw)]
    exact hw
  | insignificant b => exact .insignificant b
  | emptyResult b => exact .emptyResult b

/-- A second execution keeps the weights of the first one and nothing else of it. -/
theorem Resolved.execute_again (h : q.Resolved) (ix : Index) (filter filter' : Option DocSet)
    (given : Option Float32) :
    (q.executeGiven ix filter given).2.execute ix filter' = q.executeGiven ix filter' given := by
  induction h generalizing given with
  | @boolean clauses n hres ih =>
    obtain ⟨handed, hrun⟩ := (Resolved.boolean hres (n := n)).executeGiven_boolean ix given
    have hexecuted (c) (hc : c ∈ clauses) : (c.2.executeGiven ix filter handed).2.Resolved := by
      obtain ⟨r, hr, hfinds⟩ : ∃ r, c.2.executeGiven ix filter handed = (.ok (), r) ∧ Finds ix filter c.2 r :=
        (hres c hc).executeGiven_ok handed
      rw [hr]
      exact hfinds.resolved
    rw [hrun, hrun, withDocs, execute_boolean_of_weighted (List.forall_mem_map.2 hexecuted) rfl, List.map_map]
    have hclauses : (clauses.map fun c => (c.1, ((c.2.executeGiven ix filter handed).2.execute ix filter').2)) =
        clauses.map fun c => (c.1, (c.2.executeGiven ix filter' handed).2) :=
      List.map_congr_left fun c hc => by rw [ih c hc]
    exact congrArg (fun cs => withDocs { n with weighted := true } (.ok (), cs)) hclauses
  | term n =>
    have hagain := (TermQuery.weighing ix).find_again (TermQuery.find ix) (fun _ _ => rfl) (fun _ _ _ => rfl)
    exact congrArg (fun m => (Except.ok (), Query.term m)) (hagain given filter filter' n)
  | multiTerm n =>
    have hagain := (MultiTermQuery.weighing ix).find_again (MultiTermQuery.find ix) (fun _ _ => rfl) (fun _ _ _ => rfl)
    exact congrArg (fun m => (Except.ok (), Query.multiTerm m)) (hagain given filter filter' n)
  | phrase n =>
    have hagain := (PhraseQuery.weighing ix).find_again (PhraseQuery.find ix) (fun _ _ => rfl) (fun _ _ _ => rfl)
    exact congrArg (fun m => (Except.ok (), Query.phrase m)) (hagain given filter filter' n)
  | insignificant b => rfl
  | emptyResult b => rfl

end again

section reset
variable {ix : Index} {q : Query}

theorem resetClauses_eq_map (clauses : List (Occur × Query)) :
    resetClauses clauses = clauses.map fun c => (c.1, c.2.reset) := by
  induction clauses with
  | nil => rfl
  | cons c rest ih => rw [resetClauses, ih, List.map_cons]

theorem reset_boolean_map (step : Query → Query) {clauses : List (Occur × Query)} {n : Combination}
    (h : ∀ c ∈ clauses, (step c.2).reset = c.2.reset) (weighted : Bool) (docs : DocSet) :
    (boolean (clauses.map fun c => (c.1, step c.2)) { n with weighted, docs }).reset = (boolean clauses n).reset := by
  rw [reset, reset, resetClauses_eq_map, resetClauses_eq_map, List.map_map]
  have hclauses : (clauses.map fun c => (c.1, (step c.2).reset)) = clauses.map fun c => (c.1, c.2.reset) :=
    List.map_congr_left fun c hc => by rw [h c hc]
  exact congrArg (fun cs => boolean cs { n with weighted := false, docs := ∅ }) hclauses

/-- Weights and matches are all that an execution leaves in a query. -/
theorem Resolved.reset_executeGiven (h : q.Resolved) (ix : Index) (filter : Option DocSet)
    (given : Option Float32) : (q.executeGiven ix filter given).2.reset = q.reset := by
  induction h generalizing given with
  | @boolean clauses n hres ih =>
    obtain ⟨handed, hrun⟩ := (Resolved.boolean hres (n := n)).executeGiven_boolean ix given
    rw [hrun]
    exact reset_boolean_map (fun c => (c.executeGiven ix filter handed).2) (fun c hc => ih c hc handed) true _
  | term n =>
    simp only [executeGiven, TermQuery.weigh]
    split <;> rfl
  | multiTerm n =>
    simp only [executeGiven, MultiTermQuery.weigh]
    split <;> rfl
  | phrase n =>
    simp only [executeGiven, PhraseQuery.weigh]
    split <;> rfl
  | insignificant b => rfl
  | emptyResult b => rfl

theorem Resolved.reset_normalize_createWeight (h : q.Resolved) (ix : Index) (norm : Float32) :
    ((q.createWeight ix).2.normalize norm).2.reset = q.reset := by
  induction h generalizing norm with
  | @boolean clauses n hres ih =>
    rw [normalize_createWeight_boolean hres]
    exact reset_boolean_map (fun c => ((c.createWeight ix).2.normalize (norm * n.boost)).2)
      (fun c hc => ih c hc (norm * n.boost)) true n.docs
  | _ => rfl

end reset

/-- A call on the root of a query. -/
inductive Call where
  | execute (filter : Option DocSet)
  | initWeight
  | score (doc : Nat)
  | matchedDocs
  /-- The index may be another one from here on. -/
  | reset (ix : Index)

/-- The index and the query behind a call. Scores and matches are only read. -/
def Call.run : Index × Query → Call → Index × Query
  | (ix, q), execute filter => (ix, (q.execute ix filter).2)
  | (ix, q), initWeight => (ix, (q.initWeight ix).2)
  | (ix, q), score _ | (ix, q), matchedDocs => (ix, q)
  | (_, q), reset ix => (ix, q.reset)

/-- A query in use is as good as the query it was built as: it becomes that when it is reset, runs like that,
and has no weights or those that all its executions have. -/
structure InUse (ix : Index) (q s : Query) : Prop where
  reset : s.reset = q
  execute : ∀ filter, s.execute ix filter = q.execute ix filter
  weights : s = q ∨ ∃ sum, (q.createWeight ix).2.sumOfSquares = .ok sum ∧
    s.NormalizedOnce ix (Scoring.queryNorm sum)

section calls
variable {ix : Index} {q s : Query}

theorem Fresh.inUse (h : q.Fresh) (ix : Index) : q.InUse ix q where
  reset := h
  execute _ := rfl
  weights := .inl rfl

/-- A new query that has its weights from the start has no leaf that needs one. -/
theorem Fresh.normalizedOnce (h : q.Fresh) (hq : q.Resolved) (hw : q.hasWeight = true) (norm : Float32) :
    q.NormalizedOnce ix norm := by
  cases hq with
  | boolean _ => exact absurd ((fresh_boolean.1 h).1.1.symm.trans hw) nofun
  | term n =>
    have hnone : none = n.weight := congrArg TermQuery.weight (term.inj h)
    rw [hasWeight, ← hnone] at hw
    cases hw
  | multiTerm n =>
    have hnone : none = n.weights := congrArg MultiTermQuery.weights (multiTerm.inj h)
    rw [hasWeight, ← hnone] at hw
    cases hw
  | phrase n =>
    have hnone : none = n.weight := congrArg PhraseQuery.weight (phrase.inj h)
    rw [hasWeight, ← hnone] at hw
    cases hw
  | insignificant b => exact .insignificant b
  | emptyResult b => exact .emptyResult b

/-- A new query gets weights that are normalized once, and nothing else. -/
theorem Fresh.initWeight_normalizedOnce (h : q.Fresh) (hq : q.Resolved) (ix : Index) :
    (q.initWeight ix).2.reset = q ∧ ∃ sum, (q.createWeight ix).2.sumOfSquares = .ok sum ∧
      (q.initWeight ix).2.NormalizedOnce ix (Scoring.queryNorm sum) := by
  obtain ⟨r, sum, hr, hsum⟩ := hq.createWeight_ok ix
  have hcreated : r = (q.createWeight ix).2 := by rw [hr]
  cases hw : q.hasWeight with
  | true =>
    have hinit : (q.initWeight ix).2 = q := by rw [initWeight, if_pos hw]
    rw [hinit]
    exact ⟨h, sum, hcreated ▸ hsum, h.normalizedOnce hq hw (Scoring.queryNorm sum)⟩
  | false =>
    have hinit : (q.initWeight ix).2 = ((q.createWeight ix).2.normalize (Scoring.queryNorm sum)).2 := by
      rw [initWeight, hw, hr]
      simp only [Bool.false_eq_true, if_false, hsum]
    rw [hinit]
    refine ⟨?_, sum, hcreated ▸ hsum, hq.normalize_createWeight ix (Scoring.queryNorm sum)⟩
    rw [hq.reset_normalize_createWeight, h]

theorem InUse.run_execute (hs : q.InUse ix s) (h : q.Fresh) (hq : q.Resolved) (filter : Option DocSet) :
    q.InUse ix (s.execute ix filter).2 := by
  obtain ⟨-, -, hexecute⟩ := (h.coherent hq).initWeight_ok ix
  obtain ⟨-, sum, hsum, honce⟩ := h.initWeight_normalizedOnce hq ix
  rw [hs.execute filter]
  refine ⟨?_, fun filter' => hq.execute_again ix filter filter' none, .inr ⟨sum, hsum, ?_⟩⟩
  · exact (hq.reset_executeGiven ix filter none).trans h
  · rw [← hexecute filter]
    exact honce.execute filter

theorem InUse.run_initWeight (hs : q.InUse ix s) (h : q.Fresh) (hq : q.Resolved) :
    q.InUse ix (s.initWeight ix).2 := by
  rcases hs.weights with rfl | ⟨sum, hsum, honce⟩
  · obtain ⟨-, -, hexecute⟩ := (h.coherent hq).initWeight_ok ix
    obtain ⟨hreset, honce⟩ := h.initWeight_normalizedOnce hq ix
    exact ⟨hreset, hexecute, .inr honce⟩
  · have hinit : (s.initWeight ix).2 = s := by rw [initWeight, if_pos honce.hasWeight]
    rwa [hinit]

/-- No call takes anything from a query in use that its executions need. -/
theorem InUse.run (hs : q.InUse ix s) (h : q.Fresh) (hq : q.Resolved) (call : Call) :
    q.InUse (call.run (ix, s)).1 (call.run (ix, s)).2 := by
  cases call with
  | execute filter => exact hs.run_execute h hq filter
  | initWeight => exact hs.run_initWeight h hq
  | score doc => exact hs
  | matchedDocs => exact hs
  | reset ix' =>
    change q.InUse ix' s.reset
    rw [hs.reset]
    exact h.inUse ix'

theorem InUse.calls (hs : q.InUse ix s) (h : q.Fresh) (hq : q.Resolved) (calls : List Call) :
    q.InUse (calls.foldl Call.run (ix, s)).1 (calls.foldl Call.run (ix, s)).2 := by
  induction calls generalizing ix s with
  | nil => exact hs
  | cons call rest ih => exact ih (hs.run h hq call)

end calls

/-- After any calls, with each reset of which the index may change, an execution leaves in a query just what it
leaves in the query as it was built: the same matches and weights in every node, and so the same scores. The
weights of the leaves are normalized once, with the norm of the whole query. -/
theorem execute_after_calls {q s : Query} {start ix : Index} {calls : List Call} (h : q.Fresh) (hq : q.Resolved)
    (hcalls : calls.foldl Call.run (start, q) = (ix, s)) (filter : Option DocSet) :
    ∃ r sum, q.execute ix filter = (.ok (), r) ∧ s.execute ix filter = (.ok (), r) ∧
      r.matchedDocs = .ok r.docs ∧ (∀ doc, ∃ score, r.score ix doc = .ok score) ∧
      (q.createWeight ix).2.sumOfSquares = .ok sum ∧ r.NormalizedOnce ix (Scoring.queryNorm sum) ∧
      (s = q ∨ s.NormalizedOnce ix (Scoring.queryNorm sum)) := by
  have hs : q.InUse ix s := by
    have hrun := (h.inUse start).calls h hq calls
    rwa [hcalls] at hrun
  obtain ⟨r, hr, hweighted⟩ := (h.coherent hq).execute_ok ix filter
  obtain ⟨-, -, hexecute⟩ := (h.coherent hq).initWeight_ok ix
  obtain ⟨-, sum, hsum, honce⟩ := h.initWeight_normalizedOnce hq ix
  refine ⟨r, sum, hr, (hs.execute filter).trans hr, hweighted.coherent.resolved.matchedDocs_ok,
    hweighted.score_ok ix, hsum, ?_, ?_⟩
  · have hexecuted := honce.execute filter
    rwa [hexecute filter, hr] at hexecuted
  · refine hs.weights.imp_right ?_
    rintro ⟨sum', hsum', hkept⟩
    rw [hsum] at hsum'
    cases hsum'
    exact hkept

/-- The documents with the word of the nested exclusion. -/
def lastDocument : DocSet := threeDocuments.termDocs (.inField "f" "c")

/-- Calls before and after a change of the index, with executions under different filters. -/
def repeatedCalls : List Call :=
  [.execute none, .initWeight, .score 0, .reset threeDocuments, .initWeight, .matchedDocs,
    .execute (some lastDocument), .execute none, .initWeight]

theorem nestedExclusion_execute_after_calls : nestedExclusion.Fresh ∧ nestedExclusion.Resolved ∧
    ∃ s, repeatedCalls.foldl Call.run (reversedPair, nestedExclusion) = (threeDocuments, s) ∧
      ∃ r sum, nestedExclusion.execute threeDocuments (some lastDocument) = (.ok (), r) ∧
        s.execute threeDocuments (some lastDocument) = (.ok (), r) ∧
        r.matchedDocs = .ok r.docs ∧ (∀ doc, ∃ score, r.score threeDocuments doc = .ok score) ∧
        (nestedExclusion.createWeight threeDocuments).2.sumOfSquares = .ok sum ∧
        r.NormalizedOnce threeDocuments (Scoring.queryNorm sum) ∧
        (s = nestedExclusion ∨ s.NormalizedOnce threeDocuments (Scoring.queryNorm sum)) := by
  have hfresh : nestedExclusion.Fresh := rfl
  have hindex : (repeatedCalls.foldl Call.run (reversedPair, nestedExclusion)).1 = threeDocuments := by
    simp only [repeatedCalls, List.foldl_cons, List.foldl_nil, Call.run]
  have hcalls : repeatedCalls.foldl Call.run (reversedPair, nestedExclusion) = (threeDocuments, _) :=
    Prod.ext hindex rfl
  exact ⟨hfresh, nestedExclusion_resolved, _, hcalls,
    execute_after_calls hfresh nestedExclusion_resolved hcalls (some lastDocument)⟩

end Query

end TextSearch
