import TextSearch.Proofs.NormalForm
import TextSearch.Query.Score

/-! Weights of query trees. Where a node claims to have weights all nodes below it have them, and what needs
weights is only asked of nodes that have them. -/
namespace TextSearch.Query

/-- Every node has its weights, and a list of terms has one for each term. -/
inductive Weighted : Query → Prop
  | boolean {clauses : List (Occur × Query)} {n : Combination} :
    n.weighted = true → (∀ c ∈ clauses, Weighted c.2) → Weighted (boolean clauses n)
  | term {n : TermQuery} {w : Weight} : n.weight = some w → Weighted (term n)
  | multiTerm {n : MultiTermQuery} {ws : List Weight} :
    n.weights = some ws → ws.length = n.terms.length → Weighted (multiTerm n)
  | phrase {n : PhraseQuery} {w : Weight} : n.weight = some w → Weighted (phrase n)
  | insignificant (b : Float32) : Weighted (insignificant b)
  | emptyResult (b : Float32) : Weighted (emptyResult b)

/-- A resolved query whose weights are all there as soon as its root claims to have weights, and so at every
node. -/
inductive Coherent : Query → Prop
  | boolean {clauses : List (Occur × Query)} {n : Combination} :
    (∀ c ∈ clauses, Coherent c.2) → (n.weighted = true → ∀ c ∈ clauses, c.2.Weighted) →
    Coherent (boolean clauses n)
  | term (n : TermQuery) : Coherent (term n)
  | multiTerm {n : MultiTermQuery} :
    (∀ ws, n.weights = some ws → ws.length = n.terms.length) → Coherent (multiTerm n)
  | phrase (n : PhraseQuery) : Coherent (phrase n)
  | insignificant (b : Float32) : Coherent (insignificant b)
  | emptyResult (b : Float32) : Coherent (emptyResult b)

theorem Coherent.resolved {q : Query} (h : q.Coherent) : q.Resolved := by
  induction h with
  | boolean _ _ ih => exact .boolean ih
  | term n => exact .term n
  | multiTerm => exact .multiTerm _
  | phrase n => exact .phrase n
  | insignificant b => exact .insignificant b
  | emptyResult b => exact .emptyResult b

theorem Coherent.weighted {q : Query} (h : q.Coherent) (hw : q.hasWeight = true) : q.Weighted := by
  cases h with
  | boolean _ hall => exact .boolean hw (hall hw)
  | term n =>
    obtain ⟨w, hn⟩ := Option.isSome_iff_exists.1 hw
    exact .term hn
  | multiTerm hlength =>
    obtain ⟨ws, hn⟩ := Option.isSome_iff_exists.1 hw
    exact .multiTerm hn (hlength ws hn)
  | phrase n =>
    obtain ⟨w, hn⟩ := Option.isSome_iff_exists.1 hw
    exact .phrase hn
  | insignificant b => exact .insignificant b
  | emptyResult b => exact .emptyResult b

theorem Coherent.withBoost {q : Query} (h : q.Coherent) (b : Float32) : (q.withBoost b).Coherent := by
  cases h with
  | boolean hc hall => exact .boolean hc hall
  | term => exact .term _
  | multiTerm hlength => exact .multiTerm hlength
  | phrase => exact .phrase _
  | insignificant => exact .insignificant b
  | emptyResult => exact .emptyResult b

/-- New combinations do not claim to have weights. -/
theorem Coherent.ofClauses {clauses : List (Occur × Query)} (h : ∀ c ∈ clauses, c.2.Coherent) (b : Float32) :
    (ofClauses clauses b).Coherent :=
  .boolean h nofun

theorem Coherent.ofTerms (terms : List (Occur × Term)) (b : Float32) : (ofTerms terms b).Coherent :=
  .multiTerm nofun

theorem Weighted.coherent {q : Query} (h : q.Weighted) : q.Coherent := by
  induction h with
  | boolean _ hall ih => exact .boolean ih fun _ => hall
  | term => exact .term _
  | multiTerm hn hlength =>
    refine .multiTerm fun ws hws => ?_
    rw [hn] at hws
    cases hws
    exact hlength
  | phrase => exact .phrase _
  | insignificant b => exact .insignificant b
  | emptyResult b => exact .emptyResult b

/-- Queries as they are built have no weights to miss. -/
theorem Fresh.coherent {q : Query} (h : q.Fresh) (hq : q.Resolved) : q.Coherent := by
  induction hq with
  | boolean _ ih =>
    obtain ⟨⟨hw, -⟩, hclauses⟩ := fresh_boolean.1 h
    exact .boolean (fun c hc => ih c hc (hclauses c hc)) fun ht => absurd (hw.symm.trans ht) nofun
  | term n => exact .term n
  | multiTerm n =>
    refine .multiTerm fun ws hws => ?_
    have hnone : none = n.weights := congrArg MultiTermQuery.weights (multiTerm.inj h)
    rw [hws] at hnone
    cases hnone
  | phrase n => exact .phrase n
  | insignificant b => exact .insignificant b
  | emptyResult b => exact .emptyResult b

section reading
variable {ix : Index} {doc : Nat}

theorem tally_ok {t : Tally} {terms : List (Occur × Term)} {ws : List Weight}
    {frequencies : List (DocTable Nat)} (h : ws.length = terms.length) :
    ∃ total, MultiTermQuery.tally ix doc t terms ws frequencies = .ok total := by
  induction terms generalizing t ws frequencies with
  | nil => exact ⟨t, rfl⟩
  | cons signed terms ih =>
    obtain ⟨w, ws, rfl⟩ := List.exists_cons_of_length_eq_add_one h
    have hrest : ws.length = terms.length := Nat.succ.inj h
    rw [MultiTermQuery.tally]
    split
    · exact ih hrest
    split
    · exact ih hrest
    · exact ih hrest

private theorem tallyClauses_ok {clauses : List (Occur × Query)} {t : Tally}
    (h : ∀ c ∈ clauses, ∃ s, c.2.score ix doc = .ok s) :
    ∃ total, tallyClauses ix doc t clauses = .ok total := by
  induction clauses generalizing t with
  | nil => exact ⟨some t, rfl⟩
  | cons c rest ih =>
    obtain ⟨⟨s, hs⟩, hrest⟩ := List.forall_mem_cons.1 h
    simp only [tallyClauses, hs]
    split
    · cases c.1 with
      | required => exact ⟨none, rfl⟩
      | optional => exact ih hrest
      | prohibited => exact ih hrest
    split
    · exact ⟨none, rfl⟩
    · exact ih hrest

/-- Scoring never misses a weight. -/
theorem Weighted.score_ok {q : Query} (h : q.Weighted) (ix : Index) (doc : Nat) :
    ∃ s, q.score ix doc = .ok s := by
  induction h with
  | boolean _ _ ih =>
    rw [score]
    split
    · obtain ⟨total, ht⟩ := tallyClauses_ok (t := {}) ih
      exact ⟨_, by rw [ht]; rfl⟩
    · exact ⟨0, rfl⟩
  | term hw =>
    simp only [score, TermQuery.score, hw]
    split <;> exact ⟨_, rfl⟩
  | multiTerm hws hlength =>
    simp only [score, MultiTermQuery.score, hws]
    split
    · obtain ⟨total, ht⟩ := tally_ok hlength
      exact ⟨_, by rw [ht]; rfl⟩
    · exact ⟨0, rfl⟩
  | phrase hw =>
    simp only [score, PhraseQuery.score, hw]
    split <;> exact ⟨_, rfl⟩
  | insignificant | emptyResult => exact ⟨0, rfl⟩

private theorem sumOfClauses_ok {clauses : List (Occur × Query)}
    (h : ∀ c ∈ clauses, ∃ s, c.2.sumOfSquares = .ok s) (start : Float32) :
    ∃ sum, sumOfClauses start clauses = .ok sum := by
  induction clauses generalizing start with
  | nil => exact ⟨start, rfl⟩
  | cons c rest ih =>
    obtain ⟨⟨s, hs⟩, hrest⟩ := List.forall_mem_cons.1 h
    simp only [sumOfClauses, hs]
    split
    · exact ih hrest start
    · exact ih hrest (start + s)

theorem Weighted.sumOfSquares_ok {q : Query} (h : q.Weighted) : ∃ sum, q.sumOfSquares = .ok sum := by
  induction h with
  | boolean _ _ ih =>
    obtain ⟨sum, hsum⟩ := sumOfClauses_ok ih 0
    exact ⟨_, by rw [sumOfSquares, hsum]; rfl⟩
  | term hw =>
    simp only [sumOfSquares, hw]
    exact ⟨_, rfl⟩
  | multiTerm hws =>
    simp only [sumOfSquares, hws]
    exact ⟨_, rfl⟩
  | phrase hw =>
    simp only [sumOfSquares, hw]
    exact ⟨_, rfl⟩
  | insignificant | emptyResult => exact ⟨1, rfl⟩

theorem clauseTerms_ok {clauses : List (Occur × Query)}
    (h : ∀ c ∈ clauses, ∃ ts, c.2.terms = .ok ts) : ∃ ts, clauseTerms clauses = .ok ts := by
  induction clauses with
  | nil => exact ⟨[], rfl⟩
  | cons c rest ih =>
    obtain ⟨⟨found, hfound⟩, hrest⟩ := List.forall_mem_cons.1 h
    obtain ⟨others, ho⟩ := ih hrest
    rw [clauseTerms]
    split
    · exact ⟨others, ho⟩
    · exact ⟨_, by rw [hfound, ho]; rfl⟩

theorem Resolved.terms_ok {q : Query} (h : q.Resolved) : ∃ ts, q.terms = .ok ts := by
  induction h with
  | boolean _ ih => exact clauseTerms_ok ih
  | term n => exact ⟨_, rfl⟩
  | multiTerm n => exact ⟨_, rfl⟩
  | phrase n => exact ⟨_, rfl⟩
  | insignificant | emptyResult => exact ⟨[], rfl⟩

end reading

section steps
variable {step : Query → Except Error Unit × Query} {clauses : List (Occur × Query)}

/-- Applies a step to each clause, up to the first failure. -/
def eachClause (step : Query → Except Error Unit × Query) :
    List (Occur × Query) → Except Error Unit × List (Occur × Query)
  | [] => (.ok (), [])
  | (occur, query) :: rest =>
    match step query with
    | (.error e, query) => (.error e, (occur, query) :: rest)
    | (.ok (), query) =>
      let (outcome, rest) := eachClause step rest
      (outcome, (occur, query) :: rest)

theorem createWeights_eq (ix : Index) (clauses : List (Occur × Query)) :
    createWeights ix clauses = eachClause (createWeight ix) clauses := by
  induction clauses with
  | nil => rfl
  | cons c rest ih =>
    rcases hc : c.2.createWeight ix with ⟨_ | _, query⟩ <;> simp only [createWeights, eachClause, hc, ih]

theorem normalizeClauses_eq (norm : Float32) (clauses : List (Occur × Query)) :
    normalizeClauses norm clauses = eachClause (normalize norm) clauses := by
  induction clauses with
  | nil => rfl
  | cons c rest ih =>
    rcases hc : c.2.normalize norm with ⟨_ | _, query⟩ <;> simp only [normalizeClauses, eachClause, hc, ih]

theorem executeClauses_eq (ix : Index) (filter : Option DocSet) (given : Option Float32)
    (clauses : List (Occur × Query)) :
    executeClauses ix filter given clauses = eachClause (executeGiven ix filter given) clauses := by
  induction clauses with
  | nil => rfl
  | cons c rest ih =>
    rcases hc : c.2.executeGiven ix filter given with ⟨_ | _, query⟩ <;>
      simp only [executeClauses, eachClause, hc, ih]

theorem eachClause_of_ok (h : ∀ c ∈ clauses, (step c.2).1 = .ok ()) :
    eachClause step clauses = (.ok (), clauses.map fun c => (c.1, (step c.2).2)) := by
  induction clauses with
  | nil => rfl
  | cons c rest ih =>
    obtain ⟨hc, hrest⟩ := List.forall_mem_cons.1 h
    have hstep : step c.2 = (.ok (), (step c.2).2) := Prod.ext hc rfl
    rw [eachClause, hstep, ih hrest, List.map_cons]

theorem eachClause_of_error {e : Error} (h : (eachClause step clauses).1 = .error e) :
    ∃ c ∈ clauses, (step c.2).1 = .error e := by
  induction clauses with
  | nil => cases h
  | cons c rest ih =>
    rw [eachClause] at h
    split at h
    · rename_i hc
      cases h
      exact ⟨c, List.mem_cons_self, by rw [hc]⟩
    · obtain ⟨d, hd, he⟩ := ih h
      exact ⟨d, List.mem_cons_of_mem _ hd, he⟩

theorem eachClause_ok_iff :
    (eachClause step clauses).1 = .ok () ↔ ∀ c ∈ clauses, (step c.2).1 = .ok () := by
  refine ⟨fun h => ?_, fun h => by rw [eachClause_of_ok h]⟩
  induction clauses with
  | nil => nofun
  | cons c rest ih =>
    rw [eachClause] at h
    split at h
    · cases h
    · rename_i hc
      exact List.forall_mem_cons.2 ⟨by rw [hc], ih h⟩

end steps

section weighing
variable {ix : Index} {q : Query}

theorem createWeight_boolean_fst (clauses : List (Occur × Query)) (n : Combination) :
    ((boolean clauses n).createWeight ix).1 = (eachClause (createWeight ix) clauses).1 := by
  rw [createWeight, createWeights_eq]
  split <;> (rename_i h; rw [h])

theorem createWeight_boolean {clauses : List (Occur × Query)} {n : Combination}
    (h : ∀ c ∈ clauses, (c.2.createWeight ix).1 = .ok ()) : (boolean clauses n).createWeight ix =
      (.ok (), boolean (clauses.map fun c => (c.1, (c.2.createWeight ix).2)) { n with weighted := true }) := by
  rw [createWeight, createWeights_eq, eachClause_of_ok h]

/-- Creating weights gives them to every node. -/
theorem createWeight_weighted (h : (q.createWeight ix).1 = .ok ()) : (q.createWeight ix).2.Weighted := by
  induction q using clauseInduction with
  | boolean clauses n ih =>
    rw [createWeight_boolean_fst, eachClause_ok_iff] at h
    rw [createWeight_boolean h]
    exact .boolean rfl (List.forall_mem_map.2 fun c hc => ih c hc (h c hc))
  | term n => exact .term rfl
  | multiTerm n => exact .multiTerm rfl (by simp [MultiTermQuery.newWeights])
  | phrase n => exact .phrase rfl
  | insignificant b => exact .insignificant b
  | emptyResult b => exact .emptyResult b
  | _ => cases h

theorem normalize_boolean {clauses : List (Occur × Query)} {n : Combination} {norm : Float32}
    (h : ∀ c ∈ clauses, (c.2.normalize (norm * n.boost)).1 = .ok ()) : (boolean clauses n).normalize norm =
      (.ok (), boolean (clauses.map fun c => (c.1, (c.2.normalize (norm * n.boost)).2)) n) := by
  rw [normalize, normalizeClauses_eq, eachClause_of_ok h]

/-- Normalizing finds the weights it multiplies. -/
theorem Weighted.normalize_ok (h : q.Weighted) (norm : Float32) :
    (q.normalize norm).1 = .ok () ∧ (q.normalize norm).2.Weighted := by
  induction h generalizing norm with
  | @boolean clauses n hn _ ih =>
    rw [normalize_boolean fun c hc => (ih c hc _).1]
    exact ⟨rfl, .boolean hn (List.forall_mem_map.2 fun c hc => (ih c hc _).2)⟩
  | term hw =>
    rw [normalize, hw]
    exact ⟨rfl, .term rfl⟩
  | multiTerm hws hlength =>
    rw [normalize, hws]
    exact ⟨rfl, .multiTerm rfl (by rwa [List.length_map])⟩
  | phrase hw =>
    rw [normalize, hw]
    exact ⟨rfl, .phrase rfl⟩
  | insignificant b => exact ⟨rfl, .insignificant b⟩
  | emptyResult b => exact ⟨rfl, .emptyResult b⟩

theorem Resolved.createWeight_fst (h : q.Resolved) (ix : Index) : (q.createWeight ix).1 = .ok () := by
  obtain ⟨r, _, hr, -⟩ := h.createWeight_ok ix
  rw [hr]

theorem Resolved.normalize_createWeight_ok (h : q.Resolved) (ix : Index) (norm : Float32) :
    ((q.createWeight ix).2.normalize norm).1 = .ok () ∧ ((q.createWeight ix).2.normalize norm).2.Weighted :=
  (createWeight_weighted (h.createWeight_fst ix)).normalize_ok norm

/-- New weights of a combination are normalized clause by clause. -/
theorem normalize_createWeight_boolean {clauses : List (Occur × Query)} {n : Combination}
    (h : ∀ c ∈ clauses, c.2.Resolved) (ix : Index) (norm : Float32) :
    ((boolean clauses n).createWeight ix).2.normalize norm =
      (.ok (), boolean (clauses.map fun c => (c.1, ((c.2.createWeight ix).2.normalize (norm * n.boost)).2))
        { n with weighted := true }) := by
  rw [createWeight_boolean fun c hc => (h c hc).createWeight_fst ix, normalize_boolean, List.map_map]
  · rfl
  · exact List.forall_mem_map.2 fun c hc => ((h c hc).normalize_createWeight_ok ix (norm * n.boost)).1

end weighing

section execution
variable {ix : Index} {filter : Option DocSet} {q : Query}

theorem Resolved.executeGiven_fst (h : q.Resolved) (given : Option Float32) :
    (q.executeGiven ix filter given).1 = .ok () := by
  obtain ⟨r, hr, -⟩ : ∃ r, q.executeGiven ix filter given = (.ok (), r) ∧ Finds ix filter q r :=
    h.executeGiven_ok given
  rw [hr]

/-- Under a given norm the clauses run as if their weights had been created and normalized before. -/
theorem Resolved.executeGiven_some (h : q.Resolved) (norm : Float32) :
    q.executeGiven ix filter (some norm) =
      ((q.createWeight ix).2.normalize norm).2.executeGiven ix filter none := by
  induction h generalizing norm with
  | @boolean clauses n hres ih =>
    rw [normalize_createWeight_boolean hres]
    simp only [executeGiven, executeClauses_eq, if_true]
    rw [eachClause_of_ok fun c hc => (hres c hc).executeGiven_fst _, eachClause_of_ok]
    · rw [List.map_map]
      congr 2
      exact List.map_congr_left fun c hc => by rw [ih c hc]; rfl
    · refine List.forall_mem_map.2 fun c hc => ?_
      have hweighted := ((hres c hc).normalize_createWeight_ok ix (norm * n.boost)).2
      exact hweighted.coherent.resolved.executeGiven_fst none
  | term n => simp [executeGiven, createWeight, normalize, TermQuery.weigh, normOr]
  | multiTerm n => simp [executeGiven, createWeight, normalize, MultiTermQuery.weigh, normOr]
  | phrase n => simp [executeGiven, createWeight, normalize, PhraseQuery.weigh, normOr]
  | insignificant b => rfl
  | emptyResult b => rfl

theorem withDocs_fst (n : Combination) (result : Except Error Unit × List (Occur × Query)) :
    (withDocs n result).1 = result.1 := by
  unfold withDocs
  split <;> rfl

/-- A combination hands one norm, or none, down to all of its clauses, whatever the filter. -/
theorem Resolved.executeGiven_boolean {clauses : List (Occur × Query)} {n : Combination}
    (h : (Query.boolean clauses n).Resolved) (ix : Index) (given : Option Float32) :
    ∃ handed, ∀ filter, (Query.boolean clauses n).executeGiven ix filter given =
      withDocs { n with weighted := true }
        (.ok (), clauses.map fun c => (c.1, (c.2.executeGiven ix filter handed).2)) := by
  have hrun (filter : Option DocSet) (handed : Option Float32) : executeClauses ix filter handed clauses =
      (.ok (), clauses.map fun c => (c.1, (c.2.executeGiven ix filter handed).2)) := by
    cases h with
    | boolean hres =>
      rw [executeClauses_eq, eachClause_of_ok fun c hc => (hres c hc).executeGiven_fst handed]
  cases given with
  | some norm => exact ⟨some (norm * n.boost), fun filter => by rw [executeGiven, hrun]⟩
  | none =>
    cases hw : n.weighted with
    | true =>
      have hn : { n with weighted := true } = n := by rw [← hw]
      exact ⟨none, fun filter => by simp only [executeGiven, hw, if_true, hrun, hn]⟩
    | false =>
      obtain ⟨r, sum, hr, hsum⟩ := h.createWeight_ok ix
      refine ⟨some (Scoring.queryNorm sum * n.boost), fun filter => ?_⟩
      simp only [executeGiven, hw, hr, hsum, Bool.false_eq_true, if_false, hrun]

/-- Executing leaves weights in every node. -/
theorem Coherent.executeGiven_weighted (h : q.Coherent) (given : Option Float32) :
    (q.executeGiven ix filter given).2.Weighted := by
  induction h generalizing given with
  | @boolean clauses n hc hall ih =>
    obtain ⟨handed, hrun⟩ := (Coherent.boolean hc hall).resolved.executeGiven_boolean ix given
    rw [hrun]
    exact .boolean rfl (List.forall_mem_map.2 fun c hc => ih c hc handed)
  | term n =>
    simp only [executeGiven, TermQuery.weigh]
    split
    · rename_i hw
      obtain ⟨w, hn⟩ := Option.isSome_iff_exists.1 (Bool.and_eq_true_iff.1 hw).1
      exact .term hn
    · exact .term rfl
  | @multiTerm n hlength =>
    simp only [executeGiven, MultiTermQuery.weigh]
    split
    · rename_i hw
      obtain ⟨ws, hn⟩ := Option.isSome_iff_exists.1 (Bool.and_eq_true_iff.1 hw).1
      exact .multiTerm hn (hlength ws hn)
    · exact .multiTerm rfl (by simp [MultiTermQuery.newWeights, MultiTermQuery.find])
  | phrase n =>
    simp only [executeGiven, PhraseQuery.weigh]
    split
    · rename_i hw
      obtain ⟨w, hn⟩ := Option.isSome_iff_exists.1 (Bool.and_eq_true_iff.1 hw).1
      exact .phrase hn
    · exact .phrase rfl
  | insignificant b => exact .insignificant b
  | emptyResult b => exact .emptyResult b

/-- Without weights a query runs under the norm of the weights it would get. -/
theorem Resolved.execute_of_not_hasWeight {r : Query} {sum : Float32} (h : q.Resolved)
    (hw : q.hasWeight = false) (hr : q.createWeight ix = (.ok (), r)) (hsum : r.sumOfSquares = .ok sum) :
    q.execute ix filter = q.executeGiven ix filter (some (Scoring.queryNorm sum)) := by
  cases h with
  | boolean =>
    rw [hasWeight] at hw
    simp only [execute, executeGiven, hw, hr, hsum, Bool.false_eq_true, if_false]
  | term n =>
    cases hr
    cases hsum
    rw [hasWeight] at hw
    simp only [execute, executeGiven, TermQuery.weigh, hw, normOr, Bool.false_and, Bool.and_false,
      Option.isNone_some, Option.getD_some, Option.getD_none]
  | multiTerm n =>
    cases hr
    cases hsum
    rw [hasWeight] at hw
    simp only [execute, executeGiven, MultiTermQuery.weigh, hw, normOr, Bool.false_and, Bool.and_false,
      Option.isNone_some, Option.getD_some, Option.getD_none]
    rfl
  | phrase n =>
    cases hr
    cases hsum
    rw [hasWeight] at hw
    simp only [execute, executeGiven, PhraseQuery.weigh, hw, normOr, Bool.false_and, Bool.and_false,
      Option.isNone_some, Option.getD_some, Option.getD_none]
  | insignificant | emptyResult => cases hw

/-- Weights can be given to a query before it is executed; it runs the same with them. -/
theorem Coherent.initWeight_ok (h : q.Coherent) (ix : Index) :
    (q.initWeight ix).1 = .ok () ∧ (q.initWeight ix).2.Weighted ∧
      ∀ filter, (q.initWeight ix).2.execute ix filter = q.execute ix filter := by
  unfold initWeight
  split
  · rename_i hw
    exact ⟨rfl, h.weighted hw, fun _ => rfl⟩
  rename_i hw
  obtain ⟨r, sum, hr, hsum⟩ := h.resolved.createWeight_ok ix
  have hcreated : r = (q.createWeight ix).2 := by rw [hr]
  have hweighted : r.Weighted := hcreated ▸ createWeight_weighted (by rw [hr])
  rw [hr]
  simp only [hsum]
  refine ⟨(hweighted.normalize_ok _).1, (hweighted.normalize_ok _).2, fun filter => ?_⟩
  rw [h.resolved.execute_of_not_hasWeight (Bool.eq_false_iff.2 hw) hr hsum, h.resolved.executeGiven_some,
    ← hcreated]
  rfl

end execution

end TextSearch.Query
