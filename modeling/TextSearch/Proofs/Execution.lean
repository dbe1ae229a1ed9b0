import TextSearch.Proofs.Signed

/-! The documents an execution finds: those that pass the filter and satisfy the query, where a phrase asks
for all of its terms in whatever place. -/
namespace TextSearch

namespace DocSet

/-- A filter lets a document pass if it holds it; without a filter all documents pass. -/
def Passes (filter : Option DocSet) (doc : Nat) : Prop := ∀ allowed ∈ filter, doc ∈ allowed

@[simp] theorem passes_none (doc : Nat) : Passes none doc := by simp [Passes]

theorem mem_filtered {docs : DocSet} {filter : Option DocSet} {doc : Nat} :
    doc ∈ DocSet.filtered docs filter ↔ Passes filter doc ∧ doc ∈ docs := by
  cases filter with
  | none => simp [filtered]
  | some allowed => simp [filtered, Passes, Std.ExtTreeSet.mem_inter_iff, and_comm]

theorem mem_foldl_union {sets : List DocSet} {start : DocSet} {doc : Nat} :
    doc ∈ sets.foldl (· ∪ ·) start ↔ doc ∈ start ∨ ∃ docs ∈ sets, doc ∈ docs := by
  induction sets generalizing start with
  | nil => simp
  | cons docs sets ih => simp [ih, Std.ExtTreeSet.mem_union_iff, or_assoc]

theorem mem_foldl_inter {sets : List DocSet} {start : DocSet} {doc : Nat} :
    doc ∈ sets.foldl (· ∩ ·) start ↔ doc ∈ start ∧ ∀ docs ∈ sets, doc ∈ docs := by
  induction sets generalizing start with
  | nil => simp
  | cons docs sets ih => simp [ih, Std.ExtTreeSet.mem_inter_iff, and_assoc]

private theorem mem_base {required optional : List DocSet} {doc : Nat} :
    doc ∈ (match required with
      | [] => optional.foldl (· ∪ ·) (∅ : DocSet)
      | first :: others => others.foldl (· ∩ ·) first) ↔
    (∀ docs ∈ required, doc ∈ docs) ∧
      ((∃ docs, docs ∈ required) ∨ ∃ docs ∈ optional, doc ∈ docs) := by
  cases required with
  | nil => simp [mem_foldl_union]
  | cons first others => simp [mem_foldl_inter]

private theorem mem_signed {parts : List (Occur × DocSet)} {occur : Occur} {docs : DocSet} :
    docs ∈ (parts.filter (·.1 == occur)).map (·.2) ↔ (occur, docs) ∈ parts := by
  simp only [List.mem_map, List.mem_filter, beq_iff_eq, Prod.exists, exists_eq_right]

/-- Combining sets of documents is combining the conditions to be in them. -/
theorem mem_combine {parts : List (Occur × DocSet)} {doc : Nat} :
    doc ∈ combine parts ↔ Conditions.Holds (parts.map fun (occur, docs) => (occur, doc ∈ docs)) := by
  unfold combine Conditions.Holds
  rw [Std.ExtTreeSet.mem_diff_iff]
  refine (and_congr mem_base (not_congr mem_foldl_union)).trans ?_
  dsimp only
  simp only [mem_signed, Std.ExtTreeSet.not_mem_empty, false_or, Conditions.allRequired_map,
    Conditions.mandatory_map, Conditions.anyOptional_map, Conditions.anyProhibited_map, Prod.forall, Prod.exists]
  grind

end DocSet

namespace PhraseQuery

/-- All terms of a phrase stand in a document, in whatever place. -/
def Candidate (ix : Index) (doc : Nat) (n : PhraseQuery) : Prop :=
  n.terms ≠ [] ∧ ∀ t ∈ n.terms, doc ∈ ix.termDocs t.1

/-- A phrase occurs in a document, with its terms in place or near enough. -/
def Occurs (ix : Index) (doc : Nat) (n : PhraseQuery) : Prop :=
  n.frequency ((n.terms.map fun (t, _) => ix.positions t).map (·.getD doc [])) > 0

theorem mem_candidates {ix : Index} {filter : Option DocSet} {n : PhraseQuery} {doc : Nat} :
    doc ∈ n.candidates ix filter ↔ DocSet.Passes filter doc ∧ n.Candidate ix doc := by
  unfold candidates Candidate
  cases n.terms with
  | nil => simp
  | cons first others =>
    simp only [List.map_cons, DocSet.mem_filtered, DocSet.mem_foldl_inter, List.forall_mem_map, ne_eq,
      reduceCtorEq, not_false_eq_true, true_and, List.forall_mem_cons]

end PhraseQuery

namespace Query

/-- All nodes of a resolved query can be run. -/
inductive Resolved : Query → Prop
  | boolean {clauses : List (Occur × Query)} {n : Combination} :
    (∀ c ∈ clauses, Resolved c.2) → Resolved (boolean clauses n)
  | term (n : TermQuery) : Resolved (term n)
  | multiTerm (n : MultiTermQuery) : Resolved (multiTerm n)
  | phrase (n : PhraseQuery) : Resolved (phrase n)
  | insignificant (b : Float32) : Resolved (insignificant b)
  | emptyResult (b : Float32) : Resolved (emptyResult b)

mutual

/-- A document answers a query, given which phrases it answers. -/
def Answers (ix : Index) (reading : PhraseQuery → Prop) (doc : Nat) : Query → Prop
  | boolean clauses _ => (clauseConditions ix reading doc clauses).Holds
  | term n => doc ∈ ix.termDocs n.term
  | multiTerm n => Conditions.Holds (n.terms.map fun (occur, t) => (occur, doc ∈ ix.termDocs t))
  | phrase n => reading n
  | _ => False

def clauseConditions (ix : Index) (reading : PhraseQuery → Prop) (doc : Nat) :
    List (Occur × Query) → Conditions
  | [] => []
  | (occur, query) :: rest =>
    (occur, query.Answers ix reading doc) :: clauseConditions ix reading doc rest

end

/-- A document answers a query with every phrase read as all of its terms. -/
abbrev Candidate (ix : Index) (doc : Nat) (q : Query) : Prop := q.Answers ix (PhraseQuery.Candidate ix doc) doc

theorem clauseConditions_eq_map (ix : Index) (reading : PhraseQuery → Prop) (doc : Nat)
    (clauses : List (Occur × Query)) :
    clauseConditions ix reading doc clauses = clauses.map fun c => (c.1, c.2.Answers ix reading doc) := by
  induction clauses with
  | nil => rfl
  | cons c rest ih => simp [clauseConditions, ih]

/-- The weights of clauses can be created and added up if those of each clause can. -/
private theorem createWeights_ok {ix : Index} {clauses : List (Occur × Query)}
    (h : ∀ c ∈ clauses, ∃ q sum, c.2.createWeight ix = (.ok (), q) ∧ q.sumOfSquares = .ok sum) :
    ∃ cs, createWeights ix clauses = (.ok (), cs) ∧ ∀ start, ∃ sum, sumOfClauses start cs = .ok sum := by
  induction clauses with
  | nil => exact ⟨[], rfl, fun start => ⟨start, rfl⟩⟩
  | cons c rest ih =>
    obtain ⟨q, sum, hq, hsum⟩ := h c List.mem_cons_self
    obtain ⟨cs, hcs, hall⟩ := ih fun d hd => h d (List.mem_cons_of_mem _ hd)
    refine ⟨(c.1, q) :: cs, by simp [createWeights, hq, hcs], fun start => ?_⟩
    by_cases hc : c.1 = .prohibited
    · obtain ⟨total, ht⟩ := hall start
      exact ⟨total, by simp [sumOfClauses, hc, ht]⟩
    · obtain ⟨total, ht⟩ := hall (start + sum)
      exact ⟨total, by simp [sumOfClauses, hc, hsum, ht]⟩

theorem Resolved.createWeight_ok {q : Query} (h : q.Resolved) (ix : Index) :
    ∃ r sum, q.createWeight ix = (.ok (), r) ∧ r.sumOfSquares = .ok sum := by
  induction h with
  | @boolean clauses n _ ih =>
    obtain ⟨cs, hcs, hall⟩ := createWeights_ok ih
    obtain ⟨sum, hsum⟩ := hall 0
    have hcreate : (Query.boolean clauses n).createWeight ix =
        (.ok (), Query.boolean cs { n with weighted := true }) := by rw [createWeight, hcs]
    exact ⟨_, _, hcreate, by rw [sumOfSquares, hsum]; rfl⟩
  | term n => exact ⟨_, _, rfl, rfl⟩
  | multiTerm n => exact ⟨_, _, rfl, rfl⟩
  | phrase n => exact ⟨_, _, rfl, rfl⟩
  | insignificant b => exact ⟨_, _, rfl, rfl⟩
  | emptyResult b => exact ⟨_, _, rfl, rfl⟩

section execution
variable {ix : Index} {filter : Option DocSet}

/-- The second query holds the candidates of the first one that pass the filter. -/
structure Finds (ix : Index) (filter : Option DocSet) (q r : Query) : Prop where
  resolved : r.Resolved
  mem_docs_iff : ∀ doc, doc ∈ r.docs ↔ DocSet.Passes filter doc ∧ q.Candidate ix doc

theorem Resolved.matchedDocs_ok {q : Query} (h : q.Resolved) : q.matchedDocs = .ok q.docs := by
  cases h <;> rfl

private theorem executeClauses_ok {given : Option Float32} {clauses : List (Occur × Query)}
    (h : ∀ c ∈ clauses, ∃ r, c.2.executeGiven ix filter given = (.ok (), r) ∧ Finds ix filter c.2 r) :
    ∃ cs, executeClauses ix filter given clauses = (.ok (), cs) ∧ (∀ c ∈ cs, c.2.Resolved) ∧
      ∀ doc, (cs.map fun c => (c.1, doc ∈ c.2.docs)) = clauses.map fun c =>
        (c.1, DocSet.Passes filter doc ∧ c.2.Candidate ix doc) := by
  induction clauses with
  | nil => exact ⟨[], rfl, by simp, fun _ => rfl⟩
  | cons c rest ih =>
    obtain ⟨r, hr, hfinds⟩ := h c List.mem_cons_self
    obtain ⟨cs, hcs, hres, hall⟩ := ih fun d hd => h d (List.mem_cons_of_mem _ hd)
    refine ⟨(c.1, r) :: cs, by simp [executeClauses, hr, hcs], ?_, fun doc => ?_⟩
    · exact List.forall_mem_cons.mpr ⟨hfinds.resolved, hres⟩
    · rw [List.map_cons, List.map_cons, hall doc, propext (hfinds.mem_docs_iff doc)]

private theorem withDocs_ok {given : Option Float32} {clauses : List (Occur × Query)} (n m : Combination)
    (h : ∀ c ∈ clauses, ∃ r, c.2.executeGiven ix filter given = (.ok (), r) ∧ Finds ix filter c.2 r) :
    ∃ r, withDocs m (executeClauses ix filter given clauses) = (.ok (), r) ∧
      Finds ix filter (boolean clauses n) r := by
  obtain ⟨cs, hcs, hres, hall⟩ := executeClauses_ok h
  refine ⟨boolean cs { m with docs := combinedDocs cs }, by rw [hcs, withDocs], .boolean hres, fun doc => ?_⟩
  rw [Candidate, Answers, clauseConditions_eq_map, Conditions.and_holds_iff, List.map_map]
  change doc ∈ combinedDocs cs ↔ _
  rw [combinedDocs, DocSet.mem_combine, List.map_map]
  change Conditions.Holds (cs.map fun c => (c.1, doc ∈ c.2.docs)) ↔ _
  rw [hall doc]
  rfl

/-- A resolved query runs and finds its candidates. Neither weights nor a norm from above matter for that. -/
theorem Resolved.executeGiven_ok {q : Query} (h : q.Resolved) (given : Option Float32) :
    ∃ r, q.executeGiven ix filter given = (.ok (), r) ∧ Finds ix filter q r := by
  induction h generalizing given with
  | @boolean clauses n hres ih =>
    have hrun (m : Combination) (given : Option Float32) := withDocs_ok n m fun c hc => ih c hc given
    cases given with
    | some norm =>
      rw [executeGiven]
      exact hrun _ _
    | none =>
      cases hw : n.weighted with
      | true =>
        simp only [executeGiven, hw, if_true]
        exact hrun _ _
      | false =>
        obtain ⟨r, sum, hr, hsum⟩ := (Resolved.boolean hres (n := n)).createWeight_ok ix
        simp only [executeGiven, hw, hr, hsum, Bool.false_eq_true, if_false]
        exact hrun _ _
  | term n =>
    refine ⟨_, rfl, .term _, fun doc => ?_⟩
    have hterm : (n.weigh ix given).term = n.term := by unfold TermQuery.weigh; split <;> rfl
    simp only [docs, TermQuery.find, hterm, Answers, DocSet.mem_filtered]
  | multiTerm n =>
    refine ⟨_, rfl, .multiTerm _, fun doc => ?_⟩
    have hterms : (n.weigh ix given).terms = n.terms := by unfold MultiTermQuery.weigh; split <;> rfl
    simp only [docs, MultiTermQuery.find, hterms, Answers, DocSet.mem_combine, Conditions.and_holds_iff,
      List.map_map, Function.comp_def, DocSet.mem_filtered]
  | phrase n =>
    refine ⟨_, rfl, .phrase _, fun doc => ?_⟩
    have hterms : (n.weigh ix given).terms = n.terms := by unfold PhraseQuery.weigh; split <;> rfl
    simp only [docs, PhraseQuery.find, PhraseQuery.mem_candidates, PhraseQuery.Candidate, hterms, Answers]
  | insignificant b => exact ⟨_, rfl, .insignificant b, fun doc => by simp [docs, Answers]⟩
  | emptyResult b => exact ⟨_, rfl, .emptyResult b, fun doc => by simp [docs, Answers]⟩

theorem Resolved.execute_ok {q : Query} (h : q.Resolved) (ix : Index) (filter : Option DocSet) :
    ∃ r, q.execute ix filter = (.ok (), r) ∧ Finds ix filter q r :=
  h.executeGiven_ok none

end execution

end Query

end TextSearch
