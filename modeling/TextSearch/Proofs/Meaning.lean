import Mathlib.Data.List.Forall2
import Mathlib.Data.Set.Lattice
import TextSearch.Proofs.Optimization

/-! What a resolved query asks for, as a set of documents or nothing at all; and that the optimized query
finds exactly that. -/
namespace TextSearch.Query

/-- The parts that ask for something. -/
def meant (parts : List (Occur × Option (Set Nat))) : List (Occur × Set Nat) :=
  parts.filterMap fun (occur, docs?) => docs?.map (occur, ·)

/-- The documents of all required parts, or without one those of any optional part; but none of a prohibited
part. Parts that ask for nothing are left out, and prohibited parts alone ask for nothing. -/
def combineMeanings (parts : List (Occur × Option (Set Nat))) : Option (Set Nat) :=
  let signed (occur : Occur) : Set (Set Nat) := {docs | (occur, docs) ∈ meant parts}
  if (meant parts).all (·.1 == .prohibited) then none
  else if (meant parts).any (·.1 == .required) then some (⋂₀ signed .required \ ⋃₀ signed .prohibited)
  else some (⋃₀ signed .optional \ ⋃₀ signed .prohibited)

mutual

/-- What a query asks for. Single nodes ask for what their own execution finds. -/
def meaning (ix : Index) (filter : Option DocSet) : Query → Option (Set Nat)
  | boolean clauses _ => combineMeanings (clauseMeanings ix filter clauses)
  | insignificant _ => none
  | q => some {doc | doc ∈ (q.execute ix filter).2.docs}

def clauseMeanings (ix : Index) (filter : Option DocSet) :
    List (Occur × Query) → List (Occur × Option (Set Nat))
  | [] => []
  | (occur, query) :: rest => (occur, query.meaning ix filter) :: clauseMeanings ix filter rest

end

theorem mem_combineMeanings {parts : List (Occur × Option (Set Nat))} {docs : Set Nat}
    (h : combineMeanings parts = some docs) (doc : Nat) :
    doc ∈ docs ↔ Conditions.Holds ((meant parts).map fun (occur, docs) => (occur, doc ∈ docs)) := by
  simp only [Conditions.Holds, Conditions.allRequired_map, Conditions.mandatory_map,
    Conditions.anyOptional_map, Conditions.anyProhibited_map]
  unfold combineMeanings at h
  dsimp only at h
  split at h
  · cases h
  · split at h
    case isTrue hreq =>
      cases h
      simp only [List.any_eq_true, beq_iff_eq, Prod.exists, Set.mem_sdiff, Set.mem_sInter, Set.mem_sUnion,
        Set.mem_ofPred_eq] at hreq ⊢
      grind
    case isFalse hreq =>
      cases h
      simp only [List.any_eq_true, beq_iff_eq, Prod.exists, Set.mem_sdiff, Set.mem_sUnion,
        Set.mem_ofPred_eq] at hreq ⊢
      grind

theorem combineMeanings_eq_none_iff {parts : List (Occur × Option (Set Nat))} :
    combineMeanings parts = none ↔ ∀ p ∈ meant parts, p.1 = .prohibited := by
  unfold combineMeanings
  dsimp only
  split
  case isTrue h => simpa using h
  case isFalse h =>
    have hsome : ¬ ∀ p ∈ meant parts, p.1 = .prohibited := by simpa using h
    simp only [hsome, iff_false]
    split
    · exact Option.some_ne_none _
    · exact Option.some_ne_none _

/-- The second query, an optimized form of the first, has the documents meant as its candidates. -/
structure Keeps (ix : Index) (filter : Option DocSet) (q r : Query) : Prop where
  resolved : r.Resolved
  insignificant_iff : r.isInsignificant = true ↔ q.meaning ix filter = none
  mem_iff : ∀ doc, doc ∈ (q.meaning ix filter).getD ∅ ↔ DocSet.Passes filter doc ∧ r.Candidate ix doc

section keeping
variable {ix : Index} {filter : Option DocSet}

private theorem mem_meaning_leaf {q : Query} (hq : q.Resolved)
    (hmeaning : q.meaning ix filter = some {doc | doc ∈ (q.execute ix filter).2.docs}) (doc : Nat) :
    doc ∈ (q.meaning ix filter).getD ∅ ↔ DocSet.Passes filter doc ∧ q.Candidate ix doc := by
  obtain ⟨r, hr, hfinds⟩ := hq.execute_ok ix filter
  rw [hmeaning, hr]
  exact hfinds.mem_docs_iff doc

private theorem keeps_leaf {q r : Query} (hq : q.Resolved) (hr : r.Resolved)
    (hsig : r.isInsignificant = false)
    (hmeaning : q.meaning ix filter = some {doc | doc ∈ (q.execute ix filter).2.docs})
    (h : ∀ doc, r.Candidate ix doc ↔ q.Candidate ix doc) : Keeps ix filter q r where
  resolved := hr
  insignificant_iff := by simp [hsig, hmeaning]
  mem_iff doc := by rw [mem_meaning_leaf hq hmeaning, h doc]

theorem TermQuery.optimize_resolved (ix : Index) (n : TermQuery) :
    (n.optimize ix).Resolved ∧ (n.optimize ix).isInsignificant = false := by
  unfold TermQuery.optimize
  split
  · exact ⟨.term _, rfl⟩
  · exact ⟨.emptyResult _, rfl⟩

theorem MultiTermQuery.optimize_resolved (ix : Index) (n : MultiTermQuery) :
    (n.optimize ix).Resolved ∧ (n.optimize ix).isInsignificant = false := by
  unfold MultiTermQuery.optimize
  dsimp only
  split
  · exact ⟨.emptyResult _, rfl⟩
  · split
    · exact ⟨.emptyResult _, rfl⟩
    · split
      · exact ⟨.term _, rfl⟩
      · exact ⟨.multiTerm _, rfl⟩

theorem PhraseQuery.optimize_resolved (ix : Index) (n : PhraseQuery) :
    (n.optimize ix).Resolved ∧ (n.optimize ix).isInsignificant = false := by
  unfold PhraseQuery.optimize
  split
  · exact ⟨.emptyResult _, rfl⟩
  · split
    · exact ⟨.emptyResult _, rfl⟩
    · exact ⟨.term _, rfl⟩
    · exact ⟨.phrase _, rfl⟩

/-- Clauses and their optimized forms, one by one. -/
private theorem optimizeClauses_ok {clauses : List (Occur × Query)}
    (h : ∀ c ∈ clauses, ∃ r, c.2.optimize ix = .ok r ∧ Keeps ix filter c.2 r) :
    ∃ cs, optimizeClauses ix clauses = .ok cs ∧
      List.Forall₂ (fun c d => c.1 = d.1 ∧ Keeps ix filter c.2 d.2) clauses cs := by
  induction clauses with
  | nil => exact ⟨[], rfl, .nil⟩
  | cons c rest ih =>
    obtain ⟨r, hr, hkeeps⟩ := h c List.mem_cons_self
    obtain ⟨cs, hcs, hall⟩ := ih fun d hd => h d (List.mem_cons_of_mem _ hd)
    exact ⟨(c.1, r) :: cs, by simp [optimizeClauses, hr, hcs, Except.map], .cons ⟨rfl, hkeeps⟩ hall⟩

/-- Being in the documents meant by clauses is being a candidate of the significant optimized ones. -/
private theorem conditions_meant {clauses cs : List (Occur × Query)}
    (h : List.Forall₂ (fun c d => c.1 = d.1 ∧ Keeps ix filter c.2 d.2) clauses cs) (doc : Nat) :
    ((meant (clauseMeanings ix filter clauses)).map fun (occur, docs) => (occur, doc ∈ docs)) =
      (significant cs).map fun c => (c.1, DocSet.Passes filter doc ∧ c.2.Candidate ix doc) := by
  induction h with
  | nil => rfl
  | @cons c d clauses cs hcd hrest ih =>
    obtain ⟨hsign, hkeeps⟩ := hcd
    have hmem := hkeeps.mem_iff doc
    unfold meant significant at ih ⊢
    rw [clauseMeanings, List.filterMap_cons, List.filter_cons]
    cases hm : c.2.meaning ix filter with
    | none =>
      have hins := hkeeps.insignificant_iff.mpr hm
      simpa [hins] using ih
    | some docs =>
      have hins : d.2.isInsignificant = false := by
        rw [← Bool.not_eq_true, hkeeps.insignificant_iff, hm]
        exact Option.some_ne_none _
      rw [hm] at hmem
      simp only [Option.map_some, hins, Bool.not_false, if_true, List.map_cons]
      rw [ih, ← propext hmem, hsign]
      rfl

private theorem forall_sign_iff {α : Type} {xs : List (Occur × α)} {occur : Occur} :
    (∀ x ∈ xs, x.1 = occur) ↔ ∀ o ∈ xs.map (·.1), o = occur := by
  simp only [List.forall_mem_map]

/-- Combinations keep what their clauses mean. -/
private theorem keeps_boolean {clauses cs : List (Occur × Query)} (n : Combination)
    (h : List.Forall₂ (fun c d => c.1 = d.1 ∧ Keeps ix filter c.2 d.2) clauses cs) :
    Keeps ix filter (boolean clauses n) (combineOptimized cs n.boost) := by
  have hres : ∀ d ∈ cs, d.2.Resolved := by
    clear n
    induction h with
    | nil => simp
    | cons hcd _ ih => exact List.forall_mem_cons.mpr ⟨hcd.2.resolved, ih⟩
  have hsigns : (meant (clauseMeanings ix filter clauses)).map (·.1) = (significant cs).map (·.1) := by
    simpa [Function.comp_def] using congrArg (List.map Prod.fst) (conditions_meant h 0)
  have hvoid : combineMeanings (clauseMeanings ix filter clauses) = none ↔
      allProhibited (significant cs) = true := by
    rw [combineMeanings_eq_none_iff, allProhibited_iff, forall_sign_iff, forall_sign_iff, hsigns]
  by_cases hsig : allProhibited (significant cs) = true
  · have hnone := hvoid.mpr hsig
    rw [combineOptimized_of_allProhibited hsig]
    exact ⟨.insignificant 1, by simp [isInsignificant, meaning, hnone], by simp [meaning, hnone, Answers]⟩
  · have hcandidate (doc : Nat) := candidate_combineOptimized ix doc n.boost hsig
    obtain ⟨docs, hdocs⟩ := Option.ne_none_iff_exists'.mp (mt hvoid.mp hsig)
    refine ⟨resolved_closed.combineOptimized hres _, ?_, fun doc => ?_⟩
    · simp [(hcandidate 0).1, meaning, hdocs]
    · rw [meaning, hdocs, Option.getD_some, mem_combineMeanings hdocs, conditions_meant h doc, (hcandidate doc).2,
        clauseConditions_eq_map, Conditions.and_holds_iff, List.map_map]
      rfl

/-- A resolved query can be optimized, and its optimized form keeps what it means. -/
theorem Resolved.optimize_ok {q : Query} (h : q.Resolved) (ix : Index) (filter : Option DocSet) :
    ∃ r, q.optimize ix = .ok r ∧ Keeps ix filter q r := by
  induction h with
  | @boolean clauses n hres ih =>
    obtain ⟨cs, hcs, hall⟩ := optimizeClauses_ok ih
    exact ⟨combineOptimized cs n.boost, by simp [optimize, hcs, Except.map], keeps_boolean n hall⟩
  | term n =>
    have hr := TermQuery.optimize_resolved ix n
    exact ⟨_, rfl, keeps_leaf (.term n) hr.1 hr.2 rfl fun doc => candidate_optimize_term n⟩
  | multiTerm n =>
    have hr := MultiTermQuery.optimize_resolved ix n
    exact ⟨_, rfl, keeps_leaf (.multiTerm n) hr.1 hr.2 rfl fun _ => candidate_optimize_multiTerm n⟩
  | phrase n =>
    have hr := PhraseQuery.optimize_resolved ix n
    exact ⟨_, rfl, keeps_leaf (.phrase n) hr.1 hr.2 rfl fun _ => candidate_optimize_phrase n⟩
  | insignificant b =>
    exact ⟨_, rfl, .insignificant b, by simp [isInsignificant, meaning], by simp [meaning, Answers]⟩
  | emptyResult b => exact ⟨_, rfl, keeps_leaf (.emptyResult b) (.emptyResult b) rfl rfl fun _ => .rfl⟩

end keeping

/-- A query stands somewhere in another one. -/
inductive Inside (q : Query) : Query → Prop
  | self : Inside q q
  | clause {clauses : List (Occur × Query)} {n : Combination} {c : Occur × Query} :
    c ∈ clauses → Inside q c.2 → Inside q (boolean clauses n)

/-- No combination in a query requires a clause that asks for nothing. -/
def RequiresOnlyMeant (ix : Index) (filter : Option DocSet) (q : Query) : Prop :=
  ∀ clauses n, Inside (boolean clauses n) q → ∀ c ∈ clauses, c.1 = .required → c.2.meaning ix filter ≠ none

section unoptimized
variable {ix : Index} {filter : Option DocSet}

private theorem meant_clauses {clauses : List (Occur × Query)} {doc : Nat}
    (h : ∀ c ∈ clauses, DocSet.Passes filter doc ∧ c.2.Candidate ix doc ↔ doc ∈ (c.2.meaning ix filter).getD ∅) :
    ((meant (clauseMeanings ix filter clauses)).map fun (occur, docs) => (occur, doc ∈ docs)) =
      (clauses.filter fun c => (c.2.meaning ix filter).isSome).map fun c =>
        (c.1, DocSet.Passes filter doc ∧ c.2.Candidate ix doc) := by
  induction clauses with
  | nil => rfl
  | cons c rest ih =>
    have hc := h c List.mem_cons_self
    specialize ih fun d hd => h d (List.mem_cons_of_mem _ hd)
    unfold meant at ih ⊢
    rw [clauseMeanings, List.filterMap_cons, List.filter_cons]
    cases hm : c.2.meaning ix filter with
    | none => simpa using ih
    | some docs =>
      rw [hm] at hc
      simp only [Option.map_some, Option.isSome_some, if_true, List.map_cons]
      rw [ih, propext hc]
      rfl

/-- A query that requires nothing void finds what it means without being optimized. -/
theorem Resolved.candidate_iff_mem_meaning {q : Query} (h : q.Resolved) (hq : q.RequiresOnlyMeant ix filter)
    (doc : Nat) : DocSet.Passes filter doc ∧ q.Candidate ix doc ↔ doc ∈ (q.meaning ix filter).getD ∅ := by
  induction h with
  | @boolean clauses n hres ih =>
    have hclauses : ∀ c ∈ clauses,
        DocSet.Passes filter doc ∧ c.2.Candidate ix doc ↔ doc ∈ (c.2.meaning ix filter).getD ∅ :=
      fun c hc => ih c hc fun cs m hin => hq cs m (.clause hc hin)
    have halike : Conditions.Alike
        (clauses.map fun c => (c.1, DocSet.Passes filter doc ∧ c.2.Candidate ix doc))
        ((meant (clauseMeanings ix filter clauses)).map fun (occur, docs) => (occur, doc ∈ docs)) := by
      rw [meant_clauses hclauses]
      refine Conditions.Alike.map_filter fun c hc hvoid => ?_
      rw [Option.isSome_eq_false_iff, Option.isNone_iff_eq_none] at hvoid
      refine ⟨fun hr => hq clauses n .self c hc hr hvoid, fun hdoc => ?_⟩
      have := (hclauses c hc).mp hdoc
      rw [hvoid] at this
      exact this
    rw [Candidate, Answers, clauseConditions_eq_map, Conditions.and_holds_iff, List.map_map]
    refine halike.holds_iff.trans ?_
    rw [meaning]
    cases hm : combineMeanings (clauseMeanings ix filter clauses) with
    | none =>
      refine iff_of_false (Conditions.not_holds_of_all_prohibited (List.forall_mem_map.mpr ?_)) id
      exact combineMeanings_eq_none_iff.mp hm
    | some docs => exact (mem_combineMeanings hm doc).symm
  | insignificant b => simp [Answers, meaning]
  | term n => exact (mem_meaning_leaf (.term n) rfl doc).symm
  | multiTerm n => exact (mem_meaning_leaf (.multiTerm n) rfl doc).symm
  | phrase n => exact (mem_meaning_leaf (.phrase n) rfl doc).symm
  | emptyResult b => exact (mem_meaning_leaf (.emptyResult b) rfl doc).symm

end unoptimized

/-- Optimizing succeeds, and the optimized query finds exactly the documents meant; it is insignificant just
if nothing is meant. A query that requires nothing void finds the same documents as it is. -/
theorem optimize_finds_meaning {q : Query} (hq : q.Resolved) (ix : Index) (filter : Option DocSet) :
    ∃ r found, q.optimize ix = .ok r ∧ (r.isInsignificant = true ↔ q.meaning ix filter = none) ∧
      r.execute ix filter = (.ok (), found) ∧ found.matchedDocs = .ok found.docs ∧
      {doc | doc ∈ found.docs} = (q.meaning ix filter).getD ∅ ∧
      (q.RequiresOnlyMeant ix filter → ∃ unoptimized, q.execute ix filter = (.ok (), unoptimized) ∧
        unoptimized.matchedDocs = .ok found.docs) := by
  obtain ⟨r, hr, hkeeps⟩ := hq.optimize_ok ix filter
  obtain ⟨found, hfound, hfinds⟩ := hkeeps.resolved.execute_ok ix filter
  have hmem (doc : Nat) : doc ∈ found.docs ↔ doc ∈ (q.meaning ix filter).getD ∅ :=
    (hfinds.mem_docs_iff doc).trans (hkeeps.mem_iff doc).symm
  refine ⟨r, found, hr, hkeeps.insignificant_iff, hfound, hfinds.resolved.matchedDocs_ok, Set.ext hmem, ?_⟩
  intro hrequires
  obtain ⟨unoptimized, hrun, hplain⟩ := hq.execute_ok ix filter
  have hdocs : unoptimized.docs = found.docs := Std.ExtTreeSet.ext_mem fun doc => by
    rw [hplain.mem_docs_iff, hq.candidate_iff_mem_meaning hrequires, hmem]
  exact ⟨unoptimized, hrun, by rw [hplain.resolved.matchedDocs_ok, hdocs]⟩

/-- Terms to dissolve under a requirement, beside a clause for nothing and a nested exclusion. -/
def nestedExclusion : Query :=
  ofClauses [
    (.required, ofTerms [(.required, .inField "f" "a"), (.optional, .inField "f" "b")] 2),
    (.optional, insignificant 1),
    (.prohibited, ofClauses [(.optional, phrase (.ofTerms [.inField "f" "a", .inField "f" "b"])),
      (.prohibited, ofTerm (.inField "f" "c") 1)] 1)] 1

theorem nestedExclusion_resolved : nestedExclusion.Resolved := by
  refine .boolean ?_
  simp only [List.forall_mem_cons, List.not_mem_nil, IsEmpty.forall_iff, implies_true, and_true]
  refine ⟨.multiTerm _, .insignificant _, .boolean ?_⟩
  simp only [List.forall_mem_cons, List.not_mem_nil, IsEmpty.forall_iff, implies_true, and_true]
  exact ⟨.phrase _, .term _⟩

/-- Documents that hold both words, only the first, and all three. -/
def threeDocuments : Index :=
  (({ analyzer := .ofConfig .bare {} } : Index).add [("f", .keyword "a"), ("f", .keyword "b")]
    |>.add [("f", .keyword "a")]
    |>.add [("f", .keyword "a"), ("f", .keyword "b"), ("f", .keyword "c")])

theorem nestedExclusion_finds_meaning : nestedExclusion.Resolved ∧
    ∃ r found, nestedExclusion.optimize threeDocuments = .ok r ∧
      (r.isInsignificant = true ↔ nestedExclusion.meaning threeDocuments none = none) ∧
      r.execute threeDocuments none = (.ok (), found) ∧ found.matchedDocs = .ok found.docs ∧
      {doc | doc ∈ found.docs} = (nestedExclusion.meaning threeDocuments none).getD ∅ ∧
      (nestedExclusion.RequiresOnlyMeant threeDocuments none →
        ∃ unoptimized, nestedExclusion.execute threeDocuments none = (.ok (), unoptimized) ∧
          unoptimized.matchedDocs = .ok found.docs) :=
  ⟨nestedExclusion_resolved, optimize_finds_meaning nestedExclusion_resolved threeDocuments none⟩

end TextSearch.Query
