import TextSearch.Lexeme.Scan
import TextSearch.Proofs.Execution
import TextSearch.Query.Optimize

/-! Optimized queries ask for the same documents: gathering terms, dropping clauses that cannot match and
unwrapping combinations keep what a query means. -/
namespace TextSearch

theorem Index.hasTerm_of_mem_termDocs {ix : Index} {t : Term} {doc : Nat} (h : doc ∈ ix.termDocs t) :
    ix.hasTerm t = true := by
  unfold hasTerm
  cases hp : ix.postings? t with
  | some postings => rfl
  | none =>
    rw [termDocs, positions, hp, DocTable.docs, Std.ExtTreeSet.mem_ofList] at h
    simp at h

namespace Query

section gathering
variable (ix : Index) (reading : PhraseQuery → Prop) (doc : Nat)

/-- The conditions signed terms put on a document. -/
def termConditions (ts : List SignedTerm) : Conditions :=
  ts.map fun t => (t.occur, doc ∈ ix.termDocs t.term)

private theorem answers_ofTerms {ts : List SignedTerm} {boost : Float32} :
    (ofTerms (ts.map fun t => (t.occur, t.term)) boost).Answers ix reading doc ↔
      (termConditions ix doc ts).Holds := by
  rw [ofTerms, Answers, termConditions, List.map_map]
  rfl

/-- A clause and the terms it amounts to put the same condition on a document. -/
private theorem alike_signedTerms {c : Occur × Query} {ts : List SignedTerm} (h : signedTerms? c = some ts) :
    Conditions.Alike [(c.1, c.2.Answers ix reading doc)] (termConditions ix doc ts) := by
  obtain ⟨occur, q⟩ := c
  cases q with
  | term n =>
    cases h
    exact .refl _
  | multiTerm n =>
    simp only [signedTerms?] at h
    split at h
    case isTrue hreq =>
      split at h
      case isTrue hsigns =>
        cases h
        simp only [Bool.and_eq_true, Bool.not_eq_true', List.contains_eq_mem,
          decide_eq_true_eq, decide_eq_false_iff_not, List.mem_map, not_exists, not_and] at hsigns
        obtain ⟨⟨t, ht, hs⟩, hno⟩ := hsigns
        rw [termConditions, List.map_map, Answers]
        refine (Conditions.Alike.whole ?_ ?_ ?_).symm
        · rw [Conditions.anyProhibited_map]
          rintro ⟨u, hu, ho, -⟩
          exact hno u hu ho
        · simp only [hreq, Conditions.mandatory_map, true_iff]
          exact ⟨t, ht, hs⟩
        · simp [hreq]
      case isFalse => cases h
    case isFalse hreq =>
      split at h
      case isTrue hall =>
        cases h
        rw [termConditions, List.map_map, Answers, Conditions.holds_map_of_all_optional (by simpa using hall)]
        exact Conditions.Alike.any hreq (fun t : Occur × Term => doc ∈ ix.termDocs t.2) n.terms
      case isFalse => cases h
  | _ => cases h

/-- Taking the terms out of clauses keeps the condition they put on a document. -/
private theorem alike_gathered (cs : List (Occur × Query)) :
    Conditions.Alike (clauseConditions ix reading doc cs)
      (clauseConditions ix reading doc (cs.filter fun c => (signedTerms? c).isNone) ++
        termConditions ix doc (cs.filterMap signedTerms?).flatten) := by
  induction cs with
  | nil => exact .refl _
  | cons c rest ih =>
    have hcons : clauseConditions ix reading doc (c :: rest) =
      [(c.1, c.2.Answers ix reading doc)] ++ clauseConditions ix reading doc rest := rfl
    rw [hcons]
    cases hc : signedTerms? c with
    | none =>
      simp only [List.filterMap_cons, List.filter_cons, hc, Option.isNone_none, if_true]
      exact (Conditions.Alike.refl _).append ih
    | some ts =>
      simp only [List.filterMap_cons, List.filter_cons, hc, Option.isNone_some, Bool.false_eq_true, if_false,
        List.flatten_cons]
      refine ((alike_signedTerms ix reading doc hc).append ih).trans (Conditions.Alike.of_mem_iff fun d => ?_)
      simp only [termConditions, List.map_append, List.mem_append]
      tauto

private theorem alike_kept {ts : List SignedTerm} {cs : List (Occur × Query)}
    (hts : ∀ t ∈ ts, t.occur ≠ .prohibited) (h : keptClause? ts = some cs) :
    Conditions.Alike (termConditions ix doc ts) (clauseConditions ix reading doc cs) := by
  unfold keptClause? at h
  split at h
  · cases h
    exact .refl _
  · cases h
    exact .refl _
  · rename_i t rest hrest
    split at h
    · cases h
      rw [clauseConditions, answers_ofTerms, clauseConditions]
      refine Conditions.Alike.whole ?_ ?_ ?_
      · rw [termConditions, Conditions.anyProhibited_map]
        rintro ⟨u, hu, ho, -⟩
        exact hts u hu ho
      · rw [termConditions, Conditions.mandatory_map]
        split
        case isTrue hany => simpa using hany
        case isFalse hany => simpa using hany
      · split <;> simp
    · cases h

private theorem alike_prohibited (ts : List SignedTerm) (hts : ∀ t ∈ ts, t.occur = .prohibited) :
    Conditions.Alike (termConditions ix doc ts) (clauseConditions ix reading doc (prohibitedClause ts)) := by
  unfold prohibitedClause
  split
  · exact .refl _
  · rename_i t
    rw [termConditions, List.map_cons, hts t List.mem_cons_self]
    exact .refl _
  · have hconditions : termConditions ix doc ts =
        ts.map fun t => (Occur.prohibited, doc ∈ ix.termDocs t.term) :=
      List.map_congr_left fun t ht => by rw [hts t ht]
    rw [hconditions, clauseConditions, clauseConditions, ofTerms, Answers, List.map_map,
      Conditions.holds_map_of_all_optional (by simp)]
    exact (Conditions.Alike.any (by simp) (fun t : SignedTerm => doc ∈ ix.termDocs t.term) ts).symm

/-- Gathering terms keeps the documents that answer. -/
theorem answers_mergeTerms (cs : List (Occur × Query)) (boost : Float32) :
    (mergeTerms cs boost).Answers ix reading doc ↔ (clauseConditions ix reading doc cs).Holds := by
  have hgathered := alike_gathered ix reading doc cs
  unfold mergeTerms
  generalize (cs.filterMap signedTerms?).flatten = terms at hgathered ⊢
  generalize (cs.filter fun c => (signedTerms? c).isNone) = others at hgathered ⊢
  dsimp only
  split
  · rfl
  · rename_i first rest
    split
    case isTrue hflat =>
      simp only [Bool.and_eq_true, List.isEmpty_iff] at hflat
      rw [answers_ofTerms, hgathered.holds_iff, hflat.1]
      rfl
    case isFalse =>
      split
      case h_1 => rfl
      case h_2 kept hkept =>
        have hk := alike_kept ix reading doc (by simp) hkept
        have hp := alike_prohibited ix reading doc ((first :: rest).filter (·.occur == .prohibited)) (by simp)
        have hsplit : Conditions.Alike (termConditions ix doc (first :: rest))
            (termConditions ix doc ((first :: rest).filter (·.occur != .prohibited)) ++
              termConditions ix doc ((first :: rest).filter (·.occur == .prohibited))) :=
          Conditions.Alike.of_mem_iff fun d => by
            simp only [termConditions, ← List.map_append, List.mem_map, List.mem_append, List.mem_filter]
            grind
        rw [ofClauses, Answers, hgathered.holds_iff]
        refine Conditions.Alike.holds_iff (Conditions.Alike.symm ?_)
        simp only [clauseConditions_eq_map, List.map_append, List.append_assoc] at hk hp ⊢
        exact (Conditions.Alike.refl _).append (hsplit.trans (hk.append hp))

theorem mergeTerms_not_insignificant (cs : List (Occur × Query)) (boost : Float32) :
    (mergeTerms cs boost).isInsignificant = false := by
  unfold mergeTerms
  dsimp only
  split
  · rfl
  · split
    · rfl
    · split <;> rfl

/-- What holds of all that an optimization builds out of queries it holds of. -/
structure Closed (P : Query → Prop) : Prop where
  ofTerm (t : Term) (b : Float32) : P (ofTerm t b)
  ofTerms (terms : List (Occur × Term)) (b : Float32) : P (ofTerms terms b)
  ofClauses {cs : List (Occur × Query)} (h : ∀ c ∈ cs, P c.2) (b : Float32) : P (ofClauses cs b)
  withBoost {q : Query} (h : P q) (b : Float32) : P (q.withBoost b)
  insignificant (b : Float32) : P (insignificant b)
  emptyResult (b : Float32) : P (emptyResult b)

theorem resolved_closed : Closed Resolved where
  ofTerm _ _ := .term _
  ofTerms _ _ := .multiTerm _
  ofClauses h _ := .boolean h
  withBoost h _ := by
    cases h <;> constructor
    assumption
  insignificant := .insignificant
  emptyResult := .emptyResult

namespace Closed
variable {P : Query → Prop} (hP : Closed P)
include hP

private theorem keptClause {ts : List SignedTerm} {cs : List (Occur × Query)}
    (h : keptClause? ts = some cs) : ∀ c ∈ cs, P c.2 := by
  unfold keptClause? at h
  split at h
  · cases h
    simp
  · cases h
    exact List.forall_mem_singleton.mpr (hP.ofTerm _ _)
  · split at h
    · cases h
      exact List.forall_mem_singleton.mpr (hP.ofTerms _ _)
    · cases h

private theorem prohibitedClause (ts : List SignedTerm) : ∀ c ∈ prohibitedClause ts, P c.2 := by
  unfold Query.prohibitedClause
  split
  · simp
  · exact List.forall_mem_singleton.mpr (hP.ofTerm _ _)
  · exact List.forall_mem_singleton.mpr (hP.ofTerms _ _)

theorem mergeTerms {cs : List (Occur × Query)} (h : ∀ c ∈ cs, P c.2) (boost : Float32) :
    P (mergeTerms cs boost) := by
  unfold Query.mergeTerms
  dsimp only
  split
  · exact hP.ofClauses h _
  · split
    · exact hP.ofTerms _ _
    · split
      case h_1 => exact hP.ofClauses h _
      case h_2 kept hkept =>
        refine hP.ofClauses (fun c hc => ?_) _
        simp only [List.mem_append] at hc
        rcases hc with (hc | hc) | hc
        · exact h c (List.mem_filter.mp hc).1
        · exact hP.keptClause hkept c hc
        · exact hP.prohibitedClause _ c hc

end Closed

end gathering

section combining
variable (ix : Index) (doc : Nat)

theorem candidate_withBoost (q : Query) (b : Float32) :
    (q.withBoost b).Candidate ix doc ↔ q.Candidate ix doc := by
  cases q <;> rfl

theorem isInsignificant_withBoost (q : Query) (b : Float32) :
    (q.withBoost b).isInsignificant = q.isInsignificant := by
  cases q <;> rfl

private theorem not_answers_of_isEmptyResult {ix : Index} {doc : Nat} {q : Query} (h : q.isEmptyResult = true)
    (reading : PhraseQuery → Prop) : ¬ q.Answers ix reading doc := by
  cases q <;> simp_all [isEmptyResult, Answers]

/-- The clauses that ask for something. -/
def significant (cs : List (Occur × Query)) : List (Occur × Query) := cs.filter fun c => !c.2.isInsignificant

/-- The clauses that may match something. -/
def matching (cs : List (Occur × Query)) : List (Occur × Query) :=
  (significant cs).filter fun c => !c.2.isEmptyResult

theorem combineOptimized_eq (cs : List (Occur × Query)) (boost : Float32) :
    combineOptimized cs boost =
      if allProhibited (significant cs) then insignificant 1
      else if (significant cs).any fun c => c.2.isEmptyResult && c.1 == .required then emptyResult 1
      else if allProhibited (matching cs) then emptyResult 1
      else
        match matching cs with
        | [(_, q)] => q.withBoost (q.boost * boost)
        | _ => mergeTerms (matching cs) boost := rfl

theorem allProhibited_iff {cs : List (Occur × Query)} :
    allProhibited cs = true ↔ ∀ c ∈ cs, c.1 = .prohibited := by
  simp [allProhibited]

private theorem not_holds_of_allProhibited {ix : Index} {doc : Nat} {cs : List (Occur × Query)}
    (h : allProhibited cs = true)
    (reading : PhraseQuery → Prop) : ¬ (clauseConditions ix reading doc cs).Holds := by
  rw [clauseConditions_eq_map]
  exact Conditions.not_holds_of_all_prohibited (List.forall_mem_map.mpr (allProhibited_iff.mp h))

/-- Clauses that cannot match may be dropped, unless they are required. -/
private theorem holds_matching {cs : List (Occur × Query)} (reading : PhraseQuery → Prop)
    (h : ¬ (significant cs).any (fun c => c.2.isEmptyResult && c.1 == .required)) :
    (clauseConditions ix reading doc (significant cs)).Holds ↔
      (clauseConditions ix reading doc (matching cs)).Holds := by
  simp only [clauseConditions_eq_map, matching]
  refine Conditions.Alike.holds_iff (Conditions.Alike.map_filter fun c hc hempty => ?_)
  rw [Bool.not_eq_false'] at hempty
  refine ⟨fun hr => h (List.any_eq_true.mpr ⟨c, hc, ?_⟩), not_answers_of_isEmptyResult hempty _⟩
  rw [hempty, Bool.true_and, beq_iff_eq]
  exact hr

/-- A combination of optimized clauses has the candidates of its significant clauses together. -/
theorem candidate_combineOptimized {cs : List (Occur × Query)} (boost : Float32)
    (hsig : ¬ allProhibited (significant cs)) :
    (combineOptimized cs boost).isInsignificant = false ∧
      ((combineOptimized cs boost).Candidate ix doc ↔
        (clauseConditions ix (PhraseQuery.Candidate ix doc) doc (significant cs)).Holds) := by
  rw [combineOptimized_eq, if_neg hsig]
  split
  case isTrue hempty =>
    obtain ⟨c, hc, he⟩ := List.any_eq_true.mp hempty
    simp only [Bool.and_eq_true, beq_iff_eq] at he
    refine ⟨rfl, iff_of_false id ?_⟩
    rw [clauseConditions_eq_map]
    exact Conditions.not_holds_of_required (List.mem_map_of_mem hc) he.2
      (not_answers_of_isEmptyResult he.1 _)
  case isFalse hnone =>
    rw [holds_matching ix doc _ hnone]
    split
    case isTrue hall => exact ⟨rfl, iff_of_false id (not_holds_of_allProhibited hall _)⟩
    case isFalse hall =>
      split
      case h_1 occur q hq =>
        have hsign : occur ≠ .prohibited := by simpa [hq, allProhibited] using hall
        have hkept : (occur, q) ∈ significant cs := (List.mem_filter.mp (hq ▸ List.mem_singleton_self _)).1
        refine ⟨?_, ?_⟩
        · rw [isInsignificant_withBoost]
          simpa using (List.mem_filter.mp hkept).2
        · rw [hq, candidate_withBoost, clauseConditions, clauseConditions]
          exact (Conditions.holds_singleton hsign).symm
      case h_2 => exact ⟨mergeTerms_not_insignificant _ _, answers_mergeTerms ix _ doc _ _⟩

theorem Closed.combineOptimized {P : Query → Prop} (hP : Closed P) {cs : List (Occur × Query)}
    (h : ∀ c ∈ cs, P c.2) (boost : Float32) : P (combineOptimized cs boost) := by
  have hmatching : ∀ c ∈ matching cs, P c.2 := fun c hc =>
    h c (List.mem_filter.mp (List.mem_filter.mp hc).1).1
  rw [combineOptimized_eq]
  split
  · exact hP.insignificant _
  · split
    · exact hP.emptyResult _
    · split
      · exact hP.emptyResult _
      · split
        case h_1 occur q hq => exact hP.withBoost (hmatching (occur, q) (hq ▸ List.mem_singleton_self _)) _
        case h_2 => exact hP.mergeTerms hmatching _

theorem combineOptimized_of_allProhibited {cs : List (Occur × Query)}
    (h : allProhibited (significant cs) = true)
    (boost : Float32) : combineOptimized cs boost = insignificant 1 := by
  rw [combineOptimized_eq, if_pos h]

theorem optimizeClauses_mem {ix : Index} {clauses cs : List (Occur × Query)}
    (h : optimizeClauses ix clauses = .ok cs) : ∀ d ∈ cs, ∃ c ∈ clauses, c.2.optimize ix = .ok d.2 := by
  induction clauses generalizing cs with
  | nil =>
    cases h
    nofun
  | cons c rest ih =>
    rw [optimizeClauses] at h
    split at h
    · cases h
    rename_i r hr
    obtain ⟨others, ho, rfl⟩ := Lexeme.map_eq_ok.1 h
    refine List.forall_mem_cons.2 ⟨⟨c, List.mem_cons_self, hr⟩, fun d hd => ?_⟩
    obtain ⟨c, hc, hd⟩ := ih ho d hd
    exact ⟨c, List.mem_cons_of_mem _ hc, hd⟩

end combining

section leaves
variable {ix : Index} {doc : Nat}

theorem candidate_optimize_term (n : TermQuery) :
    (n.optimize ix).Candidate ix doc ↔ (term n).Candidate ix doc := by
  unfold TermQuery.optimize
  split
  case isTrue => rfl
  case isFalse h => exact iff_of_false id (mt Index.hasTerm_of_mem_termDocs h)

/-- Optional and prohibited terms the index does not have cannot matter. -/
private theorem alike_known {terms : List (Occur × Term)}
    (h : ¬ terms.any fun (occur, t) => occur == .required && !ix.hasTerm t) :
    Conditions.Alike (terms.map fun (occur, t) => (occur, doc ∈ ix.termDocs t))
      ((terms.filter fun (_, t) => ix.hasTerm t).map fun (occur, t) => (occur, doc ∈ ix.termDocs t)) := by
  refine Conditions.Alike.map_filter fun x hx hunknown => ⟨fun hr => ?_, fun hdoc => ?_⟩
  · refine h (List.any_eq_true.mpr ⟨x, hx, ?_⟩)
    simp only [Bool.and_eq_true, beq_iff_eq, Bool.not_eq_true']
    exact ⟨hr, hunknown⟩
  · have hknown : ix.hasTerm x.2 = true := Index.hasTerm_of_mem_termDocs hdoc
    exact Bool.noConfusion (hknown.symm.trans hunknown)

theorem candidate_optimize_multiTerm (n : MultiTermQuery) :
    (n.optimize ix).Candidate ix doc ↔ (multiTerm n).Candidate ix doc := by
  unfold MultiTermQuery.optimize
  dsimp only
  split
  case isTrue h =>
    obtain ⟨x, hx, hu⟩ := List.any_eq_true.mp h
    simp only [Bool.and_eq_true, beq_iff_eq, Bool.not_eq_true'] at hu
    refine iff_of_false id (Conditions.not_holds_of_required (List.mem_map_of_mem hx) hu.1 fun hdoc => ?_)
    rw [Index.hasTerm_of_mem_termDocs hdoc] at hu
    cases hu.2
  case isFalse h =>
    rw [Candidate, Candidate, Answers, (alike_known h).holds_iff]
    generalize (n.terms.filter fun (_, t) => ix.hasTerm t) = known
    split
    case isTrue hall =>
      refine iff_of_false id (Conditions.not_holds_of_all_prohibited (List.forall_mem_map.mpr ?_))
      simpa using hall
    case isFalse hall =>
      split
      case h_1 occur t =>
        refine (Conditions.holds_singleton ?_).symm
        simpa using hall
      case h_2 => rfl

theorem candidate_optimize_phrase (n : PhraseQuery) :
    (n.optimize ix).Candidate ix doc ↔ (phrase n).Candidate ix doc := by
  unfold PhraseQuery.optimize
  split
  case isTrue h =>
    obtain ⟨x, hx, hu⟩ := List.any_eq_true.mp h
    refine iff_of_false id fun hcandidate => ?_
    simp [Index.hasTerm_of_mem_termDocs (hcandidate.2 x hx)] at hu
  case isFalse h =>
    split
    case h_1 hterms => exact iff_of_false id fun hcandidate => hcandidate.1 hterms
    case h_2 t offset hterms => simp [Candidate, ofTerm, Answers, PhraseQuery.Candidate, hterms]
    case h_3 => rfl

end leaves

end Query

end TextSearch
