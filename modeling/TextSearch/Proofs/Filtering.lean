import TextSearch.Proofs.Meaning
import TextSearch.Proofs.Weights

/-! A filter may as well be applied to what an execution finds as during it, and only documents that are found
have a score. -/
namespace TextSearch

namespace TermQuery
variable {ix : Index} {filter : Option DocSet} {n : TermQuery} {doc : Nat}

/-- Frequencies are kept for the documents found. -/
theorem getElem?_frequencies_find (h : doc ∉ (n.find ix filter).docs) :
    (n.find ix filter).frequencies[doc]? = none := by
  have hfound : (n.find ix filter).docs.contains doc = false := by
    rwa [← Bool.not_eq_true, Std.ExtTreeSet.contains_iff_mem]
  change ((ix.frequencies n.term).filter fun d _ => (n.find ix filter).docs.contains d)[doc]? = none
  rw [Std.ExtTreeMap.getElem?_filter', Option.filter_eq_none_iff]
  intro _ _
  rw [hfound]
  exact Bool.false_ne_true

theorem score_of_not_found (h : n.frequencies[doc]? = none) : n.score ix doc = .ok 0 := by
  rw [score, h]

end TermQuery

namespace PhraseQuery
variable {ix : Index} {filter : Option DocSet} {n : PhraseQuery} {doc : Nat}

theorem getElem?_frequencies_find (h : doc ∉ (n.find ix filter).docs) :
    (n.find ix filter).frequencies[doc]? = none := by
  change doc ∉ n.candidates ix filter at h
  apply Std.ExtTreeMap.getElem?_ofList_of_contains_eq_false
  rw [Bool.eq_false_iff, ne_eq, List.contains_iff_mem, List.mem_map]
  rintro ⟨⟨d, frequency⟩, hmem, rfl⟩
  obtain ⟨d', hd', hsome⟩ := List.mem_filterMap.mp hmem
  obtain ⟨-, hpair⟩ := Option.ite_none_right_eq_some.mp hsome
  cases hpair
  exact h (Std.ExtTreeSet.mem_toList.mp hd')

theorem score_of_not_found (h : n.frequencies[doc]? = none) : n.score ix doc = .ok 0 := by
  rw [score, h]

end PhraseQuery

namespace Query

/-- Documents that were not found score nothing, whatever the index holds by now. -/
def ScoresFound (q : Query) : Prop := ∀ ix doc, doc ∉ q.docs → q.score ix doc = .ok 0

/-- After an execution with any weights only documents that were found score. -/
theorem Resolved.executeGiven_scoresFound {q : Query} (h : q.Resolved) (ix : Index) (filter : Option DocSet)
    (given : Option Float32) : (q.executeGiven ix filter given).2.ScoresFound := by
  intro ix' doc hdoc
  cases h with
  | @boolean clauses n hres =>
    obtain ⟨handed, hrun⟩ := (Resolved.boolean hres).executeGiven_boolean ix given
    rw [hrun] at hdoc ⊢
    exact if_neg hdoc
  | term n => exact TermQuery.score_of_not_found (TermQuery.getElem?_frequencies_find hdoc)
  | multiTerm n => exact if_neg hdoc
  | phrase n => exact PhraseQuery.score_of_not_found (PhraseQuery.getElem?_frequencies_find hdoc)
  | insignificant b => rfl
  | emptyResult b => rfl

/-- Executing without a filter finds the candidates, and with a filter just those among them that are in the
filter. Documents that an execution does not find score nothing. -/
theorem execute_filtered {q : Query} (hq : q.Resolved) (ix : Index) (allowed : DocSet) :
    ∃ all kept, q.execute ix none = (.ok (), all) ∧ q.execute ix (some allowed) = (.ok (), kept) ∧
      all.matchedDocs = .ok all.docs ∧ kept.matchedDocs = .ok (all.docs ∩ allowed) ∧
      (∀ doc, doc ∈ all.docs ↔ q.Candidate ix doc) ∧
      (∀ doc, doc ∉ all.docs → all.score ix doc = .ok 0) ∧
      ∀ doc, doc ∉ all.docs ∩ allowed → kept.score ix doc = .ok 0 := by
  obtain ⟨all, hall, hfoundAll⟩ := hq.execute_ok ix none
  obtain ⟨kept, hkept, hfoundKept⟩ := hq.execute_ok ix (some allowed)
  have hscores {filter : Option DocSet} {r : Query} (hr : q.execute ix filter = (.ok (), r)) : r.ScoresFound := by
    have hscored := hq.executeGiven_scoresFound ix filter none
    rwa [show q.executeGiven ix filter none = (.ok (), r) from hr] at hscored
  have hdocs : kept.docs = all.docs ∩ allowed := by
    apply Std.ExtTreeSet.ext_mem
    intro doc
    rw [hfoundKept.mem_docs_iff, Std.ExtTreeSet.mem_inter_iff, hfoundAll.mem_docs_iff]
    simp [DocSet.Passes, and_comm]
  refine ⟨all, kept, hall, hkept, hfoundAll.resolved.matchedDocs_ok, ?_, fun doc => ?_, ?_, ?_⟩
  · rw [hfoundKept.resolved.matchedDocs_ok, hdocs]
  · simpa using hfoundAll.mem_docs_iff doc
  · exact hscores hall ix
  · rw [← hdocs]
    exact hscores hkept ix

/-- Every other document. -/
def alternateDocuments : DocSet := .ofList [0, 2]

theorem nestedExclusion_filtered : nestedExclusion.Resolved ∧
    ∃ all kept, nestedExclusion.execute threeDocuments none = (.ok (), all) ∧
      nestedExclusion.execute threeDocuments (some alternateDocuments) = (.ok (), kept) ∧
      all.matchedDocs = .ok all.docs ∧ kept.matchedDocs = .ok (all.docs ∩ alternateDocuments) ∧
      (∀ doc, doc ∈ all.docs ↔ nestedExclusion.Candidate threeDocuments doc) ∧
      (∀ doc, doc ∉ all.docs → all.score threeDocuments doc = .ok 0) ∧
      ∀ doc, doc ∉ all.docs ∩ alternateDocuments → kept.score threeDocuments doc = .ok 0 :=
  ⟨nestedExclusion_resolved, execute_filtered nestedExclusion_resolved threeDocuments alternateDocuments⟩

end Query

end TextSearch
