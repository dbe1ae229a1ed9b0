import TextSearch.Proofs.Execution

/-! Documents found are candidates: phrases are looked up by their terms alone. A candidate need not satisfy
the query, and below a prohibited sign a phrase can hide documents that do. -/
namespace TextSearch

theorem DocTable.mem_docs {α : Type} {table : DocTable α} {doc : Nat} : doc ∈ table.docs ↔ doc ∈ table := by
  rw [docs, Std.ExtTreeSet.mem_ofList, List.contains_iff_mem, Std.ExtTreeMap.mem_keys]

theorem Index.positions_getD_of_not_mem {ix : Index} {t : Term} {doc : Nat} (h : doc ∉ ix.termDocs t) :
    (ix.positions t).getD doc [] = [] := by
  rw [termDocs, DocTable.mem_docs] at h
  exact Std.ExtTreeMap.getD_eq_fallback h

namespace PhraseFrequency

/-- The rarest placement has no more positions than any other. -/
theorem rarest_le {placements : List Placement} {q : Placement} (hq : q ∈ placements) :
    ∃ p, placements[rarest placements]? = some p ∧ p.2.length ≤ q.2.length := by
  induction placements generalizing q with
  | nil => cases hq
  | cons p rest ih =>
    cases rest with
    | nil =>
      rw [List.mem_singleton] at hq
      exact ⟨p, rfl, hq ▸ Nat.le_refl _⟩
    | cons first others =>
      obtain ⟨r, hr, -⟩ := ih List.mem_cons_self
      have hmin : ∀ s ∈ first :: others, r.2.length ≤ s.2.length := fun s hs => by
        obtain ⟨r', hr', hle⟩ := ih hs
        rw [hr] at hr'
        cases hr'
        exact hle
      have hstep : rarest (p :: first :: others) =
          if p.2.length ≤ r.2.length then 0 else rarest (first :: others) + 1 := by simp only [rarest, hr]
      rw [hstep]
      by_cases hle : p.2.length ≤ r.2.length
      · refine ⟨p, by simp [hle], ?_⟩
        rcases List.mem_cons.mp hq with rfl | hq
        · exact Nat.le_refl _
        · exact Nat.le_trans hle (hmin q hq)
      · refine ⟨r, by simpa [hle] using hr, ?_⟩
        rcases List.mem_cons.mp hq with rfl | hq
        · omega
        · exact hmin q hq

theorem exactCount_eq_zero {placements : List Placement} {offset : UInt32} (h : (offset, []) ∈ placements) :
    exactCount placements = 0 := by
  obtain ⟨⟨start, positions⟩, hp, hle⟩ := rarest_le h
  have hnil : positions = [] := List.length_eq_zero_iff.mp (Nat.le_zero.mp hle)
  simp [exactCount, hp, hnil]

theorem arrangements_eq_nil {positions : List (List Nat)} (h : [] ∈ positions) :
    arrangements positions = [] := by
  induction positions with
  | nil => cases h
  | cons ps rest ih =>
    rcases List.mem_cons.mp h with rfl | h
    · rfl
    · simp [arrangements, ih h]

end PhraseFrequency

namespace PhraseQuery
variable {ix : Index} {doc : Nat} {n : PhraseQuery}

theorem frequency_of_terms_nil (h : n.terms = []) : ¬ n.frequency [] > 0 := by
  unfold frequency
  split
  · rw [h]
    decide
  · rw [if_pos (by simp [h])]
    decide

theorem frequency_of_term_missing {positions : List (List Nat)} (hlength : positions.length = n.terms.length)
    (h : [] ∈ positions) : ¬ n.frequency positions > 0 := by
  unfold frequency
  dsimp only
  split
  case isTrue =>
    have hzip : ∃ offset, (offset, []) ∈ (n.terms.map (·.2)).zip positions := by
      obtain ⟨i, hi, hnil⟩ := List.mem_iff_getElem.mp h
      have hterm : i < n.terms.length := hlength ▸ hi
      exact ⟨n.terms[i].2, List.mem_iff_getElem.mpr ⟨i, by simp; omega, by simp [hnil]⟩⟩
    obtain ⟨offset, hmem⟩ := hzip
    rw [PhraseFrequency.exactCount_eq_zero hmem]
    decide
  case isFalse =>
    split
    · decide
    · rw [PhraseFrequency.looseCount, PhraseFrequency.arrangements_eq_nil h, List.map_nil, List.foldl_nil]
      decide

/-- A phrase occurs only in documents that hold all of its terms. -/
theorem Occurs.candidate (h : n.Occurs ix doc) : n.Candidate ix doc := by
  unfold Occurs at h
  refine ⟨fun hnil => ?_, fun t ht => ?_⟩
  · rw [hnil] at h
    exact frequency_of_terms_nil hnil h
  · by_contra hdoc
    refine frequency_of_term_missing (by simp) ?_ h
    rw [List.map_map, List.mem_map]
    exact ⟨t, ht, Index.positions_getD_of_not_mem hdoc⟩

end PhraseQuery

namespace Query

/-- A document satisfies a query, with every phrase found in place. -/
abbrev Satisfied (ix : Index) (doc : Nat) (q : Query) : Prop := q.Answers ix (PhraseQuery.Occurs ix doc) doc

/-- A phrase stands in a query below an even number of prohibited signs, or below an odd one. -/
inductive PhraseAt (n : PhraseQuery) : Bool → Query → Prop
  | here : PhraseAt n true (phrase n)
  | clause {clauses : List (Occur × Query)} {m : Combination} {c : Occur × Query} {even : Bool} :
    c ∈ clauses → c.1 ≠ .prohibited → PhraseAt n even c.2 → PhraseAt n even (boolean clauses m)
  | excluded {clauses : List (Occur × Query)} {m : Combination} {c : Occur × Query} {even : Bool} :
    c ∈ clauses → c.1 = .prohibited → PhraseAt n even c.2 → PhraseAt n (!even) (boolean clauses m)

section polarity
variable {ix : Index} {doc : Nat} {strict loose : PhraseQuery → Prop}

/-- Conditions may grow where they are not prohibited and shrink where they are. -/
private theorem holds_of_polar {clauses : List (Occur × Query)} {p q : Query → Prop}
    (hkept : ∀ c ∈ clauses, c.1 ≠ .prohibited → p c.2 → q c.2)
    (hexcluded : ∀ c ∈ clauses, c.1 = .prohibited → q c.2 → p c.2)
    (h : Conditions.Holds (clauses.map fun c => (c.1, p c.2))) :
    Conditions.Holds (clauses.map fun c => (c.1, q c.2)) := by
  simp only [Conditions.Holds, Conditions.allRequired_map, Conditions.mandatory_map, Conditions.anyOptional_map,
    Conditions.anyProhibited_map] at h ⊢
  obtain ⟨hall, hsome, hnone⟩ := h
  refine ⟨fun c hc hr => hkept c hc (by simp [hr]) (hall c hc hr), ?_, ?_⟩
  · refine hsome.imp_right ?_
    rintro ⟨c, hc, ho, hp⟩
    exact ⟨c, hc, ho, hkept c hc (by simp [ho]) hp⟩
  · rintro ⟨c, hc, ho, hq⟩
    exact hnone ⟨c, hc, ho, hexcluded c hc ho hq⟩

/-- Reading more phrases as answered keeps an answer, if phrases below an odd number of prohibited signs are
read as before; it adds none, if all others are. -/
theorem Resolved.answers_polar {q : Query} (h : q.Resolved) (hle : ∀ n, strict n → loose n) :
    ((∀ n, PhraseAt n false q → loose n → strict n) → q.Answers ix strict doc → q.Answers ix loose doc) ∧
      ((∀ n, PhraseAt n true q → loose n → strict n) → q.Answers ix loose doc → q.Answers ix strict doc) := by
  induction h with
  | @boolean clauses m _ ih =>
    simp only [Answers, clauseConditions_eq_map]
    constructor
    · intro hodd
      exact holds_of_polar (fun c hc ho => (ih c hc).1 fun n hn => hodd n (.clause hc ho hn))
        fun c hc ho => (ih c hc).2 fun n hn => hodd n (.excluded hc ho hn)
    · intro heven
      exact holds_of_polar (fun c hc ho => (ih c hc).2 fun n hn => heven n (.clause hc ho hn))
        fun c hc ho => (ih c hc).1 fun n hn => heven n (.excluded hc ho hn)
  | term n => exact ⟨fun _ => id, fun _ => id⟩
  | multiTerm n => exact ⟨fun _ => id, fun _ => id⟩
  | phrase n => exact ⟨fun _ => hle n, fun heven => heven n .here⟩
  | insignificant b => exact ⟨fun _ => id, fun _ => id⟩
  | emptyResult b => exact ⟨fun _ => id, fun _ => id⟩

end polarity

/-- A resolved query finds just its candidates. A document that satisfies it is among them unless it holds all
terms of a phrase below an odd number of prohibited signs and the phrase does not occur in it. -/
theorem found_iff_candidate {q : Query} (hq : q.Resolved) (ix : Index) :
    ∃ r, q.execute ix none = (.ok (), r) ∧ r.matchedDocs = .ok r.docs ∧ ∀ doc,
      (doc ∈ r.docs ↔ q.Candidate ix doc) ∧
      (q.Satisfied ix doc → doc ∉ r.docs →
        ∃ n, PhraseAt n false q ∧ n.Candidate ix doc ∧ ¬ n.Occurs ix doc) := by
  obtain ⟨r, hr, hfinds⟩ := hq.execute_ok ix none
  have hmem (doc : Nat) : doc ∈ r.docs ↔ q.Candidate ix doc := by simpa using hfinds.mem_docs_iff doc
  refine ⟨r, hr, hfinds.resolved.matchedDocs_ok, fun doc => ⟨hmem doc, fun hsat hmissed => ?_⟩⟩
  by_contra hnone
  refine hmissed ((hmem doc).mpr ?_)
  refine (hq.answers_polar fun n => PhraseQuery.Occurs.candidate).1 (fun n hn hcandidate => ?_) hsat
  by_contra hoccurs
  exact hnone ⟨n, hn, hcandidate, hoccurs⟩

/-- Two words in the wrong order. -/
def reversedPair : Index :=
  ({ analyzer := .ofConfig .bare {} } : Index).add [("f", .keyword "b"), ("f", .keyword "a")]

/-- A word, but not the phrase it starts. -/
def wordWithoutPhrase : Query :=
  ofClauses [(.required, ofTerm (.inField "f" "a") 1),
    (.prohibited, phrase (.ofTerms [.inField "f" "a", .inField "f" "b"]))] 1

private theorem wordWithoutPhrase_resolved : wordWithoutPhrase.Resolved := by
  refine .boolean ?_
  simp only [List.forall_mem_cons, List.not_mem_nil, false_implies, implies_true, and_true]
  exact ⟨.term _, .phrase _⟩

private theorem reversedPair_not_occurs :
    ¬ PhraseQuery.Occurs reversedPair 0 (.ofTerms [.inField "f" "a", .inField "f" "b"]) := by
  unfold PhraseQuery.Occurs
  decide +kernel

theorem wordWithoutPhrase_found : wordWithoutPhrase.Resolved ∧
    ∃ r, wordWithoutPhrase.execute reversedPair none = (.ok (), r) ∧ r.matchedDocs = .ok r.docs ∧ ∀ doc,
      (doc ∈ r.docs ↔ wordWithoutPhrase.Candidate reversedPair doc) ∧
      (wordWithoutPhrase.Satisfied reversedPair doc → doc ∉ r.docs →
        ∃ n, PhraseAt n false wordWithoutPhrase ∧ n.Candidate reversedPair doc ∧
          ¬ n.Occurs reversedPair doc) :=
  ⟨wordWithoutPhrase_resolved, found_iff_candidate wordWithoutPhrase_resolved reversedPair⟩

/-- A document is missed for a phrase that it does not contain. -/
theorem satisfied_not_found : wordWithoutPhrase.Resolved ∧ wordWithoutPhrase.Satisfied reversedPair 0 ∧
    (wordWithoutPhrase.execute reversedPair none).1.isOk = true ∧
    0 ∉ (wordWithoutPhrase.execute reversedPair none).2.docs := by
  have hword : 0 ∈ reversedPair.termDocs (.inField "f" "a") := by decide +kernel
  refine ⟨wordWithoutPhrase_resolved, ?_, by decide +kernel, by decide +kernel⟩
  simp [wordWithoutPhrase, ofClauses, ofTerm, Answers, clauseConditions, Conditions.Holds, hword,
    reversedPair_not_occurs]

end Query

end TextSearch
