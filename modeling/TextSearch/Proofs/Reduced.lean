import TextSearch.Proofs.Meaning
import TextSearch.Proofs.Leaves

/-! The form of optimized queries. They match nothing as a whole, or all that is left in them can matter: terms
the index knows, and nodes for several terms or clauses that hold at least two of them. -/
namespace TextSearch.Query

/-- Every term is known, and every node for several parts has at least two, not all of them prohibited. -/
inductive Reduced (ix : Index) : Query → Prop
  | boolean {clauses : List (Occur × Query)} {n : Combination} : 2 ≤ clauses.length →
    (∃ c ∈ clauses, c.1 ≠ .prohibited) → (∀ c ∈ clauses, Reduced ix c.2) → Reduced ix (boolean clauses n)
  | term {n : TermQuery} : ix.hasTerm n.term = true → Reduced ix (term n)
  | multiTerm {n : MultiTermQuery} : 2 ≤ n.terms.length → (∃ t ∈ n.terms, t.1 ≠ .prohibited) →
    (∀ t ∈ n.terms, ix.hasTerm t.2 = true) → Reduced ix (multiTerm n)
  | phrase {n : PhraseQuery} : 2 ≤ n.terms.length → (∀ t ∈ n.terms, ix.hasTerm t.1 = true) →
    Reduced ix (phrase n)

/-- A query without any matches, or a reduced one. -/
inductive Optimized (ix : Index) : Query → Prop
  | insignificant (b : Float32) : Optimized ix (insignificant b)
  | emptyResult (b : Float32) : Optimized ix (emptyResult b)
  | reduced {q : Query} : q.Reduced ix → Optimized ix q

variable {ix : Index} {q r : Query} {cs kept : List (Occur × Query)} {ts : List SignedTerm}

theorem Reduced.withBoost (h : q.Reduced ix) (b : Float32) : (q.withBoost b).Reduced ix := by
  cases h with
  | boolean hlength hsign hc => exact .boolean hlength hsign hc
  | term ht => exact .term ht
  | multiTerm hlength hsign ht => exact .multiTerm hlength hsign ht
  | phrase hlength ht => exact .phrase hlength ht

theorem Optimized.reduced_of (h : q.Optimized ix) (hs : q.isInsignificant = false)
    (he : q.isEmptyResult = false) : q.Reduced ix := by
  cases h with
  | insignificant => cases hs
  | emptyResult => cases he
  | reduced hr => exact hr

section gathering

/-- The terms of a reduced clause are known. There are some, and one is not prohibited unless the clause is. -/
theorem Reduced.signedTerms {c : Occur × Query} (h : c.2.Reduced ix) (hts : signedTerms? c = some ts) :
    (∀ t ∈ ts, ix.hasTerm t.term = true) ∧ ts ≠ [] ∧
      (c.1 ≠ .prohibited → ∃ t ∈ ts, t.occur ≠ .prohibited) := by
  obtain ⟨occur, q⟩ := c
  cases h with
  | boolean => cases hts
  | phrase => cases hts
  | term ht =>
    cases hts
    exact ⟨List.forall_mem_singleton.2 ht, List.cons_ne_nil _ _, fun ho => ⟨_, List.mem_singleton_self _, ho⟩⟩
  | @multiTerm n hlength hsign ht =>
    have hne : n.terms ≠ [] := by
      intro hnil
      simp [hnil] at hlength
    simp only [signedTerms?] at hts
    split at hts
    · split at hts
      · cases hts
        obtain ⟨t, hm, ho⟩ := hsign
        exact ⟨List.forall_mem_map.2 ht, by simpa using hne, fun _ => ⟨_, List.mem_map_of_mem hm, ho⟩⟩
      · cases hts
    · split at hts
      · cases hts
        refine ⟨List.forall_mem_map.2 ht, by simpa using hne, fun ho => ?_⟩
        obtain ⟨t, hm, -⟩ := hsign
        exact ⟨_, List.mem_map_of_mem hm, ho⟩
      · cases hts

/-- What gathering makes of reduced clauses: the terms taken out of them and the clauses left. -/
structure Gathered (ix : Index) (cs others : List (Occur × Query)) (ts : List SignedTerm) : Prop where
  reduced : ∀ c ∈ others, c.2.Reduced ix
  known : ∀ t ∈ ts, ix.hasTerm t.term = true
  length_le : cs.length ≤ others.length + ts.length
  sign : (∃ c ∈ cs, c.1 ≠ .prohibited) → (∃ c ∈ others, c.1 ≠ .prohibited) ∨ ∃ t ∈ ts, t.occur ≠ .prohibited

theorem gathered (h : ∀ c ∈ cs, c.2.Reduced ix) :
    Gathered ix cs (cs.filter fun c => (signedTerms? c).isNone) (cs.filterMap signedTerms?).flatten := by
  induction cs with
  | nil => exact ⟨nofun, nofun, Nat.le_refl _, fun ⟨c, hc, _⟩ => by cases hc⟩
  | cons c rest ih =>
    obtain ⟨hc, hrest⟩ := List.forall_mem_cons.1 h
    obtain ⟨hreduced, hknown, hlength, hsign⟩ := ih hrest
    cases hts : signedTerms? c with
    | none =>
      rw [List.filter_cons_of_pos (by simp [hts]), List.filterMap_cons_none hts]
      refine ⟨List.forall_mem_cons.2 ⟨hc, hreduced⟩, hknown, ?_, ?_⟩
      · simp only [List.length_cons]
        omega
      · rintro ⟨d, hd, ho⟩
        rcases List.mem_cons.1 hd with rfl | hd
        · exact .inl ⟨d, List.mem_cons_self, ho⟩
        · refine (hsign ⟨d, hd, ho⟩).imp_left ?_
          rintro ⟨e, he, ho⟩
          exact ⟨e, List.mem_cons_of_mem _ he, ho⟩
    | some ts =>
      obtain ⟨hkt, hne, hst⟩ := hc.signedTerms hts
      have hpos := List.length_pos_iff.2 hne
      rw [List.filter_cons_of_neg (by simp [hts]), List.filterMap_cons_some hts, List.flatten_cons]
      refine ⟨hreduced, List.forall_mem_append.2 ⟨hkt, hknown⟩, ?_, ?_⟩
      · simp only [List.length_cons, List.length_append]
        omega
      · rintro ⟨d, hd, ho⟩
        rcases List.mem_cons.1 hd with rfl | hd
        · obtain ⟨t, ht, ho⟩ := hst ho
          exact .inr ⟨t, List.mem_append_left _ ht, ho⟩
        · refine (hsign ⟨d, hd, ho⟩).imp_right ?_
          rintro ⟨t, ht, ho⟩
          exact ⟨t, List.mem_append_right _ ht, ho⟩

/-- Terms that are not prohibited fit in one clause that is not prohibited either, if in any; no terms need
none. -/
theorem keptClause_reduced (hknown : ∀ t ∈ ts, ix.hasTerm t.term = true)
    (hsign : ∀ t ∈ ts, t.occur ≠ .prohibited) (h : keptClause? ts = some kept) :
    (∀ c ∈ kept, c.2.Reduced ix ∧ c.1 ≠ .prohibited) ∧ kept.length = min 1 ts.length := by
  unfold keptClause? at h
  split at h
  · cases h
    exact ⟨nofun, rfl⟩
  · rename_i t
    cases h
    refine ⟨List.forall_mem_singleton.2 ⟨.term (hknown t List.mem_cons_self), ?_⟩, rfl⟩
    exact hsign t List.mem_cons_self
  · rename_i t rest hlong
    split at h
    · cases h
      have hlength : 2 ≤ (t :: rest).length := by
        cases rest with
        | nil => exact (hlong rfl).elim
        | cons => simp
      refine ⟨List.forall_mem_singleton.2 ⟨.multiTerm ?_ ?_ ?_, ?_⟩, by simp⟩
      · rwa [List.length_map]
      · exact ⟨(t.occur, t.term), List.mem_map_of_mem List.mem_cons_self, hsign t List.mem_cons_self⟩
      · exact List.forall_mem_map.2 hknown
      · dsimp only
        split <;> nofun
    · cases h

theorem prohibitedClause_reduced (hknown : ∀ t ∈ ts, ix.hasTerm t.term = true) :
    (∀ c ∈ prohibitedClause ts, c.2.Reduced ix) ∧ (prohibitedClause ts).length = min 1 ts.length := by
  unfold prohibitedClause
  split
  · exact ⟨nofun, rfl⟩
  · exact ⟨List.forall_mem_singleton.2 (.term (hknown _ List.mem_cons_self)), rfl⟩
  · rename_i hnil hone
    obtain ⟨t, t', rest, rfl⟩ : ∃ t t' rest, ts = t :: t' :: rest := by
      rcases ts with _ | ⟨t, _ | ⟨t', rest⟩⟩
      · exact absurd rfl hnil
      · exact absurd rfl (hone t)
      · exact ⟨t, t', rest, rfl⟩
    refine ⟨List.forall_mem_singleton.2 (.multiTerm (by simp) ?_ ?_), by simp⟩
    · exact ⟨(.optional, t.term), List.mem_map_of_mem List.mem_cons_self, nofun⟩
    · exact List.forall_mem_map.2 hknown

theorem sameBoosts_of_keptClause (h : keptClause? ts = some kept) : sameBoosts ts = true := by
  unfold keptClause? at h
  split at h
  · rfl
  · rfl
  · split at h
    · assumption
    · cases h

/-- The terms that stay apart from the other clauses make at least one clause of each kind they are of. -/
theorem regrouped_reduced {others : List (Occur × Query)} (hreduced : ∀ c ∈ others, c.2.Reduced ix)
    (hknown : ∀ t ∈ ts, ix.hasTerm t.term = true) (hlength : 2 ≤ others.length + ts.length)
    (hts : ts ≠ []) (hsign : (∃ c ∈ others, c.1 ≠ .prohibited) ∨ ∃ t ∈ ts, t.occur ≠ .prohibited)
    (hapart : others = [] → sameBoosts ts = false)
    (hkept : keptClause? (ts.filter (·.occur != .prohibited)) = some kept) (b : Float32) :
    (ofClauses (others ++ kept ++ prohibitedClause (ts.filter (·.occur == .prohibited))) b).Reduced ix := by
  obtain ⟨hk, hklength⟩ := keptClause_reduced (fun t ht => hknown t (List.mem_filter.1 ht).1)
    (fun t ht => by simpa using (List.mem_filter.1 ht).2) hkept
  have hprohibited : ∀ t ∈ ts.filter (·.occur == .prohibited), ix.hasTerm t.term = true :=
    fun t ht => hknown t (List.mem_filter.1 ht).1
  obtain ⟨hp, hplength⟩ := prohibitedClause_reduced hprohibited
  have hmem : ∀ t ∈ ts, t.occur ≠ .prohibited → t ∈ ts.filter (·.occur != .prohibited) := by
    intro t ht ho
    exact List.mem_filter.2 ⟨ht, by simpa using ho⟩
  have hsplit : ts.length =
      (ts.filter (·.occur == .prohibited)).length + (ts.filter (·.occur != .prohibited)).length :=
    List.length_eq_length_filter_add _
  -- Without other clauses the boosts differ, so that some terms are prohibited and some are not.
  have hboth : others = [] → ts.filter (·.occur != .prohibited) ≠ [] ∧ ts.filter (·.occur == .prohibited) ≠ [] := by
    intro hnil
    refine ⟨fun hno => ?_, fun hno => ?_⟩
    · rcases hsign with ⟨c, hc, -⟩ | ⟨t, ht, ho⟩
      · rw [hnil] at hc
        cases hc
      · have hm := hmem t ht ho
        rw [hno] at hm
        cases hm
    · have hall : ts.filter (·.occur != .prohibited) = ts := by
        rw [List.filter_eq_self]
        intro t ht
        simpa using List.filter_eq_nil_iff.1 hno t ht
      rw [hall] at hkept
      have hsame := sameBoosts_of_keptClause hkept
      rw [hapart hnil] at hsame
      cases hsame
  refine .boolean ?_ ?_ ?_
  · rw [List.length_append, List.length_append, hklength, hplength]
    cases others with
    | nil =>
      obtain ⟨hkne, hpne⟩ := hboth rfl
      have hkpos := List.length_pos_iff.2 hkne
      have hppos := List.length_pos_iff.2 hpne
      omega
    | cons c rest =>
      have hpos := List.length_pos_iff.2 hts
      simp only [List.length_cons]
      omega
  · rcases hsign with ⟨c, hc, ho⟩ | ⟨t, ht, ho⟩
    · exact ⟨c, List.mem_append_left _ (List.mem_append_left _ hc), ho⟩
    · have hpos := List.length_pos_of_mem (hmem t ht ho)
      obtain ⟨c, hc⟩ : ∃ c, c ∈ kept := List.exists_mem_of_length_pos (by omega)
      exact ⟨c, List.mem_append_left _ (List.mem_append_right _ hc), (hk c hc).2⟩
  · intro c hc
    simp only [List.mem_append] at hc
    rcases hc with (hc | hc) | hc
    · exact hreduced c hc
    · exact (hk c hc).1
    · exact hp c hc

/-- Gathering terms leaves at least two parts that are not all prohibited. -/
theorem mergeTerms_reduced (h : ∀ c ∈ cs, c.2.Reduced ix) (hlength : 2 ≤ cs.length)
    (hsign : ∃ c ∈ cs, c.1 ≠ .prohibited) (b : Float32) : (mergeTerms cs b).Reduced ix := by
  have hgathered := gathered h
  unfold mergeTerms
  generalize (cs.filterMap signedTerms?).flatten = terms at hgathered ⊢
  generalize (cs.filter fun c => (signedTerms? c).isNone) = others at hgathered ⊢
  obtain ⟨hreduced, hknown, hle, hsigns⟩ := hgathered
  replace hsigns := hsigns hsign
  dsimp only
  split
  · exact .boolean hlength hsign h
  rename_i first rest
  split
  · rename_i hflat
    simp only [Bool.and_eq_true, List.isEmpty_iff] at hflat
    rw [hflat.1] at hle hsigns
    refine .multiTerm ?_ ?_ (List.forall_mem_map.2 hknown)
    · rw [List.length_map]
      simp only [List.length_nil] at hle
      omega
    · obtain ⟨c, hc, -⟩ | ⟨t, ht, ho⟩ := hsigns
      · cases hc
      · exact ⟨_, List.mem_map_of_mem ht, ho⟩
  rename_i hflat
  split
  · exact .boolean hlength hsign h
  rename_i hkept
  refine regrouped_reduced hreduced hknown (by omega) (List.cons_ne_nil _ _) hsigns ?_ hkept b
  rintro rfl
  simpa using hflat

end gathering

/-- A combination of optimized clauses is optimized. -/
theorem combineOptimized_optimized (h : ∀ c ∈ cs, c.2.Optimized ix) (b : Float32) :
    (combineOptimized cs b).Optimized ix := by
  have hreduced : ∀ c ∈ matching cs, c.2.Reduced ix := by
    intro c hc
    obtain ⟨hc, he⟩ := List.mem_filter.1 hc
    obtain ⟨hc, hs⟩ := List.mem_filter.1 hc
    exact (h c hc).reduced_of (by simpa using hs) (by simpa using he)
  rw [combineOptimized_eq]
  split
  · exact .insignificant 1
  split
  · exact .emptyResult 1
  split
  · exact .emptyResult 1
  rename_i hsign
  split
  · rename_i occur query hq
    rw [hq] at hreduced
    exact .reduced ((hreduced _ (List.mem_singleton_self _)).withBoost _)
  · rename_i hlong
    have hsign : ∃ c ∈ matching cs, c.1 ≠ .prohibited := by
      rw [allProhibited_iff] at hsign
      simpa using hsign
    have hlength : 2 ≤ (matching cs).length := by
      rcases hm : matching cs with _ | ⟨c, _ | ⟨d, rest⟩⟩
      · simp [hm] at hsign
      · exact absurd hm (hlong c.1 c.2)
      · simp
    exact .reduced (mergeTerms_reduced hreduced hlength hsign b)

theorem optimized_term (n : TermQuery) : (n.optimize ix).Optimized ix := by
  unfold TermQuery.optimize
  split
  · exact .reduced (.term ‹_›)
  · exact .emptyResult 1

theorem optimized_multiTerm (n : MultiTermQuery) : (n.optimize ix).Optimized ix := by
  unfold MultiTermQuery.optimize
  dsimp only
  generalize hfilter : n.terms.filter _ = known
  have hknown : ∀ t ∈ known, ix.hasTerm t.2 = true := by
    rw [← hfilter]
    exact fun t ht => (List.mem_filter.1 ht).2
  split
  · exact .emptyResult 1
  split
  · exact .emptyResult 1
  rename_i hsign
  split
  · exact .reduced (.term (hknown _ (List.mem_singleton_self _)))
  · rename_i hlong
    have hsign : ∃ t ∈ known, t.1 ≠ .prohibited := by simpa using hsign
    refine .reduced (.multiTerm ?_ hsign hknown)
    rcases known with _ | ⟨t, _ | ⟨t', rest⟩⟩
    · simp at hsign
    · exact absurd rfl (hlong t.1 t.2)
    · simp

theorem optimized_phrase (n : PhraseQuery) : (n.optimize ix).Optimized ix := by
  unfold PhraseQuery.optimize
  split
  · exact .emptyResult 1
  rename_i hall
  have hknown : ∀ t ∈ n.terms, ix.hasTerm t.1 = true := by simpa using hall
  split
  · exact .emptyResult 1
  · rename_i t offset hone
    rw [hone] at hknown
    exact .reduced (.term (hknown _ (List.mem_singleton_self _)))
  · rename_i hnil hlong
    refine .reduced (.phrase ?_ hknown)
    rcases hterms : n.terms with _ | ⟨t, _ | ⟨t', rest⟩⟩
    · exact absurd hterms hnil
    · exact absurd hterms (hlong t.1 t.2)
    · simp

theorem optimized_of_optimize (h : q.optimize ix = .ok r) : r.Optimized ix := by
  induction q using clauseInduction generalizing r with
  | boolean clauses n ih =>
    obtain ⟨cs, hcs, rfl⟩ := Lexeme.map_eq_ok.1 h
    apply combineOptimized_optimized
    intro d hd
    obtain ⟨c, hc, hr⟩ := optimizeClauses_mem hcs d hd
    exact ih c hc hr
  | term n =>
    cases h
    exact optimized_term n
  | multiTerm n =>
    cases h
    exact optimized_multiTerm n
  | phrase n =>
    cases h
    exact optimized_phrase n
  | insignificant b =>
    cases h
    exact .insignificant b
  | emptyResult b =>
    cases h
    exact .emptyResult b
  | wildcard | fuzzy | range | rawTerm | rawPhrase | rawFuzzy => cases h

/-- Optimizing a resolved query gives a query without any matches or a reduced one. -/
theorem optimize_reduces (hq : q.Resolved) (ix : Index) : ∃ r, q.optimize ix = .ok r ∧ r.Optimized ix := by
  obtain ⟨r, hr, -⟩ := hq.optimize_ok ix none
  exact ⟨r, hr, optimized_of_optimize hr⟩

theorem nestedExclusion_reduces : nestedExclusion.Resolved ∧
    ∃ r, nestedExclusion.optimize threeDocuments = .ok r ∧ r.kindName = "boolean" ∧
      r.Optimized threeDocuments := by
  obtain ⟨r, hr, hoptimized⟩ := optimize_reduces nestedExclusion_resolved threeDocuments
  have hkind : (nestedExclusion.optimize threeDocuments).map kindName = .ok "boolean" := by decide +kernel
  rw [hr] at hkind
  exact ⟨nestedExclusion_resolved, r, hr, Except.ok.inj hkind, hoptimized⟩

end TextSearch.Query
