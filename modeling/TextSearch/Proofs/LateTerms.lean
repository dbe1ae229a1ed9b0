import TextSearch.Proofs.Positions
import TextSearch.Query.Score

/-! Terms that are added to a list behind its weights. The weights are those of the terms there were when they were
created, and a term that came later has none until they are created again. -/
namespace TextSearch.MultiTermQuery

/-- A call on a list of terms. -/
inductive Call where
  | addTerm (occur : Occur) (t : Term)
  | setBoost (boost : Float32)
  | createWeight (ix : Index)
  | initWeight (ix : Index)
  | normalize (norm : Float32)
  | execute (ix : Index) (filter : Option DocSet)
  | reset
  | score (ix : Index) (doc : Nat)

namespace Call

/-- The query behind a call. A score is only read. -/
def run (q : Query) : Call → Query
  | addTerm occur t =>
    match q with
    | .multiTerm n => .multiTerm (n.addTerm occur t)
    | q => q
  | setBoost boost => q.withBoost boost
  | createWeight ix => (q.createWeight ix).2
  | initWeight ix => (q.initWeight ix).2
  | normalize norm => (q.normalize norm).2
  | execute ix filter => (q.execute ix filter).2
  | reset => q.reset
  | score _ _ => q

/-- How many terms were added since the weights were created, if there are weights. -/
def late (late : Option Nat) : Call → Option Nat
  | addTerm _ _ => late.map (· + 1)
  | createWeight _ => some 0
  | initWeight _ | execute _ _ => some (late.getD 0)
  | reset => none
  | setBoost _ | normalize _ | score _ _ => late

end Call

/-- The last of the terms have no weight, or no term has one and nothing was found. -/
def Lags (n : MultiTermQuery) : Option Nat → Prop
  | none => n.weights = none ∧ n.docs = ∅
  | some late => ∃ ws, n.weights = some ws ∧ ws.length + late = n.terms.length

section lags
variable {n : MultiTermQuery} {late : Option Nat}

theorem lags_newWeights (n : MultiTermQuery) (ix : Index) (change : Weight → Weight) :
    { n with weights := some ((n.newWeights ix).map change) }.Lags (some 0) :=
  ⟨_, rfl, by simp [newWeights]⟩

theorem Lags.addTerm (h : n.Lags late) (occur : Occur) (t : Term) :
    (n.addTerm occur t).Lags (late.map (· + 1)) := by
  cases late with
  | none => exact h
  | some late =>
    obtain ⟨ws, hws, hlength⟩ := h
    refine ⟨ws, hws, ?_⟩
    rw [MultiTermQuery.addTerm, List.length_append, ← hlength]
    rfl

theorem Lags.initWeight (h : n.Lags late) (ix : Index) :
    ∃ n' : MultiTermQuery, ((Query.multiTerm n).initWeight ix).2 = .multiTerm n' ∧ n'.Lags (some (late.getD 0)) := by
  cases late with
  | none =>
    have hweight : (Query.multiTerm n).hasWeight = false := by rw [Query.hasWeight, h.1]; rfl
    exact ⟨_, by rw [Query.initWeight, hweight]; rfl, n.lags_newWeights ix _⟩
  | some late =>
    have hweight : (Query.multiTerm n).hasWeight = true := by
      obtain ⟨ws, hws, -⟩ := h
      rw [Query.hasWeight, hws]
      rfl
    exact ⟨n, by rw [Query.initWeight, hweight]; rfl, h⟩

theorem Lags.weigh (h : n.Lags late) (ix : Index) : (n.weigh ix none).Lags (some (late.getD 0)) := by
  cases late with
  | none =>
    rw [MultiTermQuery.weigh, h.1]
    exact n.lags_newWeights ix _
  | some late =>
    obtain ⟨ws, hws, hlength⟩ := h
    rw [MultiTermQuery.weigh, hws]
    exact ⟨ws, hws, hlength⟩

theorem Lags.normalize (h : n.Lags late) (norm : Float32) :
    ∃ n' : MultiTermQuery, ((Query.multiTerm n).normalize norm).2 = .multiTerm n' ∧ n'.Lags late := by
  cases late with
  | none => exact ⟨n, by rw [Query.normalize, h.1], h⟩
  | some late =>
    obtain ⟨ws, hws, hlength⟩ := h
    exact ⟨_, by rw [Query.normalize, hws], _, rfl, by rw [List.length_map, hlength]⟩

/-- One call keeps account of the terms without weights. -/
theorem Lags.run (h : n.Lags late) (call : Call) :
    ∃ n' : MultiTermQuery, call.run (.multiTerm n) = .multiTerm n' ∧ n'.Lags (call.late late) := by
  cases call with
  | addTerm occur t => exact ⟨_, rfl, h.addTerm occur t⟩
  | setBoost boost => exact ⟨_, rfl, by cases late <;> exact h⟩
  | createWeight ix =>
    refine ⟨_, rfl, ?_⟩
    have hnew := n.lags_newWeights ix id
    rwa [List.map_id] at hnew
  | initWeight ix => exact h.initWeight ix
  | normalize norm => exact h.normalize norm
  | execute ix filter => exact ⟨_, rfl, h.weigh ix⟩
  | reset => exact ⟨_, rfl, rfl, rfl⟩
  | score ix doc => exact ⟨n, rfl, h⟩

theorem Lags.calls (h : n.Lags late) (calls : List Call) :
    ∃ n' : MultiTermQuery, calls.foldl Call.run (.multiTerm n) = .multiTerm n' ∧
      n'.Lags (calls.foldl Call.late late) := by
  induction calls generalizing n late with
  | nil => exact ⟨n, rfl, h⟩
  | cons call rest ih =>
    obtain ⟨n', hn', h'⟩ := h.run call
    rw [List.foldl_cons, List.foldl_cons, hn']
    exact ih h'

end lags

/-- A term that counts and that a document holds has no weight. -/
def Unweighted (doc : Nat) (terms : List (Occur × Term)) (ws : List Weight) (frequencies : List (DocTable Nat)) :
    Prop :=
  ∃ i c, ws.length ≤ i ∧ terms[i]? = some c ∧ c.1 ≠ .prohibited ∧ (frequencies[i]?.bind (·[doc]?)).isSome = true

section score
variable {n : MultiTermQuery} {late : Option Nat} {ix : Index} {doc : Nat} {terms : List (Occur × Term)}
  {ws : List Weight} {frequencies : List (DocTable Nat)} {e : Error}

theorem unweighted_cons {c : Occur × Term} : Unweighted doc (c :: terms) ws frequencies ↔
    (ws = [] ∧ c.1 ≠ .prohibited ∧ (frequencies.head?.bind (·[doc]?)).isSome = true) ∨
      Unweighted doc terms ws.tail frequencies.tail := by
  constructor
  · rintro ⟨i, d, hi, hd, hsign, hfrequency⟩
    cases i with
    | zero =>
      cases hd
      rw [← List.head?_eq_getElem?] at hfrequency
      exact .inl ⟨List.length_eq_zero_iff.1 (Nat.le_zero.1 hi), hsign, hfrequency⟩
    | succ i =>
      refine .inr ⟨i, d, ?_, hd, hsign, by rwa [List.getElem?_tail]⟩
      rw [List.length_tail]
      omega
  · rintro (⟨rfl, hsign, hfrequency⟩ | ⟨i, d, hi, hd, hsign, hfrequency⟩)
    · exact ⟨0, c, Nat.le_refl 0, rfl, hsign, by rwa [← List.head?_eq_getElem?]⟩
    · refine ⟨i + 1, d, ?_, hd, hsign, by rwa [List.getElem?_tail] at hfrequency⟩
      rw [List.length_tail] at hi
      omega

theorem tally_eq_error_iff {t : Tally} : tally ix doc t terms ws frequencies = .error e ↔
    e = missingWeight ∧ Unweighted doc terms ws frequencies := by
  induction terms generalizing t ws frequencies with
  | nil =>
    refine iff_of_false nofun ?_
    rintro ⟨-, i, c, -, hc, -⟩
    cases hc
  | cons c terms ih =>
    rw [unweighted_cons]
    unfold tally
    split
    · rename_i hsign
      rw [ih, or_iff_right fun hfirst => hfirst.2.1 hsign]
    · rename_i hsign
      split
      · rename_i hnone
        rw [ih, or_iff_right fun hfirst => by simp [hnone] at hfirst]
      · rename_i frequency hsome
        split
        · rename_i hhead
          have hfirst : ws = [] ∧ c.1 ≠ .prohibited ∧ (frequencies.head?.bind (·[doc]?)).isSome = true :=
            ⟨List.head?_eq_none_iff.1 hhead, hsign, by rw [hsome]; rfl⟩
          rw [and_iff_left (.inl hfirst)]
          exact ⟨fun h => (Except.error.inj h).symm, fun h => by rw [h]⟩
        · rename_i w hhead
          rw [ih, or_iff_right fun hfirst => by simp [hfirst.1] at hhead]

/-- A list of terms has no score for a document where a term that the document holds has no weight. -/
theorem Lags.score_eq_error_iff (h : n.Lags late) : (Query.multiTerm n).score ix doc = .error e ↔
    e = missingWeight ∧ n.docs.contains doc = true ∧
      ∃ ws, n.weights = some ws ∧ Unweighted doc n.terms ws n.frequencies := by
  rw [Query.score, MultiTermQuery.score]
  split
  · rename_i hdoc
    cases late with
    | none =>
      rw [h.2] at hdoc
      simp at hdoc
    | some late =>
      obtain ⟨ws, hws, -⟩ := h
      simp only [hws, Option.some.injEq, exists_eq_left', hdoc, true_and]
      have htally : tally ix doc {} n.terms ws n.frequencies = .error e ↔
          e = missingWeight ∧ Unweighted doc n.terms ws n.frequencies := tally_eq_error_iff
      rw [← htally]
      cases tally ix doc {} n.terms ws n.frequencies <;> simp [Except.map]
  · rename_i hdoc
    exact iff_of_false nofun fun ⟨_, hcontains, _⟩ => hdoc hcontains

end score

/-- After any calls the weights are those of all terms but the ones added since the weights were created. A score fails
just where a document that was found holds one of these and it counts; so all scores are there, with one weight for each
term, as long as no term is added behind weights. -/
theorem weights_after_calls (terms : List (Occur × Term)) (boost : Float32) (calls : List Call) :
    ∃ n : MultiTermQuery, calls.foldl Call.run (Query.ofTerms terms boost) = .multiTerm n ∧
      n.Lags (calls.foldl Call.late none) ∧
      (∀ ix doc e, (Query.multiTerm n).score ix doc = .error e ↔
        e = missingWeight ∧ n.docs.contains doc = true ∧
          ∃ ws, n.weights = some ws ∧ Unweighted doc n.terms ws n.frequencies) ∧
      ((calls.foldl Call.late none).getD 0 = 0 →
        (∀ ws, n.weights = some ws → ws.length = n.terms.length) ∧
          ∀ ix doc, ∃ score, (Query.multiTerm n).score ix doc = .ok score) := by
  have hfresh : MultiTermQuery.Lags { terms, boost } none := ⟨rfl, rfl⟩
  obtain ⟨n, hrun, hlags⟩ := hfresh.calls calls
  refine ⟨n, hrun, hlags, fun ix doc e => hlags.score_eq_error_iff, fun hlate => ?_⟩
  have hlength : ∀ ws, n.weights = some ws → ws.length = n.terms.length := by
    intro ws hws
    cases hl : calls.foldl Call.late none with
    | none =>
      rw [hl] at hlags
      exact absurd (hlags.1.symm.trans hws) nofun
    | some late =>
      rw [hl] at hlags hlate
      obtain rfl : late = 0 := hlate
      obtain ⟨ws', hws', hlength⟩ := hlags
      cases hws'.symm.trans hws
      exact hlength
  refine ⟨hlength, fun ix doc => ?_⟩
  cases hscore : (Query.multiTerm n).score ix doc with
  | ok score => exact ⟨score, rfl⟩
  | error e =>
    obtain ⟨-, -, ws, hws, i, c, hi, hc, -⟩ := hlags.score_eq_error_iff.1 hscore
    have hlt := (List.getElem?_eq_some_iff.1 hc).1
    have hcovered := hlength ws hws
    omega

def letterPair : Index := .ofChanges (.ofConfig .bare {}) [.document [("f", .keyword "a"), ("f", .keyword "c")]]

/-- A term is added behind the weights, which are created again. -/
def weighedAgain : List Call :=
  [.createWeight letterPair, .addTerm .optional (.inField "f" "c"), .createWeight letterPair, .execute letterPair none]

theorem weighedAgain_weights_after_calls : (weighedAgain.foldl Call.late none).getD 0 = 0 ∧
    ∃ n : MultiTermQuery,
      weighedAgain.foldl Call.run (Query.ofTerms [(.optional, .inField "f" "a")] 1) = .multiTerm n ∧
      (∀ ws, n.weights = some ws → ws.length = n.terms.length) ∧
      ∀ ix doc, ∃ score, (Query.multiTerm n).score ix doc = .ok score := by
  obtain ⟨n, hn, -, -, hcovered⟩ := weights_after_calls [(.optional, .inField "f" "a")] 1 weighedAgain
  exact ⟨rfl, n, hn, hcovered rfl⟩

/-- A term is added behind the weights, which are kept. -/
def weighedEarly : List Call :=
  [.createWeight letterPair, .addTerm .optional (.inField "f" "c"), .execute letterPair none]

/-- The second of two terms has no weight, and the document that holds both has no score. -/
theorem weighedEarly_missingWeight : ∃ (n : MultiTermQuery) (ws : List Weight),
    weighedEarly.foldl Call.run (Query.ofTerms [(.optional, .inField "f" "a")] 1) = .multiTerm n ∧
      n.weights = some ws ∧ ws.length = 1 ∧ n.terms.length = 2 ∧
      (Query.multiTerm n).score letterPair 0 = .error missingWeight := by
  refine ⟨_, _, rfl, rfl, rfl, rfl, ?_⟩
  have hunweighted : Unweighted 0 [(.optional, .inField "f" "a"), (.optional, .inField "f" "c")]
      (newWeights letterPair { terms := [(.optional, .inField "f" "a")] })
      [letterPair.frequencies (.inField "f" "a"), letterPair.frequencies (.inField "f" "c")] :=
    ⟨1, _, Nat.le_refl 1, rfl, by decide, by decide +kernel⟩
  have hlags {n : MultiTermQuery} {ws : List Weight} (hws : n.weights = some ws)
      (hlength : ws.length + 1 = n.terms.length) : n.Lags (some 1) :=
    ⟨ws, hws, hlength⟩
  exact (hlags rfl rfl).score_eq_error_iff.2 ⟨rfl, by decide +kernel, _, rfl, hunweighted⟩

end TextSearch.MultiTermQuery
