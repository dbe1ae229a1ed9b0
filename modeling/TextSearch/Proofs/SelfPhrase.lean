import TextSearch.Proofs.Optimization
import TextSearch.Proofs.PhraseCounts
import TextSearch.Proofs.Positions
import TextSearch.Proofs.Resolving

/-! A text of a document finds the document again when it is looked for as a phrase. -/
namespace TextSearch

theorem Index.mem_termDocs {ix : Index} {t : Term} {doc position : Nat}
    (h : position ∈ (ix.positions t).getD doc []) : doc ∈ ix.termDocs t := by
  by_contra hdoc
  rw [positions_getD_of_not_mem hdoc] at h
  cases h

namespace Query
variable {ix : Index} {doc : Nat}

/-- A term that stands in a document stays as it is and finds the document. -/
theorem term_finds (n : TermQuery) (h : doc ∈ ix.termDocs n.term) :
    (term n).optimize ix = .ok (term n) ∧
      ∃ r, (term n).execute ix none = (.ok (), term r) ∧ doc ∈ r.docs := by
  have hterm : (n.weigh ix none).term = n.term := by
    unfold TermQuery.weigh
    split <;> rfl
  refine ⟨?_, _, rfl, ?_⟩
  · rw [optimize, TermQuery.optimize, if_pos (Index.hasTerm_of_mem_termDocs h)]
  · rw [TermQuery.find, hterm]
    exact h

/-- A phrase of several terms that all stand in a document stays as it is and finds the document; it counts
the document if it occurs there. -/
theorem phrase_finds (n : PhraseQuery) (hlength : 2 ≤ n.terms.length) (h : n.Candidate ix doc) :
    (phrase n).optimize ix = .ok (phrase n) ∧
      ∃ r, (phrase n).execute ix none = (.ok (), phrase r) ∧ doc ∈ r.docs ∧
        (n.Occurs ix doc → ∃ frequency, r.frequencies[doc]? = some frequency ∧ 0 < frequency) := by
  have hterms : (n.weigh ix none).terms = n.terms := by
    unfold PhraseQuery.weigh
    split <;> rfl
  have hdoc : doc ∈ (n.weigh ix none).candidates ix none := by
    rw [PhraseQuery.mem_candidates, PhraseQuery.Candidate, hterms]
    exact ⟨DocSet.passes_none doc, h⟩
  refine ⟨?_, _, rfl, hdoc, fun hoccurs => ?_⟩
  · rw [optimize, PhraseQuery.optimize, if_neg ?_]
    · obtain ⟨t, t', rest, hn⟩ : ∃ t t' rest, n.terms = t :: t' :: rest := by
        rcases hn : n.terms with _ | ⟨t, _ | ⟨t', rest⟩⟩
        · simp [hn] at hlength
        · simp [hn] at hlength
        · exact ⟨t, t', rest, rfl⟩
      rw [hn]
    · simp only [List.any_eq_true, not_exists, not_and, Bool.not_eq_true', Bool.not_eq_false]
      intro t ht
      exact Index.hasTerm_of_mem_termDocs (h.2 t ht)
  · have hweighed : (n.weigh ix none).Occurs ix doc := by
      unfold PhraseQuery.weigh
      split <;> exact hoccurs
    exact ⟨_, PhraseQuery.getElem?_frequenciesIn hdoc hweighed, hweighed⟩

end Query

namespace RawPhrase
variable {k : Context} {ix : Index} {doc start : Nat} {field : String} {tokens : List Token} {n : RawPhrase}

/-- A phrase that is no term itself is expanded to the phrase of its tokens, or to a term if it has only one. -/
theorem expandIn_tokens {text : String} {slop : UInt32} {boost : Float32}
    (hnew : ix.hasTerm (.inField field text) = false) (htokens : k.analyzer.tokenize text ≠ []) :
    (∃ t, k.analyzer.tokenize text = [t] ∧
      expandIn k ix text field slop boost = .ofTerm (.inField field t.text) boost) ∨
    2 ≤ (k.analyzer.tokenize text).length ∧ expandIn k ix text field slop boost =
      .phrase { terms := placed field (k.analyzer.tokenize text), slop, boost } := by
  unfold expandIn
  dsimp only
  rw [hnew]
  match h : k.analyzer.tokenize text with
  | [] => exact absurd h htokens
  | [t] => exact .inl ⟨t, rfl, rfl⟩
  | t :: t' :: rest => exact .inr ⟨by simp, rfl⟩

theorem resolve_inField (hfield : n.field = some field) {q : Query} {ts : List Term}
    (hq : expandIn k ix n.phrase field n.slop n.boost = q) (hts : q.terms = .ok ts) :
    ((Query.rawPhrase n).resolve k ix).1 = .ok q := by
  have hexpand : n.expand k ix = .ok ⟨q, ts⟩ := by
    rw [expand, hfield]
    dsimp only
    rw [hq, Expansion.ofQuery, hts]
    rfl
  rw [Query.resolve, hexpand]
  rfl

/-- Terms of a phrase have the positions of their tokens as offsets, in 32 bits. -/
theorem placed_eq (field : String) (h : ∀ t ∈ tokens, 0 < t.increment) : placed field tokens =
    (spread 0 tokens).1.map fun p => (.inField field p.1, UInt32.ofNat p.2) := by
  have hplace := place_eq 0 h
  rw [Int.natCast_zero, Int.zero_sub] at hplace
  rw [placed, hplace, List.map_map]
  rfl

/-- Tokens stand in a document at their own positions, moved by a start. -/
def Stands (ix : Index) (doc : Nat) (field : String) (start : Nat) (tokens : List Token) : Prop :=
  ∀ p ∈ (spread 0 tokens).1, (start + p.2) % UInt32.size ∈ (ix.positions (.inField field p.1)).getD doc []

theorem placed_ne_nil (field : String) (h : tokens ≠ []) : placed field tokens ≠ [] := by
  intro hnil
  apply h
  rw [← List.length_eq_zero_iff, ← length_place (-1), List.map_eq_nil_iff.mp hnil]
  rfl

section standing
variable (hstands : Stands ix doc field start tokens) (hne : tokens ≠ []) (hadvances : ∀ t ∈ tokens, 0 < t.increment)
include hstands hne hadvances

theorem Stands.candidate (slop : UInt32) (boost : Float32) :
    PhraseQuery.Candidate ix doc { terms := placed field tokens, slop, boost } := by
  refine ⟨placed_ne_nil field hne, ?_⟩
  dsimp only
  rw [placed_eq field hadvances]
  exact List.forall_mem_map.mpr fun p hp => Index.mem_termDocs (hstands p hp)

/-- Tokens that stand in a document make a phrase that occurs there, if their positions have 32 bits. -/
theorem Stands.occurs (hfits : ∀ p ∈ (spread 0 tokens).1, start + p.2 < UInt32.size) (slop : UInt32)
    (boost : Float32) : PhraseQuery.Occurs ix doc { terms := placed field tokens, slop, boost } := by
  apply PhraseQuery.occurs_of_start (placed_ne_nil field hne)
  dsimp only
  rw [placed_eq field hadvances]
  refine List.forall_mem_map.mpr fun p hp => ?_
  have hoffset : (UInt32.ofNat p.2).toNat = p.2 := by
    apply Nat.mod_eq_of_lt
    exact Nat.lt_of_le_of_lt (Nat.le_add_left p.2 start) (hfits p hp)
  have hposition := hstands p hp
  rw [Nat.mod_eq_of_lt (hfits p hp)] at hposition
  rw [hoffset]
  exact ⟨hposition, hfits p hp⟩

end standing

/-- A phrase whose tokens stand in a document finds it. -/
theorem Stands.finds (h : Stands ix doc field start (k.analyzer.tokenize n.phrase)) (ha : k.analyzer.Advances)
    (hfield : n.field = some field) (hnew : ix.hasTerm (.inField field n.phrase) = false)
    (htokens : k.analyzer.tokenize n.phrase ≠ []) :
    ∃ q o r docs, ((Query.rawPhrase n).resolve k ix).1 = .ok q ∧ q.optimize ix = .ok o ∧
      o.execute ix none = (.ok (), r) ∧ r.matchedDocs = .ok docs ∧ doc ∈ docs ∧
      ∀ m, r = .phrase m → (∀ p ∈ (spread 0 (k.analyzer.tokenize n.phrase)).1, start + p.2 < UInt32.size) →
        ∃ frequency, m.frequencies[doc]? = some frequency ∧ 0 < frequency := by
  rcases expandIn_tokens hnew htokens with ⟨t, ht, hexpand⟩ | ⟨hlength, hexpand⟩
  · rw [ht] at h
    have hstands := h (t.text, 0 + t.increment - 1) List.mem_cons_self
    have hdoc : doc ∈ ix.termDocs (.inField field t.text) := Index.mem_termDocs hstands
    obtain ⟨hoptimize, r, hexecute, hfound⟩ :=
      Query.term_finds { term := .inField field t.text, boost := n.boost } hdoc
    exact ⟨_, _, _, _, resolve_inField hfield hexpand rfl, hoptimize, hexecute, rfl, hfound, nofun⟩
  · have hplaced : 2 ≤ (placed field (k.analyzer.tokenize n.phrase)).length := by
      rwa [placed, List.length_map, length_place]
    obtain ⟨hoptimize, r, hexecute, hfound, hcounted⟩ :=
      Query.phrase_finds _ hplaced (h.candidate htokens (ha n.phrase) n.slop n.boost)
    refine ⟨_, _, _, _, resolve_inField hfield hexpand rfl, hoptimize, hexecute, rfl, hfound, ?_⟩
    rintro m ⟨rfl⟩ hfits
    exact hcounted (h.occurs htokens (ha n.phrase) hfits n.slop n.boost)

end RawPhrase

/-- A text of a document, looked for as a phrase with any slop, finds the document again, if the text has tokens
and is no term itself. The document is counted with a positive frequency, as long as the positions of the field
in it have 32 bits. -/
theorem Index.text_finds_itself (a : StandardAnalyzer) (before after : List Change) (document : Document)
    {field : String} {n : RawPhrase} {k : Context} (hfield : n.field = some field) (hk : k.analyzer = a.toAnalyzer)
    (hvalue : (field, .text n.phrase) ∈ document) (htokens : a.tokenize n.phrase ≠ [])
    (hnew : (ofChanges a.toAnalyzer (before ++ .document document :: after)).hasTerm
      (.inField field n.phrase) = false) :
    let ix := ofChanges a.toAnalyzer (before ++ .document document :: after)
    let doc := (ofChanges a.toAnalyzer before).docCount
    ∃ q o r docs, ((Query.rawPhrase n).resolve k ix).1 = .ok q ∧ q.optimize ix = .ok o ∧
      o.execute ix none = (.ok (), r) ∧ r.matchedDocs = .ok docs ∧ doc ∈ docs ∧
      ∀ m, r = .phrase m → (placeValues a.toAnalyzer 0 (document.valuesOf field)).2 ≤ UInt32.size →
        ∃ frequency, m.frequencies[doc]? = some frequency ∧ 0 < frequency := by
  intro ix doc
  have ha := a.advances
  have hholds := ofChanges_holdsAll ha (before ++ .document document :: after)
  obtain ⟨start, hstart⟩ := hholds.exists_start ha (getD_documents ha before after document) hvalue
  have hstands : RawPhrase.Stands ix doc field start (k.analyzer.tokenize n.phrase) := by
    rw [hk]
    exact fun p hp => (hstart p hp).1
  have htokens' : k.analyzer.tokenize n.phrase ≠ [] := by rwa [hk]
  obtain ⟨q, o, r, docs, hq, ho, hr, hdocs, hfound, hcounted⟩ := hstands.finds (hk ▸ ha) hfield hnew htokens'
  refine ⟨q, o, r, docs, hq, ho, hr, hdocs, hfound, fun m hm hlength => hcounted m hm ?_⟩
  rw [hk]
  exact fun p hp => Nat.lt_of_lt_of_le (hstart p hp).2 hlength

/-- An analyzer that drops some words. -/
def withoutArticles : StandardAnalyzer where
  findWords _ := []
  splitting := .letters
  filters := [.lowerCase, .stopWords ["the", "and"]]

namespace Index

/-- A document with two values in a field, whose first and last words are dropped. -/
def catAndBird : Document := [("f", .text "the cat and"), ("f", .text "the dog and the bird")]

/-- The second value as a phrase. -/
def dogAndBird : RawPhrase := { phrase := "the dog and the bird", field := some "f", slop := 2 }

theorem dogAndBird_finds_itself :
    let a := withoutArticles.toAnalyzer
    let ix := ofChanges a ([.field "g", .document []] ++ .document catAndBird :: [.document catAndBird])
    ix.hasTerm (.inField "f" dogAndBird.phrase) = false ∧
    (placeValues a 0 (catAndBird.valuesOf "f")).2 ≤ UInt32.size ∧
    RawPhrase.placed "f" (a.tokenize dogAndBird.phrase) = [(.inField "f" "dog", 1), (.inField "f" "bird", 4)] ∧
    ∃ q o r docs,
      ((Query.rawPhrase dogAndBird).resolve { analyzer := a } ix).1 = .ok q ∧
      q.optimize ix = .ok o ∧ o.execute ix none = (.ok (), r) ∧ r.matchedDocs = .ok docs ∧ 1 ∈ docs ∧
      ∀ m, r = .phrase m → (placeValues a 0 (catAndBird.valuesOf "f")).2 ≤ UInt32.size →
        ∃ frequency, m.frequencies[1]? = some frequency ∧ 0 < frequency := by
  have hnew : (ofChanges withoutArticles.toAnalyzer
      ([.field "g", .document []] ++ .document catAndBird :: [.document catAndBird])).hasTerm
        (.inField "f" dogAndBird.phrase) = false := by decide +kernel
  refine ⟨hnew, by decide +kernel, by decide +kernel, ?_⟩
  exact text_finds_itself withoutArticles [.field "g", .document []] [.document catAndBird] catAndBird rfl rfl
    (by decide) (by decide +kernel) hnew

end Index

end TextSearch
