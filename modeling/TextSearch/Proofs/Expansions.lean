import Mathlib.Data.List.Perm.Subperm
import TextSearch.Proofs.ByteOrder
import TextSearch.Proofs.Postings
import TextSearch.Proofs.Records

/-! Nodes that stand for the terms of an index that pass a test. Each records all of these terms, or fails where they
are more than its limit. -/
namespace TextSearch

/-- The field of a term comes first, or it is the same and the bytes of its text come first. -/
def Term.Precedes (fields : List String) (t u : Term) : Prop :=
  ∃ f g, t.field = some f ∧ u.field = some g ∧
    (fields.idxOf f < fields.idxOf g ∨ f = g ∧ bytes t.text < bytes u.text)

theorem Term.Precedes.ne {fields : List String} {t u : Term} (h : t.Precedes fields u) : t ≠ u := by
  rintro rfl
  obtain ⟨f, g, hf, hg, hlt⟩ := h
  obtain rfl : f = g := Option.some.inj (hf.symm.trans hg)
  rcases hlt with hlt | ⟨-, hlt⟩
  · exact Nat.lt_irrefl _ hlt
  · exact List.lt_irrefl _ hlt

namespace Index
variable {ix : Index} {fields : List String}

theorem vocabulary_ordered (ix : Index) (field : String) : (ix.vocabulary field).Pairwise (· < ·) := by
  have hlt {s t : String} (h : compare s t = .lt) : s < t := compareOfLessAndEq_eq_lt.1 h
  rw [vocabulary_eq]
  exact Std.ExtTreeMap.ordered_keys.imp hlt

theorem termsIn_ordered (h : fields.Nodup) : (ix.termsIn fields).Pairwise (Term.Precedes fields) := by
  rw [termsIn, List.pairwise_flatMap]
  constructor
  · intro field _
    rw [List.pairwise_map]
    exact (ix.vocabulary_ordered field).imp fun hlt => ⟨field, field, rfl, rfl, .inr ⟨rfl, bytes_lt_bytes hlt⟩⟩
  · refine List.pairwise_iff_getElem.2 fun i j hi hj hij t ht u hu => ?_
    obtain ⟨_, -, rfl⟩ := List.mem_map.1 ht
    obtain ⟨_, -, rfl⟩ := List.mem_map.1 hu
    exact ⟨fields[i], fields[j], rfl, rfl, .inl (by rwa [h.idxOf_getElem i hi, h.idxOf_getElem j hj])⟩

theorem Lists.fieldsOf_nodup {names : List String} (h : ix.Lists names) (field : Option String) :
    (ix.fieldsOf field).Nodup := by
  cases field with
  | none => exact h.nodup
  | some field => exact List.nodup_singleton field

end Index

/-- What a node asks of the vocabulary of an index. -/
structure Lookup where
  /-- The field to look in, or none for all of them. -/
  field : Option String
  /-- The most terms there may be; zero is none. -/
  limit : Nat
  boost : Float32
  /-- Why no term is looked at. -/
  refusal : Option Error := none
  /-- Whether the best terms are recorded first. -/
  ranked : Bool := false
  Accepts : Term → Prop

/-- The terms of a vocabulary that a node asks for, each of them once. -/
structure Lookup.Selects (l : Lookup) (ix : Index) (found : List Term) : Prop where
  mem_iff (t : Term) : t ∈ found ↔ ix.Knows (ix.fieldsOf l.field) t ∧ l.Accepts t
  nodup : found.Nodup
  ordered : found.Pairwise (Term.Precedes (ix.fieldsOf l.field))

theorem Lookup.selects_filter {l : Lookup} {ix : Index} (hfields : (ix.fieldsOf l.field).Nodup) {p : Term → Bool}
    (hp : ∀ t, p t = true ↔ l.Accepts t) : l.Selects ix ((ix.termsIn (ix.fieldsOf l.field)).filter p) where
  mem_iff t := by rw [List.mem_filter, Index.mem_termsIn, hp]
  nodup := ((Index.termsIn_ordered hfields).imp Term.Precedes.ne).filter p
  ordered := (Index.termsIn_ordered hfields).filter p

namespace Query

/-- The simplest query for any of some terms. -/
inductive IsAnyOf (boost : Float32) : List Term → Query → Prop
  | none : IsAnyOf boost [] (.emptyResult 1)
  | one (t : Term) : IsAnyOf boost [t] (.term { term := t, boost })
  | several (t u : Term) (rest : List Term) : IsAnyOf boost (t :: u :: rest)
      (.multiTerm { terms := (t :: u :: rest).map fun t => (.optional, t), boost })

theorem ofMatches_isAnyOf (found : List Term) (boost : Float32) : (ofMatches found boost).IsAnyOf boost found := by
  match found with
  | [] => exact .none
  | [t] => exact .one t
  | t :: u :: rest => exact .several t u rest

variable {k : Context} {ix : Index} {q : Query} {l : Lookup} {found : List Term}

/-- What becomes of a node for the terms it asks for. -/
structure Expands (q : Query) (k : Context) (ix : Index) (l : Lookup) (found : List Term) : Prop where
  refused (e : Error) : l.refusal = some e → q.resolve k ix = (.error e, q)
  tooMany_iff : l.refusal = none →
    ((q.resolve k ix).1 = .error (.tooManyTerms l.limit) ↔ l.limit ≠ 0 ∧ l.limit < found.length)
  recorded : l.refusal = none → l.limit = 0 ∨ found.length ≤ l.limit →
    ∃ r record, q.resolve k ix = (.ok r, q.withRecord (some record)) ∧ record.Perm found ∧
      (l.ranked = false → record = found ∧ r.IsAnyOf l.boost found)

/-- A node whose search counts what it finds against the limit. -/
theorem expands_of_settle {α : Type} (scored : List α) (make : List α → Expansion) (hrefusal : l.refusal = none)
    (hresolve : q.resolve k ix = settle ((withinLimit l.limit scored).map make) q fun matched => q.withRecord matched)
    (hlength : scored.length = found.length) (hperm : (make scored).matched.Perm found)
    (hunranked : l.ranked = false → (make scored).matched = found ∧ (make scored).query.IsAnyOf l.boost found) :
    q.Expands k ix l found := by
  have hrecorded (hlimit : l.limit = 0 ∨ found.length ≤ l.limit) :
      q.resolve k ix = (.ok (make scored).query, q.withRecord (some (make scored).matched)) := by
    rw [hresolve, withinLimit_eq_ok (by rwa [hlength])]
    rfl
  constructor
  · intro e he
    exact absurd (hrefusal.symm.trans he) nofun
  · refine fun _ => ⟨fun hfailed => ?_, fun ⟨hlimit, hmore⟩ => ?_⟩
    · by_contra hwithin
      rw [hrecorded (by omega)] at hfailed
      exact absurd hfailed nofun
    · rw [hresolve, withinLimit_eq_error hlimit (by rwa [hlength])]
      rfl
  · exact fun _ hlimit => ⟨_, _, hrecorded hlimit, hperm, hunranked⟩

end Query

namespace RangeQuery
variable {r : RangeQuery}

/-- A text between the bounds, in the order of bytes. A bound that is missing bounds nothing. -/
def Contains (r : RangeQuery) (text : String) : Prop :=
  (∀ l, r.lower = some l → if r.inclusive then bytes l ≤ bytes text else bytes l < bytes text) ∧
    ∀ u, r.upper = some u → if r.inclusive then bytes text ≤ bytes u else bytes text < bytes u

theorem accepts_iff {t : Term} : r.accepts t = true ↔ r.Contains t.text := by
  rw [accepts, Contains]
  simp only [bytes_le_bytes_iff, bytes_lt_bytes_iff]
  cases r.lower <;> cases r.upper <;> cases r.inclusive <;>
    simp only [Bool.and_eq_true, Bool.not_eq_true', decide_eq_true_eq, decide_eq_false_iff_not, String.not_lt,
      Option.some.injEq, forall_eq', reduceCtorEq, false_implies, forall_const, if_true, if_false]

def lookup (r : RangeQuery) : Lookup where
  field := r.field
  limit := r.termsLimit
  boost := r.boost
  Accepts t := r.Contains t.text

theorem expands (r : RangeQuery) (k : Context) (ix : Index) :
    (Query.range r).Expands k ix r.lookup ((ix.termsIn (ix.fieldsOf r.field)).filter r.accepts) := by
  refine Query.expands_of_settle _ (fun found => ⟨.ofMatches found r.boost, found⟩) rfl ?_ rfl (.refl _)
    fun _ => ⟨rfl, Query.ofMatches_isAnyOf _ _⟩
  rw [Query.resolve, expand_eq]
  rfl

end RangeQuery

namespace WildcardQuery

def lookup (w : WildcardQuery) : Lookup where
  field := w.pattern.field
  limit := w.termsLimit
  boost := w.boost
  refusal :=
    if w.literalStart.length < w.minPrefixLength then
      some (.semantic
        s!"At least {w.minPrefixLength} non-wildcard characters are required at the beginning of pattern.")
    else none
  Accepts t := w.accepts t = true

theorem expands (w : WildcardQuery) (k : Context) (ix : Index) :
    (Query.wildcard w).Expands k ix w.lookup ((ix.termsIn (ix.fieldsOf w.pattern.field)).filter w.accepts) := by
  by_cases hshort : w.literalStart.length < w.minPrefixLength
  · have hrefusal : w.lookup.refusal = some _ := if_pos hshort
    refine ⟨fun e he => ?_, fun hnone => absurd (hrefusal.symm.trans hnone) nofun,
      fun hnone => absurd (hrefusal.symm.trans hnone) nofun⟩
    obtain rfl := Option.some.inj (hrefusal.symm.trans he)
    rw [Query.resolve, expand_eq, if_pos hshort]
    rfl
  · refine Query.expands_of_settle _ (fun found => ⟨.ofMatches found w.boost, found⟩) (if_neg hshort) ?_ rfl
      (.refl _) fun _ => ⟨rfl, Query.ofMatches_isAnyOf _ _⟩
    rw [Query.resolve, expand_eq, if_neg hshort]
    rfl

end WildcardQuery

namespace FuzzyQuery
variable {f : FuzzyQuery}

theorem isSome_score?_iff {t : Term} :
    (f.score? t).isSome = true ↔ ∃ s, f.similarity? t = some s ∧ f.minSimilarity < s := by
  unfold score? similarity? Similarity.score?
  cases Similarity.ofTexts? f.minSimilarity f.prefixLength f.term.text.toList t.text.toList with
  | none => simp
  | some s => simp

def lookup (f : FuzzyQuery) : Lookup where
  field := f.term.field
  limit := f.termsLimit
  boost := f.boost
  ranked := true
  Accepts t := ∃ s, f.similarity? t = some s ∧ f.minSimilarity < s

theorem expands (f : FuzzyQuery) (k : Context) (ix : Index) :
    (Query.fuzzy f).Expands k ix f.lookup (f.similar ix) := by
  refine Query.expands_of_settle ((ix.termsIn (ix.fieldsOf f.term.field)).filterMap fun t => (f.score? t).map (t, ·))
    (fun found => ⟨ofScored (found.mergeSort ranksBefore) f.boost, (found.mergeSort ranksBefore).map (·.1)⟩)
    rfl ?_ ?_ ?_ nofun
  · rw [Query.resolve, expand_eq]
    rfl
  · rw [similar, ← map_scored, List.length_map]
  · rw [similar, ← map_scored]
    exact (List.mergeSort_perm _ _).map _

end FuzzyQuery

namespace Query
variable {q : Query} {l : Lookup}

/-- What is asked of a vocabulary by the nodes that stand for terms. -/
def lookup? : Query → Option Lookup
  | range r => some r.lookup
  | wildcard w => some w.lookup
  | fuzzy f => some f.lookup
  | _ => none

/-- A node is refused before any term is looked at, or fails with its limit if more terms than that pass its test, or
records all of these terms. Fields come in the order in which they were first named. -/
theorem resolve_expands (h : q.lookup? = some l) (k : Context) (a : Analyzer) (changes : List Index.Change) :
    (Index.ofChanges a changes).fieldNames = (changes.flatMap Index.Change.fieldNames).eraseDups ∧
      ∃ found, l.Selects (Index.ofChanges a changes) found ∧ q.Expands k (Index.ofChanges a changes) l found := by
  have hlists := Index.ofChanges_lists a changes
  refine ⟨hlists.fieldNames_eq, ?_⟩
  cases q with
  | range r =>
    obtain rfl := Option.some.inj h
    exact ⟨_, Lookup.selects_filter (hlists.fieldsOf_nodup _) fun _ => RangeQuery.accepts_iff, r.expands k _⟩
  | wildcard w =>
    obtain rfl := Option.some.inj h
    exact ⟨_, Lookup.selects_filter (hlists.fieldsOf_nodup _) fun _ => Iff.rfl, w.expands k _⟩
  | fuzzy f =>
    obtain rfl := Option.some.inj h
    exact ⟨_, Lookup.selects_filter (hlists.fieldsOf_nodup _) fun _ => FuzzyQuery.isSome_score?_iff, f.expands k _⟩
  | _ => cases h

/-- A word in two fields, and one behind it in the order of bytes. -/
def accentedWords : List Index.Change :=
  [.document [("title", .keyword "zebra"), ("title", .keyword "état"), ("body", .keyword "zebra")]]

/-- Every word from the letter m on, in any field, if there are no more than two. -/
def openEnded : RangeQuery where
  field := none
  lower := some "m"
  upper := none
  inclusive := true
  termsLimit := 2
  bounded := rfl

theorem openEnded_resolve_expands : (range openEnded).lookup? = some openEnded.lookup ∧
    ∃ found, openEnded.lookup.Selects (Index.ofChanges (.ofConfig .bare {}) accentedWords) found ∧ 2 < found.length ∧
      ((range openEnded).resolve { analyzer := .ofConfig .bare {} } (Index.ofChanges (.ofConfig .bare {}) accentedWords)).1 =
        .error (.tooManyTerms 2) := by
  obtain ⟨-, found, hselects, hexpands⟩ :=
    resolve_expands (q := range openEnded) rfl { analyzer := .ofConfig .bare {} } (.ofConfig .bare {}) accentedWords
  have hmem (field text : String) (hfield : field ∈ (Index.ofChanges (.ofConfig .bare {}) accentedWords).fieldNames)
      (htext : text ∈ (Index.ofChanges (.ofConfig .bare {}) accentedWords).vocabulary field)
      (haccepts : openEnded.accepts (.inField field text) = true) : Term.inField field text ∈ found :=
    (hselects.mem_iff _).2 ⟨⟨field, hfield, text, htext, rfl⟩, RangeQuery.accepts_iff.1 haccepts⟩
  have hsub : [Term.inField "title" "zebra", .inField "title" "état", .inField "body" "zebra"] ⊆ found := by
    rintro t ht
    simp only [List.mem_cons, List.not_mem_nil, or_false] at ht
    rcases ht with rfl | rfl | rfl <;> exact hmem _ _ (by decide) (by decide +kernel) (by decide)
  have hlength : 2 < found.length := (List.Nodup.subperm (by decide) hsub).length_le
  exact ⟨rfl, found, hselects, hlength, (hexpands.tooMany_iff rfl).2 ⟨by decide, hlength⟩⟩

end Query

namespace WildcardQuery

def oneNote : List Index.Change := [.document [("note", .keyword "abcd")]]

/-- A pattern with a boost that no note matches. -/
def unmatched : WildcardQuery where
  pattern := .inField "note" "xyz*"
  boost := 2

/-- The query for no term at all does not have the boost of the node. -/
theorem unmatched_boost_lost : unmatched.lookup.refusal = none ∧
    unmatched.lookup.Selects (Index.ofChanges (.ofConfig .bare {}) oneNote) [] ∧
    ∃ r, ((Query.wildcard unmatched).resolve { analyzer := .ofConfig .bare {} } (Index.ofChanges (.ofConfig .bare {}) oneNote)).1 =
      .ok r ∧ r.boost ≠ unmatched.boost := by
  generalize hix : Index.ofChanges (.ofConfig .bare {}) oneNote = ix
  have hfound : (ix.termsIn (ix.fieldsOf unmatched.pattern.field)).filter unmatched.accepts = [] := by
    subst hix
    decide +kernel
  have hfields : (ix.fieldsOf unmatched.lookup.field).Nodup := List.nodup_singleton "note"
  have hselects := Lookup.selects_filter (p := unmatched.accepts) hfields fun _ => Iff.rfl
  refine ⟨by decide, hfound ▸ hselects, .emptyResult 1, ?_, by decide⟩
  rw [Query.resolve, expand_eq, if_neg (by decide), hfound]
  rfl

end WildcardQuery

end TextSearch
