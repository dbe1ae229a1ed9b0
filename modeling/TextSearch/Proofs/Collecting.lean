import Mathlib.Logic.Basic
import TextSearch.Query.Expand

/-! Terms collected from the vocabularies of fields. To check the limit at each term is to count what is found in all
terms. -/
namespace TextSearch

namespace Index

/-- The terms of fields, field by field and in ascending order within one. -/
def termsIn (ix : Index) (fields : List String) : List Term :=
  fields.flatMap fun field => (ix.vocabulary field).map (Term.inField field)

/-- A term of the vocabulary of one of the fields. -/
def Knows (ix : Index) (fields : List String) (t : Term) : Prop :=
  ∃ field ∈ fields, ∃ text ∈ ix.vocabulary field, t = .inField field text

theorem mem_termsIn {ix : Index} {fields : List String} {t : Term} : t ∈ ix.termsIn fields ↔ ix.Knows fields t := by
  simp [termsIn, Knows, eq_comm]

end Index

section limit
variable {α : Type} {limit : Nat} {found : List α}

theorem withinLimit_eq_ok (h : limit = 0 ∨ found.length ≤ limit) : withinLimit limit found = .ok found := by
  rw [withinLimit, if_neg (by omega)]

theorem withinLimit_eq_error (h : limit ≠ 0) (hlength : limit < found.length) :
    withinLimit limit found = .error (.tooManyTerms limit) := by
  rw [withinLimit, if_pos ⟨h, hlength⟩]

/-- Once the terms found exceed the limit, any more of them do too. -/
theorem withinLimit_append_of_error {e : Error} (h : withinLimit limit found = .error e) (more : List α) :
    withinLimit limit (found ++ more) = .error e := by
  unfold withinLimit at h
  split at h
  · rename_i hexceeds
    cases h
    refine withinLimit_eq_error hexceeds.1 ?_
    rw [List.length_append]
    omega
  · cases h

theorem withinLimit_ok {kept : List α} (h : withinLimit limit found = .ok kept) : kept = found := by
  unfold withinLimit at h
  split at h
  · cases h
  · exact (Except.ok.inj h).symm

variable {find? : Term → Option α}

/-- One term adds what is found in it and checks the limit. -/
theorem collectTerm_eq (h : withinLimit limit found = .ok found) (t : Term) :
    collectTerm limit find? found t = withinLimit limit (found ++ (find? t).toList) := by
  unfold collectTerm
  split
  · rename_i hnone
    rw [hnone, Option.toList_none, List.append_nil, h]
  · rename_i a hsome
    rw [hsome, Option.toList_some]

/-- The terms of a list add what is found in all of them, and the limit is checked as if it were at the end. -/
theorem foldlM_collectTerm (h : withinLimit limit found = .ok found) (ts : List Term) :
    ts.foldlM (collectTerm limit find?) found = withinLimit limit (found ++ ts.filterMap find?) := by
  induction ts generalizing found with
  | nil => rw [List.filterMap_nil, List.append_nil, h]; rfl
  | cons t rest ih =>
    have hall : found ++ (t :: rest).filterMap find? = found ++ (find? t).toList ++ rest.filterMap find? := by
      cases ht : find? t <;> simp [ht]
    rw [List.foldlM_cons, collectTerm_eq h, hall]
    cases hnext : withinLimit limit (found ++ (find? t).toList) with
    | error e => rw [withinLimit_append_of_error hnext]; rfl
    | ok next =>
      obtain rfl := withinLimit_ok hnext
      exact ih hnext

end limit

/-- A search of fields finds what is found in all of their terms, within the limit. -/
theorem Index.collect_eq {α : Type} (ix : Index) (fields : List String) (limit : Nat) (find? : Term → Option α) :
    ix.collect fields limit find? = withinLimit limit ((ix.termsIn fields).filterMap find?) := by
  have hfields (found : List α) : (fields.foldlM (fun found field => (ix.vocabulary field).foldlM (fun found text =>
        collectTerm limit find? found (.inField field text)) found) found) =
      (ix.termsIn fields).foldlM (collectTerm limit find?) found := by
    induction fields generalizing found with
    | nil => rfl
    | cons field rest ih =>
      rw [termsIn, List.flatMap_cons, List.foldlM_append, List.foldlM_map, List.foldlM_cons]
      exact bind_congr ih
  have hempty : withinLimit limit ([] : List α) = .ok [] := withinLimit_eq_ok (.inr (Nat.zero_le limit))
  rw [collect, hfields, foldlM_collectTerm hempty, List.nil_append]

section expansions
variable {ix : Index}

theorem WildcardQuery.expand_eq (w : WildcardQuery) : w.expand ix =
    if w.literalStart.length < w.minPrefixLength then
      .error (.semantic
        s!"At least {w.minPrefixLength} non-wildcard characters are required at the beginning of pattern.")
    else
      (withinLimit w.termsLimit ((ix.termsIn (ix.fieldsOf w.pattern.field)).filter w.accepts)).map fun found =>
        ⟨.ofMatches found w.boost, found⟩ := by
  rw [expand, Index.collect_eq, List.filterMap_eq_filter]

theorem RangeQuery.expand_eq (r : RangeQuery) : r.expand ix =
    (withinLimit r.termsLimit ((ix.termsIn (ix.fieldsOf r.field)).filter r.accepts)).map fun found =>
      ⟨.ofMatches found r.boost, found⟩ := by
  rw [expand, Index.collect_eq, List.filterMap_eq_filter]

theorem FuzzyQuery.expand_eq (f : FuzzyQuery) : f.expand ix =
    (withinLimit f.termsLimit ((ix.termsIn (ix.fieldsOf f.term.field)).filterMap fun t => (f.score? t).map (t, ·))).map
      fun found => ⟨ofScored (found.mergeSort ranksBefore) f.boost, (found.mergeSort ranksBefore).map (·.1)⟩ := by
  rw [expand, Index.similarTerms, Index.collect_eq]
  rfl

end expansions

end TextSearch
