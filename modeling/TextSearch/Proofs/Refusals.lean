import TextSearch.Proofs.Naming
import TextSearch.Proofs.Operands

/-! What the parser refuses a query for, and the lexemes that say it. -/
namespace TextSearch

namespace Parser

/-- Failures of the bounds of a range: one is more than a word, or nothing is left of either. -/
inductive RefusesBounds (p : Parser) (lower upper : String) : Error → Prop where
  | lower {e : Error} (h : p.rangeBound lower = .error e) : RefusesBounds p lower upper e
  | upper {e : Error} (h : p.rangeBound upper = .error e) : RefusesBounds p lower upper e
  | both (hl : p.rangeBound lower = .ok none) (hu : p.rangeBound upper = .ok none) :
      RefusesBounds p lower upper (.semantic "At least one range query boundary term must be non-empty term")

/-- Failures of the field of an entry: there is none although there has to be one, or it is not allowed. -/
inductive RefusesField (c : Config) (field : Option String) (missing : String) : Error → Prop where
  | missing (hr : c.requireExplicitField = true) (hf : field = none) : RefusesField c field missing (.semantic missing)
  | disallowed {e : Error} (h : c.checkField field = .error e) : RefusesField c field missing e

/-- What is said of words and phrases without a field, where there has to be one. -/
def missing? : LexemeKind → Option String
  | .word => some "A term without a specified field is not allowed."
  | .phrase => some "A phrase without a specified field is not allowed."
  | _ => none

/-- Failures about what these lexemes mean: of the field of a word or of a phrase outside of ranges, of a range for its
bounds or its field, and of the similarity of a word. -/
inductive Refuses (p : Parser) (xs : List Lexeme) : Error → Prop where
  | entry {before after : List Lexeme} {x : Lexeme} (hxs : before ++ x :: after = xs)
      (ho : (Naming.behind before).inRange = false) {missing : String} (hk : missing? x.kind = some missing) {e : Error}
      (h : RefusesField p.config (Naming.behind before).field missing e) : Refuses p xs e
  | range {b : Brackets} {before after : List Lexeme} {start lower upTo upper : Lexeme}
      (hxs : before ++ start :: lower :: upTo :: upper :: after = xs) (hs : start.kind = b.opening)
      (hl : lower.kind = .word) (ht : upTo.kind = .upTo) (hu : upper.kind = .word) {e : Error}
      (h : p.RefusesBounds lower.text upper.text e ∨
        RefusesField p.config (Naming.behind before).field "Field declaration is missing in range." e) :
      Refuses p xs e
  | word {read : List Lexeme} {level : Level} (hl : Lexeme.HasLevel xs read level) {e : Error}
      (h : level.RefusesWord p.config.defaultOperator e) : Refuses p xs e

variable {p : Parser} {xs : List Lexeme} {r r' : Progress} {e : Error}

theorem rangeBound_error {text : String} (h : p.rangeBound text = .error e) : e.Refusal := by
  unfold rangeBound at h
  split at h
  · cases h
  · cases h
  · cases h
    exact .semantic _

theorem RefusesBounds.refusal {lower upper : String} (h : p.RefusesBounds lower upper e) : e.Refusal := by
  cases h with
  | lower h | upper h => exact rangeBound_error h
  | both => exact .semantic _

theorem checkField_error {c : Config} {field : Option String} (h : c.checkField field = .error e) :
    e.Refusal := by
  unfold Config.checkField at h
  split at h
  · cases h
  split at h
  · cases h
  · cases h
    exact .unauthorized _ _

theorem RefusesField.refusal {c : Config} {field : Option String} {missing : String}
    (h : RefusesField c field missing e) : e.Refusal := by
  cases h with
  | missing => exact .semantic _
  | disallowed h => exact checkField_error h

theorem Refuses.refusal (h : p.Refuses xs e) : e.Refusal := by
  cases h with
  | entry _ _ _ h => exact h.refusal
  | range _ _ _ _ _ h => exact h.elim RefusesBounds.refusal RefusesField.refusal
  | word _ h => exact h.refusal

/-- The next entry has no field just for one of these failures. -/
theorem entryField_error_iff {missing : String} :
    p.entryField r missing = .error e ↔ RefusesField p.config r.scope.field missing e := by
  unfold entryField
  constructor
  · intro h
    split at h
    · rename_i hr
      obtain ⟨hrequired, hnone⟩ := Bool.and_eq_true_iff.1 hr
      cases h
      exact .missing hrequired (Option.isNone_iff_eq_none.1 hnone)
    · exact .disallowed (map_eq_error.1 h)
  · intro h
    cases h with
    | missing hr hf => rw [hr, hf]; rfl
    | disallowed h =>
      cases hf : r.scope.field with
      | none =>
        rw [hf] at h
        cases h
      | some field =>
        rw [hf] at h
        rw [Option.isNone_some, Bool.and_false]
        exact map_eq_error.2 h

/-- There is a range between any bounds of one field. -/
theorem between_ok (field : Option String) {lower upper : Option String} (inclusive : Bool)
    (h : (lower.isNone && upper.isNone) = false) :
    ∃ range, RangeQuery.between (lower.map (Term.mk field)) (upper.map (Term.mk field)) inclusive =
      .ok range ∧ range.field = field := by
  cases lower with
  | none =>
    cases upper with
    | none => cases h
    | some u => exact ⟨_, rfl, rfl⟩
  | some l =>
    cases upper with
    | none => exact ⟨_, rfl, rfl⟩
    | some u => exact ⟨_, if_pos rfl, rfl⟩

/-- A range is no entry for its bounds or for its field. -/
theorem rangeEntry_error {lowerText upperText : String} {inclusive : Bool}
    (h : p.rangeEntry lowerText upperText inclusive r = .error e) :
    p.RefusesBounds lowerText upperText e ∨
      RefusesField p.config r.scope.field "Field declaration is missing in range." e := by
  unfold rangeEntry at h
  simp only [bind, Except.bind] at h
  split at h
  · rename_i f hf
    cases h
    exact .inl (.lower hf)
  rename_i lower hl
  split at h
  · rename_i f hf
    cases h
    exact .inl (.upper hf)
  rename_i upper hu
  split at h
  · rename_i hn
    simp only [Bool.and_eq_true, Option.isNone_iff_eq_none] at hn
    obtain ⟨rfl, rfl⟩ := hn
    cases h
    exact .inl (.both hl hu)
  rename_i hn
  split at h
  · rename_i f hf
    cases h
    exact .inr (entryField_error_iff.1 hf)
  rename_i field _
  obtain ⟨range, hr, -⟩ := between_ok field inclusive (Bool.eq_false_iff.2 hn)
  rw [hr] at h
  cases h

/-- A range that is an entry is not refused. -/
theorem not_refuses_of_rangeEntry {lowerText upperText : String} {inclusive : Bool} {entry : Entry}
    (h : p.rangeEntry lowerText upperText inclusive r = .ok entry) (e : Error) :
    ¬(p.RefusesBounds lowerText upperText e ∨
      RefusesField p.config r.scope.field "Field declaration is missing in range." e) := by
  obtain ⟨lower, hl, h⟩ := bind_eq_ok.1 h
  obtain ⟨upper, hu, h⟩ := bind_eq_ok.1 h
  split at h
  · cases h
  rename_i hn
  obtain ⟨field, hf, -⟩ := bind_eq_ok.1 h
  rintro (hb | hfield)
  · cases hb with
    | lower hb =>
      rw [hl] at hb
      cases hb
    | upper hb =>
      rw [hu] at hb
      cases hb
    | both hlower hupper =>
      rw [hl] at hlower
      rw [hu] at hupper
      cases hlower
      cases hupper
      exact hn rfl
  · rw [← entryField_error_iff, hf] at hfield
    cases hfield

end Parser

end TextSearch
