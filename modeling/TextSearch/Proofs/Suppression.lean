import TextSearch.Proofs.Acceptance
import TextSearch.Proofs.Fields

/-! The failures a query string can be answered with, and the query for its words that stands in for a
malformed one. -/
namespace TextSearch

theorem Error.isSuppressible_iff {e : Error} : e.isSuppressible = true ↔ e.Syntactic := by
  cases e with
  | syntactic message position => exact ⟨fun _ => .syntactic message position, fun _ => rfl⟩
  | _ => exact ⟨nofun, nofun⟩

namespace Parser

variable {p : Parser} {s : String} {e : Error}

theorem parseStrict_error (h : p.parseStrict s = .error e) : e.Lexical ∨ e.Syntactic ∨ e.Refusal := by
  unfold parseStrict at h
  cases hxs : Lexeme.tokenize s with
  | error f =>
    rw [hxs] at h
    cases h
    exact .inl (Lexeme.tokenize_error hxs)
  | ok xs =>
    rw [hxs] at h
    rcases parseLexemes_error (Lexeme.tokenize_numbersPlaced hxs) h with hr | ⟨hs, -⟩
    · exact .inr (.inr hr.refusal)
    · exact .inr (.inl hs)

/-- A range that is no entry fails for one of its bounds or for its field, and never for what the bounds
have to do with each other. -/
theorem addRange_error {upperText : String} {inclusive : Bool} {r : Progress}
    (h : p.addRange upperText inclusive r = .error e) :
    p.RefusesBounds r.lowerText upperText e ∨ ∃ missing, p.entryField r missing = .error e := by
  rw [addRange_eq] at h
  exact (rangeEntry_error (map_eq_error.1 h)).imp_right fun hf => ⟨_, entryField_error_iff.2 hf⟩

theorem fallback_eq (p : Parser) (s : String) : p.fallback s =
    .ofTerms ((p.context.analyzer.tokenize s).map fun token =>
      (.ofJunction p.config.defaultOperator, ⟨none, token.text⟩)) 1 := by
  simp only [fallback, Analyzer.terms, List.map_map, Function.comp_def]

theorem parse_of_syntactic (hs : p.config.suppressExceptions = true) (h : p.parseStrict s = .error e)
    (he : e.Syntactic) : p.parse s = .ok { query := p.fallback s, suppressed := some e } := by
  rw [parse, h]
  dsimp only
  rw [hs, Error.isSuppressible_iff.2 he]
  rfl

theorem parse_of_not_syntactic (h : ∀ e, p.parseStrict s = .error e → ¬e.Syntactic) :
    p.parse s = (p.parseStrict s).map fun query => { query, suppressed := none } := by
  unfold parse
  cases hq : p.parseStrict s with
  | ok q => rfl
  | error e =>
    have hkept : e.isSuppressible = false := Bool.eq_false_iff.2 (mt Error.isSuppressible_iff.1 (h e hq))
    simp only [hkept, Bool.and_false, Bool.false_eq_true, if_false]
    rfl

/-- How a parser answers that replaces what it cannot read: syntactic failures, and these alone, give way to
the query for the words. -/
structure Replaces (p : Parser) (s : String) : Prop where
  never_syntactic : ∀ e, p.parse s = .error e → ¬e.Syntactic
  suppressed_iff : ∀ e, (∃ out, p.parse s = .ok out ∧ out.suppressed = some e) ↔
    p.parseStrict s = .error e ∧ e.Syntactic
  words : ∀ out e, p.parse s = .ok out → out.suppressed = some e →
    out.query = .ofTerms ((p.context.analyzer.tokenize s).map fun token =>
      (.ofJunction p.config.defaultOperator, ⟨none, token.text⟩)) 1
  otherwise : (∀ e, p.parseStrict s = .error e → ¬e.Syntactic) →
    p.parse s = (p.parseStrict s).map fun query => { query, suppressed := none }

theorem replaces (hs : p.config.suppressExceptions = true) : p.Replaces s := by
  by_cases hmal : ∃ e, p.parseStrict s = .error e ∧ e.Syntactic
  · obtain ⟨e, he, hsyn⟩ := hmal
    have hp := parse_of_syntactic hs he hsyn
    refine ⟨?_, fun f => ⟨?_, ?_⟩, ?_, fun hnone => absurd hsyn (hnone e he)⟩
    · intro f hf
      rw [hp] at hf
      cases hf
    · rintro ⟨out, hout, hf⟩
      rw [hp] at hout
      cases hout
      cases hf
      exact ⟨he, hsyn⟩
    · rintro ⟨hf, -⟩
      rw [he] at hf
      cases hf
      exact ⟨_, hp, rfl⟩
    · intro out f hout _
      rw [hp] at hout
      cases hout
      exact p.fallback_eq s
  · have hnone : ∀ e, p.parseStrict s = .error e → ¬e.Syntactic := fun e he hsyn => hmal ⟨e, he, hsyn⟩
    have hp := parse_of_not_syntactic hnone
    have hkept : ∀ out, p.parse s = .ok out → out.suppressed = none := by
      intro out hout
      rw [hp] at hout
      obtain ⟨q, -, rfl⟩ := Lexeme.map_eq_ok.1 hout
      rfl
    refine ⟨?_, fun e => ⟨?_, fun he => absurd ⟨e, he⟩ hmal⟩, ?_, fun _ => hp⟩
    · intro e he
      rw [hp] at he
      exact hnone e (map_eq_error.1 he)
    · rintro ⟨out, hout, he⟩
      rw [hkept out hout] at he
      cases he
    · intro out e hout he
      rw [hkept out hout] at he
      cases he

/-- A query string is no list of lexemes, or malformed, or refused for its meaning: numbers are found only
where they can be applied, and ranges only between bounds that fit. If failures are to be suppressed, the
malformed queries become queries for their words, and all others are answered as ever. -/
theorem parse_failures (p : Parser) (s : String) :
    (∀ e, p.parseStrict s = .error e → e.Lexical ∨ e.Syntactic ∨ e.Refusal) ∧
      (∀ xs, Lexeme.tokenize s = .ok xs → Lexeme.NumbersPlaced none xs) ∧
      (∀ (upperText : String) (inclusive : Bool) (r : Progress) (e : Error),
        p.addRange upperText inclusive r = .error e →
          p.RefusesBounds r.lowerText upperText e ∨ ∃ missing, p.entryField r missing = .error e) ∧
      (p.config.suppressExceptions = true → p.Replaces s) :=
  ⟨fun _ => parseStrict_error, fun _ => Lexeme.tokenize_numbersPlaced, fun _ _ _ _ => addRange_error, replaces⟩

/-- The parser of the configuration with no settings. -/
def standardParser : Parser :=
  let c : Config := {}
  { config := c, context := .ofConfig c (.ofConfig .bare c.analyzer) }

theorem danglingOperator_failures : standardParser.config.suppressExceptions = true ∧
    (∃ e, standardParser.parseStrict "b AND" = .error e ∧ e.Syntactic) ∧
    (∀ e, standardParser.parseStrict "b AND" = .error e → e.Lexical ∨ e.Syntactic ∨ e.Refusal) ∧
    standardParser.Replaces "b AND" := by
  have hread : (((standardParser.parseStrict "b AND").map fun _ => false).tryCatch
      fun e => .ok e.isSuppressible).toOption = some true := by
    decide +kernel
  obtain ⟨herror, -, -, hreplaces⟩ := parse_failures standardParser "b AND"
  cases hp : standardParser.parseStrict "b AND" with
  | ok q =>
    rw [hp] at hread
    cases hread
  | error e =>
    rw [hp] at hread
    have hsuppressible : e.isSuppressible = true := Option.some.inj hread
    exact ⟨rfl, ⟨e, rfl, Error.isSuppressible_iff.1 hsuppressible⟩, fun f hf => herror f (hp.trans hf),
      hreplaces rfl⟩

end Parser

end TextSearch
