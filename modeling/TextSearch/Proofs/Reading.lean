import TextSearch.Proofs.Lexing
import TextSearch.Proofs.Refusals
import TextSearch.Proofs.Tracking

/-! What the parser does at lexemes that stand by themselves, and the failures it can meet there. -/
namespace TextSearch

namespace Parser

variable {p : Parser} {level : Level} {x : Lexeme} {r r' : Progress}

/-- A loose lexeme that is read was allowed, and is then part of the level. -/
theorem input_tracks (ht : r.scope.Tracks level) (hb : level.Behind r.previousKind) (hx : x.kind.isLoose = true)
    (h : p.input x r = .ok r') : level.Allows r.previousKind x ∧
      r'.scope.Tracks (level ++ [.lexeme x]) ∧ r'.outer = r.outer := by
  have hi := input_ok h
  unfold Level.Allows
  cases hk : x.kind with
  | word | phrase =>
    simp only [hk] at hi
    obtain ⟨field, rfl⟩ := hi
    have hm : (Part.lexeme x).mark? = some (.entry true) := by simp [Part.mark?, hk]
    have ho {operand : Operand} (h : (if x.kind = .word then .word none else .other) = operand) :
        Level.operandOf (.lexeme x) [] = operand := h
    have hs : (Part.lexeme x).isSign = false := by simp [Part.isSign, hk, LexemeKind.isSign]
    have hf : (Part.lexeme x).isModifier = false := by simp [Part.isModifier, hk, LexemeKind.isModifier]
    exact ⟨trivial, ht.addEntry hm (ho (by rw [hk]; rfl)) hs hf, rfl⟩
  | field =>
    simp only [hk] at hi
    subst hi
    exact ⟨trivial, ht.setField hk x.text, rfl⟩
  | required | prohibited =>
    simp only [hk] at hi
    obtain ⟨s, hs, rfl⟩ := hi
    have hsign : x.kind.isSign = true := by simp [hk, LexemeKind.isSign]
    obtain ⟨ho, ht'⟩ := ht.setSign hsign hs
    exact ⟨ho, ht', rfl⟩
  | and =>
    simp only [hk] at hi
    obtain ⟨s, hs, rfl⟩ := hi
    have hm : (Part.lexeme x).mark? = some (.operator .and) := by simp [Part.mark?, hk]
    obtain ⟨ho, ht'⟩ := ht.addOperator hm hs
    exact ⟨ho, ht', rfl⟩
  | or =>
    simp only [hk] at hi
    obtain ⟨s, hs, rfl⟩ := hi
    have hm : (Part.lexeme x).mark? = some (.operator .or) := by simp [Part.mark?, hk]
    obtain ⟨ho, ht'⟩ := ht.addOperator hm hs
    exact ⟨ho, ht', rfl⟩
  | not =>
    simp only [hk] at hi
    obtain ⟨s, hs, rfl⟩ := hi
    have hm : (Part.lexeme x).mark? = some (.operator .not) := by simp [Part.mark?, hk]
    obtain ⟨ho, ht'⟩ := ht.addOperator hm hs
    exact ⟨ho, ht', rfl⟩
  | fuzzy =>
    simp only [hk] at hi
    obtain ⟨s, hs, rfl⟩ := hi
    obtain ⟨hsub, ht'⟩ := ht.loosen hs (List.append_nil level).symm (List.forall_mem_nil _)
      (Level.isModifier_fuzzy hk) (Level.similarity?_fuzzy hk)
    exact ⟨hsub, ht', rfl⟩
  | boost =>
    simp only [hk] at hi
    subst hi
    exact ⟨trivial, ht.modifier (Level.isModifier_boost hk) (Level.operands_boost hk level), rfl⟩
  | number =>
    simp only [hk] at hi
    have hm := Level.isModifier_number hk
    obtain ⟨value, s, hv, rfl, ⟨hp, hs⟩ | ⟨hp, hs⟩⟩ := hi
    · obtain ⟨before, y, hl, hy⟩ := (hb .fuzzy (.inl rfl)).1 hp
      obtain ⟨hsub, ht'⟩ := ht.loosen hs hl (List.forall_mem_singleton.2 (Level.isModifier_fuzzy hy)) hm
        (Level.similarity?_fuzzy_number hy hk hv)
      exact ⟨⟨fun _ => hsub, fun _ => by simp [hsub]⟩, ht', rfl⟩
    · obtain ⟨before, y, rfl, hy⟩ := (hb .boost (.inr rfl)).1 hp
      have ho : Level.operands (before ++ [.lexeme y] ++ [.lexeme x]) = Level.operands (before ++ [.lexeme y]) := by
        rw [Level.operands_boost hy, List.append_assoc]
        exact Level.operands_boost_number hy hk before
      obtain ⟨hsub, ht'⟩ := ht.boost hs hm ho
      exact ⟨⟨fun hp' => by simp [hp] at hp', fun _ => hsub⟩, ht', rfl⟩
  | closedStart | closedEnd | openedStart | openedEnd | groupStart | groupEnd | upTo =>
    simp [hk, LexemeKind.isLoose, LexemeKind.isRangePart] at hx

/-- A loose lexeme that is not read is refused for the field of its entry or was not allowed. -/
theorem input_error (ht : r.scope.Tracks level) (hx : x.kind.isLoose = true)
    (hn : Lexeme.NumberPlaced r.previousKind x) {e : Error} (h : p.input x r = .error e) :
    (∃ missing, missing? x.kind = some missing ∧ RefusesField p.config r.scope.field missing e) ∨
      (e.Unplaced ∧ ¬level.Allows r.previousKind x) := by
  unfold Level.Allows
  unfold input at h
  cases hk : x.kind with
  | word | phrase =>
    simp only [hk] at h
    exact .inl ⟨_, rfl, entryField_error_iff.1 (map_eq_error.1 h)⟩
  | required | prohibited =>
    simp only [hk] at h
    obtain ⟨hs, ho⟩ := ht.setSign_error (map_eq_error.1 h)
    exact .inr ⟨hs, by simp [ho]⟩
  | and | or | not =>
    simp only [hk] at h
    obtain ⟨hs, ho⟩ := ht.addOperator_error (map_eq_error.1 h)
    exact .inr ⟨hs, by simp [ho]⟩
  | fuzzy =>
    simp only [hk] at h
    exact .inr (ht.loosen_error (map_eq_error.1 h))
  | number =>
    obtain ⟨hp, hv⟩ := hn hk
    obtain ⟨value, hv⟩ := Option.isSome_iff_exists.1 hv
    simp only [hk, Progress.applyParameter, hv] at h
    rcases hp with hp | hp
    · simp only [hp] at h
      obtain ⟨hs, hsub⟩ := ht.loosen_error (map_eq_error.1 h)
      exact .inr ⟨hs, fun ha => hsub (ha.1 hp)⟩
    · simp only [hp] at h
      obtain ⟨hs, hsub⟩ := ht.boost_error (map_eq_error.1 h)
      exact .inr ⟨hs, fun ha => by simpa [hsub] using ha.2 hp⟩
  | field | boost =>
    simp only [hk] at h
    cases h
  | closedStart | closedEnd | openedStart | openedEnd | groupStart | groupEnd | upTo =>
    simp [hk, LexemeKind.isLoose, LexemeKind.isRangePart] at hx

end Parser

end TextSearch
