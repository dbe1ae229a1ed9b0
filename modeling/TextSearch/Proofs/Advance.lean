import TextSearch.Grammar.Parser
import TextSearch.Proofs.WellFormed

/-! What the parser does at one lexeme, and which failures it can meet there. -/
namespace TextSearch

namespace Phase

/-- Inside a range each place takes one kind of lexeme. -/
theorem next_range {b : Brackets} {part : RangePart} {kind : LexemeKind} {target : Phase}
    (h : (range b part).next kind = some target) :
    match part with
    | .start => kind = .word ∧ target = range b .first
    | .first => kind = .upTo ∧ target = range b .upTo
    | .upTo => kind = .word ∧ target = range b .last
    | .last => kind = b.closing ∧ target = common := by
  cases b <;> cases part <;> cases kind <;>
    first | exact ⟨rfl, (Option.some.inj h).symm⟩ | exact nomatch h

/-- Outside of ranges a lexeme either opens one or changes nothing. -/
theorem next_common {kind : LexemeKind} {target : Phase} (h : common.next kind = some target) :
    (target = common ∧ kind.isRangePart = false) ∨
      ∃ b : Brackets, kind = b.opening ∧ target = range b .start := by
  cases kind with
  | closedStart => exact .inr ⟨.closed, rfl, (Option.some.inj h).symm⟩
  | openedStart => exact .inr ⟨.opened, rfl, (Option.some.inj h).symm⟩
  | closedEnd | openedEnd | upTo => exact nomatch h
  | _ => exact .inl ⟨(Option.some.inj h).symm, rfl⟩

end Phase

namespace Parser

/-- The entry a range becomes. -/
def rangeEntry (p : Parser) (lowerText upperText : String) (inclusive : Bool) (r : Progress) :
    Except Error Entry := do
  let lower ← p.rangeBound lowerText
  let upper ← p.rangeBound upperText
  if lower.isNone && upper.isNone then
    .error (.semantic "At least one range query boundary term must be non-empty term")
  let field ← p.entryField r "Field declaration is missing in range."
  let range ← RangeQuery.between (lower.map (Term.mk field)) (upper.map (Term.mk field)) inclusive
  .ok (.ofQuery (.range { range with termsLimit := p.context.termsLimit }))

theorem addRange_eq (p : Parser) (upperText : String) (inclusive : Bool) (r : Progress) :
    p.addRange upperText inclusive r =
      (p.rangeEntry r.lowerText upperText inclusive r).map fun entry =>
        r.withScope (r.scope.addEntry entry) := by
  unfold addRange rangeEntry
  cases p.rangeBound r.lowerText with
  | error e => rfl
  | ok lower =>
    cases p.rangeBound upperText with
    | error e => rfl
    | ok upper =>
      simp only [bind, Except.bind]
      by_cases hn : (lower.isNone && upper.isNone) = true
      · simp only [hn, if_true, Except.map]
      · simp only [hn, if_false, Bool.false_eq_true]
        cases p.entryField r "Field declaration is missing in range." with
        | error e => rfl
        | ok field =>
          dsimp only
          cases RangeQuery.between (lower.map (Term.mk field)) (upper.map (Term.mk field)) inclusive <;>
            rfl

theorem rangeEntry_ok {p : Parser} {lowerText upperText : String} {inclusive : Bool} {r : Progress}
    {entry : Entry} (h : p.rangeEntry lowerText upperText inclusive r = .ok entry) :
    ∃ query, entry = .ofQuery query := by
  unfold rangeEntry at h
  simp only [bind, Except.bind] at h
  repeat' split at h
  all_goals cases h
  exact ⟨_, rfl⟩

/-- What a lexeme that may stand in a phase does there. -/
def effect (p : Parser) (phase : Phase) (x : Lexeme) (r : Progress) : Except Error Progress :=
  match phase with
  | .common => p.input x r
  | .range _ .start => .ok { r with lowerText := x.text }
  | .range brackets .upTo => p.addRange x.text (brackets = .closed) r
  | .range _ .first | .range _ .last => .ok r

/-- The machine behind a lexeme that did its work. -/
def behind (target : Phase) (x : Lexeme) (r : Progress) : Machine Progress where
  phase := target
  data := { r with previousKind := some x.kind }

theorem advance_eq (p : Parser) (m : Machine Progress) (x : Lexeme) :
    p.advance m x = match m.phase.next x.kind with
      | none => .error (Machine.misplaced x)
      | some target =>
        match p.effect m.phase x m.data with
        | .error e => .error (e.locate x.position)
        | .ok r => .ok (behind target x r) := by
  obtain ⟨phase, r⟩ := m
  unfold advance Machine.step
  cases hn : phase.next x.kind with
  | none => rfl
  | some target =>
    match phase with
    | .common =>
      cases hx : p.input x r with
      | error e => simp [actions, effect, hx]
      | ok r' =>
        rcases Phase.next_common hn with ⟨rfl, -⟩ | ⟨b, -, rfl⟩ <;> simp [actions, effect, hx, behind]
    | .range b .start =>
      obtain ⟨-, rfl⟩ := Phase.next_range hn
      simp [actions, effect, behind]
    | .range b .first =>
      obtain ⟨-, rfl⟩ := Phase.next_range hn
      simp [actions, effect, behind]
    | .range b .upTo =>
      obtain ⟨-, rfl⟩ := Phase.next_range hn
      cases hr : p.addRange x.text (b = .closed) r <;> simp [actions, effect, hr, behind]
    | .range b .last =>
      obtain ⟨-, rfl⟩ := Phase.next_range hn
      simp [actions, effect, behind]

variable {p : Parser} {m m' : Machine Progress} {x : Lexeme} {target : Phase} {r r' : Progress} {e : Error}

theorem advance_of_effect (hn : m.phase.next x.kind = some target) (he : p.effect m.phase x m.data = .ok r') :
    p.advance m x = .ok (behind target x r') := by
  rw [advance_eq, hn, he]

theorem advance_of_failure (hn : m.phase.next x.kind = some target)
    (he : p.effect m.phase x m.data = .error e) : p.advance m x = .error (e.locate x.position) := by
  rw [advance_eq, hn, he]

theorem advance_ok (h : p.advance m x = .ok m') :
    ∃ target r', m.phase.next x.kind = some target ∧ p.effect m.phase x m.data = .ok r' ∧
      m' = behind target x r' := by
  rw [advance_eq] at h
  split at h
  · cases h
  rename_i target hn
  split at h
  · cases h
  rename_i r' he
  cases h
  exact ⟨target, r', hn, he, rfl⟩

/-- A lexeme that is not read may not stand there or fails to do its work. -/
theorem advance_error (h : p.advance m x = .error e) :
    e = Machine.misplaced x ∨ ∃ target f, m.phase.next x.kind = some target ∧
      p.effect m.phase x m.data = .error f ∧ e = f.locate x.position := by
  rw [advance_eq] at h
  split at h
  · cases h
    exact .inl rfl
  rename_i target hn
  split at h
  · rename_i f he
    cases h
    exact .inr ⟨target, f, hn, he, rfl⟩
  · cases h

/-- What each kind of lexeme does outside of ranges, if it does not fail. -/
theorem input_ok (h : p.input x r = .ok r') :
    match x.kind with
    | .word => ∃ field, r' = r.withScope (r.scope.addEntry (.ofWord x.text field))
    | .phrase => ∃ field, r' = r.withScope (r.scope.addEntry (.ofPhrase x.text field))
    | .field => r' = r.withScope (r.scope.setField x.text)
    | .required => ∃ s, r.scope.setSign .required = .ok s ∧ r' = r.withScope s
    | .prohibited => ∃ s, r.scope.setSign .prohibited = .ok s ∧ r' = r.withScope s
    | .fuzzy => ∃ s, r.scope.loosen none = .ok s ∧ r' = r.withScope s
    | .number => ∃ value s, Decimal.read? x.text.toList = some value ∧ r' = r.withScope s ∧
        (r.previousKind = some .fuzzy ∧ r.scope.loosen (some value) = .ok s ∨
          r.previousKind = some .boost ∧ r.scope.boost value = .ok s)
    | .groupStart => r' = r.openGroup
    | .groupEnd => ∃ parent outer query, r.outer = parent :: outer ∧ r.scope.toQuery = .ok query ∧
        r' = { r with scope := parent.addEntry (.ofQuery query), outer }
    | .and => ∃ s, r.scope.addOperator .and x.position = .ok s ∧ r' = r.withScope s
    | .or => ∃ s, r.scope.addOperator .or x.position = .ok s ∧ r' = r.withScope s
    | .not => ∃ s, r.scope.addOperator .not x.position = .ok s ∧ r' = r.withScope s
    | .boost | .closedStart | .closedEnd | .openedStart | .openedEnd | .upTo => r' = r := by
  unfold input at h
  cases hk : x.kind with
  | word | phrase =>
    simp only [hk] at h
    obtain ⟨field, -, rfl⟩ := Lexeme.map_eq_ok.1 h
    exact ⟨field, rfl⟩
  | required | prohibited | fuzzy | and | or | not =>
    simp only [hk] at h
    obtain ⟨s, hs, rfl⟩ := Lexeme.map_eq_ok.1 h
    exact ⟨s, hs, rfl⟩
  | number =>
    simp only [hk, Progress.applyParameter] at h
    split at h
    · simp at h
    rename_i value hv
    split at h
    · rename_i hp
      obtain ⟨s, hs, rfl⟩ := Lexeme.map_eq_ok.1 h
      exact ⟨value, s, hv, rfl, .inl ⟨hp, hs⟩⟩
    · rename_i hp
      obtain ⟨s, hs, rfl⟩ := Lexeme.map_eq_ok.1 h
      exact ⟨value, s, hv, rfl, .inr ⟨hp, hs⟩⟩
    · simp at h
  | groupEnd =>
    simp only [hk, Progress.closeGroup] at h
    cases ho : r.outer with
    | nil => simp [ho] at h
    | cons parent outer =>
      simp only [ho] at h
      obtain ⟨query, hq, rfl⟩ := Lexeme.map_eq_ok.1 h
      exact ⟨parent, outer, query, rfl, hq, rfl⟩
  | field | groupStart | boost | closedStart | closedEnd | openedStart | openedEnd | upTo =>
    simp only [hk, Except.ok.injEq] at h
    exact h.symm

end Parser
end TextSearch
