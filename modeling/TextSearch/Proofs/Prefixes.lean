import Mathlib.Data.List.Forall2
import TextSearch.Proofs.WellFormed

/-! Levels that are read up to some part. -/
namespace TextSearch

namespace Level

open TextSearch.Part

@[simp] theorem hasSign_concat (level : Level) (part : Part) :
    hasSign (level ++ [part]) = (level.hasSign || part.isSign) := by
  simp [hasSign]

@[simp] theorem hasOperator_concat (level : Level) (part : Part) :
    hasOperator (level ++ [part]) = (level.hasOperator || part.isOperator) := by
  simp [hasOperator]

theorem mark?_of_isModifier {part : Part} (h : part.isModifier = true) : part.mark? = none := by
  cases part with
  | range | group => cases h
  | lexeme x =>
    revert h
    cases hk : x.kind <;> simp [isModifier, mark?, hk, LexemeKind.isModifier]

theorem isSign_of_isModifier {part : Part} (h : part.isModifier = true) : part.isSign = false := by
  cases part with
  | range | group => cases h
  | lexeme x =>
    revert h
    cases hk : x.kind <;> simp [isModifier, isSign, hk, LexemeKind.isModifier, LexemeKind.isSign]

theorem subject_append_modifiers {mods : List Part} (h : ∀ part ∈ mods, part.isModifier = true) (level : Level) :
    subject (level ++ mods) = subject level := by
  have hnone : mods.filter (!·.isModifier) = [] := List.filter_eq_nil_iff.2 fun part hp => by simp [h part hp]
  rw [subject, subject, List.filter_append, hnone, List.append_nil]

theorem subject_concat_modifier {part : Part} (h : part.isModifier = true) (level : Level) :
    subject (level ++ [part]) = subject level :=
  subject_append_modifiers (List.forall_mem_singleton.2 h) level

theorem subject_concat {part : Part} (h : part.isModifier = false) (level : Level) :
    subject (level ++ [part]) = part.mark?.bind Mark.entry? := by
  simp [subject, List.filter_append, h]

/-- Whether a lexeme may stand behind a level, of which `previous` is the last lexeme. -/
def Allows (level : Level) (previous : Option LexemeKind) (x : Lexeme) : Prop :=
  match x.kind with
  | .required | .prohibited => level.hasOperator = false
  | .and | .or | .not => level.hasSign = false
  | .fuzzy => level.subject = some true
  | .number =>
    (previous = some .fuzzy → level.subject = some true) ∧ (previous = some .boost → level.subject.isSome)
  | _ => True

variable {level : Level}

theorem modifiersPlaced_concat {part : Part} (h : level.ModifiersPlaced)
    (hf : ∀ x, part = lexeme x → x.kind = .fuzzy → level.subject = some true)
    (hn : ∀ x before y, part = lexeme x → x.kind = .number → level = before ++ [lexeme y] →
      y.kind = .boost → level.subject.isSome) :
    ModifiersPlaced (level ++ [part]) := by
  intro before x after hl
  rcases List.eq_nil_or_concat after with rfl | ⟨after, last, rfl⟩
  · obtain ⟨rfl, hp⟩ := List.append_inj' hl rfl
    obtain rfl : part = lexeme x := by simpa using hp
    refine ⟨hf x rfl, ?_⟩
    rintro - y rest hnil
    cases hnil
  · rw [List.concat_eq_append, ← List.cons_append, ← List.append_assoc] at hl
    obtain ⟨rfl, hp⟩ := List.append_inj' hl rfl
    obtain rfl : part = last := by simpa using hp
    obtain ⟨hfx, hbx⟩ := h before x after rfl
    refine ⟨hfx, ?_⟩
    intro hx y rest ha hy
    cases after with
    | nil =>
      obtain ⟨rfl, -⟩ : part = lexeme y ∧ rest = [] := by simpa [eq_comm] using ha
      have hs := hn y before x rfl hy rfl hx
      rwa [subject_concat_modifier (by simp [isModifier, hx, LexemeKind.isModifier])] at hs
    | cons z after =>
      rw [List.concat_eq_append, List.cons_append] at ha
      obtain ⟨rfl, -⟩ := List.cons.inj ha
      exact hbx hx y after rfl hy

/-- The lexeme before, as far as numbers look at it, is the last part. -/
def Behind (level : Level) (previous : Option LexemeKind) : Prop :=
  ∀ k, k = .fuzzy ∨ k = .boost →
    (previous = some k ↔ ∃ before x, level = before ++ [lexeme x] ∧ x.kind = k)

theorem Behind.nil {previous : Option LexemeKind} (hf : previous ≠ some .fuzzy)
    (hb : previous ≠ some .boost) :
    Behind [] previous := by
  rintro k (rfl | rfl) <;> simp [hf, hb]

theorem behind_concat_lexeme (level : Level) (x : Lexeme) : Behind (level ++ [lexeme x]) (some x.kind) := by
  intro k _
  constructor
  · rintro ⟨⟩
    exact ⟨level, x, rfl, rfl⟩
  · rintro ⟨before, y, hl, rfl⟩
    obtain ⟨-, hp⟩ := List.append_inj' hl rfl
    obtain rfl : x = y := by simpa using hp
    rfl

theorem behind_concat_entry (level : Level) {part : Part} (hp : ∀ x, part ≠ lexeme x) {kind : LexemeKind}
    (hf : kind ≠ .fuzzy) (hb : kind ≠ .boost) : Behind (level ++ [part]) (some kind) := by
  intro k hk
  constructor
  · rintro ⟨⟩
    simp [hf, hb] at hk
  · rintro ⟨before, y, hl, -⟩
    obtain ⟨-, hy⟩ := List.append_inj' hl rfl
    exact absurd (List.cons.inj hy).1 (hp y)

/-- A regular level allows each of its lexemes where it stands. -/
theorem allows_of_regular {x : Lexeme} {rest : List Part} {previous : Option LexemeKind}
    (ho : OneStyle (level ++ lexeme x :: rest)) (hm : ModifiersPlaced (level ++ lexeme x :: rest))
    (hb : level.Behind previous) : level.Allows previous x := by
  have hsign : x.kind.isSign = true → level.hasOperator = false := by
    intro hx
    by_contra hop
    exact ho ⟨by simp [hasSign, isSign, hx], by simp_all [hasOperator]⟩
  have hoperator : (lexeme x).isOperator = true → level.hasSign = false := by
    intro hx
    by_contra hs
    exact ho ⟨by simp_all [hasSign], by simp_all [hasOperator]⟩
  have hnumber : x.kind = .number → ∀ before y, level = before ++ [lexeme y] →
      (y.kind = .fuzzy → level.subject = some true) ∧ (y.kind = .boost → level.subject.isSome) := by
    rintro hx before y rfl
    obtain ⟨hf, hbst⟩ := hm before y (lexeme x :: rest) (by simp)
    refine ⟨fun hy => ?_, fun hy => ?_⟩ <;>
      rw [subject_concat_modifier (by simp [isModifier, hy, LexemeKind.isModifier])]
    · exact hf hy
    · exact hbst hy x rest rfl hx
  unfold Allows
  cases hk : x.kind with
  | required | prohibited => exact hsign (by simp [hk, LexemeKind.isSign])
  | and | or | not => exact hoperator (by simp [isOperator, mark?, hk])
  | fuzzy => exact (hm level x rest rfl).1 hk
  | number =>
    constructor
    · intro hp
      obtain ⟨before, y, hl, hy⟩ := (hb .fuzzy (.inl rfl)).1 hp
      exact (hnumber hk before y hl).1 hy
    · intro hp
      obtain ⟨before, y, hl, hy⟩ := (hb .boost (.inr rfl)).1 hp
      exact (hnumber hk before y hl).2 hy
  | _ => trivial

/-- A level that obeys the rules so far. -/
structure Begun (level : Level) : Prop where
  shaped : AllShaped level
  oneStyle : level.OneStyle
  modifiersPlaced : level.ModifiersPlaced
  inner : ∀ l ∈ levelsIn level, Regular l

theorem Begun.nil : Begun [] where
  shaped := trivial
  oneStyle := by simp [OneStyle, hasSign]
  modifiersPlaced := by
    intro before x after hl
    simp at hl
  inner := nofun

theorem Begun.lexeme (h : level.Begun) {x : Lexeme} (hx : x.kind.isLoose = true)
    {previous : Option LexemeKind} (hb : level.Behind previous) (ha : level.Allows previous x) :
    Begun (level ++ [.lexeme x]) where
  shaped := (allShaped_append _ _).2 ⟨h.shaped, hx, trivial⟩
  oneStyle := by
    have ho := h.oneStyle
    unfold OneStyle at *
    unfold Allows at ha
    rw [hasSign_concat, hasOperator_concat]
    revert ha
    cases hk : x.kind <;> simp_all [isSign, isOperator, mark?, LexemeKind.isSign]
  modifiersPlaced := by
    unfold Allows at ha
    refine modifiersPlaced_concat h.modifiersPlaced ?_ ?_
    · rintro y ⟨⟩ hy
      simpa [hy] using ha
    · rintro y before z ⟨⟩ hy hl hz
      simp only [hy] at ha
      exact ha.2 ((hb .boost (.inr rfl)).2 ⟨before, z, hl, hz⟩)
  inner := by simpa [levelsIn, levels] using h.inner

theorem Begun.entry (h : level.Begun) {part : Part} (hs : part.Shaped) (hp : ∀ x, part ≠ .lexeme x)
    (hi : ∀ l ∈ part.levels, Regular l) : Begun (level ++ [part]) where
  shaped := (allShaped_append _ _).2 ⟨h.shaped, hs, trivial⟩
  oneStyle := by
    have ho := h.oneStyle
    unfold OneStyle at *
    rw [hasSign_concat, hasOperator_concat]
    cases part with
    | lexeme x => exact absurd rfl (hp x)
    | range | group => simpa [isSign, isOperator, mark?] using ho
  modifiersPlaced := by
    refine modifiersPlaced_concat h.modifiersPlaced ?_ ?_
    · intro x hx
      exact absurd hx (hp x)
    · intro x before y hx
      exact absurd hx (hp x)
  inner := by
    rw [levelsIn_append, List.forall_mem_append]
    exact ⟨h.inner, by simpa [levelsIn] using hi⟩

/-- Between two parts of a level, an operator that may not stand there, behind others that all may. Or it may too, and
nothing to join follows. -/
structure Fails (before : Level) (x : Lexeme) (after : Level) : Prop where
  isOperator : (lexeme x).isOperator = true
  follow : OperatorsFollow none (marks before)
  stops : ¬OperatorsFollow none (marks (before ++ [lexeme x])) ∨
    OperatorsFollow none (marks (before ++ lexeme x :: after)) ∧ marks after = []

/-- The operator at which an expression fails: the first one that may not stand where it does or, if each of them may,
the last one, which is then the last item. -/
def Offends (level : Level) (x : Lexeme) : Prop :=
  ∃ before after, level = before ++ lexeme x :: after ∧ Fails before x after

theorem operatorsFollow_of_append {last : Option Mark} {marks rest : List Mark}
    (h : OperatorsFollow last (marks ++ rest)) : OperatorsFollow last marks := by
  induction marks generalizing last with
  | nil => trivial
  | cons mark marks ih =>
    cases mark with
    | entry loosens => exact ih h
    | operator op => cases op <;> exact ⟨h.1, ih h.2⟩

theorem marks_append (before after : Level) : marks (before ++ after) = marks before ++ marks after :=
  List.filterMap_append

theorem marks_operator {x : Lexeme} (hx : (lexeme x).isOperator = true) :
    ∃ op, ∀ rest, marks (lexeme x :: rest) = .operator op :: marks rest := by
  unfold isOperator at hx
  split at hx
  · rename_i op hm
    exact ⟨op, fun rest => List.filterMap_cons_some hm⟩
  · cases hx

variable {x y : Lexeme}

theorem Offends.hasOperator (h : level.Offends x) : level.hasOperator = true := by
  obtain ⟨before, after, rfl, hx⟩ := h
  exact List.any_eq_true.2 ⟨lexeme x, by simp, hx.isOperator⟩

/-- A level that is joined as it must be has no operator at which it fails. -/
theorem Offends.not_joined (h : level.Offends x) : ¬level.Joined := by
  intro hj
  obtain ⟨hfollow, loosens, hlast⟩ := hj h.hasOperator
  obtain ⟨before, after, rfl, hx⟩ := h
  rcases hx.stops with hstops | ⟨-, hafter⟩
  · rw [List.append_cons, marks_append] at hfollow
    exact hstops (operatorsFollow_of_append hfollow)
  · obtain ⟨op, hop⟩ := marks_operator hx.isOperator
    rw [marks_append, hop, hafter, List.getLast?_concat] at hlast
    cases hlast

private theorem not_fails_behind {before between after : Level}
    (hx : Fails before x (between ++ lexeme y :: after)) : ¬Fails (before ++ lexeme x :: between) y after := by
  intro hy
  rcases hx.stops with hstops | ⟨-, hafter⟩
  · have hfollow := hy.follow
    rw [List.append_cons, marks_append] at hfollow
    exact hstops (operatorsFollow_of_append hfollow)
  · obtain ⟨op, hop⟩ := marks_operator hy.isOperator
    rw [marks_append, hop] at hafter
    exact List.cons_ne_nil _ _ (List.append_eq_nil_iff.1 hafter).2

/-- There is only one such operator. -/
theorem Offends.eq (hx : level.Offends x) (hy : level.Offends y) : x = y := by
  obtain ⟨before, after, rfl, hx⟩ := hx
  obtain ⟨before', after', heq, hy⟩ := hy
  rcases List.append_eq_append_iff.1 heq with ⟨between, rfl, hb⟩ | ⟨between, rfl, hb⟩
  · cases between with
    | nil => exact Part.lexeme.inj (List.cons.inj hb).1
    | cons part between =>
      obtain ⟨rfl, rfl⟩ := List.cons.inj hb
      exact absurd hy (not_fails_behind hx)
  · cases between with
    | nil => exact (Part.lexeme.inj (List.cons.inj hb).1).symm
    | cons part between =>
      obtain ⟨rfl, rfl⟩ := List.cons.inj hb
      exact absurd hx (not_fails_behind hy)

end Level

end TextSearch
