import TextSearch.Proofs.Operands

/-! What the parser remembers of the parts of a level, and what it therefore accepts behind them. -/
namespace TextSearch

/-- A syntactic failure that is still to be placed. Those of expressions are not among them. -/
structure Error.Unplaced (e : Error) : Prop where
  syntactic : e.Syntactic
  position : e.position? = none
  no_literalExpected : e ≠ Expression.literalExpected

def Entry.loosens : Entry → Bool
  | term .. | phrase .. => true
  | subquery .. => false

theorem Entry.loosen_ok {entry entry' : Entry} {parameter : Option Float32}
    (h : entry.loosen parameter = .ok entry') : entry.loosens = true ∧ entry'.loosens = true := by
  cases entry with
  | term | phrase =>
    cases h
    exact ⟨rfl, rfl⟩
  | subquery => cases h

theorem Entry.loosen_error {entry : Entry} {parameter : Option Float32} {e : Error}
    (h : entry.loosen parameter = .error e) : e.Unplaced ∧ entry.loosens = false := by
  cases entry with
  | term | phrase => cases h
  | subquery =>
    cases h
    exact ⟨⟨.syntactic _ _, rfl, by decide⟩, rfl⟩

theorem Entry.loosens_multiplyBoost (factor : Float32) (entry : Entry) :
    (entry.multiplyBoost factor).loosens = entry.loosens := by
  cases entry <;> rfl

def Item.mark : Item → Mark
  | entry e _ => .entry e.loosens
  | operator op _ => .operator op

/-- A mark that stands at a position, which only an operator keeps. -/
def Mark.placed (position : Nat) : Mark → Mark × Option Nat
  | entry loosens => (entry loosens, none)
  | operator op => (operator op, some position)

def Item.placed : Item → Mark × Option Nat
  | entry e _ => (.entry e.loosens, none)
  | operator op position => (.operator op, some position)

def Part.position : Part → Nat
  | lexeme x | range x .. | group x .. => x.position

def Part.placed? (part : Part) : Option (Mark × Option Nat) := part.mark?.map (Mark.placed part.position)

theorem Item.fst_placed (item : Item) : item.placed.1 = item.mark := by
  cases item <;> rfl

theorem Part.map_fst_placed? (part : Part) : part.placed?.map Prod.fst = part.mark? := by
  rw [placed?, Option.map_map]
  cases part.mark? with
  | none => rfl
  | some mark => cases mark <;> rfl

theorem Part.placed?_eq_operator {part : Part} {op : Operator} {position : Nat}
    (h : part.placed? = some (.operator op, some position)) :
    ∃ x, part = .lexeme x ∧ (Part.lexeme x).isOperator = true ∧ x.position = position := by
  obtain ⟨mark, hm, hplaced⟩ := Option.map_eq_some_iff.1 h
  cases mark with
  | entry => cases hplaced
  | operator =>
    cases hplaced
    cases part with
    | lexeme x => exact ⟨x, rfl, by rw [isOperator, hm], rfl⟩
    | range | group => cases hm

theorem marks_of_placed {items : List Item} {level : Level}
    (h : items.map Item.placed = level.filterMap Part.placed?) : items.map Item.mark = level.marks := by
  have hitems : Prod.fst ∘ Item.placed = Item.mark := funext Item.fst_placed
  have hparts : (fun part => part.placed?.map Prod.fst) = Part.mark? := funext Part.map_fst_placed?
  have hfst := congrArg (List.map Prod.fst) h
  rwa [List.map_map, List.map_filterMap, hitems, hparts] at hfst

namespace Scope

/-- The entry a modifier would change, as whether it takes a distance. -/
def subject (s : Scope) : Option Bool :=
  if s.pendingField.isSome || s.pendingSign.isSome then none
  else s.items.getLast?.bind (·.mark.entry?)

/-- A level was read from these parts, as far as its grammar goes. -/
structure Tracks (level : Level) (s : Scope) : Prop where
  placed : s.items.map Item.placed = level.filterMap Part.placed?
  signs : s.style = some .signs ↔ level.hasSign = true
  operators : s.style = some .operators ↔ level.hasOperator = true
  subject : s.subject = level.subject
  operands : s.items.map Item.operand = level.operands

variable {level : Level} {s s' : Scope} {x : Lexeme}

theorem Tracks.marks (h : Tracks level s) : s.items.map Item.mark = level.marks := marks_of_placed h.placed

/-- An operator among the items was read from a lexeme of the level. -/
theorem Tracks.exists_operator (h : Tracks level s) {before after : List Item} {op : Operator} {position : Nat}
    (hi : s.items = before ++ .operator op position :: after) :
    ∃ b x a, level = b ++ .lexeme x :: a ∧ (Part.lexeme x).isOperator = true ∧ x.position = position ∧
      before.map Item.mark = Level.marks b ∧
      (before ++ [Item.operator op position]).map Item.mark = Level.marks (b ++ [.lexeme x]) ∧
      after.map Item.mark = Level.marks a := by
  have hplaced := h.placed.symm
  rw [hi, List.map_append, List.map_cons, List.filterMap_eq_append_iff] at hplaced
  obtain ⟨parts, behind, rfl, hparts, hbehind⟩ := hplaced
  obtain ⟨skipped, part, a, rfl, hskipped, hpart, ha⟩ := List.filterMap_eq_cons_iff.1 hbehind
  obtain ⟨x, rfl, hx, hposition⟩ := Part.placed?_eq_operator hpart
  have hb : (parts ++ skipped).filterMap Part.placed? = before.map Item.placed := by
    rw [List.filterMap_append, List.filterMap_eq_nil_iff.2 hskipped, List.append_nil, hparts]
  refine ⟨parts ++ skipped, x, a, (List.append_assoc ..).symm, hx, hposition, marks_of_placed hb.symm, ?_,
    marks_of_placed ha.symm⟩
  refine marks_of_placed ?_
  rw [List.map_append, List.filterMap_append, hb, List.map_singleton, List.filterMap_cons_some hpart,
    List.filterMap_nil, Item.placed]

theorem Tracks.nil (field : Option String) (junction : Junction) :
    Tracks [] { inheritedField := field, junction := junction } where
  placed := rfl
  signs := by simp [Level.hasSign]
  operators := by simp [Level.hasOperator]
  subject := rfl
  operands := rfl

theorem Tracks.addEntry (h : Tracks level s) {part : Part} {entry : Entry}
    (hp : part.mark? = some (.entry entry.loosens)) (ho : Level.operandOf part [] = entry.operand)
    (hs : part.isSign = false) (hm : part.isModifier = false) : Tracks (level ++ [part]) (s.addEntry entry) where
  placed := by simp [Scope.addEntry, h.placed, Part.placed?, hp, Item.placed, Mark.placed]
  signs := by simpa [Scope.addEntry, hs] using h.signs
  operators := by simpa [Scope.addEntry, Part.isOperator, hp] using h.operators
  subject := by simp [Level.subject_concat hm, hp, Scope.subject, Scope.addEntry, Item.mark, Mark.entry?]
  operands := by
    rw [Level.operands_concat hm, Level.operands_entry hp, ho, ← h.operands, Scope.addEntry, List.map_append]
    rfl

theorem Tracks.setField (h : Tracks level s) (hx : x.kind = .field) (field : String) :
    Tracks (level ++ [.lexeme x]) (s.setField field) := by
  have hm : (Part.lexeme x).mark? = none := by simp [Part.mark?, hx]
  have hs : (Part.lexeme x).isSign = false := by simp [Part.isSign, hx, LexemeKind.isSign]
  have hf : (Part.lexeme x).isModifier = false := by simp [Part.isModifier, hx, LexemeKind.isModifier]
  exact {
    placed := by simpa [Scope.setField, Part.placed?, hm] using h.placed
    signs := by simpa [Scope.setField, hs] using h.signs
    operators := by simpa [Scope.setField, Part.isOperator, hm] using h.operators
    subject := by simp [Level.subject_concat hf, hm, Scope.subject, Scope.setField]
    operands := by rw [Level.operands_concat hf, Level.operands_unmarked hm, List.append_nil, ← h.operands, Scope.setField] }

theorem Tracks.setSign (h : Tracks level s) (hx : x.kind.isSign = true) {sign : Occur}
    (hs : s.setSign sign = .ok s') : level.hasOperator = false ∧ Tracks (level ++ [.lexeme x]) s' := by
  have hm : (Part.lexeme x).mark? = none := by
    revert hx
    cases hk : x.kind <;> simp [Part.mark?, hk, LexemeKind.isSign]
  have hf : (Part.lexeme x).isModifier = false := by
    revert hx
    cases hk : x.kind <;> simp [Part.isModifier, hk, LexemeKind.isSign, LexemeKind.isModifier]
  obtain ⟨ho, rfl⟩ := setSign_ok hs
  have hno : level.hasOperator = false := by simpa [h.operators] using ho
  refine ⟨hno, ?_⟩
  exact {
    placed := by simpa [Part.placed?, hm] using h.placed
    signs := by simp [Part.isSign, hx]
    operators := by simp [Part.isOperator, hm, hno]
    subject := by simp [Level.subject_concat hf, hm, Scope.subject]
    operands := by rw [Level.operands_concat hf, Level.operands_unmarked hm, List.append_nil, ← h.operands] }

theorem Tracks.addOperator (h : Tracks level s) {op : Operator}
    (hx : (Part.lexeme x).mark? = some (.operator op)) (hs : s.addOperator op x.position = .ok s') :
    level.hasSign = false ∧ Tracks (level ++ [.lexeme x]) s' := by
  have hn : (Part.lexeme x).isSign = false := by
    revert hx
    cases hk : x.kind <;> simp [Part.mark?, Part.isSign, hk, LexemeKind.isSign]
  have hf : (Part.lexeme x).isModifier = false := by
    revert hx
    cases hk : x.kind <;> simp [Part.mark?, Part.isModifier, hk, LexemeKind.isModifier]
  obtain ⟨ho, rfl⟩ := addOperator_ok hs
  have hno : level.hasSign = false := by simpa [h.signs] using ho
  refine ⟨hno, ?_⟩
  exact {
    placed := by simp [h.placed, Part.placed?, hx, Item.placed, Mark.placed, Part.position]
    signs := by simp [hn, hno]
    operators := by simp [Part.isOperator, hx]
    subject := by simp [Level.subject_concat hf, hx, Scope.subject, Item.mark, Mark.entry?]
    operands := by
      rw [Level.operands_concat hf, Level.operands_operator hx, ← h.operands, List.map_append]
      rfl }

/-- Behind a modifier only an operand may be another one. -/
private theorem Tracks.behind_modifier (h : Tracks level s) {part : Part} (hp : part.isModifier = true)
    (hplaced : s'.items.map Item.placed = s.items.map Item.placed) (hstyle : s'.style = s.style)
    (hsubject : s'.subject = s.subject) (ho : s'.items.map Item.operand = Level.operands (level ++ [part])) :
    Tracks (level ++ [part]) s' where
  placed := by simp [hplaced, h.placed, Part.placed?, Level.mark?_of_isModifier hp]
  signs := by simp [hstyle, h.signs, Level.isSign_of_isModifier hp]
  operators := by simp [hstyle, h.operators, Part.isOperator, Level.mark?_of_isModifier hp]
  subject := by rw [Level.subject_concat_modifier hp, hsubject, h.subject]
  operands := ho

theorem Tracks.modifier (h : Tracks level s) {part : Part} (hp : part.isModifier = true)
    (ho : Level.operands (level ++ [part]) = level.operands) : Tracks (level ++ [part]) s :=
  h.behind_modifier hp rfl rfl rfl (h.operands.trans ho.symm)

/-- A modifier that is applied has changed the last operand of the level, or none. -/
theorem Tracks.modifyLast (h : Tracks level s) {part : Part} (hp : part.isModifier = true) {misplaced : Error}
    {change : Entry → Except Error Entry} (hs : s.modifyLast misplaced change = .ok s')
    (hc : ∀ e e', change e = .ok e' → e'.loosens = e.loosens)
    (ho : ∀ others e e', level.operands = others ++ [.literal e.operand] → change e = .ok e' →
      Level.operands (level ++ [part]) = others ++ [.literal e'.operand]) : Tracks (level ++ [part]) s' := by
  obtain ⟨hf, hn, items, entry, sign, entry', hi, he, rfl⟩ := modifyLast_ok hs
  have hl := hc entry entry' he
  have hlast : level.operands = items.map Item.operand ++ [.literal entry.operand] := by
    rw [← h.operands, hi, List.map_append]
    rfl
  refine h.behind_modifier hp ?_ rfl ?_ ?_
  · simp [hi, Item.placed, hl]
  · simp [Scope.subject, hf, hn, hi, Item.mark, hl]
  · rw [ho _ entry entry' hlast he, List.map_append]
    rfl

private theorem subject_of_modifyLast {misplaced : Error} {change : Entry → Except Error Entry}
    (h : s.modifyLast misplaced change = .ok s') :
    ∃ entry entry', s.subject = some entry.loosens ∧ change entry = .ok entry' := by
  obtain ⟨hf, hn, items, entry, sign, entry', hi, he, -⟩ := modifyLast_ok h
  exact ⟨entry, entry', by simp [Scope.subject, hf, hn, hi, Item.mark, Mark.entry?], he⟩

/-- A modifier fails where it has nothing to change, or because of what it changes. -/
private theorem modifyLast_error {misplaced e : Error} {change : Entry → Except Error Entry}
    (h : s.modifyLast misplaced change = .error e) :
    (e = misplaced ∧ s.subject = none) ∨
      ∃ entry, s.subject = some entry.loosens ∧ change entry = .error e := by
  unfold Scope.modifyLast at h
  by_cases hp : (s.pendingField.isSome || s.pendingSign.isSome) = true
  · simp only [hp, if_true] at h
    cases h
    exact .inl ⟨rfl, by simp [Scope.subject, hp]⟩
  simp only [hp, Bool.false_eq_true, if_false] at h
  split at h
  · rename_i entry sign hl
    exact .inr ⟨entry, by simp [Scope.subject, hp, hl, Item.mark, Mark.entry?], map_eq_error.1 h⟩
  · rename_i hl
    cases h
    refine .inl ⟨rfl, ?_⟩
    unfold Scope.subject
    rw [if_neg hp]
    cases hi : s.items.getLast? with
    | none => rfl
    | some item =>
      cases item with
      | entry entry sign => exact absurd hi (hl entry sign)
      | operator op position => rfl

/-- A level is loosened by the similarity that its last modifiers ask for. -/
theorem Tracks.loosen (h : Tracks level s) {parameter : Option Float32} (hs : s.loosen parameter = .ok s')
    {before mods : List Part} (hl : level = before ++ mods) (hm : ∀ part ∈ mods, part.isModifier = true)
    (hx : (Part.lexeme x).isModifier = true)
    (hv : Level.similarity? (mods ++ [.lexeme x]) = some (parameter.getD defaultSimilarity)) :
    level.subject = some true ∧ Tracks (level ++ [.lexeme x]) s' := by
  subst hl
  obtain ⟨entry, entry', hsub, he⟩ := subject_of_modifyLast hs
  have hsubject : Level.subject (before ++ mods) = some true := by rw [← h.subject, hsub, (Entry.loosen_ok he).1]
  refine ⟨hsubject, h.modifyLast hx hs ?_ ?_⟩
  · intro e e' hl
    rw [(Entry.loosen_ok hl).1, (Entry.loosen_ok hl).2]
  · intro others e e' ho hl
    rw [Level.subject_append_modifiers hm] at hsubject
    rw [Entry.operand_loosen hl, List.append_assoc]
    exact Level.operands_loosen hsubject hm ho (List.forall_mem_append.2 ⟨hm, List.forall_mem_singleton.2 hx⟩) hv

theorem Tracks.boost (h : Tracks level s) {factor : Float32} (hs : s.boost factor = .ok s')
    (hx : (Part.lexeme x).isModifier = true) (ho : Level.operands (level ++ [.lexeme x]) = level.operands) :
    level.subject.isSome ∧ Tracks (level ++ [.lexeme x]) s' := by
  obtain ⟨entry, entry', hsub, he⟩ := subject_of_modifyLast hs
  refine ⟨?_, h.modifyLast hx hs ?_ ?_⟩
  · rw [← h.subject, hsub]
    rfl
  · rintro e _ ⟨⟩
    exact e.loosens_multiplyBoost factor
  · rintro others e _ hlast ⟨⟩
    rw [ho, hlast, Entry.operand_multiplyBoost]

theorem Tracks.loosen_error (h : Tracks level s) {parameter : Option Float32} {e : Error}
    (hs : s.loosen parameter = .error e) : e.Unplaced ∧ level.subject ≠ some true := by
  rw [← h.subject]
  rcases modifyLast_error hs with ⟨rfl, hsub⟩ | ⟨entry, hsub, he⟩
  · exact ⟨⟨.syntactic _ _, rfl, by decide⟩, by simp [hsub]⟩
  · obtain ⟨hu, hl⟩ := Entry.loosen_error he
    exact ⟨hu, by simp [hsub, hl]⟩

theorem Tracks.boost_error (h : Tracks level s) {factor : Float32} {e : Error}
    (hs : s.boost factor = .error e) : e.Unplaced ∧ level.subject = none := by
  rw [← h.subject]
  rcases modifyLast_error hs with ⟨rfl, hsub⟩ | ⟨entry, hsub, he⟩
  · exact ⟨⟨.syntactic _ _, rfl, by decide⟩, hsub⟩
  · cases he

private theorem unplaced_mixedStyles : mixedStyles.Unplaced := ⟨.syntactic _ _, rfl, by decide⟩

theorem Tracks.setSign_error (h : Tracks level s) {sign : Occur} {e : Error}
    (hs : s.setSign sign = .error e) : e.Unplaced ∧ level.hasOperator = true := by
  obtain ⟨ho, rfl⟩ := Scope.setSign_error hs
  exact ⟨unplaced_mixedStyles, h.operators.1 ho⟩

theorem Tracks.addOperator_error (h : Tracks level s) {op : Operator} {position : Nat} {e : Error}
    (hs : s.addOperator op position = .error e) : e.Unplaced ∧ level.hasSign = true := by
  obtain ⟨ho, rfl⟩ := Scope.addOperator_error hs
  exact ⟨unplaced_mixedStyles, h.signs.1 ho⟩

/-- How an expression ends behind a mark. -/
private def endingOf : Option Mark → Ending
  | none => .nothing
  | some (.entry _) => .literal
  | some (.operator op) => .operator op

private theorem continues_endingOf {last : Option Mark} {op : Operator} {rest : List Mark} :
    Level.OperatorsFollow last (.operator op :: rest) ↔
      Expression.Continues (endingOf last) op ∧ Level.OperatorsFollow (some (.operator op)) rest := by
  cases op with
  | not =>
    cases last with
    | none => simp [Level.OperatorsFollow, Expression.Continues, endingOf]
    | some mark => cases mark <;> simp [Level.OperatorsFollow, Expression.Continues, endingOf]
  | and | or =>
    cases last with
    | none => simp [Level.OperatorsFollow, Expression.Continues, endingOf]
    | some mark => cases mark <;> simp [Level.OperatorsFollow, Expression.Continues, endingOf]

private theorem readExpression_ok {items : List Item} {last : Option Mark} {y y' : Expression Entry}
    (hy : y.ending = endingOf last) (h : readExpression y items = .ok y') :
    Level.OperatorsFollow last (items.map Item.mark) ∧
      y'.ending = endingOf ((items.map Item.mark).getLast?.or last) := by
  induction items generalizing last y with
  | nil =>
    cases h
    exact ⟨trivial, hy⟩
  | cons item rest ih =>
    cases item with
    | entry entry sign =>
      have hl : (y.addLiteral entry).ending = endingOf (some (.entry entry.loosens)) := rfl
      obtain ⟨hf, he⟩ := ih hl h
      refine ⟨hf, ?_⟩
      rw [he]
      cases hl : (rest.map Item.mark).getLast? <;> simp [Item.mark, List.getLast?_cons, hl]
    | operator op position =>
      simp only [readExpression] at h
      split at h
      · cases h
      rename_i y₁ ho
      obtain ⟨hc, hn⟩ := Expression.addOperator_continues ho
      have hl : y₁.ending = endingOf (some (.operator op)) := hn
      obtain ⟨hf, he⟩ := ih hl h
      refine ⟨continues_endingOf.2 ⟨hy ▸ hc, hf⟩, ?_⟩
      rw [he]
      cases hl : (rest.map Item.mark).getLast? <;> simp [Item.mark, List.getLast?_cons, hl]

private theorem readExpression_stops {items : List Item} {last : Option Mark} {y : Expression Entry}
    {e : Error} (hy : y.ending = endingOf last) (h : readExpression y items = .error e) :
    ∃ before op position after, items = before ++ .operator op position :: after ∧
      e = Expression.literalExpected.locate position ∧
      Level.OperatorsFollow last (before.map Item.mark) ∧
      ¬Level.OperatorsFollow last ((before ++ [.operator op position]).map Item.mark) := by
  induction items generalizing last y with
  | nil => cases h
  | cons item rest ih =>
    cases item with
    | entry entry sign =>
      have hl : (y.addLiteral entry).ending = endingOf (some (.entry entry.loosens)) := rfl
      obtain ⟨before, op, position, after, rfl, he, hfollow, hstops⟩ := ih hl h
      exact ⟨.entry entry sign :: before, op, position, after, rfl, he, hfollow, hstops⟩
    | operator op position =>
      simp only [readExpression] at h
      split at h
      · rename_i f _ ho
        obtain ⟨hc, rfl, -⟩ := Expression.addOperator_stops ho
        cases h
        exact ⟨[], op, position, rest, rfl, rfl, trivial, fun hf => hc (hy ▸ (continues_endingOf.1 hf).1)⟩
      · rename_i y₁ ho
        obtain ⟨hc, hl⟩ := Expression.addOperator_continues ho
        have hl : y₁.ending = endingOf (some (.operator op)) := hl
        obtain ⟨before, op', position', after, rfl, he, hfollow, hstops⟩ := ih hl h
        refine ⟨.operator op position :: before, op', position', after, rfl, he,
          continues_endingOf.2 ⟨hy ▸ hc, hfollow⟩, fun hf => hstops (continues_endingOf.1 hf).2⟩

private theorem endingOf_eq_literal {last : Option Mark} :
    endingOf last = .literal ↔ ∃ loosens, last = some (.entry loosens) := by
  cases last with
  | none => simp [endingOf]
  | some mark => cases mark <;> simp [endingOf]

section expression
variable {y : Expression Entry}

private theorem Tracks.follow (h : Tracks level s) (hr : readExpression { junction := s.junction } s.items = .ok y) :
    Level.OperatorsFollow none level.marks ∧ y.ending = endingOf level.marks.getLast? := by
  have hstart : ({ junction := s.junction } : Expression Entry).ending = endingOf none := rfl
  have hread := readExpression_ok hstart hr
  rwa [h.marks, Option.or_none] at hread

private theorem Tracks.joined_of_literal (h : Tracks level s)
    (hr : readExpression { junction := s.junction } s.items = .ok y) (hl : y.ending = .literal) : level.Joined :=
  fun _ => ⟨(h.follow hr).1, endingOf_eq_literal.1 ((h.follow hr).2 ▸ hl)⟩

/-- An expression that ends too early ends with its last operator. -/
private theorem Tracks.offends_of_end (h : Tracks level s) (ho : level.hasOperator = true)
    (hr : readExpression { junction := s.junction } s.items = .ok y) (hl : y.ending ≠ .literal) :
    ∃ x, level.Offends x ∧ lastOperator? s.items = some x.position := by
  obtain ⟨hfollow, hend⟩ := h.follow hr
  rcases List.eq_nil_or_concat' s.items with hi | ⟨items, item, hi⟩
  · have hnone : level.marks = [] := by rw [← h.marks, hi, List.map_nil]
    obtain ⟨part, hpart, hop⟩ := List.any_eq_true.1 ho
    rw [Part.isOperator, List.filterMap_eq_nil_iff.1 hnone part hpart] at hop
    cases hop
  · cases item with
    | entry entry sign =>
      rw [← h.marks, hi, List.map_append, List.map_singleton, List.getLast?_concat] at hend
      exact absurd hend hl
    | operator op position =>
      obtain ⟨b, x, a, rfl, hx, rfl, hb, -, ha⟩ := h.exists_operator hi
      refine ⟨x, ⟨b, a, rfl, hx, ?_, .inr ⟨hfollow, ha.symm⟩⟩, by rw [hi, lastOperator?_append_operator]⟩
      rw [Level.marks_append] at hfollow
      exact Level.operatorsFollow_of_append hfollow

end expression

/-- An operand counts just if it is that of an entry the query of the level depends on. -/
theorem Tracks.counts_iff (h : Tracks level s) {operand : Operand} :
    level.Counts s.junction operand ↔ ∃ entry : Entry, entry.operand = operand ∧ s.Counts entry := by
  have hoperands : level.operands = (s.items.map Item.symbol).map (Expression.Symbol.map Entry.operand) := by
    rw [← h.operands, List.map_map]
    rfl
  unfold Level.Counts Counts
  by_cases ho : s.style = some .operators
  · rw [if_pos (h.operators.1 ho), hoperands, Expression.counts_map]
    simp only [ho, if_true]
  · rw [if_neg (mt h.operators.2 ho), ← h.operands]
    simp only [ho, if_false, List.mem_map]
    constructor
    · rintro ⟨item, hm, hitem⟩
      cases item with
      | operator => cases hitem
      | entry entry sign =>
        cases hitem
        exact ⟨entry, rfl, sign, hm⟩
    · rintro ⟨entry, rfl, sign, hm⟩
      exact ⟨_, hm, rfl⟩

theorem Tracks.refusesWord_iff (h : Tracks level s) {e : Error} :
    level.RefusesWord s.junction e ↔ ∃ entry, s.Counts entry ∧ entry.toQuery = .error e := by
  simp only [Level.RefusesWord, h.counts_iff, Entry.toQuery_eq_error]
  constructor
  · rintro ⟨value, ⟨entry, hoperand, hcounts⟩, he⟩
    exact ⟨entry, hcounts, value, hoperand, he⟩
  · rintro ⟨entry, hcounts, value, hoperand, he⟩
    exact ⟨value, ⟨entry, hoperand, hcounts⟩, he⟩

/-- A level has no query for the operator at which its expression fails, or else for one of its words. -/
theorem Tracks.toQuery_fails (h : Tracks level s) {e : Error} (hq : s.toQuery = .error e) :
    (level.RefusesWord s.junction e ∧ level.Joined) ∨
      ∃ x, level.Offends x ∧ e = Expression.literalExpected.locate x.position := by
  rw [h.refusesWord_iff]
  by_cases ho : s.style = some .operators
  · rw [toQuery, if_pos ho] at hq
    rcases expressionQuery_error hq with hr | ⟨y, hr, ⟨hl, rfl⟩ | ⟨cs, hfinish, hf⟩⟩
    · have hstart : ({ junction := s.junction } : Expression Entry).ending = endingOf none := rfl
      obtain ⟨before, op, position, after, hi, rfl, hfollow, hstops⟩ := readExpression_stops hstart hr
      obtain ⟨b, x, a, rfl, hx, rfl, hb, hbx, -⟩ := h.exists_operator hi
      exact .inr ⟨x, ⟨b, a, rfl, hx, hb ▸ hfollow, .inl (hbx ▸ hstops)⟩, rfl⟩
    · obtain ⟨x, hx, hlast⟩ := h.offends_of_end (h.operators.1 ho) hr hl
      exact .inr ⟨x, hx, by rw [hlast, Option.elim_some]⟩
    · exact .inl ⟨exists_counts_of_conjunctionQueries ho hr hfinish hf,
        h.joined_of_literal hr (Expression.ending_of_finish hfinish)⟩
  · rw [toQuery, if_neg ho] at hq
    obtain ⟨entry, sign, hm, he⟩ := signedClauses_error (map_eq_error.1 hq)
    refine .inl ⟨⟨entry, ?_, he⟩, fun hop => absurd (h.operators.2 hop) ho⟩
    rw [Counts, if_neg ho]
    exact ⟨sign, hm⟩

/-- A level that has a query is not refused for any of its words. -/
theorem Tracks.not_refusesWord (h : Tracks level s) {query : Query} (hq : s.toQuery = .ok query) (e : Error) :
    ¬level.RefusesWord s.junction e := by
  rw [h.refusesWord_iff]
  rintro ⟨entry, hcounts, he⟩
  obtain ⟨q, hok⟩ := hcounts.toQuery hq
  rw [he] at hok
  cases hok

/-- A level that has a query is joined as it must be. -/
theorem Tracks.joined (h : Tracks level s) {query : Query} (hq : s.toQuery = .ok query) : level.Joined := by
  intro ho
  rw [toQuery, if_pos (h.operators.2 ho), expressionQuery] at hq
  obtain ⟨y, hr, hq⟩ := bind_eq_ok.1 hq
  refine h.joined_of_literal hr ?_ ho
  by_contra hl
  rw [Expression.finish, if_neg hl] at hq
  cases hq

theorem Tracks.toQuery_error (h : Tracks level s) {e : Error} (hq : s.toQuery = .error e) :
    level.RefusesWord s.junction e ∨ (e.Syntactic ∧ ¬level.Joined) := by
  rcases h.toQuery_fails hq with ⟨hf, -⟩ | ⟨x, hx, rfl⟩
  · exact .inl hf
  · exact .inr ⟨.syntactic _ _, hx.not_joined⟩

/-- An expression that fails at an operator fails there whatever its entries are. -/
theorem Tracks.toQuery_of_offends (h : Tracks level s) (hx : level.Offends x) :
    s.toQuery = .error (Expression.literalExpected.locate x.position) := by
  cases hq : s.toQuery with
  | ok query => exact absurd (h.joined hq) hx.not_joined
  | error e =>
    rcases h.toQuery_fails hq with ⟨-, hj⟩ | ⟨y, hy, rfl⟩
    · exact absurd hj hx.not_joined
    · rw [hy.eq hx]

end Scope

end TextSearch
