import TextSearch.Number.Decimal
import TextSearch.Proofs.Conjunctions
import TextSearch.Proofs.Prefixes

/-! What the query of a level is made of: its entries, with the similarities its modifiers ask of words, and the
operators between them. -/
namespace TextSearch

/-- An entry, as far as its similarity goes. Only words have one, if they are loosened. -/
inductive Operand where
  | word (similarity : Option Float32)
  | other

def Operand.loosen (value : Float32) : Operand → Operand
  | word _ => word (some value)
  | other => other

namespace Entry

def operand : Entry → Operand
  | term _ _ similarity _ => .word similarity
  | phrase .. | subquery .. => .other

variable {entry entry' : Entry}

theorem operand_loosen {parameter : Option Float32} (h : entry.loosen parameter = .ok entry') :
    entry'.operand = entry.operand.loosen (parameter.getD defaultSimilarity) := by
  cases entry with
  | term | phrase =>
    cases h
    rfl
  | subquery => cases h

@[simp] theorem operand_multiplyBoost (factor : Float32) (entry : Entry) :
    (entry.multiplyBoost factor).operand = entry.operand := by
  cases entry <;> rfl

/-- Only words are refused, and only for their similarity. -/
theorem toQuery_eq_error {e : Error} : entry.toQuery = .error e ↔
    ∃ value, entry.operand = .word (some value) ∧ FuzzyQuery.checkSimilarity value = .error e := by
  cases entry with
  | term word field similarity boost =>
    cases similarity with
    | none => simp [toQuery, operand]
    | some value => simp [toQuery, operand, map_eq_error]
  | phrase | subquery => simp [toQuery, operand]

end Entry

def Item.operand (item : Item) : Expression.Symbol Operand := item.symbol.map Entry.operand

namespace Level

open TextSearch.Part
open TextSearch.Expression (Symbol)

/-- The similarity a `~` asks for before these parts: the number directly behind it, and else the default. -/
def distance : List Part → Float32
  | .lexeme x :: _ =>
    if x.kind = .number then (Decimal.read? x.text.toList).getD defaultSimilarity else defaultSimilarity
  | _ => defaultSimilarity

/-- The similarity that the modifiers ask for with which parts begin. The last `~` among them counts. -/
def similarity? : List Part → Option Float32
  | .lexeme x :: rest =>
    match x.kind with
    | .fuzzy => some ((similarity? rest).getD (distance rest))
    | .boost | .number => similarity? rest
    | _ => none
  | _ => none

/-- An entry as an operand, with the parts behind it. -/
def operandOf : Part → List Part → Operand
  | .lexeme x, rest => if x.kind = .word then .word (similarity? rest) else .other
  | _, _ => .other

/-- The entries and the operators of a level. -/
def operands : Level → List (Symbol Operand)
  | [] => []
  | part :: rest =>
    match part.mark? with
    | some (.entry _) => .literal (operandOf part rest) :: operands rest
    | some (.operator op) => .operator op :: operands rest
    | none => operands rest

/-- An operand that the query of the level depends on. Without operators each of them does. -/
def Counts (junction : Junction) (level : Level) (operand : Operand) : Prop :=
  if level.hasOperator then Expression.Counts junction level.operands operand
  else .literal operand ∈ level.operands

/-- Failures of a level for the similarity of a word it depends on. -/
def RefusesWord (junction : Junction) (level : Level) (e : Error) : Prop :=
  ∃ value, level.Counts junction (.word (some value)) ∧ FuzzyQuery.checkSimilarity value = .error e

theorem RefusesWord.refusal {junction : Junction} {level : Level} {e : Error} (h : level.RefusesWord junction e) :
    e.Refusal := by
  obtain ⟨value, -, he⟩ := h
  exact FuzzyQuery.checkSimilarity_error he

/-- Parts that ask for nothing themselves, whatever they stand behind. -/
structure Inert (parts : List Part) : Prop where
  similarity : similarity? parts = none
  distance : Level.distance parts = defaultSimilarity

variable {level : Level} {parts tail mods : List Part} {part : Part} {x y : Lexeme}

theorem inert_of_not_modifier (h : part.isModifier = false) (rest : List Part) : Inert (part :: rest) := by
  cases part with
  | range | group => exact ⟨rfl, rfl⟩
  | lexeme x =>
    rw [isModifier] at h
    unfold LexemeKind.isModifier at h
    constructor
    · rw [similarity?]
      cases hk : x.kind <;> simp_all
    · rw [Level.distance, if_neg]
      rintro hk
      simp [hk] at h

theorem inert_boost (hx : x.kind = .boost) : Inert [.lexeme x] where
  similarity := by simp [similarity?, hx]
  distance := by simp [Level.distance, hx]

theorem inert_boost_number (hx : x.kind = .boost) (hy : y.kind = .number) : Inert [.lexeme x, .lexeme y] where
  similarity := by simp [similarity?, hx, hy]
  distance := by simp [Level.distance, hx]

theorem distance_append (h : Inert tail) : distance (parts ++ tail) = distance parts := by
  cases parts with
  | nil => exact h.distance
  | cons part parts => cases part <;> rfl

theorem similarity?_append (h : Inert tail) : similarity? (parts ++ tail) = similarity? parts := by
  induction parts with
  | nil => exact h.similarity
  | cons part parts ih =>
    cases part with
    | range | group => rfl
    | lexeme x =>
      rw [List.cons_append, similarity?, similarity?, ih, distance_append h]

theorem operandOf_append (h : Inert tail) (part : Part) :
    operandOf part (parts ++ tail) = operandOf part parts := by
  cases part with
  | range | group => rfl
  | lexeme x => rw [operandOf, operandOf, similarity?_append h]

/-- Parts that ask for nothing leave the operands before them as they are. -/
theorem operands_append (h : Inert tail) : operands (level ++ tail) = operands level ++ operands tail := by
  induction level with
  | nil => rfl
  | cons part level ih =>
    rw [List.cons_append, operands, operands, operandOf_append h, ih]
    split <;> rfl

theorem operands_concat (hp : part.isModifier = false) (level : Level) :
    operands (level ++ [part]) = operands level ++ operands [part] :=
  operands_append (inert_of_not_modifier hp [])

theorem operands_entry {loosens : Bool} (h : part.mark? = some (.entry loosens)) :
    operands [part] = [.literal (operandOf part [])] := by
  rw [operands, h]
  rfl

theorem operands_operator {op : Operator} (h : part.mark? = some (.operator op)) :
    operands [part] = [.operator op] := by
  rw [operands, h]
  rfl

theorem operands_unmarked (h : part.mark? = none) : operands [part] = [] := by
  rw [operands, h]
  rfl

theorem operands_modifiers (h : ∀ part ∈ mods, isModifier part = true) : operands mods = [] := by
  induction mods with
  | nil => rfl
  | cons part mods ih =>
    obtain ⟨hpart, hmods⟩ := List.forall_mem_cons.1 h
    rw [operands, mark?_of_isModifier hpart]
    exact ih hmods

theorem isModifier_boost (hx : x.kind = .boost) : (lexeme x).isModifier = true := by
  simp [isModifier, hx, LexemeKind.isModifier]

theorem isModifier_number (hx : x.kind = .number) : (lexeme x).isModifier = true := by
  simp [isModifier, hx, LexemeKind.isModifier]

theorem isModifier_fuzzy (hx : x.kind = .fuzzy) : (lexeme x).isModifier = true := by
  simp [isModifier, hx, LexemeKind.isModifier]

theorem operands_boost (hx : x.kind = .boost) (level : Level) : operands (level ++ [.lexeme x]) = operands level := by
  have hmods : operands [.lexeme x] = [] := operands_modifiers (List.forall_mem_singleton.2 (isModifier_boost hx))
  rw [operands_append (inert_boost hx), hmods, List.append_nil]

theorem operands_boost_number (hx : x.kind = .boost) (hy : y.kind = .number) (level : Level) :
    operands (level ++ [.lexeme x, .lexeme y]) = operands level := by
  have hmods : operands [.lexeme x, .lexeme y] = [] := operands_modifiers
    (List.forall_mem_cons.2 ⟨isModifier_boost hx, List.forall_mem_singleton.2 (isModifier_number hy)⟩)
  rw [operands_append (inert_boost_number hx hy), hmods, List.append_nil]

/-- What modifiers ask for last they ask for altogether. -/
theorem similarity?_of_modifiers (h : ∀ part ∈ mods, isModifier part = true) {value : Float32}
    (ht : similarity? tail = some value) : similarity? (mods ++ tail) = some value := by
  induction mods with
  | nil => exact ht
  | cons part mods ih =>
    obtain ⟨hpart, hmods⟩ := List.forall_mem_cons.1 h
    cases part with
    | range | group => cases hpart
    | lexeme x =>
      rw [List.cons_append, similarity?, ih hmods]
      revert hpart
      cases hk : x.kind <;> simp [isModifier, hk, LexemeKind.isModifier]

theorem similarity?_fuzzy (hx : x.kind = .fuzzy) : similarity? [.lexeme x] = some defaultSimilarity := by
  simp [similarity?, hx, Level.distance]

theorem similarity?_fuzzy_number (hx : x.kind = .fuzzy) (hy : y.kind = .number) {value : Float32}
    (hv : Decimal.read? y.text.toList = some value) : similarity? [.lexeme x, .lexeme y] = some value := by
  simp [similarity?, hx, hy, Level.distance, hv]

theorem operandOf_loosen {value : Float32} (h : similarity? tail = some value) (part : Part) :
    operandOf part tail = (operandOf part parts).loosen value := by
  cases part with
  | range | group => rfl
  | lexeme x =>
    rw [operandOf, operandOf, h]
    split <;> rfl

/-- A level whose modifiers have a subject ends with it and them. -/
theorem exists_subject {loosens : Bool} (h : level.subject = some loosens) :
    ∃ front part mods, level = front ++ part :: mods ∧ part.isModifier = false ∧
      part.mark? = some (.entry loosens) ∧ ∀ m ∈ mods, isModifier m = true := by
  induction level using List.reverseRecOn with
  | nil => cases h
  | append_singleton level last ih =>
    cases hlast : last.isModifier with
    | true =>
      rw [subject_concat_modifier hlast] at h
      obtain ⟨front, part, mods, rfl, hp, hm, hmods⟩ := ih h
      refine ⟨front, part, mods ++ [last], by simp, hp, hm, ?_⟩
      exact List.forall_mem_append.2 ⟨hmods, List.forall_mem_singleton.2 hlast⟩
    | false =>
      rw [subject_concat hlast] at h
      obtain ⟨mark, hm, hentry⟩ := Option.bind_eq_some_iff.1 h
      refine ⟨level, last, [], rfl, hlast, ?_, nofun⟩
      cases mark with
      | operator => cases hentry
      | entry =>
        cases hentry
        exact hm

/-- Modifiers loosen the last operand of their level. What they asked for before does not count. -/
theorem operands_loosen {loosens : Bool} (hs : level.subject = some loosens) {others : List (Symbol Operand)}
    {operand : Operand} (hm : ∀ part ∈ mods, isModifier part = true)
    (ho : operands (level ++ mods) = others ++ [.literal operand])
    (ht : ∀ part ∈ tail, isModifier part = true) {value : Float32} (hv : similarity? tail = some value) :
    operands (level ++ tail) = others ++ [.literal (operand.loosen value)] := by
  obtain ⟨front, part, behind, rfl, hp, hmark, hbehind⟩ := exists_subject hs
  have hread {mods : List Part} (hm : ∀ part ∈ mods, isModifier part = true) :
      operands (front ++ part :: behind ++ mods) = operands front ++ [.literal (operandOf part (behind ++ mods))] := by
    have hmods := operands_modifiers (List.forall_mem_append.2 ⟨hbehind, hm⟩)
    rw [List.append_assoc, List.cons_append, operands_append (inert_of_not_modifier hp _), operands, hmark, hmods]
  rw [hread hm] at ho
  obtain ⟨rfl, hoperand⟩ := List.append_singleton_inj.1 ho
  cases hoperand
  rw [hread ht, operandOf_loosen (similarity?_of_modifiers hbehind hv)]

end Level

end TextSearch
