import TextSearch.Grammar.Expression
import TextSearch.Grammar.Phase
import TextSearch.Lexeme.Basic

/-! Which lists of lexemes are queries. -/
namespace TextSearch

namespace Brackets

def opening : Brackets → LexemeKind
  | closed => .closedStart
  | opened => .openedStart

def closing : Brackets → LexemeKind
  | closed => .closedEnd
  | opened => .openedEnd

end Brackets

namespace LexemeKind

/-- Kinds that have a place of their own only in a range. -/
def isRangePart : LexemeKind → Bool
  | closedStart | closedEnd | openedStart | openedEnd | upTo => true
  | _ => false

/-- Kinds that stand by themselves, neither in a range nor around a group. -/
def isLoose (kind : LexemeKind) : Bool :=
  !kind.isRangePart && kind != groupStart && kind != groupEnd

def isSign (kind : LexemeKind) : Bool := kind == required || kind == prohibited

/-- Kinds that say something about the entry before them. -/
def isModifier (kind : LexemeKind) : Bool := kind == fuzzy || kind == boost || kind == number

end LexemeKind

namespace Lexeme

/-- Parentheses match, with `depth` of them open before. -/
def Balanced (depth : Nat) : List Lexeme → Prop
  | [] => depth = 0
  | x :: rest =>
    match x.kind with
    | .groupStart => Balanced (depth + 1) rest
    | .groupEnd => 0 < depth ∧ Balanced (depth - 1) rest
    | _ => Balanced depth rest

/-- Every opening bracket of a range is followed by word, keyword, word and its closing bracket, which
stand nowhere else. -/
inductive RangesComplete : List Lexeme → Prop where
  | nil : RangesComplete []
  | other {x : Lexeme} {rest : List Lexeme} : x.kind.isRangePart = false → RangesComplete rest →
      RangesComplete (x :: rest)
  | range {b : Brackets} {start lower upTo upper stop : Lexeme} {rest : List Lexeme} :
      start.kind = b.opening → lower.kind = .word → upTo.kind = .upTo → upper.kind = .word →
      stop.kind = b.closing → RangesComplete rest →
      RangesComplete (start :: lower :: upTo :: upper :: stop :: rest)

end Lexeme

/-- A part of a level: a lexeme by itself, a range, or a group with the level inside. -/
inductive Part where
  | lexeme (x : Lexeme)
  | range (start lower upTo upper stop : Lexeme)
  | group (opening : Lexeme) (inside : List Part) (closing : Lexeme)

/-- What operators and modifiers look at: entries, which may take a distance or not, and operators. -/
inductive Mark where
  | entry (loosens : Bool)
  | operator (op : Operator)
  deriving DecidableEq, Repr

def Mark.entry? : Mark → Option Bool
  | entry loosens => some loosens
  | operator _ => none

namespace Part

mutual

/-- The lexemes of a part. -/
def lexemes : Part → List Lexeme
  | lexeme x => [x]
  | range start lower upTo upper stop => [start, lower, upTo, upper, stop]
  | group opening inside closing => opening :: (lexemesOf inside ++ [closing])

def lexemesOf : List Part → List Lexeme
  | [] => []
  | part :: rest => part.lexemes ++ lexemesOf rest

end

mutual

/-- Each lexeme is of the kind that belongs in its place. -/
def Shaped : Part → Prop
  | lexeme x => x.kind.isLoose = true
  | range start lower upTo upper stop => ∃ b : Brackets, start.kind = b.opening ∧ lower.kind = .word ∧
      upTo.kind = .upTo ∧ upper.kind = .word ∧ stop.kind = b.closing
  | group opening inside closing =>
      opening.kind = .groupStart ∧ AllShaped inside ∧ closing.kind = .groupEnd

def AllShaped : List Part → Prop
  | [] => True
  | part :: rest => part.Shaped ∧ AllShaped rest

end

mutual

/-- The levels inside a part. -/
def levels : Part → List (List Part)
  | group _ inside _ => inside :: levelsIn inside
  | lexeme _ | range .. => []

def levelsIn : List Part → List (List Part)
  | [] => []
  | part :: rest => part.levels ++ levelsIn rest

end

def isSign : Part → Bool
  | lexeme x => x.kind.isSign
  | _ => false

def isModifier : Part → Bool
  | lexeme x => x.kind.isModifier
  | _ => false

def mark? : Part → Option Mark
  | lexeme x =>
    match x.kind with
    | .word | .phrase => some (.entry true)
    | .and => some (.operator .and)
    | .or => some (.operator .or)
    | .not => some (.operator .not)
    | _ => none
  | range .. | group .. => some (.entry false)

def isOperator (part : Part) : Bool :=
  match part.mark? with
  | some (.operator _) => true
  | _ => false

end Part

/-- A level of brackets, which may be the whole query. -/
abbrev Level := List Part

namespace Level

open TextSearch.Part

def hasSign (level : Level) : Bool := level.any isSign

def hasOperator (level : Level) : Bool := level.any isOperator

/-- Entries are joined by signs or by operators. -/
def OneStyle (level : Level) : Prop := ¬(level.hasSign = true ∧ level.hasOperator = true)

/-- The entry a modifier behind the level would change, as whether it takes a distance: the last part that
is no modifier itself, if that is an entry. -/
def subject (level : Level) : Option Bool :=
  ((level.filter (!·.isModifier)).getLast?.bind mark?).bind Mark.entry?

/-- A distance belongs to a word or a phrase, a boost with its number to any entry. -/
def ModifiersPlaced (level : Level) : Prop :=
  ∀ before x after, level = before ++ lexeme x :: after →
    (x.kind = .fuzzy → subject before = some true) ∧
    (x.kind = .boost → ∀ y rest, after = lexeme y :: rest → y.kind = .number → (subject before).isSome)

/-- Conjunctions and disjunctions directly follow an entry, and no negation follows another one. -/
def OperatorsFollow (last : Option Mark) : List Mark → Prop
  | [] => True
  | .entry loosens :: rest => OperatorsFollow (some (.entry loosens)) rest
  | .operator .not :: rest =>
    last ≠ some (.operator .not) ∧ OperatorsFollow (some (.operator .not)) rest
  | .operator op :: rest =>
    (∃ loosens, last = some (.entry loosens)) ∧ OperatorsFollow (some (.operator op)) rest

def marks (level : Level) : List Mark := level.filterMap mark?

/-- A level with operators is an expression, which ends with an entry. -/
def Joined (level : Level) : Prop :=
  level.hasOperator = true →
    OperatorsFollow none level.marks ∧ ∃ loosens, level.marks.getLast? = some (.entry loosens)

/-- The rules for one level. -/
structure Regular (level : Level) : Prop where
  oneStyle : level.OneStyle
  modifiersPlaced : level.ModifiersPlaced
  joined : level.Joined

end Level

namespace Lexeme

/-- A query: ranges are complete, parentheses match, and the rules hold on each level. -/
structure WellFormed (xs : List Lexeme) : Prop where
  rangesComplete : RangesComplete xs
  balanced : Balanced 0 xs
  regular : ∃ level : Level, Part.AllShaped level ∧ Part.lexemesOf level = xs ∧
    ∀ l ∈ level :: Part.levelsIn level, Level.Regular l

/-- A level of a query, which is all of it or the inside of a pair of parentheses, and the lexemes up to its end. -/
inductive HasLevel (xs : List Lexeme) : List Lexeme → Level → Prop where
  | whole {level : Level} : Part.AllShaped level → Part.lexemesOf level = xs → HasLevel xs xs level
  | inside {before after : List Lexeme} {opening closing : Lexeme} {level : Level} : opening.kind = .groupStart →
      Part.AllShaped level → closing.kind = .groupEnd →
      before ++ opening :: Part.lexemesOf level ++ closing :: after = xs →
      HasLevel xs (before ++ opening :: Part.lexemesOf level) level

end Lexeme

namespace Part

@[simp] theorem lexemesOf_append (ps qs : List Part) :
    lexemesOf (ps ++ qs) = lexemesOf ps ++ lexemesOf qs := by
  induction ps with
  | nil => rfl
  | cons part rest ih => simp [lexemesOf, ih]

@[simp] theorem allShaped_append (ps qs : List Part) :
    AllShaped (ps ++ qs) ↔ AllShaped ps ∧ AllShaped qs := by
  induction ps with
  | nil => simp [AllShaped]
  | cons part rest ih => simp [AllShaped, ih, and_assoc]

@[simp] theorem levelsIn_append (ps qs : List Part) :
    levelsIn (ps ++ qs) = levelsIn ps ++ levelsIn qs := by
  induction ps with
  | nil => rfl
  | cons part rest ih => simp [levelsIn, ih]

end Part

namespace Lexeme

open TextSearch.Part

theorem RangesComplete.append {xs ys : List Lexeme} (hx : RangesComplete xs) (hy : RangesComplete ys) :
    RangesComplete (xs ++ ys) := by
  induction hx with
  | nil => exact hy
  | other hk _ ih => exact .other hk ih
  | range hs hl ht hu hc _ ih => exact .range hs hl ht hu hc ih

theorem balanced_opening {x : Lexeme} (hx : x.kind = .groupStart) (depth : Nat) (rest : List Lexeme) :
    Balanced depth (x :: rest) ↔ Balanced (depth + 1) rest := by
  rw [Balanced, hx]

theorem balanced_closing {x : Lexeme} (hx : x.kind = .groupEnd) (depth : Nat) (rest : List Lexeme) :
    Balanced depth (x :: rest) ↔ 0 < depth ∧ Balanced (depth - 1) rest := by
  rw [Balanced, hx]

theorem balanced_other {x : Lexeme} (hs : x.kind ≠ .groupStart) (he : x.kind ≠ .groupEnd) (depth : Nat)
    (rest : List Lexeme) : Balanced depth (x :: rest) ↔ Balanced depth rest := by
  rw [Balanced]
  revert hs he
  cases x.kind <;> simp

mutual

theorem rangesComplete_lexemes : ∀ {part : Part}, part.Shaped → RangesComplete part.lexemes
  | .lexeme x, h => by
    refine .other ?_ .nil
    unfold Shaped at h
    revert h
    cases x.kind <;> simp [LexemeKind.isLoose, LexemeKind.isRangePart]
  | .range .., h => by
    obtain ⟨b, hs, hl, ht, hu, hc⟩ := h
    exact .range hs hl ht hu hc .nil
  | .group opening inside closing, h => by
    obtain ⟨ho, hi, hc⟩ := h
    refine .other (by rw [ho]; rfl) ?_
    exact (rangesComplete_lexemesOf hi).append (.other (by rw [hc]; rfl) .nil)

theorem rangesComplete_lexemesOf : ∀ {ps : List Part}, AllShaped ps → RangesComplete (lexemesOf ps)
  | [], _ => .nil
  | _ :: _, h => (rangesComplete_lexemes h.1).append (rangesComplete_lexemesOf h.2)

end

mutual

theorem balanced_lexemes : ∀ {part : Part}, part.Shaped → ∀ (depth : Nat) (rest : List Lexeme),
    Balanced depth (part.lexemes ++ rest) ↔ Balanced depth rest
  | .lexeme x, h, depth, rest => by
    unfold Shaped at h
    exact balanced_other (by rintro hk; simp [hk, LexemeKind.isLoose] at h)
      (by rintro hk; simp [hk, LexemeKind.isLoose] at h) depth rest
  | .range .., h, depth, rest => by
    obtain ⟨b, hs, hl, ht, hu, hc⟩ := h
    simp only [lexemes, List.cons_append, List.nil_append]
    rw [balanced_other (by cases b <;> simp [hs, Brackets.opening])
        (by cases b <;> simp [hs, Brackets.opening]),
      balanced_other (by simp [hl]) (by simp [hl]), balanced_other (by simp [ht]) (by simp [ht]),
      balanced_other (by simp [hu]) (by simp [hu]),
      balanced_other (by cases b <;> simp [hc, Brackets.closing])
        (by cases b <;> simp [hc, Brackets.closing])]
  | .group opening inside closing, h, depth, rest => by
    obtain ⟨ho, hi, hc⟩ := h
    simp only [lexemes, List.cons_append, List.append_assoc, List.nil_append]
    rw [balanced_opening ho, balanced_lexemesOf hi, balanced_closing hc]
    simp

theorem balanced_lexemesOf : ∀ {ps : List Part}, AllShaped ps → ∀ (depth : Nat) (rest : List Lexeme),
    Balanced depth (lexemesOf ps ++ rest) ↔ Balanced depth rest
  | [], _, _, _ => .rfl
  | _ :: _, h, depth, rest => by
    rw [lexemesOf, List.append_assoc, balanced_lexemes h.1, balanced_lexemesOf h.2]

end

private theorem exists_levels {xs : List Lexeme} (hr : RangesComplete xs) : ∀ {depth : Nat},
    Balanced depth xs → ∃ (level : Level) (around : List (Lexeme × Level)), around.length = depth ∧
      xs = lexemesOf level ++ around.flatMap (fun (closing, l) => closing :: lexemesOf l) ∧
      AllShaped level ∧ ∀ outer ∈ around, outer.1.kind = .groupEnd ∧ AllShaped outer.2 := by
  induction hr with
  | nil =>
    intro depth hb
    exact ⟨[], [], hb.symm, rfl, trivial, nofun⟩
  | @other x rest hk hr ih =>
    intro depth hb
    by_cases hs : x.kind = .groupStart
    · obtain ⟨level, around, hlen, rfl, hl, ha⟩ := ih ((balanced_opening hs depth rest).1 hb)
      obtain ⟨⟨closing, after⟩, around, rfl⟩ := List.exists_cons_of_length_eq_add_one hlen
      rw [List.forall_mem_cons] at ha
      exact ⟨.group x level closing :: after, around, by simpa using hlen, by simp [lexemesOf, lexemes],
        ⟨⟨hs, hl, ha.1.1⟩, ha.1.2⟩, ha.2⟩
    by_cases he : x.kind = .groupEnd
    · obtain ⟨hd, hb⟩ := (balanced_closing he depth rest).1 hb
      obtain ⟨level, around, hlen, rfl, hl, ha⟩ := ih hb
      refine ⟨[], (x, level) :: around, ?_, by simp [lexemesOf], trivial, ?_⟩
      · simp only [List.length_cons]
        omega
      · exact List.forall_mem_cons.2 ⟨⟨he, hl⟩, ha⟩
    have hx : x.kind.isLoose = true := by simp [LexemeKind.isLoose, hk, hs, he]
    obtain ⟨level, around, hlen, rfl, hl, ha⟩ := ih ((balanced_other hs he depth rest).1 hb)
    exact ⟨.lexeme x :: level, around, hlen, rfl, ⟨hx, hl⟩, ha⟩
  | @range b start lower upTo upper stop rest hs hl ht hu hc hr ih =>
    intro depth hb
    have hp : (Part.range start lower upTo upper stop).Shaped := ⟨b, hs, hl, ht, hu, hc⟩
    obtain ⟨level, around, hlen, rfl, hl, ha⟩ := ih ((balanced_lexemes hp depth rest).1 hb)
    exact ⟨.range start lower upTo upper stop :: level, around, hlen, rfl, ⟨hp, hl⟩, ha⟩

/-- Complete ranges and parentheses that match are all it takes to have levels. -/
theorem exists_level_iff (xs : List Lexeme) :
    (∃ level : Level, AllShaped level ∧ lexemesOf level = xs) ↔ RangesComplete xs ∧ Balanced 0 xs := by
  constructor
  · rintro ⟨level, hl, rfl⟩
    have hb := balanced_lexemesOf hl 0 []
    rw [List.append_nil] at hb
    exact ⟨rangesComplete_lexemesOf hl, hb.2 rfl⟩
  · rintro ⟨hr, hb⟩
    obtain ⟨level, around, hlen, rfl, hl, -⟩ := exists_levels hr hb
    obtain rfl := List.length_eq_zero_iff.1 hlen
    exact ⟨level, hl, by simp⟩

end Lexeme

end TextSearch
