import Mathlib.Data.List.Induction
import TextSearch.Proofs.Advance
import TextSearch.Proofs.Levels

/-! Which field name is in effect between two lexemes. It is a matter of the lexemes before, and the parser
follows it. -/
namespace TextSearch

/-- The field names that count behind some lexemes: the one for the next entry, and those that the open parentheses
took over from outside, the innermost first. -/
structure Naming where
  pending : Option String := none
  around : List (Option String) := []
  inRange : Bool := false

namespace Naming

/-- The field name in effect. -/
def field (n : Naming) : Option String := n.pending.or n.around.head?.join

/-- A field name counts up to the end of the next entry, also if that is a range or a group. -/
def next (n : Naming) (x : Lexeme) : Naming :=
  match x.kind with
  | .field => { n with pending := some x.text }
  | .word | .phrase => if n.inRange then n else { n with pending := none }
  | .closedStart | .openedStart => { n with inRange := true }
  | .closedEnd | .openedEnd => { n with pending := none, inRange := false }
  | .groupStart => { n with pending := none, around := n.field :: n.around }
  | .groupEnd => { n with pending := none, around := n.around.tail }
  | _ => n

def behind (xs : List Lexeme) : Naming := xs.foldl next {}

variable {n : Naming} {xs : List Lexeme} {name : String}

theorem behind_concat (xs : List Lexeme) (x : Lexeme) : behind (xs ++ [x]) = (behind xs).next x :=
  List.foldl_append

/-- All field names are those of lexemes. -/
structure TakenFrom (xs : List Lexeme) (n : Naming) : Prop where
  pending : ∀ name, n.pending = some name → ∃ x ∈ xs, x.kind = .field ∧ x.text = name
  around : ∀ name, some name ∈ n.around → ∃ x ∈ xs, x.kind = .field ∧ x.text = name

theorem TakenFrom.field (h : n.TakenFrom xs) (hn : n.field = some name) :
    ∃ x ∈ xs, x.kind = .field ∧ x.text = name := by
  rcases Option.or_eq_some_iff.1 hn with hn | ⟨-, hn⟩
  · exact h.pending name hn
  · refine h.around name (List.mem_of_mem_head? ?_)
    exact Option.join_eq_some_iff.1 hn

theorem TakenFrom.next (h : n.TakenFrom xs) (x : Lexeme) : (n.next x).TakenFrom (xs ++ [x]) := by
  have hmono {name : String} (h : ∃ y ∈ xs, y.kind = .field ∧ y.text = name) :
      ∃ y ∈ xs ++ [x], y.kind = .field ∧ y.text = name := by
    obtain ⟨y, hy, hfield⟩ := h
    exact ⟨y, List.mem_append_left _ hy, hfield⟩
  have hpending := fun name hn => hmono (h.pending name hn)
  have haround := fun name hn => hmono (h.around name hn)
  unfold Naming.next
  cases hk : x.kind with
  | field =>
    refine ⟨?_, haround⟩
    rintro name ⟨⟩
    exact ⟨x, by simp, hk, rfl⟩
  | word | phrase =>
    dsimp only
    split
    · exact ⟨hpending, haround⟩
    · exact ⟨nofun, haround⟩
  | groupStart =>
    refine ⟨nofun, fun name hn => ?_⟩
    rcases List.mem_cons.1 hn with hn | hn
    · exact hmono (h.field hn.symm)
    · exact haround name hn
  | groupEnd => exact ⟨nofun, fun name hn => haround name (List.mem_of_mem_tail hn)⟩
  | closedEnd | openedEnd => exact ⟨nofun, haround⟩
  | _ => exact ⟨hpending, haround⟩

theorem takenFrom_behind (xs : List Lexeme) : (behind xs).TakenFrom xs := by
  induction xs using List.reverseRecOn with
  | nil => exact ⟨nofun, nofun⟩
  | append_singleton xs x ih =>
    rw [behind_concat]
    exact ih.next x

end Naming

namespace Scope

/-- A level as it was, up to its items and what joins them. -/
structure SameNames (s s' : Scope) : Prop where
  pendingField : s'.pendingField = s.pendingField
  inheritedField : s'.inheritedField = s.inheritedField
  junction : s'.junction = s.junction

variable {s s' : Scope}

theorem sameNames_of_setSign {sign : Occur} (h : s.setSign sign = .ok s') : s.SameNames s' := by
  obtain ⟨-, rfl⟩ := setSign_ok h
  exact ⟨rfl, rfl, rfl⟩

theorem sameNames_of_addOperator {op : Operator} {position : Nat} (h : s.addOperator op position = .ok s') :
    s.SameNames s' := by
  obtain ⟨-, rfl⟩ := addOperator_ok h
  exact ⟨rfl, rfl, rfl⟩

theorem sameNames_of_modifyLast {misplaced : Error} {change : Entry → Except Error Entry}
    (h : s.modifyLast misplaced change = .ok s') : s.SameNames s' := by
  obtain ⟨-, -, items, entry, sign, entry', -, -, rfl⟩ := modifyLast_ok h
  exact ⟨rfl, rfl, rfl⟩

end Scope

namespace Parser

variable {p : Parser} {n : Naming} {m m' : Machine Progress} {r r' : Progress} {x : Lexeme}

/-- The parser knows the names in effect. A range has used its name up once its upper bound is read. -/
structure Follows (p : Parser) (n : Naming) (m : Machine Progress) : Prop where
  inRange : n.inRange = true ↔ m.phase ≠ .common
  pending : m.data.scope.pendingField =
    match m.phase with
    | .range _ .last => none
    | _ => n.pending
  around : (m.data.scope :: m.data.outer).map (·.inheritedField) = n.around ++ [none]
  junction : ∀ s ∈ m.data.scope :: m.data.outer, s.junction = p.config.defaultOperator

namespace Follows

theorem inheritedField (h : p.Follows n m) : m.data.scope.inheritedField = n.around.head?.join := by
  have haround := h.around
  cases hn : n.around with
  | nil =>
    rw [hn] at haround
    exact (List.cons.inj haround).1
  | cons name names =>
    rw [hn] at haround
    exact (List.cons.inj haround).1

theorem field (h : p.Follows n m) (hp : ∀ b, m.phase ≠ .range b .last) : m.data.scope.field = n.field := by
  have hpending : m.data.scope.pendingField = n.pending := by
    rw [h.pending]
    split
    · rename_i b hb
      exact absurd hb (hp b)
    · rfl
  rw [Scope.field, hpending, h.inheritedField, Naming.field]

/-- Whatever field the next entry would have, it is named among the lexemes. -/
theorem named (h : p.Follows n m) {xs : List Lexeme} (hn : n.TakenFrom xs) {name : String}
    (hf : m.data.scope.field = some name) : ∃ x ∈ xs, x.kind = .field ∧ x.text = name := by
  rcases Option.or_eq_some_iff.1 hf with hf | ⟨-, hf⟩
  · rw [h.pending] at hf
    split at hf
    · cases hf
    · exact hn.pending name hf
  · rw [h.inheritedField] at hf
    exact hn.around name (List.mem_of_mem_head? (Option.join_eq_some_iff.1 hf))

private theorem sameNames {s : Scope} (h : p.Follows n { data := r }) (hs : r.scope.SameNames s) :
    p.Follows n (Parser.behind .common x (r.withScope s)) where
  inRange := h.inRange
  pending := hs.pendingField.trans h.pending
  around := by
    have haround := h.around
    rw [List.map_cons, ← hs.inheritedField] at haround
    exact haround
  junction := by
    obtain ⟨hscope, houter⟩ := List.forall_mem_cons.1 h.junction
    exact List.forall_mem_cons.2 ⟨hs.junction.trans hscope, houter⟩

private theorem addEntry (h : p.Follows n { data := r }) (entry : Entry) :
    p.Follows { n with pending := none } (Parser.behind .common x (r.withScope (r.scope.addEntry entry))) where
  inRange := h.inRange
  pending := rfl
  around := h.around
  junction := by
    obtain ⟨hscope, houter⟩ := List.forall_mem_cons.1 h.junction
    exact List.forall_mem_cons.2 ⟨hscope, houter⟩

private theorem input (h : p.Follows n { data := r }) (hx : x.kind.isRangePart = false) (hi : p.input x r = .ok r') :
    p.Follows (n.next x) (Parser.behind .common x r') := by
  have hr := input_ok hi
  have hcommon : n.inRange = false := by simpa using mt h.inRange.1 (not_not.2 rfl)
  unfold Naming.next
  cases hk : x.kind with
  | word | phrase =>
    simp only [hk] at hr
    obtain ⟨field, rfl⟩ := hr
    dsimp only
    rw [if_neg (Bool.eq_false_iff.1 hcommon)]
    exact h.addEntry _
  | field =>
    simp only [hk] at hr
    subst hr
    obtain ⟨hscope, houter⟩ := List.forall_mem_cons.1 h.junction
    exact ⟨h.inRange, rfl, h.around, List.forall_mem_cons.2 ⟨hscope, houter⟩⟩
  | required | prohibited =>
    simp only [hk] at hr
    obtain ⟨s, hs, rfl⟩ := hr
    exact h.sameNames (Scope.sameNames_of_setSign hs)
  | and | or | not =>
    simp only [hk] at hr
    obtain ⟨s, hs, rfl⟩ := hr
    exact h.sameNames (Scope.sameNames_of_addOperator hs)
  | fuzzy =>
    simp only [hk] at hr
    obtain ⟨s, hs, rfl⟩ := hr
    exact h.sameNames (Scope.sameNames_of_modifyLast hs)
  | number =>
    simp only [hk] at hr
    obtain ⟨value, s, -, rfl, ⟨-, hs⟩ | ⟨-, hs⟩⟩ := hr
    · exact h.sameNames (Scope.sameNames_of_modifyLast hs)
    · exact h.sameNames (Scope.sameNames_of_modifyLast hs)
  | boost =>
    simp only [hk] at hr
    subst hr
    exact ⟨h.inRange, h.pending, h.around, h.junction⟩
  | groupStart =>
    simp only [hk] at hr
    subst hr
    refine ⟨h.inRange, rfl, ?_, ?_⟩
    · have hfield : r.scope.field = n.field := h.field (by simp)
      have haround := h.around
      exact congrArg₂ List.cons hfield haround
    · obtain ⟨hscope, houter⟩ := List.forall_mem_cons.1 h.junction
      exact List.forall_mem_cons.2 ⟨hscope, h.junction⟩
  | groupEnd =>
    simp only [hk] at hr
    obtain ⟨parent, outer, query, ho, -, rfl⟩ := hr
    obtain ⟨-, houter⟩ := List.forall_mem_cons.1 h.junction
    have haround := h.around
    simp only [ho] at haround houter
    refine ⟨h.inRange, rfl, ?_, ?_⟩
    · cases hn : n.around with
      | nil =>
        rw [hn] at haround
        cases (List.cons.inj haround).2
      | cons name names =>
        rw [hn] at haround
        exact (List.cons.inj haround).2
    · obtain ⟨hparent, houter⟩ := List.forall_mem_cons.1 houter
      exact List.forall_mem_cons.2 ⟨hparent, houter⟩
  | closedStart | closedEnd | openedStart | openedEnd | upTo => simp [hk, LexemeKind.isRangePart] at hx

/-- What the parser knows of the names stays right at every lexeme. -/
theorem advance (h : p.Follows n m) (hm : p.advance m x = .ok m') : p.Follows (n.next x) m' := by
  obtain ⟨target, r', hn, he, rfl⟩ := advance_ok hm
  obtain ⟨phase, r⟩ := m
  cases phase with
  | common =>
    rcases Phase.next_common hn with ⟨rfl, hx⟩ | ⟨b, hx, rfl⟩
    · exact h.input hx he
    · have hr : r' = r := by
        have hr := input_ok he
        cases b <;> simpa [hx, Brackets.opening] using hr
      subst hr
      have hnext : n.next x = { n with inRange := true } := by
        cases b <;> simp [Naming.next, hx, Brackets.opening]
      rw [hnext]
      exact ⟨by simp [Parser.behind], h.pending, h.around, h.junction⟩
  | range b part =>
    have hplace := Phase.next_range hn
    have hrange : n.inRange = true := h.inRange.2 (by simp)
    cases part with
    | start | first =>
      obtain ⟨hx, rfl⟩ := hplace
      cases he
      have hnext : n.next x = n := by simp [Naming.next, hx, hrange]
      rw [hnext]
      exact ⟨by simp [hrange, Parser.behind], h.pending, h.around, h.junction⟩
    | upTo =>
      obtain ⟨hx, rfl⟩ := hplace
      simp only [effect, addRange_eq] at he
      obtain ⟨entry, -, rfl⟩ := Lexeme.map_eq_ok.1 he
      have hnext : n.next x = n := by simp [Naming.next, hx, hrange]
      rw [hnext]
      obtain ⟨hscope, houter⟩ := List.forall_mem_cons.1 h.junction
      exact ⟨by simp [hrange, Parser.behind], rfl, h.around, List.forall_mem_cons.2 ⟨hscope, houter⟩⟩
    | last =>
      obtain ⟨hx, rfl⟩ := hplace
      cases he
      have hnext : n.next x = { n with pending := none, inRange := false } := by
        cases b <;> simp [Naming.next, hx, Brackets.closing]
      rw [hnext]
      exact ⟨by simp [Parser.behind], h.pending, h.around, h.junction⟩

end Follows

theorem follows_start (p : Parser) : p.Follows {} p.start where
  inRange := by simp [start]
  pending := rfl
  around := rfl
  junction := List.forall_mem_singleton.2 rfl

end Parser

end TextSearch
