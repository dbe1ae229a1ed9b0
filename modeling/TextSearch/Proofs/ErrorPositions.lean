import TextSearch.Proofs.Literals
import TextSearch.Proofs.Partition
import TextSearch.Proofs.Suppression

/-! Where a query string is said to fail. Each failure is at a lexeme, or at the end of a query that is not finished;
an expression fails at an operator of its own level, however late that is noticed. -/
namespace TextSearch

open TextSearch.Part

/-- Hiding colons moves no character. -/
theorem GuardedQuery.length_text (query : String) : (ofQuery query).text.length = query.length := by
  have hlength := (Segment.hides_guarded (segments query)).length_eq
  rw [← text_toList, segments_flatMap_chars] at hlength
  simpa only [String.length_toList] using hlength.symm

theorem Lexeme.tokenize_error_at {query : String} {e : Error} (h : tokenize query = .error e) :
    e.LexicalIn 1 (query.length + 1) := by
  refine (scan_error_at (map_eq_error.1 h)).mono (Nat.le_refl 1) ?_
  rw [String.length_toList, GuardedQuery.length_text, Nat.add_comm]

namespace Parser

variable {p : Parser} {xs read : List Lexeme} {x : Lexeme} {level : Level} {m : Machine Progress} {e : Error}

theorem parseLexemes_points (hn : Lexeme.NumbersPlaced none xs) (h : p.parseLexemes xs = .error e)
    (hs : e.Syntactic) : Unfinished xs e ∨ ∃ x, PointsAt xs e x := by
  rcases parseLexemes_error hn h with hr | ⟨-, hpoints⟩
  · exact absurd hs hr.refusal.not_syntactic
  · exact hpoints

section between
variable {outer : List Scope} {rest : List Lexeme}

theorem finish_of_offends (h : At level [] [] m) (hx : level.Offends x) :
    finish m = .error (Expression.literalExpected.locate x.position) := by
  rw [finish, if_neg (not_not.2 h.phase), h.outer]
  exact h.tracks.toQuery_of_offends hx

theorem advance_of_offends {parent : Scope} {closing : Lexeme} (h : At level (parent :: outer) (closing :: rest) m)
    (hclosing : closing.kind = .groupEnd) (hx : level.Offends x) :
    p.advance m closing = .error (Expression.literalExpected.locate x.position) := by
  have hnext : m.phase.next closing.kind = some .common := by
    rw [h.phase, hclosing]
    rfl
  have heffect : p.effect m.phase closing m.data = .error (Expression.literalExpected.locate x.position) := by
    simp only [h.phase, effect, input, hclosing, Progress.closeGroup, h.outer]
    rw [h.tracks.toQuery_of_offends hx]
    rfl
  rw [advance_of_failure hnext heffect, Error.locate_locate]

end between

/-- An expression that fails does so at its operator, once the end of its level is reached. -/
theorem parseLexemes_of_offends (hn : Lexeme.NumbersPlaced none xs) (hl : Lexeme.HasLevel xs read level)
    (hx : level.Offends x) (hm : read.foldlM p.advance p.start = .ok m) :
    p.parseLexemes xs = .error (Expression.literalExpected.locate x.position) := by
  have hne : xs.isEmpty = false := by
    have hmem := (pointsAt_of_offends hl hx).mem
    cases xs with
    | nil => cases hmem
    | cons => rfl
  rw [parseLexemes, hne]
  rcases at_of_hasLevel hn hl hm with ⟨rfl, hend⟩ | ⟨parent, outer, closing, rest, hclosing, hxs, hend⟩
  · change (read.foldlM p.advance p.start).bind finish = _
    rw [hm]
    exact finish_of_offends hend hx
  · change (xs.foldlM p.advance p.start).bind finish = _
    rw [← hxs, List.foldlM_append, hm]
    change ((closing :: rest).foldlM p.advance m).bind finish = _
    rw [List.foldlM_cons, advance_of_offends hend hclosing hx]
    rfl

theorem parseStrict_of_lexemes {query : String} (h : Lexeme.tokenize query = .ok xs) :
    p.parseStrict query = p.parseLexemes xs := by
  rw [parseStrict, h]
  rfl

/-- What is not suppressed is how the query string fails. -/
theorem parseStrict_of_parse_error {query : String} (h : p.parse query = .error e) :
    p.parseStrict query = .error e := by
  unfold parse at h
  split at h
  · cases h
  · rename_i f hf
    split at h
    · cases h
    · cases h
      exact hf

theorem tokenize_of_lexical {query : String} (h : p.parseStrict query = .error e) (hl : e.Lexical) :
    Lexeme.tokenize query = .error e := by
  cases hxs : Lexeme.tokenize query with
  | error f =>
    rw [parseStrict, hxs] at h
    cases h
    rfl
  | ok xs =>
    rw [parseStrict_of_lexemes hxs] at h
    rcases parseLexemes_error (Lexeme.tokenize_numbersPlaced hxs) h with hr | ⟨hs, -⟩
    · have hrefusal := hr.refusal
      cases hl
      cases hrefusal
    · cases hl
      cases hs

theorem exists_lexemes_of_syntactic {query : String} (h : p.parseStrict query = .error e) (hs : e.Syntactic) :
    ∃ xs, Lexeme.tokenize query = .ok xs ∧ p.parseLexemes xs = .error e := by
  cases hxs : Lexeme.tokenize query with
  | error f =>
    rw [parseStrict, hxs] at h
    cases h
    have hlexical := Lexeme.tokenize_error hxs
    cases hs
    cases hlexical
  | ok xs =>
    rw [parseStrict_of_lexemes hxs] at h
    exact ⟨xs, rfl, h⟩

/-- A query string that is no list of lexemes fails at one of its characters or behind the last one. One that is
malformed is not finished, or fails at a lexeme; and an expression that is read to the end of its level fails at the
operator it cannot be read at, or at its last operator where nothing follows it. -/
theorem parse_error_positions (p : Parser) (query : String) :
    (∀ e, p.parse query = .error e → e.Lexical → e.LexicalIn 1 (query.length + 1)) ∧
      (∀ e, p.parseStrict query = .error e → e.Syntactic →
        ∃ xs, Lexeme.tokenize query = .ok xs ∧ (Unfinished xs e ∨ ∃ x, PointsAt xs e x)) ∧
      ∀ xs, Lexeme.tokenize query = .ok xs → ∀ read level x m, Lexeme.HasLevel xs read level → level.Offends x →
        read.foldlM p.advance p.start = .ok m →
          p.parseStrict query = .error (Expression.literalExpected.locate x.position) := by
  refine ⟨fun e h hlexical => ?_, fun e h hs => ?_, fun xs hxs read level x m hl hx hm => ?_⟩
  · exact Lexeme.tokenize_error_at (tokenize_of_lexical (parseStrict_of_parse_error h) hlexical)
  · obtain ⟨xs, hxs, hstrict⟩ := exists_lexemes_of_syntactic h hs
    exact ⟨xs, hxs, parseLexemes_points (Lexeme.tokenize_numbersPlaced hxs) hstrict hs⟩
  · rw [parseStrict_of_lexemes hxs]
    exact parseLexemes_of_offends (Lexeme.tokenize_numbersPlaced hxs) hl hx hm

/-- A level with nothing behind an operator, c AND. -/
def dangling : Level := [.lexeme ⟨.word, "c", 5⟩, .lexeme ⟨.and, "AND", 7⟩]

/-- The lexemes up to the end of such a level in a group inside another one, b ((c AND. -/
def danglingRead : List Lexeme :=
  [⟨.word, "b", 1⟩, ⟨.groupStart, "(", 3⟩] ++ ⟨.groupStart, "(", 4⟩ :: lexemesOf dangling

theorem nestedExpression_position :
    (∃ e, standardParser.parse "b |" = .error e ∧ e.Lexical ∧ e.LexicalIn 1 4) ∧
      standardParser.parseStrict "b ((c AND) d)" = .error (Expression.literalExpected.locate 7) ∧
      ∃ xs, Lexeme.tokenize "b ((c AND) d)" = .ok xs ∧
        (Unfinished xs (Expression.literalExpected.locate 7) ∨
          ∃ x, PointsAt xs (Expression.literalExpected.locate 7) x) := by
  obtain ⟨hlexical, -, -⟩ := parse_error_positions standardParser "b |"
  obtain ⟨-, hpoints, hoffends⟩ := parse_error_positions standardParser "b ((c AND) d)"
  have hsingle : standardParser.parse "b |" = .error (.lexical "Two chars lexeme expected." 3) :=
    failure?_eq_some.1 (by decide +kernel)
  have hxs : Lexeme.tokenize "b ((c AND) d)" =
      .ok (danglingRead ++ [⟨.groupEnd, ")", 10⟩, ⟨.word, "d", 12⟩, ⟨.groupEnd, ")", 13⟩]) :=
    toOption_eq_some.1 (by decide +kernel)
  have hshaped : AllShaped dangling := ⟨rfl, rfl, trivial⟩
  have hlevel : Lexeme.HasLevel (danglingRead ++ [⟨.groupEnd, ")", 10⟩, ⟨.word, "d", 12⟩, ⟨.groupEnd, ")", 13⟩])
      danglingRead dangling :=
    .inside rfl hshaped rfl rfl
  have hx : Level.Offends dangling ⟨.and, "AND", 7⟩ :=
    ⟨[.lexeme ⟨.word, "c", 5⟩], [], rfl, rfl, trivial, .inr ⟨⟨⟨true, rfl⟩, trivial⟩, rfl⟩⟩
  have hread : (danglingRead.foldlM standardParser.advance standardParser.start).toBool = true := by decide +kernel
  cases hm : danglingRead.foldlM standardParser.advance standardParser.start with
  | error e =>
    rw [hm] at hread
    cases hread
  | ok m =>
    have herror := hoffends _ hxs danglingRead dangling _ m hlevel hx hm
    exact ⟨⟨_, hsingle, .lexical _ _, hlexical _ hsingle (.lexical _ _)⟩, herror,
      hpoints _ herror (.syntactic _ _)⟩

end Parser

end TextSearch
