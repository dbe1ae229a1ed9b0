import TextSearch.Proofs.Advance
import TextSearch.Proofs.Literals

/-! A text with a backslash before every character is read as one word of just that text, whatever it holds. -/
namespace TextSearch

/-- The characters of a text with a backslash before each. -/
def escapeEach (s : List Char) : List Char := s.flatMap fun c => ['\\', c]

theorem toList_escapeAll (text : String) : (escapeAll text).toList = escapeEach text.toList := by
  rw [escapeAll, String.toList_ofList, escapeEach]

/-- Two characters in a row are never without a backslash. -/
theorem mem_of_infix_escapeEach {s part : List Char} (h : part <:+: escapeEach s) (hlength : 2 ≤ part.length) :
    '\\' ∈ part := by
  obtain ⟨d, e, part, rfl⟩ : ∃ d e others, part = d :: e :: others := by
    match part, hlength with
    | d :: e :: others, _ => exact ⟨d, e, others, rfl⟩
  induction s with
  | nil => cases List.infix_nil.1 h
  | cons c rest ih =>
    rcases List.infix_cons_iff.1 h with hfirst | h
    · rw [(List.cons_prefix_cons.1 hfirst).1]
      exact List.mem_cons_self
    rcases List.infix_cons_iff.1 h with hsecond | h
    · -- the next character escapes the one behind it
      have hnext := (List.cons_prefix_cons.1 hsecond).2
      cases rest with
      | nil => cases List.prefix_nil.1 hnext
      | cons => simp [(List.cons_prefix_cons.1 hnext).1]
    · exact ih h

/-- So no address shows in an escaped text, be it the text itself. -/
theorem hits_escapeAll (text : String) : Segment.hits (GuardedQuery.segments (escapeAll text)) = [] := by
  apply List.filterMap_eq_nil_iff.2
  intro segment hsegment
  cases segment with
  | gap => rfl
  | hit address =>
    have hm := GuardedQuery.matches_of_mem_segments hsegment
    have hinfix := GuardedQuery.infix_of_mem_segments hsegment
    rw [toList_escapeAll] at hinfix
    have hescape := mem_of_infix_escapeEach hinfix (Address.two_le_least.trans hm.least_le)
    exact absurd (hm.over Address.pattern_over _ hescape) (by decide)

namespace Lexeme

theorem readWord_escapeEach (position : Nat) (s : List Char) :
    readWord position (escapeEach s) = .ok (s, !s.isEmpty, []) := by
  induction s generalizing position with
  | nil => rfl
  | cons c rest ih =>
    have hcons : escapeEach (c :: rest) = '\\' :: c :: escapeEach rest := rfl
    rw [hcons, readWord, ih]
    rfl

/-- What starts with none of the marks, signs and quotes starts a word. -/
theorem readPiece_of_word {position : Nat} {c : Char} (hstart : isDelimiter c = false ∧ c ∉ ['"', '+', '-'])
    (rest : List Char) : readPiece position c rest =
      (readWord position (c :: rest)).map fun (text, escaped, after) =>
        (.lexemes [⟨if escaped then .word else (keyword? text).getD .word, String.ofList text, position⟩], after) := by
  unfold readPiece
  split
  · simp_all [isDelimiter]
  split
  case h_16 => rfl
  all_goals simp_all [isDelimiter, isMark]

/-- A query string that is read as a word up to its end is that word. -/
theorem ofQuery_of_readWord {query : String} {c : Char} {rest text : List Char} {escaped : Bool}
    (hquery : query.toList = c :: rest) (hstart : isDelimiter c = false ∧ c ∉ ['"', '+', '-'])
    (h : readWord 1 (c :: rest) = .ok (text, escaped, [])) :
    ofQuery query = .ok [⟨if escaped then .word else (keyword? text).getD .word, String.ofList text, 1⟩] := by
  have hpiece : readPiece 1 c rest =
      .ok (.lexemes [⟨if escaped then .word else (keyword? text).getD .word, String.ofList text, 1⟩], []) := by
    rw [readPiece_of_word hstart, h]
    rfl
  rw [ofQuery, hquery, scan]
  split
  case h_1 e he =>
    rw [hpiece] at he
    cases he
  case h_2 piece after hp =>
    rw [hpiece] at hp
    cases hp
    dsimp only
    rw [scan]
    rfl

theorem tokenize_escapeAll {text : String} (h : text ≠ "") :
    tokenize (escapeAll text) = .ok [⟨.word, text, 1⟩] := by
  obtain ⟨c, rest, htext⟩ := List.exists_cons_of_ne_nil (mt String.toList_eq_nil_iff.1 h)
  have hread : readWord 1 ('\\' :: c :: escapeEach rest) = .ok (c :: rest, true, []) :=
    readWord_escapeEach 1 (c :: rest)
  have hquery : (escapeAll text).toList = '\\' :: c :: escapeEach rest := by
    rw [toList_escapeAll, htext]
    rfl
  rw [tokenize_of_no_hits (hits_escapeAll text), ofQuery_of_readWord hquery (by decide) hread, ← htext,
    String.ofList_toList, if_pos rfl]

end Lexeme

namespace Parser

/-- A word on its own is the only clause of its query. -/
theorem parseLexemes_word {p : Parser} (hfield : p.config.requireExplicitField = false) (text : String)
    (position : Nat) : p.parseLexemes [⟨.word, text, position⟩] =
      .ok (.ofClauses [(.ofJunction p.config.defaultOperator, .rawTerm { word := text, field := none })] 1) := by
  have hentry : p.entryField p.start.data "A term without a specified field is not allowed." = .ok none := by
    simp [entryField, hfield, start, Scope.field, Config.resolveField, Config.checkField, Except.map]
  have heffect : p.effect .common ⟨.word, text, position⟩ p.start.data =
      .ok (p.start.data.withScope (p.start.data.scope.addEntry (.ofWord text none))) := by
    rw [effect, input]
    dsimp only
    rw [addWord, hentry]
    rfl
  have hadvance := advance_of_effect (m := p.start) (x := ⟨.word, text, position⟩) rfl heffect
  rw [parseLexemes, List.isEmpty_cons, if_neg Bool.false_ne_true, List.foldlM_cons, hadvance]
  rfl

/-- Escaping a text brings it through the whole of reading: it is one word, and its query looks for just that
word, joined by the default operator. -/
theorem parse_escapeAll {text : String} (h : text ≠ "") :
    Lexeme.tokenize (escapeAll text) = .ok [⟨.word, text, 1⟩] ∧
      ∀ p : Parser, p.config.requireExplicitField = false →
        p.parse (escapeAll text) = .ok {
          query := .ofClauses [(.ofJunction p.config.defaultOperator,
            .rawTerm { word := text, field := none, boost := 1 })] 1
          suppressed := none } := by
  have htokens := Lexeme.tokenize_escapeAll h
  refine ⟨htokens, fun p hfield => ?_⟩
  rw [parse, parseStrict, htokens, Except.bind, parseLexemes_word hfield]

/-- A keyword, an address, a quote, a backslash and the character that hides colons. -/
def addressAmongMarks : String := "AND fe80::1 \"\\ \ue000"

def titlesOnlyParser : Parser :=
  let c : Config := { defaultOperator := .and, allowedFields := ["title"] }
  { config := c, context := .ofConfig c (.ofConfig .bare c.analyzer) }

theorem addressAmongMarks_parse_escapeAll :
    Segment.hits (GuardedQuery.segments addressAmongMarks) = ["fe80::1".toList] ∧
      addressAmongMarks ≠ "" ∧ titlesOnlyParser.config.requireExplicitField = false ∧
      Lexeme.tokenize (escapeAll addressAmongMarks) = .ok [⟨.word, addressAmongMarks, 1⟩] ∧
      titlesOnlyParser.parse (escapeAll addressAmongMarks) = .ok {
        query := .ofClauses [(.required, .rawTerm { word := addressAmongMarks, field := none, boost := 1 })] 1
        suppressed := none } := by
  have hne : addressAmongMarks ≠ "" := by decide
  obtain ⟨htokens, hparse⟩ := parse_escapeAll hne
  exact ⟨by decide +kernel, hne, rfl, htokens, hparse titlesOnlyParser rfl⟩

end Parser

end TextSearch
