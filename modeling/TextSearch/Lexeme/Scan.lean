import TextSearch.Error
import TextSearch.Lexeme.Basic

/-! Cutting a query string into lexemes. -/
namespace TextSearch.Lexeme

inductive Fault where
  | quoteInWord
  | trailingEscape
  | openPhrase
  | singleMark
  | looseFieldMark
  | looseModifier
  | badNumber
  deriving DecidableEq, Repr

def Fault.message : Fault → String
  | quoteInWord => "Quote within lexeme must be escaped by '\\' char."
  | trailingEscape => "Escape character '\\' at the end of query."
  | openPhrase => "Unterminated quoted phrase."
  | singleMark => "Two chars lexeme expected."
  | looseFieldMark => "Field mark ':' must follow field name."
  | looseModifier => "Lexeme modifier character can be followed only by number, white space or query syntax element."
  | badNumber => "Wrong number syntax."

def Fault.at (f : Fault) (position : Nat) : Error := .lexical f.message position

def isBlank (c : Char) : Bool :=
  c == ' ' || c == '\t' || c == '\r' || c == '\n'

/-- Characters that are a lexeme of their own wherever they stand unescaped. -/
def isMark (c : Char) : Bool :=
  [':', '(', ')', '[', ']', '\x7b', '\x7d', '!', '|', '&'].contains c

/-- Characters that end a word or a number. Signs do not: they count only where a lexeme starts. -/
def isDelimiter (c : Char) : Bool :=
  isBlank c || isMark c || c == '~' || c == '^'

/-- A word without escapes that is one of these in any letter case is a keyword. -/
def keyword? (text : List Char) : Option LexemeKind :=
  match text.map Char.toUpper with
  | ['A', 'N', 'D'] => some .and
  | ['O', 'R'] => some .or
  | ['N', 'O', 'T'] => some .not
  | ['T', 'O'] => some .upTo
  | _ => none

/-- Reads a word: its text without escapes, whether it had one, and what follows it. -/
def readWord (position : Nat) : List Char → Except Error (List Char × Bool × List Char)
  | [] => .ok ([], false, [])
  | ['\\'] => .error (Fault.trailingEscape.at (position + 1))
  | '\\' :: c :: rest =>
    (readWord (position + 2) rest).map fun (text, _, after) => (c :: text, true, after)
  | c :: rest =>
    if isDelimiter c then .ok ([], false, c :: rest)
    else if c == '"' then .error (Fault.quoteInWord.at position)
    else (readWord (position + 1) rest).map fun (text, escaped, after) => (c :: text, escaped, after)

def readPhrase? : List Char → Option (List Char × List Char)
  | [] | ['\\'] => none
  | '"' :: rest => some ([], rest)
  | '\\' :: c :: rest => (readPhrase? rest).map fun (text, after) => (c :: text, after)
  | c :: rest => (readPhrase? rest).map fun (text, after) => (c :: text, after)

def readNumber (position : Nat) (pointSeen : Bool) : List Char → Except Error (List Char × List Char)
  | [] => .ok ([], [])
  | c :: rest =>
    if c.isDigit then
      (readNumber (position + 1) pointSeen rest).map fun (text, after) => (c :: text, after)
    else if c == '.' && !pointSeen then
      (readNumber (position + 1) true rest).map fun (text, after) => (c :: text, after)
    else if isDelimiter c then .ok ([], c :: rest)
    else .error (Fault.badNumber.at position)

/-- The lexemes a modifier mark starts: itself and the number directly behind it. -/
def readModifier (kind : LexemeKind) (mark : Char) (position : Nat) (rest : List Char) :
    Except Error (List Lexeme × List Char) :=
  let modifier : Lexeme := ⟨kind, mark.toString, position⟩
  match rest with
  | [] => .ok ([modifier], [])
  | c :: _ =>
    if isDelimiter c then .ok ([modifier], rest)
    else if c.isDigit || c == '.' then
      match readNumber (position + 1) false rest with
      | .error e => .error e
      | .ok (text, after) =>
        if text.any Char.isDigit then
          .ok ([modifier, ⟨.number, String.ofList text, position + 1⟩], after)
        else .error (Fault.badNumber.at (position + 1))
    else .error (Fault.looseModifier.at (position + 1))

/-- What one step of the scan finds. A field mark turns the word before it into a field. -/
inductive Piece where
  | blank
  | fieldMark
  | lexemes (found : List Lexeme)

def single (kind : LexemeKind) (c : Char) (position : Nat) : Piece :=
  .lexemes [⟨kind, c.toString, position⟩]

def doubled (kind : LexemeKind) (c : Char) (position : Nat) :
    List Char → Except Error (Piece × List Char)
  | d :: rest =>
    if d == c then .ok (.lexemes [⟨kind, String.ofList [c, c], position⟩], rest)
    else .error (Fault.singleMark.at position)
  | [] => .error (Fault.singleMark.at position)

def readPiece (position : Nat) (c : Char) (rest : List Char) : Except Error (Piece × List Char) :=
  if isBlank c then .ok (.blank, rest)
  else match c with
  | '"' =>
    match readPhrase? rest with
    | some (text, after) => .ok (.lexemes [⟨.phrase, String.ofList text, position⟩], after)
    | none => .error (Fault.openPhrase.at position)
  | '+' => .ok (single .required c position, rest)
  | '-' => .ok (single .prohibited c position, rest)
  | '~' => (readModifier .fuzzy c position rest).map fun (found, after) => (.lexemes found, after)
  | '^' => (readModifier .boost c position rest).map fun (found, after) => (.lexemes found, after)
  | '(' => .ok (single .groupStart c position, rest)
  | ')' => .ok (single .groupEnd c position, rest)
  | '[' => .ok (single .closedStart c position, rest)
  | ']' => .ok (single .closedEnd c position, rest)
  | '\x7b' => .ok (single .openedStart c position, rest)
  | '\x7d' => .ok (single .openedEnd c position, rest)
  | '!' => .ok (single .not c position, rest)
  | '&' => doubled .and c position rest
  | '|' => doubled .or c position rest
  | ':' => .ok (.fieldMark, rest)
  | _ => (readWord position (c :: rest)).map fun (text, escaped, after) =>
    let kind := if escaped then .word else (keyword? text).getD .word
    (.lexemes [⟨kind, String.ofList text, position⟩], after)

theorem map_eq_ok {ε α β : Type} {f : α → β} {x : Except ε α} {b : β} :
    x.map f = .ok b ↔ ∃ a, x = .ok a ∧ f a = b := by
  cases x <;> simp [Except.map]

theorem readWord_length_le {position : Nat} {s text after : List Char} {escaped : Bool}
    (h : readWord position s = .ok (text, escaped, after)) : after.length ≤ s.length := by
  fun_induction readWord position s generalizing text escaped after with
  | case1 | case2 | case4 | case5 => grind
  | case3 | case6 => grind [map_eq_ok]

theorem readPhrase?_length_lt {s text after : List Char}
    (h : readPhrase? s = some (text, after)) : after.length < s.length := by
  fun_induction readPhrase? s generalizing text after <;> grind [Option.map_eq_some_iff]

theorem readNumber_length_le {position : Nat} {pointSeen : Bool} {s text after : List Char}
    (h : readNumber position pointSeen s = .ok (text, after)) : after.length ≤ s.length := by
  fun_induction readNumber position pointSeen s generalizing text after <;> grind [map_eq_ok]

theorem readModifier_length_le {kind : LexemeKind} {mark : Char} {position : Nat} {rest after : List Char}
    {found : List Lexeme} (h : readModifier kind mark position rest = .ok (found, after)) :
    after.length ≤ rest.length := by
  unfold readModifier at h
  repeat' split at h
  all_goals simp only [reduceCtorEq, Except.ok.injEq, Prod.mk.injEq] at h
  case _ => simp [← h.2]
  case _ => simp [← h.2]
  case _ hr _ => exact h.2 ▸ readNumber_length_le hr

/-- A word takes at least the character it starts with. -/
theorem readWord_cons_length_le {position : Nat} {c : Char} {rest text after : List Char} {escaped : Bool}
    (hc : isDelimiter c = false) (h : readWord position (c :: rest) = .ok (text, escaped, after)) :
    after.length ≤ rest.length := by
  unfold readWord at h
  split at h
  case h_1 | h_2 => simp_all
  case h_3 c' tail heq =>
    obtain ⟨rfl, rfl⟩ := List.cons.inj heq
    obtain ⟨⟨t, e, a⟩, hr, heq⟩ := map_eq_ok.1 h
    have := readWord_length_le hr
    grind
  case h_4 heq =>
    obtain ⟨rfl, rfl⟩ := List.cons.inj heq
    simp only [hc, Bool.false_eq_true, if_false] at h
    split at h
    · simp at h
    · obtain ⟨⟨t, e, a⟩, hr, heq⟩ := map_eq_ok.1 h
      have := readWord_length_le hr
      grind

theorem doubled_length_le {kind : LexemeKind} {c : Char} {position : Nat} {rest after : List Char}
    {piece : Piece} (h : doubled kind c position rest = .ok (piece, after)) :
    after.length ≤ rest.length := by
  unfold doubled at h
  grind

theorem readPiece_length_le {position : Nat} {c : Char} {rest after : List Char} {piece : Piece}
    (h : readPiece position c rest = .ok (piece, after)) : after.length ≤ rest.length := by
  unfold readPiece at h
  split at h
  · grind
  split at h
  case h_1 =>
    split at h
    case h_1 hr =>
      have := readPhrase?_length_lt hr
      grind
    case h_2 => simp at h
  case h_4 | h_5 =>
    obtain ⟨⟨found, a⟩, hr, heq⟩ := map_eq_ok.1 h
    simp only [Prod.mk.injEq] at heq
    exact heq.2 ▸ readModifier_length_le hr
  case h_13 | h_14 => exact doubled_length_le h
  case h_16 =>
    obtain ⟨⟨text, escaped, a⟩, hr, heq⟩ := map_eq_ok.1 h
    simp only [Prod.mk.injEq] at heq
    exact heq.2 ▸ readWord_cons_length_le (by simp_all [isDelimiter, isMark]) hr
  all_goals simp_all

/-- Reads pieces to the end; `done` holds the lexemes so far, the last one first. -/
def scan (position : Nat) (done : List Lexeme) (s : List Char) : Except Error (List Lexeme) :=
  match s with
  | [] => .ok done.reverse
  | c :: rest =>
    match h : readPiece position c rest with
    | .error e => .error e
    | .ok (piece, after) =>
      have := readPiece_length_le h
      let next := position + ((c :: rest).length - after.length)
      match piece with
      | .blank => scan next done after
      | .lexemes found => scan next (found.reverse ++ done) after
      | .fieldMark =>
        match done with
        | ⟨.word, text, start⟩ :: earlier => scan next (⟨.field, text, start⟩ :: earlier) after
        | _ => .error (Fault.looseFieldMark.at position)
  termination_by s.length
  decreasing_by all_goals simp; omega

def ofQuery (query : String) : Except Error (List Lexeme) :=
  scan 1 [] query.toList

end TextSearch.Lexeme
