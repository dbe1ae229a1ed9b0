import Mathlib.Data.List.TakeWhile
import TextSearch.Lexeme.Literal
import TextSearch.Number.Decimal
import TextSearch.Proofs.Failures

/-! What holds of the lexemes of any query string, and of the failures to find them. -/
namespace TextSearch

namespace Decimal

/-- Digits, with or without a point among them. -/
def IsPlain (s : List Char) : Prop :=
  s.all Char.isDigit = true ∨
    ∃ whole decimals, s = whole ++ '.' :: decimals ∧ whole.all Char.isDigit = true ∧
      decimals.all Char.isDigit = true

theorem read?_isSome {s : List Char} (hs : IsPlain s) (hd : s.any Char.isDigit = true) :
    (read? s).isSome := by
  have hpoint : '.'.isDigit = false := by decide
  unfold read?
  rcases hs with hall | ⟨whole, decimals, rfl, hw, hf⟩
  · have ht : s.takeWhile Char.isDigit = s := List.takeWhile_eq_self_iff.2 (List.all_eq_true.1 hall)
    have hr : s.dropWhile Char.isDigit = [] := List.dropWhile_eq_nil_iff.2 (List.all_eq_true.1 hall)
    have hne : s ≠ [] := by
      rintro rfl
      cases hd
    simp [ht, hr, hne]
  · have ht : (whole ++ '.' :: decimals).takeWhile Char.isDigit = whole := by
      rw [List.takeWhile_append_of_pos (by simpa using hw), List.takeWhile_cons, hpoint]
      simp
    have hr : (whole ++ '.' :: decimals).dropWhile Char.isDigit = '.' :: decimals := by
      rw [List.dropWhile_append_of_pos (by simpa using hw), List.dropWhile_cons, hpoint]
      simp
    have hne : (whole.isEmpty && decimals.isEmpty) = false := by
      cases whole with
      | nil =>
        cases decimals with
        | nil => simp [hpoint] at hd
        | cons => rfl
      | cons => rfl
    simp [ht, hr, hf, hne]

theorem digit_or_point_of_read? {s : List Char} (h : (read? s).isSome) : ∀ c ∈ s, c.isDigit ∨ c = '.' := by
  intro c hc
  unfold read? at h
  rw [← List.takeWhile_append_dropWhile (p := Char.isDigit) (l := s), List.mem_append] at hc
  rcases hc with hc | hc
  · exact .inl (List.all_eq_true.1 List.all_takeWhile c hc)
  cases hr : s.dropWhile Char.isDigit with
  | nil =>
    rw [hr] at hc
    cases hc
  | cons d decimals =>
    simp only [hr] at h
    split at h
    · rename_i hw
      simp only [List.isEmpty_cons, List.head?_cons, Bool.false_or, List.drop_succ_cons, List.drop_zero,
        Bool.and_eq_true, beq_iff_eq, Option.some.injEq] at hw
      rw [hr] at hc
      rcases List.mem_cons.1 hc with rfl | hc
      · exact .inr hw.1.1
      · exact .inl (List.all_eq_true.1 hw.1.2 c hc)
    · cases h

end Decimal

namespace Lexeme

/-- A number directly follows the mark of a modifier and can be read. -/
def NumberPlaced (previous : Option LexemeKind) (x : Lexeme) : Prop :=
  x.kind = .number →
    (previous = some .fuzzy ∨ previous = some .boost) ∧ (Decimal.read? x.text.toList).isSome

/-- So do all numbers of a list behind some lexeme. -/
def NumbersPlaced (previous : Option LexemeKind) : List Lexeme → Prop
  | [] => True
  | x :: rest => NumberPlaced previous x ∧ NumbersPlaced (some x.kind) rest

theorem numbersPlaced_append {previous : Option LexemeKind} {xs ys : List Lexeme} :
    NumbersPlaced previous (xs ++ ys) ↔
      NumbersPlaced previous xs ∧ NumbersPlaced ((xs.getLast?.map Lexeme.kind).or previous) ys := by
  induction xs generalizing previous with
  | nil => simp [NumbersPlaced]
  | cons x rest ih =>
    simp only [List.cons_append, NumbersPlaced, ih, and_assoc]
    cases rest <;> simp [List.getLast?_cons]

theorem readNumber_isPlain {position : Nat} {pointSeen : Bool} {s text after : List Char}
    (h : readNumber position pointSeen s = .ok (text, after)) :
    (pointSeen = true → text.all Char.isDigit = true) ∧ Decimal.IsPlain text := by
  fun_induction readNumber position pointSeen s generalizing text after with
  | case1 =>
    cases h
    exact ⟨fun _ => rfl, .inl rfl⟩
  | case2 position pointSeen c rest hc ih =>
    obtain ⟨⟨t, a⟩, hr, heq⟩ := map_eq_ok.1 h
    cases heq
    obtain ⟨hs, hp⟩ := ih hr
    refine ⟨fun h => by simpa [hc] using hs h, ?_⟩
    rcases hp with hall | ⟨whole, decimals, rfl, hw, hd⟩
    · exact .inl (by simpa [hc] using hall)
    · exact .inr ⟨c :: whole, decimals, rfl, by simpa [hc] using hw, hd⟩
  | case3 position pointSeen c rest hc hpoint ih =>
    simp only [Bool.and_eq_true, beq_iff_eq, Bool.not_eq_true'] at hpoint
    obtain ⟨rfl, hseen⟩ := hpoint
    obtain ⟨⟨t, a⟩, hr, heq⟩ := map_eq_ok.1 h
    cases heq
    refine ⟨fun h => by simp [hseen] at h, .inr ⟨[], t, rfl, rfl, (ih hr).1 rfl⟩⟩
  | case4 =>
    cases h
    exact ⟨fun _ => rfl, .inl rfl⟩
  | case5 => cases h

theorem numbersPlaced_singleton {previous : Option LexemeKind} {x : Lexeme} (h : x.kind ≠ .number) :
    NumbersPlaced previous [x] :=
  ⟨fun hk => absurd hk h, trivial⟩

theorem readModifier_numbersPlaced {kind : LexemeKind} {mark : Char} {position : Nat}
    {rest after : List Char} {found : List Lexeme} (hk : kind = .fuzzy ∨ kind = .boost)
    (h : readModifier kind mark position rest = .ok (found, after)) (previous : Option LexemeKind) :
    NumbersPlaced previous found := by
  have hmark : kind ≠ .number := by rintro rfl; simp at hk
  unfold readModifier at h
  split at h
  · cases h
    exact numbersPlaced_singleton hmark
  split at h
  · cases h
    exact numbersPlaced_singleton hmark
  split at h
  · split at h
    · cases h
    rename_i text after' hr
    split at h
    · rename_i hd
      cases h
      refine ⟨fun hn => absurd hn hmark, ?_, trivial⟩
      intro _
      refine ⟨by simpa using hk, ?_⟩
      rw [String.toList_ofList]
      exact Decimal.read?_isSome (readNumber_isPlain hr).2 hd
    · cases h
  · cases h

private theorem keyword?_ne_number {text : List Char} : (keyword? text).getD .word ≠ .number := by
  unfold keyword?
  split <;> simp

theorem readPiece_numbersPlaced {position : Nat} {c : Char} {rest after : List Char} {found : List Lexeme}
    (h : readPiece position c rest = .ok (.lexemes found, after)) (previous : Option LexemeKind) :
    NumbersPlaced previous found := by
  unfold readPiece at h
  split at h
  · cases h
  split at h
  case h_1 =>
    split at h
    · cases h
      exact numbersPlaced_singleton nofun
    · cases h
  case h_4 =>
    obtain ⟨⟨found', a⟩, hr, heq⟩ := map_eq_ok.1 h
    cases heq
    exact readModifier_numbersPlaced (.inl rfl) hr previous
  case h_5 =>
    obtain ⟨⟨found', a⟩, hr, heq⟩ := map_eq_ok.1 h
    cases heq
    exact readModifier_numbersPlaced (.inr rfl) hr previous
  case h_13 | h_14 =>
    unfold doubled at h
    split at h
    · split at h
      · cases h
        exact numbersPlaced_singleton nofun
      · cases h
    · cases h
  case h_16 =>
    obtain ⟨⟨text, escaped, a⟩, hr, heq⟩ := map_eq_ok.1 h
    cases heq
    refine numbersPlaced_singleton ?_
    cases escaped with
    | true => nofun
    | false => exact keyword?_ne_number
  all_goals
    cases h
    try exact numbersPlaced_singleton nofun

theorem scan_numbersPlaced {position : Nat} {done : List Lexeme} {s : List Char} {xs : List Lexeme}
    (h : scan position done s = .ok xs) (hd : NumbersPlaced none done.reverse) : NumbersPlaced none xs := by
  fun_induction scan position done s with
  | case1 =>
    cases h
    exact hd
  | case2 | case6 => cases h
  | case3 _ _ _ _ _ _ _ _ _ ih => exact ih h hd
  | case4 position done c rest after next found hr _ _ ih =>
    refine ih h ?_
    rw [List.reverse_append, List.reverse_reverse]
    exact numbersPlaced_append.2 ⟨hd, readPiece_numbersPlaced hr _⟩
  | case5 position c rest after next hr text start earlier _ _ ih =>
    refine ih h ?_
    rw [List.reverse_cons] at hd ⊢
    exact numbersPlaced_append.2 ⟨(numbersPlaced_append.1 hd).1, numbersPlaced_singleton nofun⟩

theorem numbersPlaced_map {f : Lexeme → Lexeme} (hk : ∀ x, (f x).kind = x.kind)
    (ht : ∀ x, (Decimal.read? x.text.toList).isSome → (f x).text = x.text)
    {previous : Option LexemeKind} {xs : List Lexeme} (h : NumbersPlaced previous xs) :
    NumbersPlaced previous (xs.map f) := by
  induction xs generalizing previous with
  | nil => trivial
  | cons x rest ih =>
    refine ⟨?_, ?_⟩
    · intro hn
      obtain ⟨hp, hr⟩ := h.1 ((hk x).symm.trans hn)
      rw [ht x hr]
      exact ⟨hp, hr⟩
    · rw [hk x]
      exact ih h.2

/-- Showing hidden colons leaves numbers alone. -/
private theorem restoreText_of_read? {literals : List String} {text : String}
    (h : (Decimal.read? text.toList).isSome) : GuardedQuery.restoreText literals text = text := by
  have hc : hiddenColon ∉ text.toList := by
    intro hm
    rcases Decimal.digit_or_point_of_read? h hiddenColon hm with hd | hd
    · revert hd
      decide
    · revert hd
      decide
  simp [GuardedQuery.restoreText, hc]

theorem tokenize_numbersPlaced {query : String} {xs : List Lexeme} (h : tokenize query = .ok xs) :
    NumbersPlaced none xs := by
  obtain ⟨ys, hs, rfl⟩ := map_eq_ok.1 h
  refine numbersPlaced_map ?_ ?_ (scan_numbersPlaced hs trivial)
  · intro x
    rfl
  · intro x hx
    exact restoreText_of_read? hx

/-- A word has characters, and so does the name of a field. -/
def Named (x : Lexeme) : Prop := x.kind = .word ∨ x.kind = .field → x.text.isEmpty = false

theorem named_of_ne {kind : LexemeKind} {text : String} {position : Nat} (hw : kind ≠ .word)
    (hf : kind ≠ .field) : ∀ x ∈ [(⟨kind, text, position⟩ : Lexeme)], x.Named :=
  List.forall_mem_singleton.2 fun h => absurd h (not_or.2 ⟨hw, hf⟩)

theorem readWord_ne_nil {position : Nat} {c : Char} {rest text after : List Char} {escaped : Bool}
    (hc : isDelimiter c = false) (h : readWord position (c :: rest) = .ok (text, escaped, after)) : text ≠ [] := by
  unfold readWord at h
  split at h
  case h_1 | h_2 => simp_all
  case h_3 =>
    obtain ⟨_, -, heq⟩ := map_eq_ok.1 h
    cases heq
    exact List.cons_ne_nil _ _
  case h_4 heq =>
    obtain ⟨rfl, rfl⟩ := List.cons.inj heq
    rw [hc, if_neg Bool.false_ne_true] at h
    split at h
    · cases h
    · obtain ⟨_, -, heq⟩ := map_eq_ok.1 h
      cases heq
      exact List.cons_ne_nil _ _

private theorem readModifier_named {kind : LexemeKind} {mark : Char} {position : Nat} {rest after : List Char}
    {found : List Lexeme} (hk : kind = .fuzzy ∨ kind = .boost)
    (h : readModifier kind mark position rest = .ok (found, after)) : ∀ x ∈ found, x.Named := by
  have hmark : ∀ x ∈ [(⟨kind, mark.toString, position⟩ : Lexeme)], x.Named := by
    rcases hk with rfl | rfl <;> exact named_of_ne (by decide) (by decide)
  unfold readModifier at h
  split at h
  · cases h
    exact hmark
  split at h
  · cases h
    exact hmark
  split at h
  · split at h
    · cases h
    split at h
    · cases h
      exact List.forall_mem_append.2 ⟨hmark, named_of_ne (by decide) (by decide)⟩
    · cases h
  · cases h

theorem readPiece_named {position : Nat} {c : Char} {rest after : List Char} {found : List Lexeme}
    (h : readPiece position c rest = .ok (.lexemes found, after)) : ∀ x ∈ found, x.Named := by
  unfold readPiece at h
  split at h
  · cases h
  split at h
  case h_1 =>
    split at h
    · cases h
      exact named_of_ne (by decide) (by decide)
    · cases h
  case h_4 =>
    obtain ⟨_, hr, heq⟩ := map_eq_ok.1 h
    cases heq
    exact readModifier_named (.inl rfl) hr
  case h_5 =>
    obtain ⟨_, hr, heq⟩ := map_eq_ok.1 h
    cases heq
    exact readModifier_named (.inr rfl) hr
  case h_13 | h_14 =>
    unfold doubled at h
    split at h
    · split at h
      · cases h
        exact named_of_ne (by decide) (by decide)
      · cases h
    · cases h
  case h_16 =>
    obtain ⟨⟨text, escaped, _⟩, hr, heq⟩ := map_eq_ok.1 h
    cases heq
    refine List.forall_mem_singleton.2 fun _ => ?_
    have hne := readWord_ne_nil (by simp_all [isDelimiter, isMark]) hr
    simpa using hne
  all_goals
    cases h
    try exact named_of_ne (by decide) (by decide)

theorem scan_named {position : Nat} {done : List Lexeme} {s : List Char} {xs : List Lexeme}
    (h : scan position done s = .ok xs) (hd : ∀ x ∈ done, x.Named) : ∀ x ∈ xs, x.Named := by
  fun_induction scan position done s with
  | case1 =>
    cases h
    exact fun x hx => hd x (List.mem_reverse.1 hx)
  | case2 | case6 => cases h
  | case3 _ _ _ _ _ _ _ _ _ ih => exact ih h hd
  | case4 position done c rest after next found hr _ _ ih =>
    refine ih h fun x hx => ?_
    rcases List.mem_append.1 hx with hx | hx
    · exact readPiece_named hr x (List.mem_reverse.1 hx)
    · exact hd x hx
  | case5 position c rest after next hr text start earlier _ _ ih =>
    obtain ⟨hword, hearlier⟩ := List.forall_mem_cons.1 hd
    have hne : text.isEmpty = false := hword (.inl rfl)
    exact ih h (List.forall_mem_cons.2 ⟨fun _ => hne, hearlier⟩)

theorem tokenize_named {query : String} {xs : List Lexeme} (h : tokenize query = .ok xs) : ∀ x ∈ xs, x.Named := by
  obtain ⟨ys, hs, rfl⟩ := map_eq_ok.1 h
  refine List.forall_mem_map.2 fun x hx hk => ?_
  have hne := scan_named hs nofun x hx hk
  simp only [GuardedQuery.restore, GuardedQuery.restoreText]
  split
  · simpa [showColons] using hne
  · exact hne

theorem readWord_error {position : Nat} {s : List Char} {e : Error} (h : readWord position s = .error e) :
    e.Lexical := by
  fun_induction readWord position s with
  | case1 | case4 => cases h
  | case2 | case5 =>
    cases h
    exact .lexical _ _
  | case3 _ _ _ ih | case6 _ _ _ _ _ _ _ ih => exact ih (map_eq_error.1 h)

theorem readNumber_error {position : Nat} {pointSeen : Bool} {s : List Char} {e : Error}
    (h : readNumber position pointSeen s = .error e) : e.Lexical := by
  fun_induction readNumber position pointSeen s with
  | case1 | case4 => cases h
  | case2 _ _ _ _ _ ih | case3 _ _ _ _ _ _ ih => exact ih (map_eq_error.1 h)
  | case5 =>
    cases h
    exact .lexical _ _

theorem readModifier_error {kind : LexemeKind} {mark : Char} {position : Nat} {rest : List Char} {e : Error}
    (h : readModifier kind mark position rest = .error e) : e.Lexical := by
  unfold readModifier at h
  split at h
  · cases h
  split at h
  · cases h
  split at h
  · split at h
    · rename_i f hr
      cases h
      exact readNumber_error hr
    split at h
    · cases h
    · cases h
      exact .lexical _ _
  · cases h
    exact .lexical _ _

theorem readPiece_error {position : Nat} {c : Char} {rest : List Char} {e : Error}
    (h : readPiece position c rest = .error e) : e.Lexical := by
  unfold readPiece at h
  split at h
  · cases h
  split at h
  case h_1 =>
    split at h
    · cases h
    · cases h
      exact .lexical _ _
  case h_4 | h_5 => exact readModifier_error (map_eq_error.1 h)
  case h_13 | h_14 =>
    unfold doubled at h
    split at h
    · split at h
      · cases h
      · cases h
        exact .lexical _ _
    · cases h
      exact .lexical _ _
  case h_16 => exact readWord_error (map_eq_error.1 h)
  all_goals cases h

theorem tokenize_error {query : String} {e : Error} (h : tokenize query = .error e) : e.Lexical := by
  have hs := map_eq_error.1 h
  unfold ofQuery at hs
  generalize (GuardedQuery.ofQuery query).text.toList = s at hs
  generalize 1 = position at hs
  generalize ([] : List Lexeme) = done at hs
  fun_induction scan position done s with
  | case1 => cases hs
  | case2 position done c rest f hr =>
    cases hs
    exact readPiece_error hr
  | case3 _ _ _ _ _ _ _ _ _ ih | case4 _ _ _ _ _ _ _ _ _ _ ih | case5 _ _ _ _ _ _ _ _ _ _ _ ih => exact ih hs
  | case6 =>
    cases hs
    exact .lexical _ _

end Lexeme

end TextSearch
