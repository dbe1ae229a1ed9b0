import Mathlib.Data.Bool.AllAny
import TextSearch.Proofs.Escaping
import TextSearch.Query.Render

/-! Words in canonical texts. A word is written there with a backslash before each mark, and is read back from
there exactly if it holds no backslash, blank or quote and is no keyword. -/
namespace TextSearch.Lexeme

/-- Neither a backslash nor a blank nor a quote. -/
structure Readable (c : Char) : Prop where
  unescaping : c ≠ '\\'
  unbroken : isBlank c = false
  unquoted : c ≠ '"'

theorem readable_iff {c : Char} : Readable c ↔ c ∉ ['\\', ' ', '\t', '\r', '\n', '"'] := by
  constructor
  · rintro ⟨hescape, hblank, hquote⟩
    simp_all [isBlank]
  · intro h
    simp only [List.mem_cons, List.not_mem_nil, or_false, not_or] at h
    exact ⟨h.1, by simp [isBlank, h], h.2.2.2.2.2⟩

section words
variable {position : Nat} {previous : Option Char} {s text after : List Char} {escaped : Bool} {c : Char}

theorem of_needsEscape (h : needsEscape c = true) :
    Readable c ∧ ∀ keyword ∈ ["AND", "OR", "NOT", "TO"], c.toUpper ∉ keyword.toList := by
  have hmarks : ∀ c ∈ ":()[]\x7b\x7d!|&+-~^?".toList, c ∉ ['\\', ' ', '\t', '\r', '\n', '"'] ∧
      ∀ keyword ∈ ["AND", "OR", "NOT", "TO"], c.toUpper ∉ keyword.toList :=
    List.all_iff_forall_prop.1 (by decide)
  obtain ⟨hreadable, hkeyword⟩ := hmarks c (List.contains_iff_mem.1 h)
  exact ⟨readable_iff.2 hreadable, hkeyword⟩

theorem readWord_cons (hc : c ≠ '\\') (rest : List Char) : readWord position (c :: rest) =
    if isDelimiter c then .ok ([], false, c :: rest)
    else if c = '"' then .error (Fault.quoteInWord.at position)
    else (readWord (position + 1) rest).map fun (text, escaped, after) => (c :: text, escaped, after) := by
  rw [readWord]
  · simp only [beq_iff_eq]
  · exact fun h => absurd h hc
  · exact fun d rest h => absurd h hc

theorem needsEscape_of_isDelimiter (h : isDelimiter c = true) : isBlank c = true ∨ needsEscape c = true := by
  simp only [isDelimiter, isMark, Bool.or_eq_true, List.contains_iff_mem, beq_iff_eq] at h
  rcases h with ((h | h) | rfl) | rfl
  · exact .inl h
  · right
    have hmarks : ∀ c ∈ [':', '(', ')', '[', ']', '\x7b', '\x7d', '!', '|', '&'], needsEscape c = true :=
      List.all_eq_true.1 (by decide)
    exact hmarks c h
  · exact .inr (by decide)
  · exact .inr (by decide)

/-- What needs no escape and is no blank or quote starts a word. -/
theorem starts_word (hblank : isBlank c = false) (hquote : c ≠ '"') (hc : needsEscape c = false) :
    isDelimiter c = false ∧ c ∉ ['"', '+', '-'] := by
  constructor
  · rw [Bool.eq_false_iff]
    intro hd
    rcases needsEscape_of_isDelimiter hd with hd | hd
    · exact Bool.eq_false_iff.1 hblank hd
    · exact Bool.eq_false_iff.1 hc hd
  · have hsigns : ∀ d ∈ ['+', '-'], needsEscape d = true := List.all_eq_true.1 (by decide)
    intro hm
    rcases List.mem_cons.1 hm with rfl | hm
    · exact hquote rfl
    · exact Bool.eq_false_iff.1 hc (hsigns c hm)

/-- A text without backslashes, blanks and quotes is read back whole. -/
theorem readWord_escapeAfter (hprevious : previous ≠ some '\\') (h : ∀ c ∈ s, Readable c) :
    readWord position (escapeAfter previous s) = .ok (s, s.any needsEscape, []) := by
  induction s generalizing position previous with
  | nil => rfl
  | cons c rest ih =>
    obtain ⟨⟨hescape, hblank, hquote⟩, hrest⟩ := List.forall_mem_cons.1 h
    have hnext : some c ≠ some '\\' := fun h => hescape (Option.some.inj h)
    rw [escapeAfter, List.any_cons]
    cases hc : needsEscape c with
    | true =>
      rw [bne_iff_ne.2 hprevious, Bool.and_self, if_pos rfl, readWord, ih hnext hrest]
      rfl
    | false =>
      rw [Bool.false_and, if_neg Bool.false_ne_true, readWord_cons hescape, (starts_word hblank hquote hc).1,
        if_neg Bool.false_ne_true, if_neg hquote, ih hnext hrest, Bool.false_or]
      rfl

/-- Reading never gives more than was written, and less if that had a backslash of its own. -/
theorem readWord_escapeAfter_length (h : readWord position (escapeAfter previous s) = .ok (text, escaped, after)) :
    text.length ≤ s.length ∧ ('\\' ∈ s → text.length < s.length) := by
  -- a backslash takes the character behind it along
  fun_induction unescape s generalizing position previous text escaped after with
  | case1 =>
    cases h
    exact ⟨Nat.le_refl 0, fun hm => absurd hm List.not_mem_nil⟩
  | case2 d rest ih =>
    have hwritten : escapeAfter previous ('\\' :: d :: rest) = '\\' :: d :: escapeAfter (some d) rest := by
      rw [escapeAfter, if_neg (by simp [needsEscape]), escapeAfter, if_neg (by simp)]
    rw [hwritten, readWord] at h
    obtain ⟨⟨t, e, a⟩, hr, heq⟩ := map_eq_ok.1 h
    cases heq
    have hlength := (ih hr).1
    simp only [List.length_cons]
    omega
  | case3 c rest hpair ih =>
    have hstep (hc : c ≠ '\\') {t : List Char} (ht : t.length ≤ rest.length ∧ ('\\' ∈ rest → t.length < rest.length)) :
        (c :: t).length ≤ (c :: rest).length ∧ ('\\' ∈ c :: rest → (c :: t).length < (c :: rest).length) := by
      refine ⟨Nat.succ_le_succ ht.1, fun hm => Nat.succ_lt_succ (ht.2 ?_)⟩
      exact List.mem_of_ne_of_mem (Ne.symm hc) hm
    rw [escapeAfter] at h
    split at h
    · rename_i hescape
      rw [readWord] at h
      obtain ⟨⟨t, e, a⟩, hr, heq⟩ := map_eq_ok.1 h
      cases heq
      exact hstep (of_needsEscape (Bool.and_eq_true_iff.1 hescape).1).1.unescaping (ih hr)
    by_cases hc : c = '\\'
    · subst hc
      cases rest with
      | nil => cases h
      | cons d rest => exact absurd rfl (hpair d rest rfl)
    rw [readWord_cons hc] at h
    split at h
    · cases h
      exact ⟨Nat.zero_le _, fun _ => Nat.succ_pos _⟩
    split at h
    · cases h
    obtain ⟨⟨t, e, a⟩, hr, heq⟩ := map_eq_ok.1 h
    cases heq
    exact hstep hc (ih hr)

/-- What is read back whole has no backslash, blank or quote. -/
theorem readable_of_readWord (hprevious : previous ≠ some '\\')
    (h : readWord position (escapeAfter previous s) = .ok (s, escaped, after)) :
    ∀ c ∈ s, Readable c := by
  have hplain : '\\' ∉ s := fun hm => Nat.lt_irrefl _ ((readWord_escapeAfter_length h).2 hm)
  induction s generalizing position previous escaped after with
  | nil => nofun
  | cons c rest ih =>
    obtain ⟨hc, hrest⟩ := List.ne_and_not_mem_of_not_mem_cons hplain
    have hnext : some c ≠ some '\\' := fun h => hc (Option.some.inj h).symm
    rw [escapeAfter] at h
    split at h
    · rename_i hescape
      rw [readWord] at h
      obtain ⟨⟨t, e, a⟩, hr, heq⟩ := map_eq_ok.1 h
      cases heq
      exact List.forall_mem_cons.2
        ⟨(of_needsEscape (Bool.and_eq_true_iff.1 hescape).1).1, ih hnext hr hrest⟩
    rw [readWord_cons (Ne.symm hc)] at h
    split at h
    · cases h
    rename_i hdelimiter
    split at h
    · cases h
    rename_i hquote
    obtain ⟨⟨t, e, a⟩, hr, heq⟩ := map_eq_ok.1 h
    cases heq
    refine List.forall_mem_cons.2 ⟨⟨Ne.symm hc, ?_, hquote⟩, ih hnext hr hrest⟩
    simp only [isDelimiter, Bool.not_eq_true, Bool.or_eq_false_iff] at hdelimiter
    exact hdelimiter.1.1.1

/-- No letter case makes a keyword of a text that is none. -/
theorem keyword?_eq_none_iff :
    keyword? s = none ↔ s.map Char.toUpper ∉ ["AND", "OR", "NOT", "TO"].map String.toList := by
  unfold keyword?
  split <;> simp_all

theorem keyword?_ne_word : keyword? s ≠ some .word := by
  unfold keyword?
  split <;> nofun

/-- Keywords have nothing to escape. -/
theorem keyword?_of_needsEscape (hc : c ∈ s) (h : needsEscape c = true) : keyword? s = none := by
  rw [keyword?_eq_none_iff]
  intro hk
  obtain ⟨keyword, hkeyword, hs⟩ := List.mem_map.1 hk
  have hmem : c.toUpper ∈ keyword.toList := hs ▸ List.mem_map_of_mem hc
  exact (of_needsEscape h).2 keyword hkeyword hmem

end words

/-- What becomes of a lexeme behind it: a word may turn out to name a field. -/
inductive Becomes (x : Lexeme) : Lexeme → Prop
  | same : x.Becomes x
  | field : x.kind = .word → x.Becomes { x with kind := .field }

theorem Becomes.eq_of_word {x y : Lexeme} (h : x.Becomes y) (hy : y.kind = .word) : x = y := by
  cases h with
  | same => rfl
  | field => cases hy

section scanning
variable {position : Nat} {done xs : List Lexeme} {s rest after : List Char} {c : Char} {x : Lexeme}

/-- The first lexeme stays the first one. -/
theorem scan_head? (h : scan position done s = .ok xs) :
    ∀ x, done.getLast? = some x → ∃ y, xs.head? = some y ∧ x.Becomes y := by
  fun_induction scan position done s with
  | case1 position done =>
    cases h
    intro x hx
    exact ⟨x, by rw [List.head?_reverse, hx], .same⟩
  | case2 | case6 => cases h
  | case3 _ _ _ _ _ _ _ _ _ ih => exact ih h
  | case4 position done c rest after next found _ _ _ ih =>
    intro x hx
    exact ih h x (by rw [List.getLast?_append, hx]; rfl)
  | case5 position c rest after next _ text start earlier _ _ ih =>
    intro x hx
    cases earlier with
    | nil =>
      cases hx
      obtain ⟨y, hy, hbecomes⟩ := ih h _ rfl
      cases hbecomes with
      | same => exact ⟨_, hy, .field rfl⟩
      | field hk => cases hk
    | cons z earlier => exact ih h x (by rwa [List.getLast?_cons_cons] at hx ⊢)

theorem readModifier_head? {kind : LexemeKind} {mark : Char} {found : List Lexeme}
    (h : readModifier kind mark position rest = .ok (found, after)) :
    found.head? = some ⟨kind, mark.toString, position⟩ := by
  unfold readModifier at h
  repeat' split at h
  all_goals cases h <;> rfl

/-- Lexemes start where they are found. -/
theorem readPiece_head? {found : List Lexeme} (h : readPiece position c rest = .ok (.lexemes found, after)) :
    ∃ x, found.head? = some x ∧ x.position = position := by
  unfold readPiece at h
  split at h
  · cases h
  split at h
  case h_1 =>
    split at h
    · cases h
      exact ⟨_, rfl, rfl⟩
    · cases h
  case h_4 | h_5 =>
    obtain ⟨⟨found, a⟩, hr, heq⟩ := map_eq_ok.1 h
    cases heq
    exact ⟨_, readModifier_head? hr, rfl⟩
  case h_13 | h_14 =>
    unfold doubled at h
    repeat' split at h
    all_goals cases h
    all_goals exact ⟨_, rfl, rfl⟩
  case h_16 =>
    obtain ⟨_, -, heq⟩ := map_eq_ok.1 h
    cases heq
    exact ⟨_, rfl, rfl⟩
  all_goals cases h <;> exact ⟨_, rfl, rfl⟩

/-- No lexeme starts before the scan does. -/
theorem scan_position_le (h : scan position [] s = .ok xs) (hx : xs.head? = some x) : position ≤ x.position := by
  generalize hdone : ([] : List Lexeme) = done at h
  fun_induction scan position done s with
  | case1 =>
    cases hdone
    cases h
    cases hx
  | case2 | case6 => cases h
  | case3 position done c rest after next _ _ _ ih =>
    exact (Nat.le_add_right _ _).trans (ih hdone h)
  | case4 position done c rest after next found hpiece _ _ ih =>
    cases hdone
    obtain ⟨y, hy, hposition⟩ := readPiece_head? hpiece
    obtain ⟨z, hz, hbecomes⟩ := scan_head? h y (by rw [List.append_nil, List.getLast?_reverse, hy])
    rw [hx] at hz
    cases hz
    cases hbecomes with
    | same => exact hposition.ge
    | field => exact hposition.ge
  | case5 => cases hdone

theorem readPiece_of_isBlank (hc : isBlank c = true) : readPiece position c rest = .ok (.blank, rest) := by
  unfold readPiece
  rw [if_pos hc]

theorem readPiece_quote (position : Nat) (rest : List Char) : readPiece position '"' rest =
    match readPhrase? rest with
    | some (text, after) => .ok (.lexemes [⟨.phrase, String.ofList text, position⟩], after)
    | none => .error (Fault.openPhrase.at position) :=
  rfl

/-- A query string that is one word, and starts with nothing to escape, was read as a word from its start. -/
theorem readWord_of_ofQuery {query text : String} (hquery : query.toList = c :: rest) (hc : needsEscape c = false)
    (h : ofQuery query = .ok [⟨.word, text, 1⟩]) :
    ∃ escaped after, readWord 1 (c :: rest) = .ok (text.toList, escaped, after) ∧
      (escaped = true ∨ keyword? text.toList = none) := by
  rw [ofQuery, hquery, scan] at h
  split at h
  · cases h
  rename_i piece after hpiece
  have hblank : isBlank c = false := by
    rw [Bool.eq_false_iff]
    intro hblank
    rw [readPiece_of_isBlank hblank] at hpiece
    cases hpiece
    have hposition : _ ≤ 1 := scan_position_le h rfl
    simp at hposition
  have hquote : c ≠ '"' := by
    rintro rfl
    rw [readPiece_quote] at hpiece
    split at hpiece
    · cases hpiece
      obtain ⟨_, ⟨⟩, hbecomes⟩ := scan_head? h _ rfl
      cases hbecomes
    · cases hpiece
  rw [readPiece_of_word (starts_word hblank hquote hc)] at hpiece
  obtain ⟨⟨t, escaped, a⟩, hread, heq⟩ := map_eq_ok.1 hpiece
  cases heq
  obtain ⟨_, ⟨⟩, hbecomes⟩ := scan_head? h _ rfl
  obtain ⟨hkind, htext, -⟩ := Lexeme.mk.inj (hbecomes.eq_of_word rfl)
  refine ⟨escaped, _, by rw [← htext, String.toList_ofList, hread], ?_⟩
  rw [← htext, String.toList_ofList]
  cases escaped with
  | true => exact .inl rfl
  | false =>
    right
    cases hk : keyword? t with
    | none => rfl
    | some kind =>
      rw [hk] at hkind
      exact absurd (hk.trans (congrArg some hkind)) keyword?_ne_word

end scanning

theorem toList_escapeWord (word : String) : (escapeWord word).toList = escapeAfter none word.toList := by
  rw [escapeWord, String.toList_ofList]

/-- A canonical form starts with a backslash or with the word. -/
theorem escapeAfter_none_cons (c : Char) (rest : List Char) :
    ∃ d written, escapeAfter none (c :: rest) = d :: written ∧ needsEscape d = false ∧ (d = '\\' ∨ d = c) := by
  rw [escapeAfter]
  split
  · exact ⟨_, _, rfl, by decide, .inl rfl⟩
  · rename_i hc
    exact ⟨_, _, rfl, by simpa using hc, .inr rfl⟩

theorem keyword?_toList_eq_none_iff {word : String} :
    keyword? word.toList = none ↔ word.toUpper ∉ ["AND", "OR", "NOT", "TO"] := by
  rw [keyword?_eq_none_iff, ← String.toList_map, List.mem_map_of_injective fun _ _ => String.toList_inj.1]
  rfl

/-- A word is read back from its canonical form exactly if it has no backslash, blank or quote and is none of the
keywords in any letter case. -/
theorem ofQuery_escapeWord_iff {word : String} (hword : word ≠ "") :
    ofQuery (escapeWord word) = .ok [⟨.word, word, 1⟩] ↔
      (∀ c ∈ word.toList, c ∉ ['\\', ' ', '\t', '\r', '\n', '"']) ∧ word.toUpper ∉ ["AND", "OR", "NOT", "TO"] := by
  obtain ⟨c, rest, hcons⟩ := List.exists_cons_of_ne_nil (mt String.toList_eq_nil_iff.1 hword)
  obtain ⟨d, written, hwritten, hd, hstart⟩ := escapeAfter_none_cons c rest
  have hquery : (escapeWord word).toList = d :: written := by rw [toList_escapeWord, hcons, hwritten]
  have hnone : (none : Option Char) ≠ some '\\' := nofun
  simp only [← readable_iff, ← keyword?_toList_eq_none_iff]
  constructor
  · intro h
    obtain ⟨escaped, after, hread, hkeyword⟩ := readWord_of_ofQuery hquery hd h
    rw [← hwritten, ← hcons] at hread
    have hreadable := readable_of_readWord hnone hread
    refine ⟨hreadable, ?_⟩
    rcases hkeyword with rfl | hkeyword
    · have hany := hread.symm.trans (readWord_escapeAfter hnone hreadable)
      simp only [Except.ok.injEq, Prod.mk.injEq, true_and] at hany
      obtain ⟨e, he, hescape⟩ := List.any_eq_true.1 hany.1.symm
      exact keyword?_of_needsEscape he hescape
    · exact hkeyword
  · rintro ⟨hreadable, hkeyword⟩
    have hread : readWord 1 (escapeAfter none word.toList) = .ok (word.toList, word.toList.any needsEscape, []) :=
      readWord_escapeAfter hnone hreadable
    rw [hcons, hwritten, ← hcons] at hread
    have hplain : isBlank d = false ∧ d ≠ '"' := by
      rcases hstart with rfl | rfl
      · decide
      · have hd := hreadable d (hcons ▸ List.mem_cons_self)
        exact ⟨hd.unbroken, hd.unquoted⟩
    rw [ofQuery_of_readWord hquery (starts_word hplain.1 hplain.2 hd) hread, hkeyword, Option.getD_none, ite_self,
      String.ofList_toList]

theorem markedAddress_ofQuery_escapeWord :
    escapeWord "fe80::1+(x)?" = "fe80\\:\\:1\\+\\(x\\)\\?" ∧ "fe80::1+(x)?" ≠ "" ∧
      ofQuery (escapeWord "fe80::1+(x)?") = .ok [⟨.word, "fe80::1+(x)?", 1⟩] ∧
      ("nOt" ≠ "" ∧ ofQuery (escapeWord "nOt") ≠ .ok [⟨.word, "nOt", 1⟩]) ∧
      ("a\\:b" ≠ "" ∧ ofQuery (escapeWord "a\\:b") ≠ .ok [⟨.word, "a\\:b", 1⟩]) := by
  refine ⟨by decide +kernel, by decide, ?_, ⟨by decide, fun h => ?_⟩, ⟨by decide, fun h => ?_⟩⟩
  · exact (ofQuery_escapeWord_iff (by decide)).2 ⟨List.all_iff_forall_prop.1 (by decide), by decide +kernel⟩
  · exact absurd ((ofQuery_escapeWord_iff (by decide)).1 h).2 (by decide +kernel)
  · exact absurd ((ofQuery_escapeWord_iff (by decide)).1 h).1 fun hall => hall '\\' (by decide) List.mem_cons_self

end TextSearch.Lexeme
