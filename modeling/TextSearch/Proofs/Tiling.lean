import Mathlib.Data.List.Infix
import Mathlib.Data.List.Pairwise
import TextSearch.Proofs.Lexing

/-! Where the lexemes of a query string stand in it. Their sources, the blanks and the field marks are all there
is of the string. -/
namespace TextSearch.Lexeme

/-- A text without the backslashes that escape another character. -/
def unescape : List Char → List Char
  | [] => []
  | '\\' :: c :: rest => c :: unescape rest
  | c :: rest => c :: unescape rest

theorem unescape_cons {c : Char} (hc : c ≠ '\\') (rest : List Char) :
    unescape (c :: rest) = c :: unescape rest := by
  rw [unescape]
  exact fun d rest h _ => hc h

theorem unescape_eq_self {s : List Char} (h : '\\' ∉ s) : unescape s = s := by
  induction s with
  | nil => rfl
  | cons c rest ih =>
    obtain ⟨hc, hrest⟩ := List.ne_and_not_mem_of_not_mem_cons h
    rw [unescape_cons (Ne.symm hc), ih hrest]

theorem mem_of_mem_unescape {c : Char} {s : List Char} (h : c ∈ unescape s) : c ∈ s := by
  fun_induction unescape s with
  | case1 => cases h
  | case2 d rest ih =>
    rcases List.mem_cons.1 h with rfl | h
    · simp
    · simp [ih h]
  | case3 d rest _ ih =>
    rcases List.mem_cons.1 h with rfl | h
    · simp
    · simp [ih h]

/-- Every quote in a text is escaped, and every backslash that is not escaped itself escapes something. -/
inductive Enclosed : List Char → Prop
  | nil : Enclosed []
  | escaped (c : Char) {rest : List Char} : Enclosed rest → Enclosed ('\\' :: c :: rest)
  | plain {c : Char} {rest : List Char} : c ≠ '\\' → c ≠ '"' → Enclosed rest → Enclosed (c :: rest)

/-- A lexeme and the part of the query string it is made of. -/
structure Placed where
  lexeme : Lexeme
  source : List Char

namespace Placed

/-- What a source says when its escapes are resolved and, for a phrase, its quotes are gone. -/
def reading (x : Placed) : List Char :=
  unescape (if x.lexeme.kind = .phrase then x.source.tail.dropLast else x.source)

def Faithful (x : Placed) : Prop := x.lexeme.text.toList = x.reading

/-- The source takes in the characters behind the first `start`, as many as `length` says. -/
def Covers (x : Placed) (start length : Nat) : Prop :=
  x.lexeme.position ≤ start + 1 ∧ start + 1 + length ≤ x.lexeme.position + x.source.length

theorem mem_source_of_mem_reading {x : Placed} {c : Char} (h : c ∈ x.reading) : c ∈ x.source := by
  have hc := mem_of_mem_unescape h
  split at hc
  · exact List.mem_of_mem_tail (List.mem_of_mem_dropLast hc)
  · exact hc

end Placed

/-- Nothing follows, or a character that ends words and numbers. -/
def Delimited : List Char → Prop
  | [] => True
  | c :: _ => isDelimiter c = true

/-- The lexemes that are always written in the same way. -/
def signs : List (LexemeKind × List Char) :=
  [(.required, ['+']), (.prohibited, ['-']), (.fuzzy, ['~']), (.boost, ['^']), (.groupStart, ['(']),
    (.groupEnd, [')']), (.closedStart, ['[']), (.closedEnd, [']']), (.openedStart, ['\x7b']),
    (.openedEnd, ['\x7d']), (.not, ['!']), (.and, ['&', '&']), (.or, ['|', '|'])]

/-- How a lexeme of some kind is written, with `rest` behind it. -/
inductive Written : LexemeKind → (source rest : List Char) → Prop
  | word {source rest : List Char} : source ≠ [] → Enclosed source → Delimited rest → Written .word source rest
  | keyword {kind : LexemeKind} {source rest : List Char} : keyword? source = some kind → '\\' ∉ source →
    Delimited rest → Written kind source rest
  | phrase {inner : List Char} (rest : List Char) : Enclosed inner → Written .phrase ('"' :: inner ++ ['"']) rest
  | number {source rest : List Char} : (∀ c ∈ source, c.isDigit = true ∨ c = '.') → Delimited rest →
    Written .number source rest
  | sign {kind : LexemeKind} {source : List Char} (rest : List Char) : (kind, source) ∈ signs →
    Written kind source rest

/-- The part of a query string before `rest` consists of blanks, of the sources of these lexemes, one after the
other, and of a colon behind each field. -/
inductive Tiled : (read rest : List Char) → List Placed → Prop
  | start (rest : List Char) : Tiled [] rest []
  | blank {read rest : List Char} {c : Char} {placed : List Placed} :
    Tiled read (c :: rest) placed → isBlank c = true → Tiled (read ++ [c]) rest placed
  | fieldMark {read rest source : List Char} {placed : List Placed} {text : String} {position : Nat} :
    Tiled read (':' :: rest) (placed ++ [⟨⟨.word, text, position⟩, source⟩]) →
    Tiled (read ++ [':']) rest (placed ++ [⟨⟨.field, text, position⟩, source⟩])
  | lexeme {read rest source : List Char} {placed : List Placed} {kind : LexemeKind} (text : String) :
    Tiled read (source ++ rest) placed → Written kind source rest →
    Tiled (read ++ source) rest (placed ++ [⟨⟨kind, text, read.length + 1⟩, source⟩])

namespace Tiled

variable {read rest source : List Char} {placed : List Placed}

/-- The sources follow each other. -/
theorem ordered (h : Tiled read rest placed) :
    placed.Pairwise (fun x y => x.lexeme.position + x.source.length ≤ y.lexeme.position) ∧
      ∀ x ∈ placed, x.lexeme.position + x.source.length ≤ read.length + 1 := by
  induction h with
  | start => exact ⟨.nil, nofun⟩
  | blank _ _ ih =>
    obtain ⟨hpair, hbound⟩ := ih
    refine ⟨hpair, fun x hx => ?_⟩
    have hx := hbound x hx
    simp only [List.length_append, List.length_singleton]
    omega
  | fieldMark _ ih =>
    obtain ⟨hpair, hbound⟩ := ih
    obtain ⟨hplaced, hlast⟩ := List.forall_mem_append.1 hbound
    obtain ⟨hinner, -, hcross⟩ := List.pairwise_append.1 hpair
    refine ⟨List.pairwise_append.2 ⟨hinner, List.pairwise_singleton _ _, ?_⟩,
      List.forall_mem_append.2 ⟨fun x hx => ?_, List.forall_mem_singleton.2 ?_⟩⟩
    · intro x hx y hy
      cases List.mem_singleton.1 hy
      have hcross := hcross x hx _ (List.mem_singleton_self _)
      exact hcross
    · have hx := hplaced x hx
      simp only [List.length_append, List.length_singleton]
      omega
    · have hx := hlast _ (List.mem_singleton_self _)
      simp only [List.length_append, List.length_singleton] at hx ⊢
      omega
  | lexeme _ _ _ ih =>
    obtain ⟨hpair, hbound⟩ := ih
    refine ⟨List.pairwise_append.2 ⟨hpair, List.pairwise_singleton _ _, ?_⟩,
      List.forall_mem_append.2 ⟨fun x hx => ?_, List.forall_mem_singleton.2 ?_⟩⟩
    · intro x hx y hy
      cases List.mem_singleton.1 hy
      exact hbound x hx
    · have hx := hbound x hx
      simp only [List.length_append]
      omega
    · simp only [List.length_append]
      omega

theorem source_at {read rest : List Char} {placed : List Placed} (h : Tiled read rest placed) :
    ∀ x ∈ placed, ∃ before after, read ++ rest = before ++ (x.source ++ after) ∧
      x.lexeme.position = before.length + 1 := by
  induction h with
  | start => exact nofun
  | blank _ _ ih => simpa using ih
  | @fieldMark read rest source placed text position _ ih =>
    obtain ⟨hplaced, hlast⟩ := List.forall_mem_append.1 ih
    rw [List.append_assoc]
    have hword := hlast _ (List.mem_singleton_self _)
    refine List.forall_mem_append.2 ⟨hplaced, fun x hx => ?_⟩
    cases List.mem_singleton.1 hx
    exact hword
  | @lexeme read rest source placed kind text _ _ ih =>
    rw [List.append_assoc]
    exact List.forall_mem_append.2 ⟨ih, List.forall_mem_singleton.2 ⟨read, rest, rfl, rfl⟩⟩

/-- No two lexemes have a character in common. -/
theorem eq_of_covers (h : Tiled read rest placed) {x y : Placed} (hx : x ∈ placed) (hy : y ∈ placed)
    {start length : Nat} (hl : 0 < length) (hcx : x.Covers start length) (hcy : y.Covers start length) :
    x = y := by
  by_contra hne
  let Apart (x y : Placed) : Prop := x.lexeme.position + x.source.length ≤ y.lexeme.position ∨
    y.lexeme.position + y.source.length ≤ x.lexeme.position
  have hsymm : Std.Symm Apart := ⟨fun _ _ => Or.symm⟩
  have happart : placed.Pairwise Apart := h.ordered.1.imp .inl
  obtain ⟨hx₁, hx₂⟩ := hcx
  obtain ⟨hy₁, hy₂⟩ := hcy
  rcases happart.forall hx hy hne with hle | hle <;> omega

end Tiled

section readers
variable {position : Nat} {s text after : List Char}

theorem readWord_source {escaped : Bool} (h : readWord position s = .ok (text, escaped, after)) :
    ∃ source, s = source ++ after ∧ text = unescape source ∧ Enclosed source ∧ Delimited after ∧
      (escaped = false → '\\' ∉ source) := by
  fun_induction readWord position s generalizing text escaped after with
  | case1 =>
    cases h
    exact ⟨[], rfl, rfl, .nil, trivial, fun _ => List.not_mem_nil⟩
  | case2 => cases h
  | case3 position c rest ih =>
    obtain ⟨⟨t, e, a⟩, hr, heq⟩ := map_eq_ok.1 h
    cases heq
    obtain ⟨source, rfl, rfl, hs, ha, -⟩ := ih hr
    exact ⟨'\\' :: c :: source, rfl, rfl, hs.escaped c, ha, fun he => Bool.noConfusion he⟩
  | case4 position c rest _ _ hc =>
    cases h
    exact ⟨[], rfl, rfl, .nil, hc, fun _ => List.not_mem_nil⟩
  | case5 => cases h
  | case6 position c rest hlast hpair _ hquote ih =>
    obtain ⟨⟨t, e, a⟩, hr, heq⟩ := map_eq_ok.1 h
    cases heq
    obtain ⟨source, rfl, rfl, hs, ha, hplain⟩ := ih hr
    have hc : c ≠ '\\' := by
      rintro rfl
      cases hs : source ++ after with
      | nil => exact hlast rfl hs
      | cons d rest => exact hpair d rest rfl hs
    have hq : c ≠ '"' := by simpa using hquote
    refine ⟨c :: source, rfl, (unescape_cons hc source).symm, .plain hc hq hs, ha, fun he => ?_⟩
    exact List.not_mem_cons_of_ne_of_not_mem (Ne.symm hc) (hplain he)

theorem readPhrase?_source (h : readPhrase? s = some (text, after)) :
    ∃ inner, s = inner ++ '"' :: after ∧ text = unescape inner ∧ Enclosed inner := by
  fun_induction readPhrase? s generalizing text after with
  | case1 | case2 => cases h
  | case3 rest =>
    cases h
    exact ⟨[], rfl, rfl, .nil⟩
  | case4 c rest ih =>
    obtain ⟨⟨t, a⟩, hr, heq⟩ := Option.map_eq_some_iff.1 h
    cases heq
    obtain ⟨inner, rfl, rfl, hinner⟩ := ih hr
    exact ⟨'\\' :: c :: inner, rfl, rfl, hinner.escaped c⟩
  | case5 c rest hlast hquote hpair ih =>
    obtain ⟨⟨t, a⟩, hr, heq⟩ := Option.map_eq_some_iff.1 h
    cases heq
    obtain ⟨inner, rfl, rfl, hinner⟩ := ih hr
    have hc : c ≠ '\\' := by
      rintro rfl
      cases inner with
      | nil => exact hpair '"' after rfl rfl
      | cons d inner => exact hpair d _ rfl rfl
    exact ⟨c :: inner, rfl, (unescape_cons hc inner).symm, .plain hc hquote hinner⟩

theorem readNumber_source {pointSeen : Bool} (h : readNumber position pointSeen s = .ok (text, after)) :
    s = text ++ after ∧ (∀ c ∈ text, c.isDigit = true ∨ c = '.') ∧ Delimited after := by
  fun_induction readNumber position pointSeen s generalizing text after with
  | case1 =>
    cases h
    exact ⟨rfl, by simp, trivial⟩
  | case2 position pointSeen c rest hc ih =>
    obtain ⟨⟨t, a⟩, hr, heq⟩ := map_eq_ok.1 h
    cases heq
    obtain ⟨rfl, ht, ha⟩ := ih hr
    exact ⟨rfl, List.forall_mem_cons.2 ⟨.inl hc, ht⟩, ha⟩
  | case3 position pointSeen c rest _ hpoint ih =>
    obtain ⟨⟨t, a⟩, hr, heq⟩ := map_eq_ok.1 h
    cases heq
    obtain ⟨rfl, ht, ha⟩ := ih hr
    simp only [Bool.and_eq_true, beq_iff_eq] at hpoint
    exact ⟨rfl, List.forall_mem_cons.2 ⟨.inr hpoint.1, ht⟩, ha⟩
  | case4 position pointSeen c rest _ _ hc =>
    cases h
    exact ⟨rfl, by simp, hc⟩
  | case5 => cases h

end readers

/-- The scan has made these lexemes, the last one first, of the part of the query string before `rest`. -/
def Scanned (read rest : List Char) (done : List Lexeme) : Prop :=
  ∃ placed, Tiled read rest placed ∧ placed.map Placed.lexeme = done.reverse ∧ ∀ x ∈ placed, x.Faithful

namespace Scanned

variable {read rest source after : List Char} {done found : List Lexeme} {c : Char}

theorem blank (h : Scanned read (c :: rest) done) (hc : isBlank c = true) : Scanned (read ++ [c]) rest done := by
  obtain ⟨placed, ht, hd, hf⟩ := h
  exact ⟨placed, ht.blank hc, hd, hf⟩

theorem fieldMark {text : String} {position : Nat}
    (h : Scanned read (':' :: rest) (⟨.word, text, position⟩ :: done)) :
    Scanned (read ++ [':']) rest (⟨.field, text, position⟩ :: done) := by
  obtain ⟨placed, ht, hd, hf⟩ := h
  rw [List.reverse_cons] at hd
  obtain ⟨earlier, last, rfl, he, hl⟩ := List.map_eq_append_iff.1 hd
  obtain ⟨⟨x, source⟩, rfl, rfl⟩ := List.map_eq_singleton_iff.1 hl
  obtain ⟨hplaced, hlast⟩ := List.forall_mem_append.1 hf
  refine ⟨_, ht.fieldMark, by simp [he], List.forall_mem_append.2 ⟨hplaced, ?_⟩⟩
  have hword := hlast _ (List.mem_singleton_self _)
  exact List.forall_mem_singleton.2 (by simpa [Placed.Faithful, Placed.reading] using hword)

theorem lexeme {kind : LexemeKind} {text : List Char} (h : Scanned read (source ++ rest) done)
    (hw : Written kind source rest)
    (ht : text = unescape (if kind = .phrase then source.tail.dropLast else source)) :
    Scanned (read ++ source) rest (⟨kind, String.ofList text, read.length + 1⟩ :: done) := by
  obtain ⟨placed, htiled, hd, hf⟩ := h
  refine ⟨_, htiled.lexeme (String.ofList text) hw, by simp [hd], List.forall_mem_append.2 ⟨hf, List.forall_mem_singleton.2 ?_⟩⟩
  simp [Placed.Faithful, Placed.reading, ht]

/-- The lexemes other than phrases that have no escapes. -/
theorem plain {kind : LexemeKind} (h : Scanned read (source ++ rest) done) (hw : Written kind source rest)
    (hk : kind ≠ .phrase) (hs : '\\' ∉ source) :
    Scanned (read ++ source) rest (⟨kind, String.ofList source, read.length + 1⟩ :: done) :=
  h.lexeme hw (by rw [if_neg hk, unescape_eq_self hs])

theorem sign {kind : LexemeKind} (h : Scanned read (source ++ rest) done) (hm : (kind, source) ∈ signs) :
    Scanned (read ++ source) rest (⟨kind, String.ofList source, read.length + 1⟩ :: done) := by
  have hplain : ∀ sign ∈ signs, sign.1 ≠ .phrase ∧ '\\' ∉ sign.2 := by decide
  obtain ⟨hk, hs⟩ := hplain _ hm
  exact h.plain (.sign rest hm) hk hs

theorem modifier {kind : LexemeKind} {mark : Char} (h : Scanned read (mark :: rest) done)
    (hm : (kind, [mark]) ∈ signs) (hr : readModifier kind mark (read.length + 1) rest = .ok (found, after)) :
    ∃ source, mark :: rest = source ++ after ∧ Scanned (read ++ source) after (found.reverse ++ done) := by
  have hsign : Scanned (read ++ [mark]) rest (⟨kind, mark.toString, read.length + 1⟩ :: done) := h.sign hm
  unfold readModifier at hr
  split at hr
  · cases hr
    exact ⟨[mark], rfl, hsign⟩
  split at hr
  · cases hr
    exact ⟨[mark], rfl, hsign⟩
  split at hr
  · split at hr
    · cases hr
    rename_i text after' hnumber
    split at hr
    · cases hr
      obtain ⟨hsource, hdigits, hdelimited⟩ := readNumber_source hnumber
      have hplain : '\\' ∉ text := by
        intro hescape
        rcases hdigits _ hescape with hdigit | hpoint
        · cases hdigit
        · cases hpoint
      rw [hsource] at hsign ⊢
      refine ⟨mark :: text, rfl, ?_⟩
      simpa using hsign.plain (.number hdigits hdelimited) (by decide) hplain
    · cases hr
  · cases hr

theorem double {kind : LexemeKind} {piece : Piece} (h : Scanned read (c :: rest) done)
    (hm : (kind, [c, c]) ∈ signs) (hr : doubled kind c (read.length + 1) rest = .ok (piece, after)) :
    rest = c :: after ∧ piece = .lexemes [⟨kind, String.ofList [c, c], read.length + 1⟩] ∧
      Scanned (read ++ [c, c]) after (⟨kind, String.ofList [c, c], read.length + 1⟩ :: done) := by
  unfold doubled at hr
  split at hr
  · split at hr
    · rename_i heq
      obtain rfl := eq_of_beq heq
      cases hr
      exact ⟨rfl, rfl, h.sign hm⟩
    · cases hr
  · cases hr

theorem word {escaped : Bool} {text : List Char} (h : Scanned read (c :: rest) done) (hc : isDelimiter c = false)
    (hr : readWord (read.length + 1) (c :: rest) = .ok (text, escaped, after)) :
    ∃ source, c :: rest = source ++ after ∧ Scanned (read ++ source) after
      (⟨if escaped then .word else (keyword? text).getD .word, String.ofList text, read.length + 1⟩ :: done) := by
  obtain ⟨source, hsource, rfl, henclosed, hdelimited, hplain⟩ := readWord_source hr
  rw [hsource] at h
  have hne : source ≠ [] := by
    rintro rfl
    rw [List.nil_append] at hsource
    subst hsource
    rw [Delimited, hc] at hdelimited
    cases hdelimited
  refine ⟨source, hsource, ?_⟩
  split
  · exact h.lexeme (.word hne henclosed hdelimited) rfl
  rename_i hescaped
  have hplain := hplain (Bool.eq_false_iff.2 hescaped)
  rw [unescape_eq_self hplain]
  cases hk : keyword? source with
  | none => exact h.plain (.word hne henclosed hdelimited) (by decide) hplain
  | some kind =>
    refine h.plain (.keyword hk hplain hdelimited) ?_ hplain
    rintro rfl
    unfold keyword? at hk
    split at hk <;> cases hk

theorem piece (h : Scanned read (c :: rest) done)
    (hr : readPiece (read.length + 1) c rest = .ok (.lexemes found, after)) :
    ∃ source, c :: rest = source ++ after ∧ Scanned (read ++ source) after (found.reverse ++ done) := by
  have hsingle {kind : LexemeKind} (hm : (kind, [c]) ∈ signs)
      (hr : (single kind c (read.length + 1), rest) = (.lexemes found, after)) :
      ∃ source, c :: rest = source ++ after ∧ Scanned (read ++ source) after (found.reverse ++ done) := by
    cases hr
    exact ⟨[c], rfl, h.sign hm⟩
  unfold readPiece at hr
  split at hr
  · cases hr
  split at hr
  case h_1 =>
    split at hr
    case h_1 text rest' hphrase =>
      cases hr
      obtain ⟨inner, rfl, rfl, hinner⟩ := readPhrase?_source hphrase
      have hs : '"' :: (inner ++ '"' :: after) = ('"' :: inner ++ ['"']) ++ after := by simp
      rw [hs] at h ⊢
      exact ⟨_, rfl, h.lexeme (.phrase after hinner) (by simp)⟩
    case h_2 => cases hr
  case h_2 | h_3 | h_6 | h_7 | h_8 | h_9 | h_10 | h_11 | h_12 => exact hsingle (by decide) (Except.ok.inj hr)
  case h_4 | h_5 =>
    obtain ⟨⟨found', after'⟩, hmodifier, heq⟩ := map_eq_ok.1 hr
    cases heq
    exact h.modifier (by decide) hmodifier
  case h_13 | h_14 =>
    obtain ⟨rfl, hpiece, hscanned⟩ := h.double (by decide) hr
    cases hpiece
    exact ⟨_, rfl, hscanned⟩
  case h_15 => cases hr
  case h_16 =>
    obtain ⟨⟨text, escaped, after'⟩, hword, heq⟩ := map_eq_ok.1 hr
    cases heq
    refine h.word ?_ hword
    simp_all [isDelimiter, isMark]

end Scanned

/-- Blanks and field marks are single characters. -/
theorem readPiece_mark {position : Nat} {c : Char} {rest after : List Char} {piece : Piece}
    (h : readPiece position c rest = .ok (piece, after)) :
    (piece = .blank → isBlank c = true ∧ after = rest) ∧ (piece = .fieldMark → c = ':' ∧ after = rest) := by
  have hlexemes {found : List Lexeme} (hp : piece = .lexemes found) :
      (piece = .blank → isBlank c = true ∧ after = rest) ∧
        (piece = .fieldMark → c = ':' ∧ after = rest) := by
    subst hp
    exact ⟨nofun, nofun⟩
  unfold readPiece at h
  split at h
  case isTrue hc =>
    cases h
    exact ⟨fun _ => ⟨hc, rfl⟩, nofun⟩
  split at h
  case h_1 =>
    split at h
    · cases h
      exact hlexemes rfl
    · cases h
  case h_2 | h_3 | h_6 | h_7 | h_8 | h_9 | h_10 | h_11 | h_12 =>
    cases h
    exact hlexemes rfl
  case h_13 | h_14 =>
    unfold doubled at h
    repeat' split at h
    all_goals first | cases h; exact hlexemes rfl | cases h
  case h_15 =>
    cases h
    exact ⟨nofun, fun _ => ⟨rfl, rfl⟩⟩
  case h_4 | h_5 | h_16 =>
    obtain ⟨_, -, heq⟩ := map_eq_ok.1 h
    cases heq
    exact hlexemes rfl

theorem scan_scanned {position : Nat} {s : List Char} {done xs : List Lexeme} (hx : scan position done s = .ok xs) :
    ∀ read, position = read.length + 1 → Scanned read s done → Scanned (read ++ s) [] xs.reverse := by
  fun_induction scan position done s with
  | case1 position done =>
    cases hx
    intro read _ h
    simpa using h
  | case2 => cases hx
  | case3 position done c rest after next hpiece _ _ ih =>
    intro read hposition h
    obtain ⟨hc, rfl⟩ := (readPiece_mark hpiece).1 rfl
    have hread := ih hx (read ++ [c]) (by simp [next, hposition]) (h.blank hc)
    simpa using hread
  | case4 position done c rest after next found hpiece _ _ ih =>
    intro read hposition h
    rw [hposition] at hpiece
    obtain ⟨source, hsource, hscanned⟩ := h.piece hpiece
    rw [hsource, ← List.append_assoc]
    refine ih hx (read ++ source) ?_ hscanned
    simp only [next, hsource, hposition, List.length_append]
    omega
  | case5 position c rest after next hpiece text start earlier _ _ ih =>
    intro read hposition h
    obtain ⟨rfl, rfl⟩ := (readPiece_mark hpiece).2 rfl
    have hread := ih hx (read ++ [':']) (by simp [next, hposition]) h.fieldMark
    simpa using hread
  | case6 => cases hx

/-- The lexemes of a query string make it up, and their texts are what their sources say. -/
theorem ofQuery_tiled {query : String} {xs : List Lexeme} (h : ofQuery query = .ok xs) :
    ∃ placed, Tiled query.toList [] placed ∧ placed.map Placed.lexeme = xs ∧ ∀ x ∈ placed, x.Faithful := by
  have hstart : Scanned [] query.toList [] := ⟨[], .start _, rfl, nofun⟩
  obtain ⟨placed, ht, hd, hf⟩ := scan_scanned h [] rfl hstart
  exact ⟨placed, ht, by simpa using hd, hf⟩

end TextSearch.Lexeme
