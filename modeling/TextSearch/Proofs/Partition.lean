import TextSearch.Proofs.Tiling

/-! The lexemes of a query string split it. What they leave over is blanks and the colons behind fields; and a
query string that is not made of lexemes fails at one of its positions. -/
namespace TextSearch

/-- A lexical failure at one of these positions. -/
inductive Error.LexicalIn (first last : Nat) : Error → Prop where
  | lexical (message : String) {position : Nat} : first ≤ position → position ≤ last →
    LexicalIn first last (.lexical message position)

theorem Error.LexicalIn.mono {first last first' last' : Nat} {e : Error} (h : e.LexicalIn first' last')
    (hfirst : first ≤ first') (hlast : last' ≤ last) : e.LexicalIn first last := by
  cases h with
  | lexical message hle hge => exact .lexical message (Nat.le_trans hfirst hle) (Nat.le_trans hge hlast)

namespace Lexeme

/-- A lexeme is the last one before the character behind the first `i`. -/
structure LastBefore (placed : List Placed) (i : Nat) (x : Placed) : Prop where
  mem : x ∈ placed
  behind : x.lexeme.position + x.source.length ≤ i + 1
  before : ∀ y ∈ placed, x.lexeme.position < y.lexeme.position → i + 1 < y.lexeme.position

/-- Lexemes split a text. They are in order, each is written where it stands and says what is written there, and
all that is between them is blanks and one colon behind each field. -/
structure Splits (text : List Char) (placed : List Placed) : Prop where
  nonempty : ∀ x ∈ placed, x.source ≠ []
  increasing : placed.Pairwise fun x y => x.lexeme.position < y.lexeme.position
  disjoint : placed.Pairwise fun x y => x.lexeme.position + x.source.length ≤ y.lexeme.position
  written : ∀ x ∈ placed, ∃ before after, text = before ++ (x.source ++ after) ∧
    x.lexeme.position = before.length + 1
  between : ∀ i c, text[i]? = some c → (∀ x ∈ placed, ¬x.Covers i 1) →
    isBlank c = true ∨ c = ':' ∧ ∃ x, x.lexeme.kind = .field ∧ LastBefore placed i x
  marked : ∀ x ∈ placed, x.lexeme.kind = .field → ∃! i, text[i]? = some ':' ∧ LastBefore placed i x
  faithful : ∀ x ∈ placed, x.Faithful
  quoted : ∀ x ∈ placed, x.lexeme.kind = .phrase → ∃ inner, x.source = '"' :: inner ++ ['"'] ∧ Enclosed inner ∧
    x.lexeme.text.toList = unescape inner
  unquoted : ∀ x ∈ placed, x.lexeme.kind = .word ∨ x.lexeme.kind = .field →
    Enclosed x.source ∧ x.lexeme.text.toList = unescape x.source
  named : ∀ x ∈ placed, x.lexeme.Named
  escaped : ∀ x ∈ placed, '\\' ∈ x.source →
    x.lexeme.kind = .word ∨ x.lexeme.kind = .field ∨ x.lexeme.kind = .phrase

namespace Written

variable {kind : LexemeKind} {source rest : List Char}

theorem ne_field (h : Written kind source rest) : kind ≠ .field := by
  rintro rfl
  cases h with
  | keyword hk =>
    unfold keyword? at hk
    split at hk <;> cases hk
  | sign _ hm => revert hm; simp [signs]

/-- Only numbers might be written as nothing. -/
theorem ne_nil (h : Written kind source rest) : source ≠ [] ∨ kind = .number := by
  cases h with
  | word hne => exact .inl hne
  | keyword hk =>
    left
    rintro rfl
    cases hk
  | phrase => exact .inl (List.cons_ne_nil _ _)
  | number => exact .inr rfl
  | sign _ hm =>
    have hsigns : ∀ sign ∈ signs, sign.2 ≠ [] := by decide
    exact .inl (hsigns _ hm)

theorem escaped (h : Written kind source rest) (he : '\\' ∈ source) : kind = .word ∨ kind = .phrase := by
  cases h with
  | word => exact .inl rfl
  | keyword _ hplain => exact absurd he hplain
  | phrase => exact .inr rfl
  | number hdigits =>
    rcases hdigits _ he with hdigit | hpoint
    · cases hdigit
    · cases hpoint
  | sign _ hm =>
    have hsigns : ∀ sign ∈ signs, '\\' ∉ sign.2 := by decide
    exact absurd he (hsigns _ hm)

theorem enclosed (h : Written kind source rest) :
    (kind = .phrase → ∃ inner, source = '"' :: inner ++ ['"'] ∧ Enclosed inner) ∧
      (kind = .word → Enclosed source) := by
  cases h with
  | word _ henclosed => exact ⟨nofun, fun _ => henclosed⟩
  | keyword hk =>
    have hne : kind ≠ .phrase ∧ kind ≠ .word := by
      unfold keyword? at hk
      split at hk <;> cases hk <;> decide
    exact ⟨fun hp => absurd hp hne.1, fun hw => absurd hw hne.2⟩
  | phrase _ henclosed => exact ⟨fun _ => ⟨_, rfl, henclosed⟩, nofun⟩
  | number => exact ⟨nofun, nofun⟩
  | sign _ hm =>
    have hsigns : ∀ sign ∈ signs, sign.1 ≠ .phrase ∧ sign.1 ≠ .word := by decide
    exact ⟨fun hp => absurd hp (hsigns _ hm).1, fun hw => absurd hw (hsigns _ hm).2⟩

end Written

namespace Tiled

variable {read rest : List Char} {placed : List Placed} {i : Nat} {c : Char}

theorem ne_nil (h : Tiled read rest placed) : ∀ x ∈ placed, x.source ≠ [] ∨ x.lexeme.kind = .number := by
  induction h with
  | start => exact nofun
  | blank _ _ ih => exact ih
  | fieldMark _ ih =>
    obtain ⟨hplaced, hlast⟩ := List.forall_mem_append.1 ih
    have hword := hlast _ (List.mem_singleton_self _)
    refine List.forall_mem_append.2 ⟨hplaced, List.forall_mem_singleton.2 (.inl ?_)⟩
    exact hword.resolve_right nofun
  | lexeme _ _ hw ih => exact List.forall_mem_append.2 ⟨ih, List.forall_mem_singleton.2 hw.ne_nil⟩

theorem escaped (h : Tiled read rest placed) : ∀ x ∈ placed, '\\' ∈ x.source →
    x.lexeme.kind = .word ∨ x.lexeme.kind = .field ∨ x.lexeme.kind = .phrase := by
  induction h with
  | start => exact nofun
  | blank _ _ ih => exact ih
  | fieldMark _ ih =>
    refine List.forall_mem_append.2 ⟨(List.forall_mem_append.1 ih).1, List.forall_mem_singleton.2 fun _ => ?_⟩
    exact .inr (.inl rfl)
  | lexeme _ _ hw ih =>
    refine List.forall_mem_append.2 ⟨ih, List.forall_mem_singleton.2 fun he => ?_⟩
    exact (hw.escaped he).imp_right .inr

/-- Phrases stand between quotes, which like all quotes in words count only if they are not escaped. -/
theorem enclosed (h : Tiled read rest placed) : ∀ x ∈ placed,
    (x.lexeme.kind = .phrase → ∃ inner, x.source = '"' :: inner ++ ['"'] ∧ Enclosed inner) ∧
      (x.lexeme.kind = .word ∨ x.lexeme.kind = .field → Enclosed x.source) := by
  induction h with
  | start => exact nofun
  | blank _ _ ih => exact ih
  | fieldMark _ ih =>
    obtain ⟨hplaced, hlast⟩ := List.forall_mem_append.1 ih
    have hword := (hlast _ (List.mem_singleton_self _)).2 (.inl rfl)
    exact List.forall_mem_append.2 ⟨hplaced, List.forall_mem_singleton.2 ⟨nofun, fun _ => hword⟩⟩
  | lexeme _ _ hw ih =>
    refine List.forall_mem_append.2 ⟨ih, List.forall_mem_singleton.2 ⟨hw.enclosed.1, fun hk => ?_⟩⟩
    exact hw.enclosed.2 (hk.resolve_right hw.ne_field)

/-- The lexemes before the last one. -/
theorem ordered_concat {x y : Placed} (h : Tiled read rest (placed ++ [y])) (hx : x ∈ placed) :
    x.lexeme.position + x.source.length ≤ y.lexeme.position :=
  (List.pairwise_append.1 h.ordered.1).2.2 x hx y (List.mem_singleton_self y)

end Tiled

section behind
variable {read rest : List Char} {placed : List Placed} {i : Nat} {x y : Placed}

theorem lastBefore_concat (hx : x ∈ placed) : LastBefore (placed ++ [y]) i x ↔
    LastBefore placed i x ∧ (x.lexeme.position < y.lexeme.position → i + 1 < y.lexeme.position) := by
  constructor
  · rintro ⟨-, hbehind, hbefore⟩
    obtain ⟨hplaced, hlast⟩ := List.forall_mem_append.1 hbefore
    exact ⟨⟨hx, hbehind, hplaced⟩, hlast y (List.mem_singleton_self y)⟩
  · rintro ⟨⟨-, hbehind, hbefore⟩, hlast⟩
    refine ⟨List.mem_append_left _ hx, hbehind, List.forall_mem_append.2 ⟨hbefore, ?_⟩⟩
    exact List.forall_mem_singleton.2 hlast

theorem lastBefore_last (h : ∀ z ∈ placed, z.lexeme.position ≤ y.lexeme.position) :
    LastBefore (placed ++ [y]) i y ↔ y.lexeme.position + y.source.length ≤ i + 1 := by
  refine ⟨LastBefore.behind, fun hbehind => ⟨by simp, hbehind, List.forall_mem_append.2 ⟨?_, ?_⟩⟩⟩
  · intro z hz hlt
    have hle := h z hz
    omega
  · exact List.forall_mem_singleton.2 fun hlt => absurd hlt (Nat.lt_irrefl _)

end behind

namespace Tiled
variable {read rest : List Char} {placed : List Placed}

theorem between (h : Tiled read rest placed) : ∀ i c, read[i]? = some c → (∀ x ∈ placed, ¬x.Covers i 1) →
    isBlank c = true ∨ c = ':' ∧ ∃ x, x.lexeme.kind = .field ∧ LastBefore placed i x := by
  induction h with
  | start =>
    intro i c hc
    cases hc
  | @blank read rest d placed _ hd ih =>
    intro i c hc hout
    rw [List.getElem?_append] at hc
    split at hc
    · exact ih i c hc hout
    · obtain rfl := List.mem_singleton.1 (List.mem_of_getElem? hc)
      exact .inl hd
  | @fieldMark read rest source placed text position ht ih =>
    intro i c hc hout
    rw [List.getElem?_append] at hc
    split at hc
    · obtain ⟨hplaced, hlast⟩ := List.forall_mem_append.1 hout
      have hfield := hlast _ (List.mem_singleton_self _)
      have hword : ∀ x ∈ placed ++ [⟨⟨.word, text, position⟩, source⟩], ¬x.Covers i 1 :=
        List.forall_mem_append.2 ⟨hplaced, List.forall_mem_singleton.2 hfield⟩
      refine (ih i c hc hword).imp_right (And.imp_right ?_)
      rintro ⟨x, hk, hx⟩
      rcases List.mem_append.1 hx.mem with hm | hm
      · obtain ⟨hearlier, hafter⟩ := (lastBefore_concat hm).1 hx
        exact ⟨x, hk, (lastBefore_concat hm).2 ⟨hearlier, hafter⟩⟩
      · rw [List.mem_singleton.1 hm] at hk
        cases hk
    · rename_i hge
      obtain rfl := List.mem_singleton.1 (List.mem_of_getElem? hc)
      have hbound := ht.ordered.2 _ (List.mem_append_right _ (List.mem_singleton_self _))
      refine .inr ⟨rfl, _, rfl, (lastBefore_last fun z hz => ?_).2 ?_⟩
      · have hz := ht.ordered_concat hz
        dsimp only at hz ⊢
        omega
      · dsimp only at hbound ⊢
        omega
  | @lexeme read rest source placed kind text ht hw ih =>
    intro i c hc hout
    obtain ⟨hplaced, hnew⟩ := List.forall_mem_append.1 hout
    have hlt : i < (read ++ source).length := (List.getElem?_eq_some_iff.1 hc).1
    rw [List.length_append] at hlt
    have hread : i < read.length := by
      by_contra hge
      refine hnew _ (List.mem_singleton_self _) ⟨?_, ?_⟩ <;> dsimp only <;> omega
    rw [List.getElem?_append_left hread] at hc
    refine (ih i c hc hplaced).imp_right (And.imp_right ?_)
    rintro ⟨x, hk, hx⟩
    refine ⟨x, hk, (lastBefore_concat hx.mem).2 ⟨hx, fun _ => ?_⟩⟩
    dsimp only
    omega

/-- A field is behind the lexemes before it. -/
theorem position_lt (h : Tiled read rest placed) {x : Placed} (hx : x ∈ placed) (hk : x.lexeme.kind = .field)
    {n : Nat} (hn : x.lexeme.position + x.source.length ≤ n) : x.lexeme.position < n := by
  have hne : x.source ≠ [] := (h.ne_nil x hx).resolve_right (by simp [hk])
  have hpos := List.length_pos_iff.2 hne
  omega

/-- There is no colon behind the last lexeme of what is read, unless that is a field. -/
theorem covered_of_colon {y : Placed} (h : Tiled read rest (placed ++ [y])) (hy : y.lexeme.kind ≠ .field) {i : Nat}
    (hc : read[i]? = some ':') : i + 1 < y.lexeme.position + y.source.length := by
  by_contra hle
  have hout : ∀ x ∈ placed ++ [y], ¬x.Covers i 1 := by
    refine List.forall_mem_append.2 ⟨fun x hx hcovers => ?_, List.forall_mem_singleton.2 fun hcovers => ?_⟩
    · have hbefore := h.ordered_concat hx
      have hend := hcovers.2
      omega
    · have hend := hcovers.2
      omega
  rcases h.between i ':' hc hout with hblank | ⟨-, x, hk, hx⟩
  · cases hblank
  rcases List.mem_append.1 hx.mem with hm | hm
  · have hbefore := hx.before y (List.mem_append_right _ (List.mem_singleton_self _))
      (h.position_lt hx.mem hk (h.ordered_concat hm))
    omega
  · obtain rfl := List.mem_singleton.1 hm
    exact hy hk

theorem marked (h : Tiled read rest placed) : ∀ x ∈ placed, x.lexeme.kind = .field →
    ∃! i, read[i]? = some ':' ∧ LastBefore placed i x := by
  induction h with
  | start => exact nofun
  | @blank read rest d placed _ hd ih =>
    intro x hx hk
    refine (existsUnique_congr fun i => and_congr_left fun _ => ?_).1 (ih x hx hk)
    rw [List.getElem?_append]
    split
    · rfl
    · rename_i hge
      rw [List.getElem?_eq_none (Nat.not_lt.1 hge)]
      refine ⟨nofun, fun hc => ?_⟩
      rw [← List.mem_singleton.1 (List.mem_of_getElem? hc)] at hd
      cases hd
  | @fieldMark read rest source placed text position ht ih =>
    have hbound := ht.ordered.2 _ (List.mem_append_right _ (List.mem_singleton_self _))
    dsimp only at hbound
    intro x hx hk
    rcases List.mem_append.1 hx with hx | hx
    · have hlt := ht.position_lt (List.mem_append_left _ hx) hk (ht.ordered_concat hx)
      refine (existsUnique_congr fun i => ?_).1 (ih x (List.mem_append_left _ hx) hk)
      rw [lastBefore_concat hx, lastBefore_concat hx]
      refine and_congr_left fun hlast => ?_
      have hi := hlast.2 hlt
      dsimp only at hi
      rw [List.getElem?_append_left (by omega)]
    · obtain rfl := List.mem_singleton.1 hx
      have hlast (i : Nat) : LastBefore (placed ++ [⟨⟨.field, text, position⟩, source⟩]) i
          ⟨⟨.field, text, position⟩, source⟩ ↔ position + source.length ≤ i + 1 :=
        lastBefore_last fun z hz => Nat.le_trans (Nat.le_add_right _ _) (ht.ordered_concat hz)
      refine ⟨read.length, ⟨List.getElem?_concat_length, (hlast _).2 hbound⟩, ?_⟩
      rintro i ⟨hc, hbehind⟩
      have hbehind := (hlast i).1 hbehind
      rw [List.getElem?_append] at hc
      split at hc
      · have hcovered := ht.covered_of_colon nofun hc
        dsimp only at hbehind hcovered
        omega
      · have hi := (List.getElem?_eq_some_iff.1 hc).1
        rw [List.length_singleton] at hi
        omega
  | @lexeme read rest source placed kind text ht hw ih =>
    intro x hx hk
    rcases List.mem_append.1 hx with hx | hx
    · have hlt := ht.position_lt hx hk (ht.ordered.2 x hx)
      refine (existsUnique_congr fun i => ?_).1 (ih x hx hk)
      rw [lastBefore_concat hx]
      constructor
      · rintro ⟨hc, hlast⟩
        have hi := (List.getElem?_eq_some_iff.1 hc).1
        rw [List.getElem?_append_left hi]
        exact ⟨hc, hlast, fun _ => Nat.succ_lt_succ hi⟩
      · rintro ⟨hc, hlast, hnew⟩
        rw [List.getElem?_append_left (Nat.lt_of_succ_lt_succ (hnew hlt))] at hc
        exact ⟨hc, hlast⟩
    · rw [List.mem_singleton.1 hx] at hk
      exact absurd hk hw.ne_field

end Tiled

section failures
variable {position : Nat} {s : List Char} {e : Error}

theorem readWord_error_at (h : readWord position s = .error e) : e.LexicalIn position (position + s.length) := by
  fun_induction readWord position s with
  | case1 | case4 => cases h
  | case2 =>
    cases h
    exact .lexical _ (Nat.le_add_right _ _) (Nat.le_refl _)
  | case3 position c rest ih =>
    refine (ih (map_eq_error.1 h)).mono (Nat.le_add_right _ _) ?_
    simp only [List.length_cons]
    omega
  | case5 =>
    cases h
    exact .lexical _ (Nat.le_refl _) (Nat.le_add_right _ _)
  | case6 position c rest _ _ _ _ ih =>
    refine (ih (map_eq_error.1 h)).mono (Nat.le_add_right _ _) ?_
    simp only [List.length_cons]
    omega

theorem readNumber_error_at {pointSeen : Bool} (h : readNumber position pointSeen s = .error e) :
    e.LexicalIn position (position + s.length) := by
  fun_induction readNumber position pointSeen s with
  | case1 | case4 => cases h
  | case2 position _ c rest _ ih | case3 position _ c rest _ _ ih =>
    refine (ih (map_eq_error.1 h)).mono (Nat.le_add_right _ _) ?_
    simp only [List.length_cons]
    omega
  | case5 =>
    cases h
    exact .lexical _ (Nat.le_refl _) (Nat.le_add_right _ _)

theorem readModifier_error_at {kind : LexemeKind} {mark : Char}
    (h : readModifier kind mark position s = .error e) : e.LexicalIn position (position + 1 + s.length) := by
  unfold readModifier at h
  split at h
  · cases h
  split at h
  · cases h
  split at h
  · split at h
    · rename_i f hr
      cases h
      exact (readNumber_error_at hr).mono (Nat.le_add_right _ _) (Nat.le_refl _)
    split at h
    · cases h
    · cases h
      exact .lexical _ (Nat.le_add_right _ _) (Nat.le_add_right _ _)
  · cases h
    exact .lexical _ (Nat.le_add_right _ _) (Nat.le_add_right _ _)

theorem doubled_error_at {kind : LexemeKind} {c : Char} (h : doubled kind c position s = .error e) :
    e.LexicalIn position position := by
  unfold doubled at h
  split at h
  · split at h
    · cases h
    · cases h
      exact .lexical _ (Nat.le_refl _) (Nat.le_refl _)
  · cases h
    exact .lexical _ (Nat.le_refl _) (Nat.le_refl _)

theorem readPiece_error_at {c : Char} (h : readPiece position c s = .error e) :
    e.LexicalIn position (position + (c :: s).length) := by
  have hlength : position + (c :: s).length = position + 1 + s.length := by
    simp only [List.length_cons]
    omega
  unfold readPiece at h
  split at h
  · cases h
  split at h
  case h_1 =>
    split at h
    · cases h
    · cases h
      exact .lexical _ (Nat.le_refl _) (Nat.le_add_right _ _)
  case h_4 | h_5 =>
    rw [hlength]
    exact readModifier_error_at (map_eq_error.1 h)
  case h_13 | h_14 => exact (doubled_error_at h).mono (Nat.le_refl _) (Nat.le_add_right _ _)
  case h_16 => exact readWord_error_at (map_eq_error.1 h)
  all_goals cases h

theorem scan_error_at {done : List Lexeme} (h : scan position done s = .error e) :
    e.LexicalIn position (position + s.length) := by
  fun_induction scan position done s with
  | case1 => cases h
  | case2 position done c rest f hr =>
    cases h
    exact readPiece_error_at hr
  | case3 position done c rest after next hr hle _ ih | case4 position done c rest after next found hr hle _ ih
  | case5 position c rest after next hr text start earlier hle _ ih =>
    refine (ih h).mono (Nat.le_add_right _ _) ?_
    simp only [next, List.length_cons]
    omega
  | case6 =>
    cases h
    exact .lexical _ (Nat.le_refl _) (Nat.le_add_right _ _)

end failures

theorem NumbersPlaced.readable {previous : Option LexemeKind} {xs : List Lexeme} (h : NumbersPlaced previous xs) :
    ∀ x ∈ xs, x.kind = .number → (Decimal.read? x.text.toList).isSome := by
  induction xs generalizing previous with
  | nil => exact nofun
  | cons x rest ih => exact List.forall_mem_cons.2 ⟨fun hk => (h.1 hk).2, ih h.2⟩

/-- A number that can be read is written with something. -/
theorem Placed.Faithful.ne_nil {x : Placed} (h : x.Faithful)
    (hread : (Decimal.read? x.lexeme.text.toList).isSome) : x.source ≠ [] := by
  intro hnil
  have hreading : x.reading = [] := by
    simp [Placed.reading, hnil, unescape]
  rw [show x.lexeme.text.toList = x.reading from h, hreading] at hread
  cases hread

theorem splits_of_ofQuery {query : String} {xs : List Lexeme} (h : ofQuery query = .ok xs) :
    ∃ placed, placed.map Placed.lexeme = xs ∧ Splits query.toList placed := by
  obtain ⟨placed, htiled, hmap, hfaithful⟩ := ofQuery_tiled h
  have hlexeme {x : Placed} (hx : x ∈ placed) : x.lexeme ∈ xs := hmap ▸ List.mem_map_of_mem hx
  have hnonempty : ∀ x ∈ placed, x.source ≠ [] := by
    intro x hx
    rcases htiled.ne_nil x hx with hne | hk
    · exact hne
    · exact (hfaithful x hx).ne_nil ((scan_numbersPlaced h trivial).readable _ (hlexeme hx) hk)
  refine ⟨placed, hmap, ?_⟩
  exact {
    nonempty := hnonempty
    increasing := htiled.ordered.1.imp_of_mem fun {x y} hx _ hle => by
      have hpos := List.length_pos_iff.2 (hnonempty x hx)
      omega
    disjoint := htiled.ordered.1
    written := by simpa using htiled.source_at
    between := htiled.between
    marked := htiled.marked
    faithful := hfaithful
    quoted := fun x hx hk => by
      obtain ⟨inner, hsource, hinner⟩ := (htiled.enclosed x hx).1 hk
      refine ⟨inner, hsource, hinner, ?_⟩
      rw [show x.lexeme.text.toList = x.reading from hfaithful x hx, Placed.reading, if_pos hk, hsource]
      simp
    unquoted := fun x hx hk => by
      refine ⟨(htiled.enclosed x hx).2 hk, ?_⟩
      have hne : x.lexeme.kind ≠ .phrase := by
        rcases hk with hk | hk <;> rw [hk] <;> decide
      rw [show x.lexeme.text.toList = x.reading from hfaithful x hx, Placed.reading, if_neg hne]
    named := fun x hx => scan_named h nofun _ (hlexeme hx)
    escaped := htiled.escaped }

/-- Either the lexemes of a query string split it, or it fails at one of its characters or behind the last one. -/
theorem ofQuery_splits (query : String) :
    (∀ xs, ofQuery query = .ok xs → ∃ placed, placed.map Placed.lexeme = xs ∧ Splits query.toList placed) ∧
      ∀ e, ofQuery query = .error e → e.LexicalIn 1 (query.length + 1) := by
  refine ⟨fun xs => splits_of_ofQuery, fun e h => ?_⟩
  refine (scan_error_at h).mono (Nat.le_refl _) ?_
  rw [String.length_toList]
  omega

theorem escapedField_splits :
    (∃ placed, placed.map Placed.lexeme = [⟨.field, "a:b", 1⟩, ⟨.phrase, "c \"d\"", 8⟩, ⟨.fuzzy, "~", 17⟩,
        ⟨.number, "2", 18⟩, ⟨.word, "or", 20⟩, ⟨.or, "||", 24⟩, ⟨.word, "c", 27⟩] ∧
      Splits "a\\:b : \"c \\\"d\\\"\"~2 \\or || c".toList placed) ∧
    ∃ e, ofQuery "a |" = .error e ∧ e.position? = some 3 ∧ e.LexicalIn 1 4 := by
  constructor
  · have hread : (ofQuery "a\\:b : \"c \\\"d\\\"\"~2 \\or || c").toOption = some [⟨.field, "a:b", 1⟩,
        ⟨.phrase, "c \"d\"", 8⟩, ⟨.fuzzy, "~", 17⟩, ⟨.number, "2", 18⟩, ⟨.word, "or", 20⟩, ⟨.or, "||", 24⟩,
        ⟨.word, "c", 27⟩] := by
      decide +kernel
    exact (ofQuery_splits _).1 _ (toOption_eq_some.1 hread)
  · have hread : (((ofQuery "a |").map fun _ => none).tryCatch fun e => .ok e.position?).toOption =
        some (some 3) := by
      decide +kernel
    cases hq : ofQuery "a |" with
    | ok xs =>
      rw [hq] at hread
      cases hread
    | error e =>
      rw [hq] at hread
      exact ⟨e, rfl, Option.some.inj hread, (ofQuery_splits "a |").2 e hq⟩

end Lexeme
end TextSearch
