import Mathlib.Data.List.Forall2
import TextSearch.Proofs.Addresses
import TextSearch.Proofs.Tiling

/-! Query strings with hidden colons. Words and phrases go on over hidden colons, and the lexemes of a string stand
where they would without the hiding. -/
namespace TextSearch

namespace Lexeme

/-- The characters that begin or end no lexeme by themselves. -/
def Plain (c : Char) : Prop :=
  isDelimiter c = false ∧ c ≠ '"' ∧ c ≠ '\\' ∧ c ≠ '+' ∧ c ≠ '-'

instance : DecidablePred Plain := fun c =>
  inferInstanceAs (Decidable (isDelimiter c = false ∧ c ≠ '"' ∧ c ≠ '\\' ∧ c ≠ '+' ∧ c ≠ '-'))

theorem plain_of_isAddressChar {c : Char} (h : Address.IsAddressChar c) (hc : c ≠ ':') : Plain c := by
  have hothers : [' ', '\t', '\r', '\n', '(', ')', '[', ']', '\x7b', '\x7d', '!', '|', '&', '~', '^', '"',
      '\\', '+', '-'].all (fun d => ¬Address.IsAddressChar d) = true := by
    decide
  by_contra hplain
  refine of_decide_eq_true (List.all_eq_true.1 hothers c ?_) h
  simp only [Plain, isDelimiter, isBlank, isMark] at hplain
  simp only [List.mem_cons]
  simp at hplain
  grind

theorem plain_hideColons {address : List Char} (h : ∀ c ∈ address, Address.IsAddressChar c) :
    ∀ c ∈ hideColons address, Plain c := by
  refine List.forall_mem_map.2 fun c hc => ?_
  split
  · decide
  · rename_i hne
    exact plain_of_isAddressChar (h c hc) (by simpa using hne)

theorem Delimited.not_plain {rest : List Char} (h : Delimited rest) : ∀ c ∈ rest.head?, ¬Plain c := by
  cases rest with
  | nil => nofun
  | cons d rest =>
    intro c hc hplain
    cases hc
    simp [Delimited, hplain.1] at h

section hits
variable {source rest u hit v : List Char}

/-- What begins in a source and has only plain characters does not go beyond it, unless such a character
follows. -/
theorem hit_inside (h : u ++ (hit ++ v) = source ++ rest) (hplain : ∀ c ∈ hit, Plain c)
    (hu : u.length < source.length) (hstop : ∀ c ∈ rest.head?, ¬Plain c) : ∃ w, source = u ++ (hit ++ w) := by
  rcases List.append_eq_append_iff.1 h with ⟨s, rfl, hs⟩ | ⟨s, rfl, -⟩
  · rcases List.append_eq_append_iff.1 hs with ⟨w, rfl, -⟩ | ⟨t, rfl, rfl⟩
    · exact ⟨w, rfl⟩
    · cases t with
      | nil => exact ⟨[], by simp⟩
      | cons d t => exact absurd (hplain d (by simp)) (hstop d rfl)
  · rw [List.length_append] at hu
    omega

theorem unescape_append {s : List Char} (h : '\\' ∉ s) (t : List Char) : unescape (s ++ t) = s ++ unescape t := by
  induction s with
  | nil => rfl
  | cons c s ih =>
    obtain ⟨hc, hs⟩ := List.ne_and_not_mem_of_not_mem_cons h
    rw [List.cons_append, unescape_cons hc.symm, ih hs, List.cons_append]

/-- An escape before a text takes at most its backslash away. -/
theorem infix_unescape (hne : hit ≠ []) (h : '\\' ∉ hit) (u v : List Char) :
    hit <:+: unescape (u ++ (hit ++ v)) := by
  fun_induction unescape u with
  | case1 => exact ⟨[], unescape v, by rw [List.nil_append, List.nil_append, unescape_append h]⟩
  | case2 c rest ih => exact List.infix_cons ih
  | case3 c rest hpair ih =>
    by_cases hc : c = '\\'
    · cases rest with
      | nil =>
        subst hc
        obtain ⟨d, t, rfl⟩ := List.exists_cons_of_ne_nil hne
        obtain ⟨-, ht⟩ := List.ne_and_not_mem_of_not_mem_cons h
        refine ⟨[], unescape v, ?_⟩
        simp [unescape, unescape_append ht]
      | cons d rest => exact absurd rfl (hpair d rest hc)
    · rw [List.cons_append, unescape_cons hc]
      exact List.infix_cons ih

theorem hidden_not_mem_keyword {kind : LexemeKind} (h : keyword? source = some kind) : hiddenColon ∉ source := by
  intro hsource
  have hupper : hiddenColon.toUpper ∈ source.map Char.toUpper := List.mem_map_of_mem hsource
  unfold keyword? at h
  split at h
  case h_5 => cases h
  all_goals
    rename_i hword
    rw [hword] at hupper
    exact absurd hupper (by decide)

theorem hidden_not_mem_number (h : ∀ c ∈ source, c.isDigit = true ∨ c = '.') : hiddenColon ∉ source := by
  intro hsource
  rcases h _ hsource with hdigit | hpoint
  · cases hdigit
  · cases hpoint

/-- A text with a hidden colon that begins in a lexeme ends there, too, and can be read in it. -/
theorem Written.holds {kind : LexemeKind} (h : Written kind source rest) (heq : u ++ (hit ++ v) = source ++ rest)
    (hplain : ∀ c ∈ hit, Plain c) (hhidden : hiddenColon ∈ hit) (hu : u.length < source.length) :
    (kind = .word ∨ kind = .phrase) ∧ u.length + hit.length ≤ source.length ∧
      hit <:+: unescape (if kind = .phrase then source.tail.dropLast else source) := by
  have hescape : '\\' ∉ hit := fun hc => (hplain _ hc).2.2.1 rfl
  have hne : hit ≠ [] := List.ne_nil_of_mem hhidden
  have hinside (hstop : ∀ c ∈ rest.head?, ¬Plain c) :
      hiddenColon ∈ source ∧ u.length + hit.length ≤ source.length ∧ hit <:+: unescape source := by
    obtain ⟨w, rfl⟩ := hit_inside heq hplain hu hstop
    exact ⟨by simp [hhidden], by simp, infix_unescape hne hescape u w⟩
  cases h with
  | word _ _ hdelimited =>
    obtain ⟨-, hlength, hinfix⟩ := hinside hdelimited.not_plain
    exact ⟨.inl rfl, hlength, hinfix⟩
  | keyword hk _ hdelimited =>
    obtain ⟨hsource, -⟩ := hinside hdelimited.not_plain
    exact absurd hsource (hidden_not_mem_keyword hk)
  | @phrase inner =>
    have hquote : '"' ∉ hit := fun hc => (hplain _ hc).2.1 rfl
    obtain ⟨d, t, rfl⟩ := List.exists_cons_of_ne_nil hne
    rw [List.append_assoc, List.singleton_append] at heq
    have hu : u.length < ('"' :: inner).length := by
      by_contra hle
      have hlength : u.length = ('"' :: inner).length := by
        simp only [List.length_append, List.length_singleton] at hu
        omega
      have hd := (List.append_inj heq hlength).2
      exact hquote (by simp [(List.cons.inj hd).1])
    have hstop : ∀ c ∈ ('"' :: rest).head?, ¬Plain c := by
      rintro c ⟨⟩
      decide
    obtain ⟨w, hw⟩ := hit_inside heq hplain hu hstop
    cases u with
    | nil =>
      have hd : '"' = d := (List.cons.inj hw).1
      exact absurd (List.mem_cons.2 (.inl hd)) hquote
    | cons e u =>
      obtain rfl : inner = u ++ (d :: t ++ w) := (List.cons.inj hw).2
      refine ⟨.inr rfl, ?_, ?_⟩
      · simp only [List.length_append, List.length_cons]
        omega
      · rw [if_pos rfl, List.cons_append, List.tail_cons, List.dropLast_concat]
        exact infix_unescape hne hescape u w
  | number hdigits hdelimited =>
    obtain ⟨hsource, -⟩ := hinside hdelimited.not_plain
    exact absurd hsource (hidden_not_mem_number hdigits)
  | sign _ hm =>
    have hsigns : signs.all (fun sign => sign.2.all fun c => ¬Plain c) = true := by decide
    obtain ⟨d, t, rfl⟩ := List.exists_cons_of_ne_nil hne
    rcases List.append_eq_append_iff.1 heq with ⟨s, rfl, hs⟩ | ⟨s, rfl, -⟩
    · cases s with
      | nil => simp at hu
      | cons e s =>
        obtain ⟨rfl, -⟩ := List.cons.inj hs
        have hsign := List.all_eq_true.1 (List.all_eq_true.1 hsigns _ hm) d (by simp)
        exact absurd (hplain d (by simp)) (of_decide_eq_true hsign)
    · rw [List.length_append] at hu
      omega

end hits

/-- The lexeme takes in a text behind the first `start` characters, and its source reads so. -/
structure Placed.Holds (x : Placed) (start : Nat) (hit : List Char) : Prop where
  kind : x.lexeme.kind = .word ∨ x.lexeme.kind = .field ∨ x.lexeme.kind = .phrase
  covers : x.Covers start hit.length
  reads : hit <:+: x.reading

theorem Tiled.holds {read rest u hit v : List Char} {placed : List Placed} (h : Tiled read rest placed)
    (heq : u ++ (hit ++ v) = read ++ rest) (hplain : ∀ c ∈ hit, Plain c) (hhidden : hiddenColon ∈ hit)
    (hu : u.length < read.length) : ∃ x ∈ placed, x.Holds u.length hit := by
  have hsingle {read rest : List Char} {c : Char} (heq : u ++ (hit ++ v) = read ++ [c] ++ rest)
      (hu : u.length < (read ++ [c]).length) (hc : ¬Plain c) : u.length < read.length := by
    by_contra hle
    have hlength : u.length = read.length := by
      simp only [List.length_append, List.length_singleton] at hu
      omega
    rw [List.append_assoc] at heq
    have hhit := (List.append_inj heq hlength).2
    obtain ⟨d, t, rfl⟩ := List.exists_cons_of_ne_nil (List.ne_nil_of_mem hhidden)
    have hd : d = c := (List.cons.inj hhit).1
    exact hc (hd ▸ hplain d List.mem_cons_self)
  induction h with
  | start => cases hu
  | @blank read rest c placed _ hc ih =>
    have hnot : ¬Plain c := by
      intro hplain
      have hdelimiter := hplain.1
      simp [isDelimiter, hc] at hdelimiter
    exact ih (by simpa using heq) (hsingle heq hu hnot)
  | @fieldMark read rest source placed text position _ ih =>
    obtain ⟨x, hx, hholds⟩ := ih (by simpa using heq) (hsingle heq hu (by decide))
    rcases List.mem_append.1 hx with hx | hx
    · exact ⟨x, List.mem_append_left _ hx, hholds⟩
    · cases List.mem_singleton.1 hx
      refine ⟨_, List.mem_append_right _ (List.mem_singleton_self _), .inr (.inl rfl), hholds.covers, ?_⟩
      exact hholds.reads
  | @lexeme read rest source placed kind text _ hw ih =>
    by_cases hlt : u.length < read.length
    · obtain ⟨x, hx, hholds⟩ := ih (by simpa using heq) hlt
      exact ⟨x, List.mem_append_left _ hx, hholds⟩
    have hread : read <+: u ++ (hit ++ v) := ⟨source ++ rest, by rw [heq, List.append_assoc]⟩
    obtain ⟨u, rfl⟩ := List.prefix_of_prefix_length_le hread (List.prefix_append u _) (Nat.not_lt.1 hlt)
    have hinner : u ++ (hit ++ v) = source ++ rest := by simpa using heq
    obtain ⟨hkind, hlength, hreads⟩ := hw.holds hinner hplain hhidden (by simpa using hu)
    refine ⟨_, List.mem_append_right _ (List.mem_singleton_self _), ?_, ?_, hreads⟩
    · rcases hkind with hk | hk
      · exact .inl hk
      · exact .inr (.inr hk)
    · simp only [Placed.Covers, List.length_append]
      omega

end Lexeme

theorem split_forall₂ {α β : Type} {R : α → β → Prop} {s : List α} {t u : List β}
    (h : List.Forall₂ R s (t ++ u)) : ∃ s₁ s₂, s = s₁ ++ s₂ ∧ List.Forall₂ R s₁ t ∧ List.Forall₂ R s₂ u :=
  ⟨_, _, (List.take_append_drop t.length s).symm, List.forall₂_take_append s t u h,
    List.forall₂_drop_append s t u h⟩

theorem exists_of_forall₂ {α β : Type} {R : α → β → Prop} {s : List α} {t : List β} (h : List.Forall₂ R s t) :
    (∀ a ∈ s, ∃ b ∈ t, R a b) ∧ ∀ b ∈ t, ∃ a ∈ s, R a b := by
  induction h with
  | nil => exact ⟨nofun, nofun⟩
  | @cons a b s t hab _ ih =>
    obtain ⟨hs, ht⟩ := ih
    refine ⟨List.forall_mem_cons.2 ⟨⟨b, List.mem_cons_self, hab⟩, fun c hc => ?_⟩,
      List.forall_mem_cons.2 ⟨⟨a, List.mem_cons_self, hab⟩, fun c hc => ?_⟩⟩
    · obtain ⟨d, hd, hcd⟩ := hs c hc
      exact ⟨d, List.mem_cons_of_mem b hd, hcd⟩
    · obtain ⟨d, hd, hdc⟩ := ht c hc
      exact ⟨d, List.mem_cons_of_mem a hd, hdc⟩

/-- A character of a query string as the scan sees it. -/
def HidesChar (c d : Char) : Prop := d = c ∨ (c = ':' ∧ d = hiddenColon)

/-- A text of a query string as the scan sees it. -/
abbrev Hides : List Char → List Char → Prop := List.Forall₂ HidesChar

theorem HidesChar.eq {c d : Char} (h : HidesChar c d) (hd : d ≠ hiddenColon) : d = c :=
  h.resolve_right fun hc => hd hc.2

theorem HidesChar.same {c d e : Char} (h : HidesChar c d) (hcolon : e ≠ ':') (he : e ≠ hiddenColon) :
    c = e ↔ d = e := by
  rcases h with rfl | ⟨rfl, rfl⟩
  · rfl
  · exact iff_of_false hcolon.symm he.symm

namespace Hides
variable {s t u : List Char}

theorem hideColons (s : List Char) : Hides s (hideColons s) := by
  refine List.forall₂_map_right_iff.2 (List.forall₂_same.2 fun c _ => ?_)
  split
  · rename_i hc
    exact .inr ⟨eq_of_beq hc, rfl⟩
  · exact .inl rfl

theorem eq_of_not_mem (h : Hides s t) (ht : hiddenColon ∉ t) : s = t := by
  induction h with
  | nil => rfl
  | cons hc _ ih =>
    obtain ⟨hd, ht⟩ := List.ne_and_not_mem_of_not_mem_cons ht
    rw [hc.eq hd.symm, ih ht]

theorem showColons_eq (h : Hides s t) (hs : hiddenColon ∉ s) : showColons t = s := by
  induction h with
  | nil => rfl
  | @cons c d s t hc _ ih =>
    obtain ⟨hd, hs⟩ := List.ne_and_not_mem_of_not_mem_cons hs
    have hshown : (if d == hiddenColon then ':' else d) = c := by
      rcases hc with rfl | ⟨rfl, rfl⟩
      · simp [hd.symm]
      · rfl
    rw [showColons, List.map_cons, hshown, ← showColons, ih hs]

theorem unescape (h : Hides s t) : Hides (Lexeme.unescape s) (Lexeme.unescape t) := by
  have hescape {c d : Char} (hc : HidesChar c d) : c = '\\' ↔ d = '\\' := hc.same (by decide) (by decide)
  fun_induction Lexeme.unescape s generalizing t with
  | case1 =>
    cases h
    exact .nil
  | case2 c rest ih =>
    cases h with
    | cons hb h =>
      obtain rfl := (hescape hb).1 rfl
      cases h with
      | cons hc h => exact .cons hc (ih h)
  | case3 c rest hpair ih =>
    cases h with
    | @cons _ d _ t hc h =>
      by_cases hb : c = '\\'
      · cases rest with
        | nil =>
          cases h
          obtain rfl := hb
          obtain rfl := (hescape hc).1 rfl
          exact .cons hc .nil
        | cons e rest => exact absurd rfl (hpair e rest hb)
      · rw [Lexeme.unescape_cons (mt (hescape hc).2 hb)]
        exact .cons hc (ih h)

end Hides

namespace Lexeme
variable {source rest source' rest' : List Char}

theorem Delimited.unhide (h : Delimited rest) (hr : Hides rest' rest) : Delimited rest' := by
  cases hr with
  | nil => trivial
  | @cons c d rest' rest hc _ =>
    have hd : d ≠ hiddenColon := by
      rintro rfl
      cases h
    rw [← hc.eq hd]
    exact h

theorem Enclosed.unhide (h : Enclosed source) (hs : Hides source' source) : Enclosed source' := by
  induction h generalizing source' with
  | nil =>
    cases hs
    exact .nil
  | escaped c _ ih =>
    cases hs with
    | cons hb hs =>
      obtain rfl := hb.eq (by decide)
      cases hs with
      | @cons d _ _ _ _ hs => exact .escaped d (ih hs)
  | plain hescape hquote _ ih =>
    cases hs with
    | cons hc hs =>
      have hescape := mt (hc.same (by decide) (by decide)).1 hescape
      have hquote := mt (hc.same (by decide) (by decide)).1 hquote
      exact .plain hescape hquote (ih hs)

theorem Written.unhide {kind : LexemeKind} (h : Written kind source rest) (hs : Hides source' source)
    (hr : Hides rest' rest) : Written kind source' rest' := by
  cases h with
  | word hne henclosed hdelimited =>
    refine .word ?_ (henclosed.unhide hs) (hdelimited.unhide hr)
    rintro rfl
    cases hs
    exact hne rfl
  | keyword hk hplain hdelimited =>
    rw [hs.eq_of_not_mem (hidden_not_mem_keyword hk)]
    exact .keyword hk hplain (hdelimited.unhide hr)
  | phrase _ henclosed =>
    obtain ⟨s₁, s₂, rfl, hopening, hclosing⟩ := split_forall₂ hs
    cases hopening with
    | @cons c _ s _ hc hinner =>
      cases hclosing with
      | @cons d _ _ _ hd hnil =>
        cases hnil
        rw [← hc.eq (by decide), ← hd.eq (by decide)]
        exact .phrase rest' (henclosed.unhide hinner)
  | number hdigits hdelimited =>
    rw [hs.eq_of_not_mem (hidden_not_mem_number hdigits)]
    exact .number hdigits (hdelimited.unhide hr)
  | sign _ hm =>
    have hsigns : ∀ sign ∈ signs, hiddenColon ∉ sign.2 := by decide
    rw [hs.eq_of_not_mem (hsigns _ hm)]
    exact .sign rest' hm

/-- A lexeme at its place in the query string, with another text than the scan has given it. -/
structure Unhidden (t : String → String) (y x : Placed) : Prop where
  lexeme : y.lexeme = { x.lexeme with text := t x.lexeme.text }
  source : Hides y.source x.source

/-- Lexemes of a hidden text are lexemes of the query string, at the same places. -/
theorem Tiled.unhide (t : String → String) {read rest q : List Char} {placed : List Placed}
    (h : Tiled read rest placed) (hq : Hides q (read ++ rest)) :
    ∃ read' rest' placed', q = read' ++ rest' ∧ Hides read' read ∧ Hides rest' rest ∧
      Tiled read' rest' placed' ∧ List.Forall₂ (Unhidden t) placed' placed := by
  induction h with
  | start rest => exact ⟨[], q, [], rfl, .nil, hq, .start q, .nil⟩
  | @blank read rest c placed _ hc ih =>
    obtain ⟨read', _, placed', rfl, hread, hrest, ht, hp⟩ := ih (by simpa using hq)
    cases hrest with
    | @cons c' _ rest' _ hh hrest =>
      have hne : c ≠ hiddenColon := by
        rintro rfl
        cases hc
      obtain rfl := hh.eq hne
      exact ⟨read' ++ [c], rest', placed', by simp, List.rel_append hread (.cons hh .nil), hrest, ht.blank hc, hp⟩
  | @fieldMark read rest source placed text position _ ih =>
    obtain ⟨read', _, _, rfl, hread, hrest, ht, hp⟩ := ih (by simpa using hq)
    cases hrest with
    | @cons c' _ rest' _ hh hrest =>
      obtain rfl := hh.eq (by decide)
      obtain ⟨placed', _, rfl, hplaced, hlast⟩ := split_forall₂ hp
      cases hlast with
      | @cons y _ _ _ hy hnil =>
        cases hnil
        obtain ⟨y, source'⟩ := y
        obtain ⟨rfl, hsource⟩ := hy
        exact ⟨read' ++ [':'], rest', _, by simp, List.rel_append hread (.cons hh .nil), hrest, ht.fieldMark,
          List.rel_append hplaced (.cons ⟨rfl, hsource⟩ .nil)⟩
  | @lexeme read rest source placed kind text _ hw ih =>
    obtain ⟨read', _, placed', rfl, hread, hrest, ht, hp⟩ := ih (by simpa using hq)
    obtain ⟨source', rest', rfl, hsource, hrest⟩ := split_forall₂ hrest
    refine ⟨read' ++ source', rest', _, by simp, List.rel_append hread hsource, hrest,
      ht.lexeme (t text) (hw.unhide hsource hrest), List.rel_append hp (.cons ⟨?_, hsource⟩ .nil)⟩
    simp [hread.length_eq]

theorem Unhidden.reading {t : String → String} {y x : Placed} (h : Unhidden t y x) : Hides y.reading x.reading := by
  have hkind : y.lexeme.kind = x.lexeme.kind := by rw [h.lexeme]
  rw [Placed.reading, Placed.reading, hkind]
  refine Hides.unescape ?_
  split
  · have htail : Hides y.source.tail x.source.tail := by
      rw [← List.drop_one, ← List.drop_one]
      exact List.forall₂_drop 1 h.source
    rw [List.dropLast_eq_take, List.dropLast_eq_take, htail.length_eq]
    exact List.forall₂_take _ htail
  · exact h.source

end Lexeme

end TextSearch
