import Mathlib.Data.List.Infix
import TextSearch.Lexeme.Literal

/-! What patterns match, and how the addresses of a query string are cut out of it. -/
namespace TextSearch

namespace Pattern

/-- The texts of a pattern, whichever of its choices comes first. -/
inductive Matches : Pattern → List Char → Prop
  | nothing : Matches nothing []
  | one {accepts : Char → Bool} {c : Char} : accepts c = true → Matches (one accepts) [c]
  | seq {p q : Pattern} {s t : List Char} : Matches p s → Matches q t → Matches (seq p q) (s ++ t)
  | first {p : Pattern} {s : List Char} (q : Pattern) : Matches p s → Matches (alt p q) s
  | second {q : Pattern} {s : List Char} (p : Pattern) : Matches q s → Matches (alt p q) s
  | rep {p : Pattern} {least most : Nat} {parts : List (List Char)} : least ≤ parts.length →
    parts.length ≤ most → (∀ s ∈ parts, Matches p s) → Matches (rep p least most) parts.flatten
  | many {accepts : Char → Bool} {s : List Char} : s ≠ [] → (∀ c ∈ s, accepts c = true) →
    Matches (many accepts) s

/-- A step takes a text for which `M` holds and leaves the rest. -/
def Takes (M : List Char → Prop) (step : List Char → List (List Char)) : Prop :=
  ∀ s, ∀ after ∈ step s, ∃ taken, s = taken ++ after ∧ M taken

/-- A text in parts for which `M` holds, of a number between two bounds. -/
def Repeats (M : List Char → Prop) (least most : Nat) (s : List Char) : Prop :=
  ∃ parts : List (List Char), least ≤ parts.length ∧ parts.length ≤ most ∧ (∀ t ∈ parts, M t) ∧
    s = parts.flatten

theorem repeats_nil (M : List Char → Prop) (most : Nat) : Repeats M 0 most [] :=
  ⟨[], Nat.le_refl 0, Nat.zero_le most, nofun, rfl⟩

theorem Repeats.cons {M : List Char → Prop} {least most : Nat} {s t : List Char} (h : Repeats M least most s)
    (ht : M t) : Repeats M (least + 1) (most + 1) (t ++ s) := by
  obtain ⟨parts, hleast, hmost, hparts, rfl⟩ := h
  exact ⟨t :: parts, Nat.succ_le_succ hleast, Nat.succ_le_succ hmost, List.forall_mem_cons.2 ⟨ht, hparts⟩, rfl⟩

theorem Repeats.anti {M : List Char → Prop} {least most : Nat} {s : List Char} (h : Repeats M least most s) :
    Repeats M 0 most s := by
  obtain ⟨parts, -, hparts⟩ := h
  exact ⟨parts, Nat.zero_le _, hparts⟩

theorem takes_repeated {M : List Char → Prop} {step : List Char → List (List Char)} (hstep : Takes M step)
    (least most : Nat) : Takes (Repeats M least most) (repeated step least most) := by
  have hmore {least most : Nat} (ih : Takes (Repeats M least most) (repeated step least most)) :
      Takes (Repeats M (least + 1) (most + 1)) fun s => (step s).flatMap (repeated step least most) := by
    intro s after h
    obtain ⟨rest, hrest, hafter⟩ := List.mem_flatMap.1 h
    obtain ⟨t, rfl, ht⟩ := hstep s rest hrest
    obtain ⟨taken, rfl, htaken⟩ := ih rest after hafter
    exact ⟨t ++ taken, by simp, htaken.cons ht⟩
  have hstop {most : Nat} {s after : List Char} (h : after ∈ [s]) :
      ∃ taken, s = taken ++ after ∧ Repeats M 0 most taken := by
    cases List.mem_singleton.1 h
    exact ⟨[], rfl, repeats_nil M most⟩
  induction most generalizing least with
  | zero =>
    intro s after hafter
    cases least with
    | zero => exact hstop hafter
    | succ least => cases hafter
  | succ most ih =>
    intro s after hafter
    cases least with
    | zero =>
      rcases List.mem_append.1 hafter with hafter | hafter
      · obtain ⟨taken, hs, htaken⟩ := hmore (ih 0) s after hafter
        exact ⟨taken, hs, htaken.anti⟩
      · exact hstop hafter
    | succ least => exact hmore (ih least) s after hafter

theorem takes_runs (accepts : Char → Bool) :
    Takes (fun taken => taken ≠ [] ∧ ∀ c ∈ taken, accepts c = true) (runs accepts) := by
  intro s
  induction s with
  | nil => exact nofun
  | cons c s ih =>
    intro after hafter
    rw [runs] at hafter
    split at hafter
    · rename_i hc
      rcases List.mem_append.1 hafter with hafter | hafter
      · obtain ⟨taken, rfl, -, htaken⟩ := ih after hafter
        exact ⟨c :: taken, rfl, nofun, List.forall_mem_cons.2 ⟨hc, htaken⟩⟩
      · cases List.mem_singleton.1 hafter
        exact ⟨[c], rfl, nofun, List.forall_mem_singleton.2 hc⟩
    · cases hafter

/-- What a pattern takes of a text is one of its matches. -/
theorem takes_rests (p : Pattern) : Takes p.Matches p.rests := by
  induction p with
  | nothing =>
    intro s after hafter
    cases List.mem_singleton.1 hafter
    exact ⟨[], rfl, .nothing⟩
  | one accepts =>
    intro s after hafter
    rw [rests.eq_def] at hafter
    cases s with
    | nil => cases hafter
    | cons c s =>
      dsimp only at hafter
      split at hafter
      · rename_i hc
        cases List.mem_singleton.1 hafter
        exact ⟨[c], rfl, .one hc⟩
      · cases hafter
  | seq p q ihp ihq =>
    intro s after hafter
    obtain ⟨rest, hrest, hlast⟩ := List.mem_flatMap.1 hafter
    obtain ⟨t, rfl, ht⟩ := ihp s rest hrest
    obtain ⟨u, hu, hmatches⟩ := ihq rest after hlast
    exact ⟨t ++ u, by rw [hu, List.append_assoc], .seq ht hmatches⟩
  | alt p q ihp ihq =>
    intro s after hafter
    rcases List.mem_append.1 hafter with hafter | hafter
    · obtain ⟨taken, hs, ht⟩ := ihp s after hafter
      exact ⟨taken, hs, .first q ht⟩
    · obtain ⟨taken, hs, ht⟩ := ihq s after hafter
      exact ⟨taken, hs, .second p ht⟩
  | rep p least most ih =>
    intro s after hafter
    obtain ⟨_, hs, parts, hleast, hmost, hparts, rfl⟩ := takes_repeated ih least most s after hafter
    exact ⟨_, hs, .rep hleast hmost hparts⟩
  | many accepts =>
    intro s after hafter
    obtain ⟨taken, hs, hne, htaken⟩ := takes_runs accepts s after hafter
    exact ⟨taken, hs, .many hne htaken⟩

theorem rest?_matches {p : Pattern} {s after : List Char} (h : p.rest? s = some after) :
    ∃ taken, s = taken ++ after ∧ p.Matches taken :=
  takes_rests p s after (List.mem_of_mem_head? h)

/-- The pattern has only characters for which `A` holds. -/
def Over (A : Char → Prop) : Pattern → Prop
  | nothing => True
  | one accepts | many accepts => ∀ c, accepts c = true → A c
  | seq p q | alt p q => p.Over A ∧ q.Over A
  | rep p _ _ => p.Over A

/-- The pattern has a character for which `A` holds, wherever a choice leads. -/
def Needs (A : Char → Prop) : Pattern → Prop
  | nothing => False
  | one accepts | many accepts => ∀ c, accepts c = true → A c
  | seq p q => p.Needs A ∨ q.Needs A
  | alt p q => p.Needs A ∧ q.Needs A
  | rep p least _ => 0 < least ∧ p.Needs A

variable {A : Char → Prop}

theorem Matches.over {p : Pattern} {s : List Char} (h : p.Matches s) (hp : p.Over A) : ∀ c ∈ s, A c := by
  induction h with
  | nothing => exact nofun
  | one hc => exact List.forall_mem_singleton.2 (hp _ hc)
  | seq _ _ ihp ihq => exact List.forall_mem_append.2 ⟨ihp hp.1, ihq hp.2⟩
  | first _ _ ih => exact ih hp.1
  | second _ _ ih => exact ih hp.2
  | rep _ _ _ ih =>
    intro c hc
    obtain ⟨part, hpart, hc⟩ := List.mem_flatten.1 hc
    exact ih part hpart hp c hc
  | many _ hs => exact fun c hc => hp c (hs c hc)

theorem Matches.needs {p : Pattern} {s : List Char} (h : p.Matches s) (hp : p.Needs A) : ∃ c ∈ s, A c := by
  induction h with
  | nothing => exact hp.elim
  | one hc => exact ⟨_, List.mem_singleton_self _, hp _ hc⟩
  | seq _ _ ihp ihq =>
    rcases hp with hp | hq
    · obtain ⟨c, hc, ha⟩ := ihp hp
      exact ⟨c, List.mem_append_left _ hc, ha⟩
    · obtain ⟨c, hc, ha⟩ := ihq hq
      exact ⟨c, List.mem_append_right _ hc, ha⟩
  | first _ _ ih => exact ih hp.1
  | second _ _ ih => exact ih hp.2
  | @rep _ _ _ parts hleast _ _ ih =>
    obtain ⟨part, hpart⟩ := List.exists_mem_of_length_pos (Nat.lt_of_lt_of_le hp.1 hleast)
    obtain ⟨c, hc, ha⟩ := ih part hpart hp.2
    exact ⟨c, List.mem_flatten.2 ⟨part, hpart, hc⟩, ha⟩
  | @many _ s hne hs =>
    obtain ⟨c, hc⟩ := List.exists_mem_of_ne_nil s hne
    exact ⟨c, hc, hp c (hs c hc)⟩

/-- How many characters a text of the pattern has at least. -/
def least : Pattern → Nat
  | nothing => 0
  | one _ | many _ => 1
  | seq p q => p.least + q.least
  | alt p q => min p.least q.least
  | rep p count _ => count * p.least

private theorem length_mul_le_flatten {n : Nat} {parts : List (List Char)} (h : ∀ s ∈ parts, n ≤ s.length) :
    parts.length * n ≤ parts.flatten.length := by
  induction parts with
  | nil => simp
  | cons s rest ih =>
    obtain ⟨hs, hrest⟩ := List.forall_mem_cons.1 h
    have hrest := ih hrest
    rw [List.length_cons, List.flatten_cons, List.length_append, Nat.succ_mul]
    omega

theorem Matches.least_le {p : Pattern} {s : List Char} (h : p.Matches s) : p.least ≤ s.length := by
  induction h with
  | nothing => exact Nat.le_refl 0
  | one => exact Nat.le_refl 1
  | seq _ _ ihp ihq =>
    rw [List.length_append]
    exact Nat.add_le_add ihp ihq
  | first _ _ ih => exact (Nat.min_le_left _ _).trans ih
  | second _ _ ih => exact (Nat.min_le_right _ _).trans ih
  | rep hcount _ _ ih => exact (Nat.mul_le_mul_right _ hcount).trans (length_mul_le_flatten ih)
  | many hne _ => exact List.length_pos_of_ne_nil hne

theorem over_text [DecidablePred A] {s : String} (h : s.toList.all (fun c => A c) = true) : (text s).Over A := by
  simp only [List.all_eq_true, decide_eq_true_eq] at h
  unfold text
  generalize s.toList = cs at h
  induction cs with
  | nil => trivial
  | cons c rest ih =>
    obtain ⟨hc, hrest⟩ := List.forall_mem_cons.1 h
    refine ⟨fun d hd => ?_, ih hrest⟩
    rw [eq_of_beq hd]
    exact hc

theorem needs_text [DecidablePred A] {s : String} (h : s.toList.any (fun c => A c) = true) : (text s).Needs A := by
  simp only [List.any_eq_true, decide_eq_true_eq] at h
  unfold text
  generalize s.toList = cs at h
  induction cs with
  | nil =>
    obtain ⟨c, hc, -⟩ := h
    cases hc
  | cons c rest ih =>
    obtain ⟨d, hd, ha⟩ := h
    rcases List.mem_cons.1 hd with rfl | hd
    · exact .inl fun e he => by rwa [eq_of_beq he]
    · exact .inr (ih ⟨d, hd, ha⟩)

theorem over_firstOf {ps : List Pattern} (h : ∀ p ∈ ps, p.Over A) : (firstOf ps).Over A := by
  fun_induction firstOf ps with
  | case1 => exact nofun
  | case2 p => exact h p (List.mem_singleton_self p)
  | case3 p ps _ ih =>
    obtain ⟨hp, hps⟩ := List.forall_mem_cons.1 h
    exact ⟨hp, ih hps⟩

theorem needs_firstOf {ps : List Pattern} (h : ∀ p ∈ ps, p.Needs A) : (firstOf ps).Needs A := by
  fun_induction firstOf ps with
  | case1 => exact nofun
  | case2 p => exact h p (List.mem_singleton_self p)
  | case3 p ps _ ih =>
    obtain ⟨hp, hps⟩ := List.forall_mem_cons.1 h
    exact ⟨hp, ih hps⟩

end Pattern

namespace Address

open Pattern

/-- The characters of addresses and of the network lengths behind them. -/
def IsAddressChar (c : Char) : Prop := isWordChar c = true ∨ c = ':' ∨ c = '.' ∨ c = '%' ∨ c = '/'

instance : DecidablePred IsAddressChar := fun c =>
  inferInstanceAs (Decidable (isWordChar c = true ∨ c = ':' ∨ c = '.' ∨ c = '%' ∨ c = '/'))

theorem isAddressChar_of_hexDigit {c : Char} (h : isHexDigit c = true) : IsAddressChar c := by
  simp only [isHexDigit, Bool.or_eq_true, Bool.and_eq_true, decide_eq_true_eq] at h
  have hf : 'f' ≤ 'z' := by decide
  have hF : 'F' ≤ 'Z' := by decide
  refine .inl ?_
  simp only [isWordChar, Bool.or_eq_true, Bool.and_eq_true, decide_eq_true_eq]
  rcases h with (hd | ⟨hl, hu⟩) | ⟨hl, hu⟩
  · exact .inl (.inl hd)
  · exact .inl (.inr ⟨hl, Char.le_trans hu hf⟩)
  · exact .inr ⟨hl, Char.le_trans hu hF⟩

theorem digit_over : digit.Over IsAddressChar := by
  intro c hc
  exact isAddressChar_of_hexDigit (by simp [isHexDigit, hc])

theorem between_over {low high : Char} (hl : '0' ≤ low) (hh : high ≤ '9') :
    (between low high).Over IsAddressChar := by
  intro c hc
  simp only [Bool.and_eq_true, decide_eq_true_eq] at hc
  have hdigit : isDigit c = true := by
    simpa [isDigit] using ⟨Char.le_trans hl hc.1, Char.le_trans hc.2 hh⟩
  exact digit_over c hdigit

theorem group_over : group.Over IsAddressChar := fun _ => isAddressChar_of_hexDigit

theorem groupColon_over : groupColon.Over IsAddressChar := ⟨group_over, over_text (by decide)⟩

theorem colonGroup_over : colonGroup.Over IsAddressChar := ⟨over_text (by decide), group_over⟩

theorem octet_over : octet.Over IsAddressChar := by
  refine ⟨⟨over_text (by decide), between_over (by decide) (by decide)⟩, ⟨⟨?_, ?_⟩, digit_over⟩⟩
  · exact ⟨over_text (by decide), between_over (by decide) (by decide)⟩
  · exact ⟨over_text (by decide), digit_over⟩

theorem dotted_over : dotted.Over IsAddressChar := ⟨⟨octet_over, over_text (by decide)⟩, octet_over⟩

theorem pattern_over : pattern.Over IsAddressChar := by
  have hhex : ∀ c, isHexDigit c = true → IsAddressChar c := fun _ => isAddressChar_of_hexDigit
  have hword : ∀ c, isWordChar c = true → IsAddressChar c := fun _ => .inl
  have hshapes : ∀ p ∈ shapes, p.Over IsAddressChar := by
    simpa (disch := decide) [shapes, Pattern.sequence, Pattern.optional, Over, over_text, group_over, groupColon_over,
      colonGroup_over, dotted_over] using And.intro hhex hword
  have hlengths : networkLength.Over IsAddressChar := by
    simp (disch := decide) [networkLength, firstOf, Pattern.sequence, Over, over_text, between_over, digit_over]
  exact ⟨over_firstOf hshapes, hlengths⟩

/-- No shape of an address is without a colon. -/
theorem pattern_needs : pattern.Needs (· = ':') := by
  have hshapes : ∀ p ∈ shapes, p.Needs (· = ':') := by
    simp (disch := decide) [shapes, Pattern.sequence, groupColon, colonGroup, Pattern.optional, Needs, needs_text]
  exact .inl (needs_firstOf hshapes)

theorem two_le_least : 2 ≤ pattern.least := by decide

theorem rest?_address {s after : List Char} (h : pattern.rest? s = some after) :
    ∃ address, s = address ++ after ∧ ':' ∈ address ∧ ∀ c ∈ address, IsAddressChar c := by
  obtain ⟨address, hs, hm⟩ := rest?_matches h
  obtain ⟨_, hcolon, rfl⟩ := hm.needs pattern_needs
  exact ⟨address, hs, hcolon, hm.over pattern_over⟩

end Address

namespace Segment

variable {rest? : List Char → Option (List Char)} {M : List Char → Prop}

/-- A text is cut into what is taken of it and the characters between, so that nothing is lost. -/
theorem cut_of_takes (h : ∀ s after, rest? s = some after → ∃ taken, s = taken ++ after ∧ M taken)
    (s : List Char) :
    (cut rest? s).flatMap chars = s ∧ ∀ taken, .hit taken ∈ cut rest? s → M taken := by
  fun_induction cut rest? s with
  | case1 => exact ⟨rfl, nofun⟩
  | case2 c s _ ih | case4 c s _ _ _ ih =>
    obtain ⟨hs, hhits⟩ := ih
    refine ⟨by rw [List.flatMap_cons, hs]; rfl, fun taken hm => ?_⟩
    rcases List.mem_cons.1 hm with hm | hm
    · cases hm
    · exact hhits taken hm
  | case3 c s after hafter hle ih =>
    obtain ⟨hs, hhits⟩ := ih
    obtain ⟨taken, htaken, hM⟩ := h _ after hafter
    have htake : (c :: s).take (s.length + 1 - after.length) = taken := by
      have hlength : s.length + 1 = taken.length + after.length := by
        rw [← List.length_append, ← htaken, List.length_cons]
      rw [htaken]
      exact List.take_left' (by omega)
    rw [htake]
    refine ⟨by rw [List.flatMap_cons, hs, htaken]; rfl, fun other hm => ?_⟩
    rcases List.mem_cons.1 hm with hm | hm
    · cases hm
      exact hM
    · exact hhits other hm

end Segment

namespace GuardedQuery

/-- The addresses of a query string and the characters between them make it up. -/
theorem segments_flatMap_chars (query : String) : (segments query).flatMap Segment.chars = query.toList :=
  (Segment.cut_of_takes (fun _ _ => Address.rest?_address) _).1

theorem address_of_mem_segments {query : String} {address : List Char} (h : .hit address ∈ segments query) :
    ':' ∈ address ∧ ∀ c ∈ address, Address.IsAddressChar c :=
  (Segment.cut_of_takes (fun _ _ => Address.rest?_address) _).2 address h

theorem matches_of_mem_segments {query : String} {address : List Char} (h : .hit address ∈ segments query) :
    Address.pattern.Matches address :=
  (Segment.cut_of_takes (fun _ _ => Pattern.rest?_matches) _).2 address h

theorem infix_of_mem_segments {query : String} {address : List Char} (h : .hit address ∈ segments query) :
    address <:+: query.toList := by
  rw [← segments_flatMap_chars, List.flatMap_def]
  exact List.infix_of_mem_flatten (List.mem_map_of_mem h)

end GuardedQuery

end TextSearch
