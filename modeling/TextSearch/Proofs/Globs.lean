import TextSearch.Proofs.Addresses
import TextSearch.Proofs.Collecting
import TextSearch.Query.Resolve

/-! A wildcard stands for any characters but line feeds. So the terms that are found for a pattern are those it matches
without a line feed for a wildcard. -/
namespace TextSearch

namespace Pattern

/-- A step leaves what follows a text for which `M` holds. -/
def Leaves (M : List Char → Prop) (step : List Char → List (List Char)) : Prop :=
  ∀ taken after, M taken → after ∈ step (taken ++ after)

theorem leaves_repeated {M : List Char → Prop} {step : List Char → List (List Char)} (hstep : Leaves M step)
    (least most : Nat) : Leaves (Repeats M least most) (repeated step least most) := by
  induction most generalizing least with
  | zero =>
    rintro _ after ⟨parts, hleast, hmost, -, rfl⟩
    obtain rfl := List.length_eq_zero_iff.1 (Nat.le_zero.1 hmost)
    obtain rfl := Nat.le_zero.1 hleast
    exact List.mem_singleton_self after
  | succ most ih =>
    rintro _ after ⟨parts, hleast, hmost, hparts, rfl⟩
    cases parts with
    | nil =>
      obtain rfl := Nat.le_zero.1 hleast
      exact List.mem_append_right _ (List.mem_singleton_self after)
    | cons part parts =>
      obtain ⟨hpart, hparts⟩ := List.forall_mem_cons.1 hparts
      have hmore (least : Nat) (hleast : least ≤ parts.length) :
          after ∈ (step ((part :: parts).flatten ++ after)).flatMap (repeated step least most) := by
        rw [List.flatten_cons, List.append_assoc]
        refine List.mem_flatMap.2 ⟨_, hstep part _ hpart, ih least _ after ?_⟩
        exact ⟨parts, hleast, Nat.le_of_succ_le_succ hmost, hparts, rfl⟩
      cases least with
      | zero => exact List.mem_append_left _ (hmore 0 (Nat.zero_le _))
      | succ least => exact hmore least (Nat.le_of_succ_le_succ hleast)

theorem leaves_runs (accepts : Char → Bool) :
    Leaves (fun taken => taken ≠ [] ∧ ∀ c ∈ taken, accepts c = true) (runs accepts) := by
  rintro taken after ⟨hne, htaken⟩
  induction taken with
  | nil => exact absurd rfl hne
  | cons c taken ih =>
    obtain ⟨hc, htaken⟩ := List.forall_mem_cons.1 htaken
    rw [List.cons_append, runs, if_pos hc]
    cases taken with
    | nil => exact List.mem_append_right _ (List.mem_singleton_self after)
    | cons d taken => exact List.mem_append_left _ (ih (List.cons_ne_nil d taken) htaken)

/-- Each match of a pattern is among those found. -/
theorem leaves_rests (p : Pattern) : Leaves p.Matches p.rests := by
  intro taken after h
  induction h generalizing after with
  | nothing => exact List.mem_singleton_self after
  | one hc => simp [rests, hc]
  | seq _ _ ihp ihq =>
    rw [List.append_assoc]
    exact List.mem_flatMap.2 ⟨_, ihp _, ihq after⟩
  | first _ _ ih => exact List.mem_append_left _ (ih after)
  | second _ _ ih => exact List.mem_append_right _ (ih after)
  | @rep p least most parts hleast hmost _ ih =>
    have hstep : Leaves (· ∈ parts) p.rests := fun part after hpart => ih part hpart after
    exact leaves_repeated hstep least most _ after ⟨parts, hleast, hmost, fun _ hpart => hpart, rfl⟩
  | many hne hs => exact leaves_runs _ _ after ⟨hne, hs⟩

theorem isWhole_iff {p : Pattern} {s : List Char} : p.isWhole s = true ↔ p.Matches s := by
  simp only [isWhole, List.any_eq_true, List.isEmpty_iff, exists_eq_right]
  constructor
  · intro h
    obtain ⟨taken, rfl, hm⟩ := takes_rests p s [] h
    rwa [List.append_nil]
  · intro h
    simpa using leaves_rests p s [] h

theorem matches_seq_iff {p q : Pattern} {s : List Char} :
    (seq p q).Matches s ↔ ∃ taken after, p.Matches taken ∧ q.Matches after ∧ s = taken ++ after := by
  constructor
  · rintro ⟨⟩
    exact ⟨_, _, ‹_›, ‹_›, rfl⟩
  · rintro ⟨taken, after, hp, hq, rfl⟩
    exact .seq hp hq

theorem matches_one_iff {accepts : Char → Bool} {s : List Char} :
    (one accepts).Matches s ↔ ∃ c, accepts c = true ∧ s = [c] := by
  constructor
  · rintro ⟨⟩
    exact ⟨_, ‹_›, rfl⟩
  · rintro ⟨c, hc, rfl⟩
    exact .one hc

theorem matches_optional_many_iff {accepts : Char → Bool} {s : List Char} :
    (optional (many accepts)).Matches s ↔ ∀ c ∈ s, accepts c = true := by
  constructor
  · intro h
    exact h.over fun _ hc => hc
  · intro h
    cases s with
    | nil =>
      have hnone : ∀ part ∈ [], (many accepts).Matches part := nofun
      exact .rep (Nat.le_refl 0) (Nat.zero_le 1) hnone
    | cons c s =>
      have hone : ∀ part ∈ [c :: s], (many accepts).Matches part := List.forall_mem_singleton.2 (.many nofun h)
      have hrep : (optional (many accepts)).Matches [c :: s].flatten := .rep (Nat.zero_le 1) (Nat.le_refl 1) hone
      rwa [List.flatten_singleton] at hrep

end Pattern

namespace Glob

/-- A glob matches the whole of a text. A star stands for any run of characters, a question mark for any one character
and every other character for itself. -/
inductive Matches : List Char → List Char → Prop
  | nothing : Matches [] []
  | star {glob text : List Char} (run : List Char) : Matches glob text → Matches ('*' :: glob) (run ++ text)
  | mark {glob text : List Char} (c : Char) : Matches glob text → Matches ('?' :: glob) (c :: text)
  | literal {c : Char} {glob text : List Char} : isWildcard c = false → Matches glob text →
    Matches (c :: glob) (c :: text)

variable {glob text : List Char}

theorem Matches.lineFeeds_le (h : Matches glob text) : glob.count '\n' ≤ text.count '\n' := by
  induction h with
  | nothing => exact Nat.le_refl _
  | star run _ ih =>
    rw [List.count_cons_of_ne (by decide), List.count_append]
    omega
  | mark c _ ih =>
    rw [List.count_cons_of_ne (by decide), List.count_cons]
    omega
  | literal _ _ ih =>
    rw [List.count_cons, List.count_cons]
    omega

theorem Matches.literalStart_isPrefix (h : Matches glob text) : literalStart glob <+: text := by
  induction h with
  | literal hc _ ih => simpa [literalStart, List.takeWhile_cons, hc, List.cons_prefix_cons] using ih
  | _ => exact List.nil_prefix

theorem pattern_cons (c : Char) (glob : List Char) : pattern (c :: glob) = .seq (part c) (pattern glob) := rfl

theorem forall_isPlain_iff {run : List Char} : (∀ c ∈ run, isPlain c = true) ↔ run.count '\n' = 0 := by
  simp only [isPlain, bne_iff_ne, List.count_eq_zero]
  exact ⟨fun h hmem => h _ hmem rfl, fun h c hc heq => h (heq ▸ hc)⟩

theorem matches_star_iff :
    Matches ('*' :: glob) text ↔ ∃ run after, Matches glob after ∧ text = run ++ after := by
  constructor
  · rintro (_ | ⟨run, h⟩ | _ | ⟨hc, -⟩)
    · exact ⟨run, _, h, rfl⟩
    · cases hc
  · rintro ⟨run, after, h, rfl⟩
    exact .star run h

theorem matches_mark_iff : Matches ('?' :: glob) text ↔ ∃ c after, Matches glob after ∧ text = c :: after := by
  constructor
  · rintro (_ | _ | ⟨c, h⟩ | ⟨hc, -⟩)
    · exact ⟨c, _, h, rfl⟩
    · cases hc
  · rintro ⟨c, after, h, rfl⟩
    exact .mark c h

theorem matches_literal_iff {c : Char} (hc : isWildcard c = false) :
    Matches (c :: glob) text ↔ ∃ after, Matches glob after ∧ text = c :: after := by
  constructor
  · intro h
    cases h with
    | star | mark => cases hc
    | literal _ h => exact ⟨_, h, rfl⟩
  · rintro ⟨after, h, rfl⟩
    exact .literal hc h

/-- What a glob is compiled to matches the same texts, but no wildcard stands for a line feed. Then a text has just the
line feeds of the glob. -/
def Compiles (glob : List Char) : Prop :=
  ∀ text, (pattern glob).Matches text ↔ Matches glob text ∧ text.count '\n' = glob.count '\n'

namespace Compiles

theorem nothing : Compiles [] := by
  intro text
  constructor
  · rintro ⟨⟩
    exact ⟨.nothing, rfl⟩
  · rintro ⟨⟨⟩, -⟩
    exact .nothing

theorem star (h : Compiles glob) : Compiles ('*' :: glob) := by
  intro text
  have hpart : part '*' = .optional (.many isPlain) := rfl
  rw [pattern_cons, Pattern.matches_seq_iff, matches_star_iff, List.count_cons_of_ne (by decide)]
  simp only [hpart, Pattern.matches_optional_many_iff, forall_isPlain_iff]
  constructor
  · rintro ⟨run, after, hrun, hafter, rfl⟩
    obtain ⟨hmatches, hcount⟩ := (h after).1 hafter
    exact ⟨⟨run, after, hmatches, rfl⟩, by rw [List.count_append, hrun, hcount, Nat.zero_add]⟩
  · rintro ⟨⟨run, after, hmatches, rfl⟩, hcount⟩
    have hle := hmatches.lineFeeds_le
    rw [List.count_append] at hcount
    exact ⟨run, after, by omega, (h after).2 ⟨hmatches, by omega⟩, rfl⟩

theorem mark (h : Compiles glob) : Compiles ('?' :: glob) := by
  intro text
  have hpart : part '?' = .one isPlain := rfl
  rw [pattern_cons, Pattern.matches_seq_iff, matches_mark_iff, List.count_cons_of_ne (by decide)]
  simp only [hpart, Pattern.matches_one_iff, isPlain, bne_iff_ne]
  constructor
  · rintro ⟨_, after, ⟨c, hc, rfl⟩, hafter, rfl⟩
    obtain ⟨hmatches, hcount⟩ := (h after).1 hafter
    exact ⟨⟨c, after, hmatches, rfl⟩, by rw [List.singleton_append, List.count_cons_of_ne hc, hcount]⟩
  · rintro ⟨⟨c, after, hmatches, rfl⟩, hcount⟩
    have hle := hmatches.lineFeeds_le
    have hc : c ≠ '\n' := by
      rintro rfl
      rw [List.count_cons_self] at hcount
      omega
    rw [List.count_cons_of_ne hc] at hcount
    exact ⟨[c], after, ⟨c, hc, rfl⟩, (h after).2 ⟨hmatches, hcount⟩, rfl⟩

theorem literal {c : Char} (hc : isWildcard c = false) (h : Compiles glob) : Compiles (c :: glob) := by
  intro text
  have hpart : part c = .one (· == c) := by
    simp only [isWildcard, Bool.or_eq_false_iff, beq_eq_false_iff_ne] at hc
    rw [part, if_neg hc.1, if_neg hc.2]
  rw [pattern_cons, Pattern.matches_seq_iff, matches_literal_iff hc]
  simp only [hpart, Pattern.matches_one_iff, beq_iff_eq]
  constructor
  · rintro ⟨_, after, ⟨_, rfl, rfl⟩, hafter, rfl⟩
    obtain ⟨hmatches, hcount⟩ := (h after).1 hafter
    exact ⟨⟨after, hmatches, rfl⟩, by rw [List.singleton_append, List.count_cons, List.count_cons, hcount]⟩
  · rintro ⟨⟨after, hmatches, rfl⟩, hcount⟩
    rw [List.count_cons, List.count_cons, Nat.add_right_cancel_iff] at hcount
    exact ⟨[c], after, ⟨c, rfl, rfl⟩, (h after).2 ⟨hmatches, hcount⟩, rfl⟩

end Compiles

theorem compiles (glob : List Char) : Compiles glob := by
  induction glob with
  | nil => exact .nothing
  | cons c glob ih =>
    cases hc : isWildcard c with
    | false => exact ih.literal hc
    | true =>
      simp only [isWildcard, Bool.or_eq_true, beq_iff_eq] at hc
      rcases hc with rfl | rfl
      · exact ih.star
      · exact ih.mark

theorem accepts_iff : accepts glob text = true ↔ Matches glob text ∧ text.count '\n' = glob.count '\n' := by
  rw [accepts, Pattern.isWhole_iff, compiles]

end Glob

namespace WildcardQuery
variable {w : WildcardQuery}

/-- A pattern matches a term under the meaning of its wildcards. -/
def Matches (w : WildcardQuery) (t : Term) : Prop := Glob.Matches w.pattern.text.toList t.text.toList

/-- The start of a pattern is looked for beforehand, which decides nothing that the whole pattern does not. -/
theorem accepts_iff {t : Term} : w.accepts t = true ↔
    w.Matches t ∧ t.text.toList.count '\n' = w.pattern.text.toList.count '\n' := by
  rw [accepts, Bool.and_eq_true, List.isPrefixOf_iff_prefix, Glob.accepts_iff, Matches, literalStart]
  constructor
  · exact And.right
  · intro h
    exact ⟨h.1.literalStart_isPrefix, h⟩

theorem expand_unlimited {ix : Index} (hstart : w.minPrefixLength ≤ w.literalStart.length) (hlimit : w.termsLimit = 0) :
    w.expand ix = .ok
      ⟨.ofMatches ((ix.termsIn (ix.fieldsOf w.pattern.field)).filter w.accepts) w.boost,
        (ix.termsIn (ix.fieldsOf w.pattern.field)).filter w.accepts⟩ := by
  rw [expand_eq, if_neg (by omega), withinLimit_eq_ok (.inl hlimit)]
  rfl

/-- Without a limit, a pattern records the terms of its fields that it matches, except those where a wildcard has to
stand for a line feed. These are the terms with more line feeds than the pattern. -/
theorem resolve_matches (hstart : w.minPrefixLength ≤ w.literalStart.length) (hlimit : w.termsLimit = 0)
    (k : Context) (ix : Index) :
    ∃ r found, (Query.wildcard w).resolve k ix = (.ok r, .wildcard { w with matched := some found }) ∧
      ∀ t, t ∈ found ↔ ix.Knows (ix.fieldsOf w.pattern.field) t ∧ w.Matches t ∧
        t.text.toList.count '\n' = w.pattern.text.toList.count '\n' := by
  let found := (ix.termsIn (ix.fieldsOf w.pattern.field)).filter w.accepts
  refine ⟨.ofMatches found w.boost, found, ?_, fun t => ?_⟩
  · rw [Query.resolve, expand_unlimited hstart hlimit]
    rfl
  · rw [List.mem_filter, Index.mem_termsIn, accepts_iff]

/-- Notes that start alike, one of them with two lines. -/
def twoNotes : Index :=
  ({ analyzer := .ofConfig .bare {} } : Index).add [("note", .keyword "abcd"), ("note", .keyword "abc\nd")]

def anyEnding : WildcardQuery where
  pattern := .inField "note" "abc*"
  termsLimit := 0

theorem anyEnding_resolve_matches : anyEnding.minPrefixLength ≤ anyEnding.literalStart.length ∧
    anyEnding.termsLimit = 0 ∧
    ∃ r found, (Query.wildcard anyEnding).resolve { analyzer := .ofConfig .bare {} } twoNotes =
        (.ok r, .wildcard { anyEnding with matched := some found }) ∧
      .inField "note" "abcd" ∈ found ∧ .inField "note" "abc\nd" ∉ found := by
  have hstart : anyEnding.minPrefixLength ≤ anyEnding.literalStart.length := by decide
  obtain ⟨r, found, hresolve, hfound⟩ := resolve_matches hstart rfl { analyzer := .ofConfig .bare {} } twoNotes
  refine ⟨hstart, rfl, r, found, hresolve, (hfound _).2 ⟨?_, ?_, by decide⟩, fun hmem => ?_⟩
  · exact ⟨"note", by decide, "abcd", by decide +kernel, rfl⟩
  · exact .literal rfl (.literal rfl (.literal rfl (.star ['d'] .nothing)))
  · exact absurd ((hfound _).1 hmem).2.2 (by decide)

/-- A note of two lines is not found though the pattern matches it. -/
theorem secondLine_not_found : anyEnding.minPrefixLength ≤ anyEnding.literalStart.length ∧ anyEnding.termsLimit = 0 ∧
    twoNotes.Knows (twoNotes.fieldsOf anyEnding.pattern.field) (.inField "note" "abc\nd") ∧
    anyEnding.Matches (.inField "note" "abc\nd") ∧
    ∃ r, (Query.wildcard anyEnding).resolve { analyzer := .ofConfig .bare {} } twoNotes =
      (.ok r, .wildcard { anyEnding with matched := some [.inField "note" "abcd"] }) := by
  have hstart : anyEnding.minPrefixLength ≤ anyEnding.literalStart.length := by decide
  have hfound : (twoNotes.termsIn (twoNotes.fieldsOf anyEnding.pattern.field)).filter anyEnding.accepts =
      [.inField "note" "abcd"] := by
    decide +kernel
  have hknown : twoNotes.Knows (twoNotes.fieldsOf anyEnding.pattern.field) (.inField "note" "abc\nd") :=
    ⟨"note", by decide, "abc\nd", by decide +kernel, rfl⟩
  refine ⟨hstart, rfl, hknown, ?_, .ofMatches [.inField "note" "abcd"] 1, ?_⟩
  · exact .literal rfl (.literal rfl (.literal rfl (.star ['\n', 'd'] .nothing)))
  · rw [Query.resolve, expand_unlimited hstart rfl, hfound]
    rfl

end WildcardQuery

end TextSearch
