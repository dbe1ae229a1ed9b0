import TextSearch.Analysis.Analyzer
import TextSearch.Proofs.AddressShapes
import TextSearch.Proofs.Escaping

/-! Plain addresses stay whole: as matches of the address pattern, as words of a query and as terms. -/
namespace TextSearch

/-- A text that is one match is one segment. -/
theorem Segment.cut_of_rest? {rest? : List Char → Option (List Char)} {s : List Char} (hne : s ≠ [])
    (h : rest? s = some []) : cut rest? s = [.hit s] := by
  obtain ⟨c, s, rfl⟩ := List.exists_cons_of_ne_nil hne
  simp [cut, h]

namespace Lexeme

theorem readWord_of_plain {s : List Char} (h : ∀ c ∈ s, Plain c) (position : Nat) :
    readWord position s = .ok (s, false, []) := by
  induction s generalizing position with
  | nil => rfl
  | cons c rest ih =>
    obtain ⟨⟨hdelimiter, hquote, hescape, -⟩, hrest⟩ := List.forall_mem_cons.1 h
    rw [readWord, hdelimiter, if_neg Bool.false_ne_true, if_neg (by simpa using hquote), ih hrest]
    · rfl
    · exact fun he _ => hescape he
    · exact fun _ _ he _ => hescape he

/-- A query string that is one address is one word. -/
theorem tokenize_of_hit {query : String} (h : GuardedQuery.segments query = [.hit query.toList]) :
    tokenize query = .ok [⟨.word, query, 1⟩] := by
  have hm : .hit query.toList ∈ GuardedQuery.segments query := by simp [h]
  obtain ⟨hcolon, hchars⟩ := GuardedQuery.address_of_mem_segments hm
  have hhidden : hiddenColon ∉ query.toList := fun hc => absurd (hchars _ hc) (by decide)
  have htext : (GuardedQuery.ofQuery query).text.toList = hideColons query.toList := by
    rw [GuardedQuery.text_toList, h]
    exact List.append_nil _
  have hplain := plain_hideColons hchars
  have hkeyword : keyword? (hideColons query.toList) = none := by
    cases hk : keyword? (hideColons query.toList) with
    | none => rfl
    | some kind => exact absurd (List.mem_map.2 ⟨':', hcolon, rfl⟩) (hidden_not_mem_keyword hk)
  have hrestored : GuardedQuery.restoreText (GuardedQuery.ofQuery query).literals
      (String.ofList (hideColons query.toList)) = query := by
    have hliteral : query ∈ (GuardedQuery.ofQuery query).literals := by
      simp [GuardedQuery.ofQuery, h, Segment.hits]
    apply String.toList_inj.1
    rw [(GuardedQuery.restoreText_of_address hliteral hcolon hhidden (by simp)).1, String.toList_ofList,
      GuardedQuery.showColons_hideColons hhidden]
  obtain ⟨c, rest, hcons⟩ : ∃ c rest, hideColons query.toList = c :: rest := by
    apply List.exists_cons_of_ne_nil
    simpa [hideColons] using List.ne_nil_of_mem hcolon
  have hread := readWord_of_plain hplain 1
  obtain ⟨hdelimiter, hquote, -, hplus, hminus⟩ := hplain c (hcons ▸ List.mem_cons_self)
  have hwords : ofQuery (GuardedQuery.ofQuery query).text =
      .ok [⟨.word, String.ofList (hideColons query.toList), 1⟩] := by
    rw [ofQuery_of_readWord (htext.trans hcons) ⟨hdelimiter, by simp [hquote, hplus, hminus]⟩ (hcons ▸ hread),
      if_neg Bool.false_ne_true, ← hcons, hkeyword]
    rfl
  rw [tokenize, hwords]
  simp [Except.map, GuardedQuery.restore, hrestored]

end Lexeme

theorem lowerCase_of_ascii {text : String} (h : ∀ c ∈ text.toList, c.toNat < 0x80) :
    lowerCase text = String.ofList (text.toList.map Char.toLower) := by
  have hafter (before s : List Char) (h : ∀ c ∈ s, c.toNat < 0x80) : lowerAfter before s = s.map Char.toLower := by
    induction s generalizing before with
    | nil => rfl
    | cons c rest ih =>
      obtain ⟨hc, hrest⟩ := List.forall_mem_cons.1 h
      have hsigma : (c == '\u03a3') = false := by
        apply beq_false_of_ne
        rintro rfl
        exact absurd hc (by decide)
      rw [lowerAfter, hsigma, ih _ hrest, lowerChar, if_pos hc]
      rfl
  rw [lowerCase, hafter [] _ h]

theorem Splitting.byteCount_of_ascii {s : List Char} (h : ∀ c ∈ s, c.toNat < 0x80) : byteCount s = s.length := by
  induction s with
  | nil => rfl
  | cons c rest ih =>
    obtain ⟨hc, hrest⟩ := List.forall_mem_cons.1 h
    have hsize : c.utf8Size = 1 := by
      have hle : c.val ≤ 0x7f := Nat.le_of_lt_succ hc
      exact if_pos hle
    have hrest : (rest.map Char.utf8Size).foldr (· + ·) 0 = rest.length := ih hrest
    rw [byteCount, List.map_cons, List.foldr_cons, hrest, hsize, List.length_cons, Nat.add_comm]

namespace Address

theorem IsPlain.segments {text : String} (h : IsPlain text.toList) :
    GuardedQuery.segments text = [.hit text.toList] :=
  Segment.cut_of_rest? h.ne_nil h.rest?

theorem IsPlain.split {text : String} (h : IsPlain text.toList) (findWords : String → List (Nat × String)) :
    Splitting.addresses.split findWords text = [{ text, start := 0, stop := text.length }] := by
  have hcut : Segment.cut (fun s => (pattern.rest? s).or (Splitting.run? Splitting.isDotted s)) text.toList =
      [.hit text.toList] := by
    apply Segment.cut_of_rest? h.ne_nil
    rw [h.rest?, Option.some_or]
  rw [Splitting.split, Splitting.word?]
  dsimp only
  rw [hcut, Splitting.tokensFrom, Splitting.byteCount_of_ascii h.ascii]
  simp [Splitting.tokensFrom, String.length_toList]

theorem IsPlain.tokenize {text : String} (h : IsPlain text.toList) (packages : Packages) :
    (Analyzer.ofConfig packages {}).tokenize text =
      [{ text := String.ofList (text.toList.map Char.toLower), start := 0, stop := text.length }] := by
  have hlength : 1 ≤ text.toList.length ∧ text.toList.length ≤ 255 :=
    ⟨List.length_pos_of_ne_nil h.ne_nil, h.length_le.trans (by decide)⟩
  have htokenize : (Analyzer.ofConfig packages {}).tokenize text =
      StandardAnalyzer.keep [.lowerCase, .length 1 255] 0 (Splitting.addresses.split packages.findWords text) := rfl
  rw [htokenize, h.split]
  simp [StandardAnalyzer.keep, TokenFilter.applyAll, TokenFilter.lowerCase, TokenFilter.length,
    lowerCase_of_ascii h.ascii, hlength]

/-- Plain addresses are taken whole wherever addresses are looked for. -/
theorem IsPlain.kept_whole {text : String} (h : IsPlain text.toList) :
    pattern.rest? text.toList = some [] ∧
      GuardedQuery.segments text = [.hit text.toList] ∧
      Lexeme.tokenize text = .ok [⟨.word, text, 1⟩] ∧
      ∀ packages : Packages,
        (Analyzer.ofConfig packages {}).tokenize text =
          [{ text := String.ofList (text.toList.map Char.toLower), start := 0, stop := text.length }] ∧
        ∀ p : Parser, p.context.analyzer = .ofConfig packages {} →
          p.rangeBound text = .ok (some (String.ofList (text.toList.map Char.toLower))) := by
  refine ⟨h.rest?, h.segments, Lexeme.tokenize_of_hit h.segments, fun packages => ⟨h.tokenize packages, fun p hp => ?_⟩⟩
  rw [Parser.rangeBound, hp, Analyzer.terms, h.tokenize]
  rfl

/-- Capital digits, groups left out and the length of a network. -/
def documentationNetwork : String := "2001:DB8::1/64"

theorem documentationNetwork_isPlain : IsPlain documentationNetwork.toList := by
  have hfront : ∀ g ∈ ["2001".toList, "DB8".toList], IsGroup g := by decide
  have hback : ∀ g ∈ ["1".toList], IsGroup g := by decide
  refine ⟨_, _, ?_, .compressed (by decide) hfront hback, .length (n := 64) (by decide)⟩
  decide

theorem documentationNetwork_kept_whole :
    IsPlain documentationNetwork.toList ∧ Parser.titlesOnlyParser.context.analyzer = .ofConfig .bare {} ∧
      pattern.rest? documentationNetwork.toList = some [] ∧
      Lexeme.tokenize documentationNetwork = .ok [⟨.word, documentationNetwork, 1⟩] ∧
      (Analyzer.ofConfig .bare {}).tokenize documentationNetwork =
        [{ text := "2001:db8::1/64", start := 0, stop := 14 }] ∧
      Parser.titlesOnlyParser.rangeBound documentationNetwork = .ok (some "2001:db8::1/64") := by
  obtain ⟨hmatch, -, hword, hanalyzed⟩ := documentationNetwork_isPlain.kept_whole
  obtain ⟨hterms, hbound⟩ := hanalyzed .bare
  have hanalyzer : Parser.titlesOnlyParser.context.analyzer = .ofConfig .bare {} := rfl
  have hlowered : String.ofList (documentationNetwork.toList.map Char.toLower) = "2001:db8::1/64" := by decide
  have hlength : documentationNetwork.length = 14 := by decide
  rw [hlowered, hlength] at hterms
  rw [hlowered] at hbound
  exact ⟨documentationNetwork_isPlain, hanalyzer, hmatch, hword, hterms, hbound _ hanalyzer⟩

end Address

end TextSearch
