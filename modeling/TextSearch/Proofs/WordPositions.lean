import TextSearch.Proofs.ExactCounts
import TextSearch.Proofs.Failures
import TextSearch.Proofs.Positions

/-! Phrases with offsets and positions of any words of 32 bits. An offset that is not given is the word behind the one
before it, and a term is looked for at a word; both are what they stand for only as long as no word overflows. -/
namespace TextSearch

namespace PhraseQuery
variable {n n' : PhraseQuery} {t : Term} {given : Option UInt32} {adds : List (Term × Option UInt32)}

/-- A phrase with terms appended, each with an offset or behind the last one. -/
def addTerms (n : PhraseQuery) (adds : List (Term × Option UInt32)) : Except Error PhraseQuery :=
  adds.foldlM (fun n (t, given) => n.addTerm t given) n

theorem addTerm_terms (h : n.addTerm t given = .ok n') :
    n'.terms = n.terms ++ [(t, given.getD n.nextOffset)] := by
  unfold addTerm at h
  split at h
  · cases h
    rfl
  · split at h
    · cases h
      rfl
    · cases h

/-- The word behind another one. -/
def IsBehind (before offset : UInt32) : Prop := offset.toNat = (before.toNat + 1) % UInt32.size

theorem IsBehind.eq_add_one {before offset : UInt32} (h : IsBehind before offset)
    (hbefore : before.toNat + 1 < UInt32.size) : offset.toNat = before.toNat + 1 := by
  rw [h, Nat.mod_eq_of_lt hbefore]

/-- The offset of a term that was appended: the given one, zero for the first term, or the word behind the offset before
it. -/
def Places (offsets : List UInt32) (i : Nat) (given : Option UInt32) : Prop :=
  match given, i with
  | some offset, i => offsets[i]? = some offset
  | none, 0 => offsets[0]? = some 0
  | none, i + 1 => ∃ before offset, offsets[i]? = some before ∧ offsets[i + 1]? = some offset ∧ IsBehind before offset

theorem Places.append {offsets : List UInt32} {i : Nat} (h : Places offsets i given) (more : List UInt32) :
    Places (offsets ++ more) i given := by
  have hkept {j : Nat} {o : UInt32} (ho : offsets[j]? = some o) : (offsets ++ more)[j]? = some o := by
    rw [List.getElem?_append_left (List.getElem?_eq_some_iff.1 ho).1, ho]
  match given, i with
  | some offset, i => exact hkept h
  | none, 0 => exact hkept h
  | none, i + 1 =>
    obtain ⟨before, offset, hbefore, hoffset, hbehind⟩ := h
    exact ⟨before, offset, hkept hbefore, hkept hoffset, hbehind⟩

theorem isBehind_add_one (before : UInt32) : IsBehind before (before + 1) := by
  rw [IsBehind, UInt32.toNat_add]
  rfl

theorem places_nextOffset (n : PhraseQuery) (given : Option UInt32) :
    Places (n.offsets ++ [given.getD n.nextOffset]) n.terms.length given := by
  have hlength : n.offsets.length = n.terms.length := List.length_map _
  cases given with
  | some offset => rw [Places, ← hlength, List.getElem?_concat_length, Option.getD_some]
  | none =>
    rcases List.eq_nil_or_concat' n.terms with h | ⟨init, ⟨u, before⟩, h⟩
    · simp [Places, offsets, nextOffset, h]
    · have hoffsets : n.offsets = init.map (·.2) ++ [before] := by simp [offsets, h]
      have hnext : n.nextOffset = before + 1 := by simp [nextOffset, h]
      rw [h, List.length_append, List.length_singleton, hoffsets, hnext]
      refine ⟨before, before + 1, ?_, ?_, isBehind_add_one before⟩ <;> simp

/-- Terms appended one by one stand in the phrase in this order, each at its place. -/
theorem addTerms_places (h : ({} : PhraseQuery).addTerms adds = .ok n) :
    n.terms.map Prod.fst = adds.map Prod.fst ∧ ∀ i t given, adds[i]? = some (t, given) → Places n.offsets i given := by
  induction adds using List.reverseRecOn generalizing n with
  | nil =>
    cases h
    exact ⟨rfl, nofun⟩
  | append_singleton adds add ih =>
    obtain ⟨t, given⟩ := add
    obtain ⟨n₀, hadds, hadd⟩ := foldlM_append_eq_ok.1 h
    obtain ⟨n₁, hadd, hnil⟩ := bind_eq_ok.1 hadd
    cases hnil
    obtain ⟨hfirst, hplaces⟩ := ih hadds
    have hterms := addTerm_terms hadd
    have hoffsets : n.offsets = n₀.offsets ++ [given.getD n₀.nextOffset] := by simp [offsets, hterms]
    have hlength : n₀.terms.length = adds.length := by simpa using congrArg List.length hfirst
    refine ⟨by simp [hterms, hfirst], fun i u other hi => ?_⟩
    rw [hoffsets]
    rcases Nat.lt_or_ge i adds.length with hlt | hge
    · rw [List.getElem?_append_left hlt] at hi
      exact (hplaces i u other hi).append _
    · obtain rfl : i = adds.length := by
        have hlt := (List.getElem?_eq_some_iff.1 hi).1
        rw [List.length_append, List.length_singleton] at hlt
        omega
      rw [List.getElem?_concat_length] at hi
      cases hi
      exact hlength ▸ n₀.places_nextOffset given

end PhraseQuery

namespace PhraseFrequency

/-- Positions that are words of 32 bits. -/
def Words (placements : List Placement) : Prop := ∀ p ∈ placements, ∀ position ∈ p.2, position < UInt32.size

/-- A term has a position that is the word of where it would have to stand, which is not before the text. -/
def WordStands (start : Int) (p : Placement) : Prop :=
  0 ≤ start + p.1.toNat ∧ ∃ position ∈ p.2, (position : Int) = (start + p.1.toNat) % UInt32.size

section words
variable {placements : List Placement} {p : Placement} {start : Int} {offset : UInt32} {position : Nat}

theorem standsRight_iff_wordStands : standsRight offset position p = true ↔ WordStands (startAt offset position) p := by
  unfold standsRight WordStands startAt
  have hexpected : (position : Int) - offset.toNat + p.1.toNat = position + p.1.toNat - offset.toNat := by omega
  rw [hexpected]
  generalize (position : Int) + p.1.toNat - offset.toNat = expected
  simp only [Bool.and_eq_true, decide_eq_true_eq, List.contains_iff_mem]
  refine and_congr_right fun hpos => ?_
  have hword : ((expected.toNat % UInt32.size : Nat) : Int) = expected % UInt32.size := by
    rw [Int.natCast_emod, Int.toNat_of_nonneg hpos]
  constructor
  · intro hmem
    exact ⟨_, hmem, hword⟩
  · rintro ⟨found, hmem, hfound⟩
    rwa [← Int.ofNat_inj.1 (hfound.trans hword.symm)]

/-- A term stands at its offset if it is found there and no word overflows. -/
theorem standsFrom_iff (hp : ∀ position ∈ p.2, position < UInt32.size) :
    StandsFrom start p ↔ WordStands start p ∧ start + p.1.toNat < UInt32.size := by
  constructor
  · rintro ⟨found, hmem, hfound⟩
    have hlt := hp found hmem
    rw [WordStands, ← hfound]
    exact ⟨⟨Int.natCast_nonneg found, found, hmem, (Int.emod_eq_of_lt (Int.natCast_nonneg found) (by omega)).symm⟩,
      by omega⟩
  · rintro ⟨⟨hpos, found, hmem, hfound⟩, hlt⟩
    rw [Int.emod_eq_of_lt hpos hlt] at hfound
    exact ⟨found, hmem, hfound⟩

theorem mem_starts_iff (h : Words placements) : start ∈ starts placements ↔
    (∀ p ∈ placements, WordStands start p) ∧ ∀ p ∈ placements, start + p.1.toNat < UInt32.size := by
  rw [← forall₂_and]
  exact forall₂_congr fun p hp => standsFrom_iff (h p hp)

/-- What is counted are the positions of the anchor from which all terms stand where their words say. -/
theorem mem_counted_iff (h : Words placements) {anchor : Nat} {positions : List Nat}
    (hanchor : placements[anchor]? = some (offset, positions)) (hposition : position ∈ positions) :
    position ∈ counted placements anchor ↔ ∀ p ∈ placements, WordStands (startAt offset position) p := by
  obtain ⟨hlt, hget⟩ := List.getElem?_eq_some_iff.1 hanchor
  have hself : WordStands (startAt offset position) (offset, positions) := by
    have hword := h _ (List.mem_of_getElem? hanchor) position hposition
    have hexpected : startAt offset position + offset.toNat = position := by
      unfold startAt
      omega
    rw [WordStands, hexpected]
    exact ⟨Int.natCast_nonneg _, position, hposition,
      (Int.emod_eq_of_lt (Int.natCast_nonneg _) (Int.ofNat_lt.2 hword)).symm⟩
  have hall : (∀ p ∈ placements, WordStands (startAt offset position) p) ↔
      ∀ p ∈ placements.eraseIdx anchor, WordStands (startAt offset position) p := by
    refine ⟨fun hstands p hp => hstands p (List.mem_of_mem_eraseIdx hp), fun hothers p hp => ?_⟩
    have hmem := (List.getElem_cons_eraseIdx_perm hlt).mem_iff.2 hp
    rw [hget] at hmem
    rcases List.mem_cons.1 hmem with rfl | hother
    · exact hself
    · exact hothers p hother
  rw [hall, counted, hanchor]
  simp only [List.mem_filter, hposition, true_and, List.all_eq_true, standsRight_iff_wordStands]

end words

end PhraseFrequency

namespace PhraseQuery

open PhraseFrequency

/-- Terms appended to a phrase have the offsets given for them or those of the words behind the last ones. Counted, if
there is no slop, are the positions from which all terms stand where words of 32 bits say; the phrase occurs there just
where none of these words overflows. -/
theorem exactCount_words {adds : List (Term × Option UInt32)} {n : PhraseQuery}
    (h : ({} : PhraseQuery).addTerms adds = .ok n) {positions : List (List Nat)}
    (hwords : ∀ ps ∈ positions, ∀ position ∈ ps, position < UInt32.size) :
    (∀ i t given, adds[i]? = some (t, given) → Places n.offsets i given) ∧
      exactCount (n.offsets.zip positions) =
        (counted (n.offsets.zip positions) (rarest (n.offsets.zip positions))).length ∧
      ∀ offset ps, (n.offsets.zip positions)[rarest (n.offsets.zip positions)]? = some (offset, ps) →
        ∀ position ∈ ps,
          (position ∈ counted (n.offsets.zip positions) (rarest (n.offsets.zip positions)) ↔
            ∀ p ∈ n.offsets.zip positions, WordStands (startAt offset position) p) ∧
          (startAt offset position ∈ starts (n.offsets.zip positions) ↔
            position ∈ counted (n.offsets.zip positions) (rarest (n.offsets.zip positions)) ∧
              ∀ p ∈ n.offsets.zip positions, startAt offset position + p.1.toNat < UInt32.size) := by
  have hplacements : Words (n.offsets.zip positions) := fun p hp => hwords p.2 (List.of_mem_zip hp).2
  refine ⟨(addTerms_places h).2, exactCount_eq_length_counted _, fun offset ps hanchor position hposition => ?_⟩
  have hcounted := mem_counted_iff hplacements hanchor hposition
  refine ⟨hcounted, ?_⟩
  rw [hcounted]
  exact mem_starts_iff hplacements

/-- Two terms, the second one directly behind the first. -/
def neighbours : PhraseQuery where
  terms := [(.inField "f" "a", 7), (.inField "f" "b", 8)]

theorem neighbours_exactCount_words :
    ({} : PhraseQuery).addTerms [(.inField "f" "a", some 7), (.inField "f" "b", none)] = .ok neighbours ∧
      (∀ ps ∈ [[3], [4]], ∀ position ∈ ps, position < UInt32.size) ∧
      (∃ offset, neighbours.offsets[1]? = some offset ∧ offset.toNat = 7 + 1) ∧
      (-4 : Int) ∈ starts (neighbours.offsets.zip [[3], [4]]) := by
  have hadds : ({} : PhraseQuery).addTerms [(.inField "f" "a", some 7), (.inField "f" "b", none)] = .ok neighbours :=
    rfl
  have hwords : ∀ ps ∈ [[3], [4]], ∀ position ∈ ps, position < UInt32.size := by decide
  obtain ⟨hplaces, -, hcounted⟩ := exactCount_words hadds hwords
  obtain ⟨before, offset, hbefore, hoffset, hbehind⟩ := hplaces 1 _ none rfl
  obtain rfl : 7 = before := Option.some.inj hbefore
  refine ⟨hadds, hwords, ⟨offset, hoffset, hbehind.eq_add_one (by decide)⟩, ?_⟩
  exact (hcounted 7 [3] rfl 3 (List.mem_singleton_self 3)).2.2 ⟨by decide, by decide⟩

/-- A word and another one as far behind it as can be said. -/
def farApart : PhraseQuery where
  terms := [(.inField "f" "a", 0), (.inField "f" "b", 4294967295)]

def reversedLetters : Index := .ofChanges (.ofConfig .bare {}) [.document [("f", .keyword "b"), ("f", .keyword "a")]]

/-- The second word is counted where it stands directly before the first one, and a third one is appended at the offset
of the first. -/
theorem farApart_counted :
    ({} : PhraseQuery).addTerms [(.inField "f" "a", some 0), (.inField "f" "b", some 4294967295)] = .ok farApart ∧
      (farApart.terms.map fun (t, _) => (reversedLetters.positions t).getD 0 []) = [[1], [0]] ∧
      exactCount (farApart.offsets.zip [[1], [0]]) = 1 ∧ starts (farApart.offsets.zip [[1], [0]]) = ∅ ∧
      (farApart.addTerm (.inField "f" "c") none).map offsets = .ok [0, 4294967295, 0] := by
  refine ⟨rfl, by decide +kernel, by decide, ?_, rfl⟩
  refine Set.eq_empty_of_forall_notMem fun start hstart => ?_
  obtain ⟨p, hp, hfirst⟩ := hstart (0, [1]) (by decide)
  obtain ⟨q, hq, hsecond⟩ := hstart (4294967295, [0]) (by decide)
  obtain rfl := List.mem_singleton.1 hp
  obtain rfl := List.mem_singleton.1 hq
  have hoffset : (4294967295 : UInt32).toNat = 4294967295 := rfl
  have hzero : (0 : UInt32).toNat = 0 := rfl
  dsimp only at hfirst hsecond
  omega

end PhraseQuery

end TextSearch
