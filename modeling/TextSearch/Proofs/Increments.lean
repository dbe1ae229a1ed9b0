import TextSearch.Proofs.Placing

/-! How far the tokens of a text stand from each other when words between them are dropped. Filters may be of any
kind. -/
namespace TextSearch

namespace StandardAnalyzer

open TokenFilter

/-- A word that no filter drops. -/
def Stays (filters : List TokenFilter) (word : Token) : Bool := (applyAll filters word).isSome

/-- The token with the number `k` is made of the one word that stays with `k` of them before it, and the increments
up to it sum up to the ordinal of that word among all words. -/
structure Spaced (filters : List TokenFilter) (words tokens : List Token) : Prop where
  length : tokens.length = words.countP (Stays filters)
  token : ∀ k token, tokens[k]? = some token → ∃ n word image, words[n]? = some word ∧
    applyAll filters word = some image ∧ (words.take n).countP (Stays filters) = k ∧
      token = { image with increment := token.increment } ∧
      ((tokens.take (k + 1)).map Token.increment).foldr (· + ·) 0 = n + 1

section keeping
variable {filters : List TokenFilter} {words : List Token}

theorem length_keep (pending : Nat) :
    (keep filters pending words).length = words.countP (Stays filters) := by
  induction words generalizing pending with
  | nil => rfl
  | cons word rest ih =>
    rw [keep]
    split
    · rename_i hdropped
      rw [ih, List.countP_cons_of_neg (by simp [Stays, hdropped])]
    · rename_i image himage
      rw [List.length_cons, ih, List.countP_cons_of_pos (by simp [Stays, himage])]

/-- What is pending when the first word comes counts for the token of the first word that stays. -/
theorem getElem?_keep (hwords : ∀ w ∈ words, w.increment = 1) {pending k : Nat} {token : Token}
    (h : (keep filters pending words)[k]? = some token) :
    ∃ n word image, words[n]? = some word ∧ applyAll filters word = some image ∧
      (words.take n).countP (Stays filters) = k ∧ token = { image with increment := token.increment } ∧
      (((keep filters pending words).take (k + 1)).map Token.increment).foldr (· + ·) 0 = pending + (n + 1) := by
  -- a dropped word moves its increment to what is pending, so the sum has to be stated for any of it
  induction words generalizing pending k with
  | nil => cases h
  | cons word rest ih =>
    obtain ⟨hword, hrest⟩ := List.forall_mem_cons.1 hwords
    rw [keep] at h ⊢
    split at h
    · rename_i hdropped
      obtain ⟨n, w, image, hn, himage, hk, htoken, hsum⟩ := ih hrest h
      refine ⟨n + 1, w, image, hn, himage, ?_, htoken, ?_⟩
      · rw [List.take_succ_cons, List.countP_cons_of_neg (by simp [Stays, hdropped]), hk]
      · rw [hsum, hword]
        omega
    rename_i first hfirst
    cases k with
    | zero =>
      cases h
      exact ⟨0, word, first, rfl, hfirst, rfl, rfl, by simp [hword]⟩
    | succ k =>
      obtain ⟨n, w, image, hn, himage, hk, htoken, hsum⟩ := ih hrest h
      refine ⟨n + 1, w, image, hn, himage, ?_, htoken, ?_⟩
      · rw [List.take_succ_cons, List.countP_cons_of_pos (by simp [Stays, hfirst]), hk]
      · simp only [List.take_succ_cons, List.map_cons, List.foldr_cons, hsum, hword]
        omega

/-- Words dropped at the end leave nothing behind. -/
theorem keep_append_dropped {dropped : List Token} (h : ∀ w ∈ dropped, applyAll filters w = none) (pending : Nat) :
    keep filters pending (words ++ dropped) = keep filters pending words := by
  induction words generalizing pending with
  | nil =>
    induction dropped generalizing pending with
    | nil => rfl
    | cons word rest ih =>
      obtain ⟨hword, hrest⟩ := List.forall_mem_cons.1 h
      simp only [List.nil_append, keep, hword] at ih ⊢
      exact ih hrest _
  | cons word rest ih =>
    rw [List.cons_append, keep, keep]
    cases applyAll filters word with
    | none => exact ih _
    | some token => exact congrArg (_ :: ·) (ih 0)

/-- No token stands where the one before it stands, and no increment is more than there are words. -/
theorem increment_bounds (hwords : ∀ w ∈ words, w.increment = 1) (pending : Nat) :
    ∀ token ∈ keep filters pending words, 1 ≤ token.increment ∧ token.increment ≤ pending + words.length := by
  induction words generalizing pending with
  | nil => nofun
  | cons word rest ih =>
    obtain ⟨hword, hrest⟩ := List.forall_mem_cons.1 hwords
    have hmore {earlier : Nat} (hearlier : earlier ≤ pending + 1) :
        ∀ token ∈ keep filters earlier rest, 1 ≤ token.increment ∧
          token.increment ≤ pending + (word :: rest).length := by
      intro token htoken
      obtain ⟨hleast, hmost⟩ := ih hrest earlier token htoken
      rw [List.length_cons]
      exact ⟨hleast, by omega⟩
    rw [keep]
    split
    · exact hmore (Nat.le_of_eq (congrArg (pending + ·) hword))
    · refine List.forall_mem_cons.2 ⟨?_, hmore (Nat.zero_le _)⟩
      simp only [hword, List.length_cons]
      omega

theorem spaced_keep (hwords : ∀ w ∈ words, w.increment = 1) :
    Spaced filters words (keep filters 0 words) where
  length := length_keep 0
  token k token h := by
    obtain ⟨n, word, image, hn, himage, hk, htoken, hsum⟩ := getElem?_keep hwords h
    exact ⟨n, word, image, hn, himage, hk, htoken, by rw [hsum, Nat.zero_add]⟩

end keeping

end StandardAnalyzer

namespace TokenFilter

/-- A filter leaves tokens where they are. -/
def LeavesOffsets (filter : TokenFilter) : Prop :=
  ∀ token token', filter token = some token' → token'.start = token.start ∧ token'.stop = token.stop

/-- The filters that come with the analyzer. -/
inductive BuiltIn : TokenFilter → Prop
  | lowerCase : BuiltIn .lowerCase
  | stopWords (words : List String) : BuiltIn (.stopWords words)
  | length (least most : Nat) : BuiltIn (.length least most)
  | stem (stemmer : String → String) : BuiltIn (.stem stemmer)

theorem BuiltIn.leavesOffsets {filter : TokenFilter} (h : BuiltIn filter) : filter.LeavesOffsets := by
  intro token token' htoken
  cases h with
  | lowerCase | stem =>
    cases htoken
    exact ⟨rfl, rfl⟩
  | stopWords | length =>
    simp only [TokenFilter.stopWords, TokenFilter.length] at htoken
    split at htoken
    all_goals cases htoken
    exact ⟨rfl, rfl⟩

theorem leavesOffsets_applyAll {filters : List TokenFilter} (h : ∀ filter ∈ filters, filter.LeavesOffsets) :
    LeavesOffsets (applyAll filters) := by
  induction filters with
  | nil =>
    intro token token' htoken
    cases htoken
    exact ⟨rfl, rfl⟩
  | cons filter rest ih =>
    obtain ⟨hfilter, hrest⟩ := List.forall_mem_cons.1 h
    intro token token' htoken
    obtain ⟨middle, hmiddle, hlast⟩ := Option.bind_eq_some_iff.1 htoken
    obtain ⟨hstart, hstop⟩ := ih hrest middle token' hlast
    obtain ⟨hstart', hstop'⟩ := hfilter token middle hmiddle
    exact ⟨hstart.trans hstart', hstop.trans hstop'⟩

end TokenFilter

namespace StandardAnalyzer

open TokenFilter

/-- Only filters that come with the analyzer are configured. -/
theorem builtIn_of_mem_ofConfig (packages : Packages) (c : AnalyzerConfig) :
    ∀ filter ∈ (ofConfig packages c).filters, BuiltIn filter := by
  have hstop : ∀ filter ∈ stopFilters packages c, BuiltIn filter := by
    unfold stopFilters
    split
    · exact List.forall_mem_singleton.2 (.stopWords _)
    · split
      · nofun
      · exact List.forall_mem_singleton.2 (.stopWords _)
  have hstem : ∀ filter ∈ stemFilters packages c, BuiltIn filter := by
    unfold stemFilters stemOf?
    split
    · intro filter hfilter
      obtain ⟨language, -, rfl⟩ := Option.map_eq_some_iff.1 (Option.mem_toList.1 hfilter)
      exact .stem _
    · nofun
  have hlower : ∀ filter ∈ if c.lowercase then [TokenFilter.lowerCase] else [], BuiltIn filter := by
    split
    · exact List.forall_mem_singleton.2 .lowerCase
    · nofun
  refine List.forall_mem_append.2 ⟨List.forall_mem_append.2 ⟨List.forall_mem_append.2 ⟨hlower, hstop⟩, ?_⟩, hstem⟩
  exact List.forall_mem_singleton.2 (.length _ _)

/-- The bytes of the tokens that stay are those of their words, as far as the filters leave them alone. -/
theorem offsets_keep {filters : List TokenFilter} (h : ∀ filter ∈ filters, filter.LeavesOffsets)
    (pending : Nat) (words : List Token) :
    (keep filters pending words).map (fun token => (token.start, token.stop)) =
      (words.filter (Stays filters)).map fun word => (word.start, word.stop) := by
  induction words generalizing pending with
  | nil => rfl
  | cons word rest ih =>
    rw [keep]
    split
    · rename_i hdropped
      rw [ih, List.filter_cons_of_neg (by simp [Stays, hdropped])]
    · rename_i image himage
      obtain ⟨hstart, hstop⟩ := leavesOffsets_applyAll h word image himage
      rw [List.filter_cons_of_pos (by simp [Stays, himage]), List.map_cons, List.map_cons, ih, hstart, hstop]

/-- The tokens of a text are what the chain makes of the words it does not drop, in order, and the increments up to
a token sum up to the ordinal of its word among all words. That holds of filters of any kind. They decide about the
offsets, too: where all of them leave these alone, as those that come with the analyzer do, the tokens stand where
their words stand. -/
theorem tokenize_spaced (a : StandardAnalyzer) (text : String) :
    Spaced a.filters (a.words text) (a.tokenize text) ∧
      (∀ token ∈ a.tokenize text, 1 ≤ token.increment ∧ token.increment ≤ (a.words text).length) ∧
      (∀ kept dropped, a.words text = kept ++ dropped → (∀ word ∈ dropped, applyAll a.filters word = none) →
        a.tokenize text = keep a.filters 0 kept) ∧
      ((∀ filter ∈ a.filters, filter.LeavesOffsets) →
        (a.tokenize text).map (fun token => (token.start, token.stop)) =
          ((a.words text).filter (Stays a.filters)).map fun word => (word.start, word.stop)) ∧
      (∀ filter, BuiltIn filter → filter.LeavesOffsets) ∧
      ∀ packages c, ∀ filter ∈ (ofConfig packages c).filters, BuiltIn filter := by
  have hwords := a.increment_of_mem_words text
  refine ⟨spaced_keep hwords, ?_, ?_, fun hleaves => offsets_keep hleaves 0 _, fun _ => BuiltIn.leavesOffsets,
    builtIn_of_mem_ofConfig⟩
  · intro token hm
    have hbounds := increment_bounds hwords 0 token hm
    rwa [Nat.zero_add] at hbounds
  · intro kept dropped hsplit hdropped
    rw [tokenize, hsplit]
    exact keep_append_dropped hdropped 0

/-- A filter that drops one word and sets increments of its own. -/
def withoutSkip : TokenFilter := fun token =>
  if token.text = "skip" then none else some { token with increment := 7 }

def shortStops : StandardAnalyzer where
  findWords := Packages.bare.findWords
  splitting := .letters
  filters := [.lowerCase, .stopWords ["the"], .length 2 12, withoutSkip]

theorem stopsAndSkip_spaced :
    let text := "The quarry, skip the A compiler the"
    shortStops.tokenize text = [⟨"quarry", 4, 10, 2⟩, ⟨"compiler", 23, 31, 4⟩] ∧
      (∀ filter ∈ shortStops.filters, filter.LeavesOffsets) ∧
      Spaced shortStops.filters (shortStops.words text) (shortStops.tokenize text) ∧
      (shortStops.tokenize text).map (fun token => (token.start, token.stop)) =
        ((shortStops.words text).filter (Stays shortStops.filters)).map fun word => (word.start, word.stop) := by
  have hskip : withoutSkip.LeavesOffsets := by
    intro token token' h
    rw [withoutSkip] at h
    split at h
    all_goals cases h
    exact ⟨rfl, rfl⟩
  have hleaves : ∀ filter ∈ shortStops.filters, filter.LeavesOffsets := by
    refine List.forall_mem_cons.2 ⟨BuiltIn.lowerCase.leavesOffsets, List.forall_mem_cons.2
      ⟨(BuiltIn.stopWords _).leavesOffsets, List.forall_mem_cons.2 ⟨(BuiltIn.length _ _).leavesOffsets, ?_⟩⟩⟩
    exact List.forall_mem_singleton.2 hskip
  obtain ⟨hspaced, -, -, hoffsets, -⟩ := shortStops.tokenize_spaced "The quarry, skip the A compiler the"
  exact ⟨by decide +kernel, hleaves, hspaced, hoffsets hleaves⟩

/-- A filter that takes the first letter off a word and moves its start. -/
def beheaded : TokenFilter := fun token =>
  some { token with text := String.ofList token.text.toList.tail, start := token.start + 1 }

/-- With a filter that moves offsets, tokens do not stand where their words stand. -/
theorem beheaded_moves_offsets :
    let a := ((ofConfig .bare {}).filteredBy beheaded)
    a.words "a cat" = [⟨"a", 0, 1, 1⟩, ⟨"cat", 2, 5, 1⟩] ∧
      (∀ word ∈ a.words "a cat", Stays a.filters word = true) ∧
      a.tokenize "a cat" = [⟨"", 1, 1, 1⟩, ⟨"at", 3, 5, 1⟩] ∧
      (a.tokenize "a cat").map (fun token => (token.start, token.stop)) ≠
        ((a.words "a cat").filter (Stays a.filters)).map fun word => (word.start, word.stop) := by
  refine ⟨by decide +kernel, by decide +kernel, by decide +kernel, by decide +kernel⟩

end StandardAnalyzer

end TextSearch
