import Mathlib.Data.String.Basic
import TextSearch.Lexeme.Scan
import TextSearch.Proofs.Failures
import TextSearch.Query.Raw

/-! Patterns whose parts between the wildcards are analyzed. The wildcards are found again in the word by counting,
as slices of one byte, and each stays in its place. -/
namespace TextSearch

/-- The bytes of a text from one offset up to another, if these are boundaries of its characters. -/
def byteSlice? (text : String) (start stop : Nat) : Option String :=
  if start ≤ stop ∧ String.Pos.Raw.isValid text ⟨start⟩ ∧ String.Pos.Raw.isValid text ⟨stop⟩ then
    some (String.Pos.Raw.extract text ⟨start⟩ ⟨stop⟩)
  else none

namespace Glob

/-- The bytes at which wildcards start, for a text that starts at an offset. -/
def wildcardOffsets (offset : Nat) : List Char → List Nat
  | [] => []
  | c :: rest =>
    if isWildcard c then offset :: wildcardOffsets (offset + c.utf8Size) rest
    else wildcardOffsets (offset + c.utf8Size) rest

/-- The byte at which the wildcard with a number starts, counted from one; the end of the word if it has none. -/
def wildcardOffset (word : String) (number : Nat) : Nat :=
  (wildcardOffsets 0 word.toList)[number - 1]?.getD word.utf8ByteSize

/-- What stands before the part of a word with a number: nothing before the first one, and else a wildcard. -/
def markBefore? (word : String) (number : Nat) : Option String :=
  if number = 0 then some ""
  else byteSlice? word (wildcardOffset word number) (wildcardOffset word number + 1)

def multipleWords : Error := .semantic "Wildcard search is supported only for non-multiple word terms"

/-- The text of the only token, or nothing. -/
def soleText (tokens : List Token) : String := (tokens.head?.map (·.text)).getD ""

/-- Puts analyzed parts behind a pattern, each behind its wildcard. There is no result if a slice is none. -/
def assemble (tokenize : String → List Token) (word pattern : String) (number : Nat) :
    List (List Char) → Option (Except Error String)
  | [] => some (.ok pattern)
  | part :: rest =>
    match markBefore? word number with
    | none => none
    | some mark =>
      let tokens := tokenize (String.ofList part)
      if 1 < tokens.length then some (.error multipleWords)
      else assemble tokenize word (pattern ++ mark ++ soleText tokens) (number + 1) rest

/-- The pattern of a word, with its wildcards as slices of the word. -/
def slicedPattern (tokenize : String → List Token) (word : String) : Option (Except Error String) :=
  assemble tokenize word "" 0 (word.toList.splitOnP isWildcard)

/-- A text cut at its wildcards: what stands before the first one, and each one with what stands behind it. -/
structure Cut where
  first : List Char
  rest : List (Char × List Char)

namespace Cut

def parts (cut : Cut) : List (List Char) := cut.first :: cut.rest.map Prod.snd

/-- A cut gives the text, has no wildcards in its parts and has wildcards between them. -/
structure Cuts (cut : Cut) (s : List Char) : Prop where
  text : cut.first ++ cut.rest.flatMap (fun (c, part) => c :: part) = s
  literal : ∀ part ∈ cut.parts, ∀ c ∈ part, isWildcard c = false
  wildcard : ∀ mark ∈ cut.rest, isWildcard mark.1 = true

def ofText : List Char → Cut
  | [] => ⟨[], []⟩
  | c :: s =>
    if isWildcard c then ⟨[], (c, (ofText s).first) :: (ofText s).rest⟩
    else ⟨c :: (ofText s).first, (ofText s).rest⟩

theorem cuts_ofText (s : List Char) : (ofText s).Cuts s := by
  induction s with
  | nil => exact ⟨rfl, by simp [ofText, parts], nofun⟩
  | cons c s ih =>
    obtain ⟨htext, hliteral, hwildcard⟩ := ih
    obtain ⟨hfirst, hrest⟩ := List.forall_mem_cons.1 hliteral
    rw [ofText]
    split
    · rename_i hc
      refine ⟨?_, ?_, List.forall_mem_cons.2 ⟨hc, hwildcard⟩⟩
      · simp [htext]
      · exact List.forall_mem_cons.2 ⟨nofun, List.forall_mem_cons.2 ⟨hfirst, hrest⟩⟩
    · rename_i hc
      refine ⟨by simp [htext], ?_, hwildcard⟩
      refine List.forall_mem_cons.2 ⟨List.forall_mem_cons.2 ⟨?_, hfirst⟩, hrest⟩
      exact Bool.eq_false_iff.2 hc

theorem ofText_append {part : List Char} (h : ∀ c ∈ part, isWildcard c = false) (s : List Char) :
    ofText (part ++ s) = ⟨part ++ (ofText s).first, (ofText s).rest⟩ := by
  induction part with
  | nil => rfl
  | cons c part ih =>
    obtain ⟨hc, hpart⟩ := List.forall_mem_cons.1 h
    rw [List.cons_append, ofText, hc, if_neg Bool.false_ne_true, ih hpart]
    rfl

theorem ofText_marked {rest : List (Char × List Char)} (hwildcard : ∀ mark ∈ rest, isWildcard mark.1 = true)
    (hliteral : ∀ part ∈ rest.map Prod.snd, ∀ c ∈ part, isWildcard c = false) :
    ofText (rest.flatMap fun (c, part) => c :: part) = ⟨[], rest⟩ := by
  induction rest with
  | nil => rfl
  | cons mark rest ih =>
    obtain ⟨hc, hwildcard⟩ := List.forall_mem_cons.1 hwildcard
    obtain ⟨hpart, hliteral⟩ := List.forall_mem_cons.1 hliteral
    rw [List.flatMap_cons, List.cons_append, ofText, if_pos hc, ofText_append hpart, ih hwildcard hliteral,
      List.append_nil]

/-- There is only one way to cut a text. -/
theorem Cuts.eq_ofText {cut : Cut} {s : List Char} (h : cut.Cuts s) : cut = ofText s := by
  obtain ⟨hfirst, hrest⟩ := List.forall_mem_cons.1 h.literal
  rw [← h.text, ofText_append hfirst, ofText_marked h.wildcard hrest, List.append_nil]

theorem parts_ofText (s : List Char) : (ofText s).parts = s.splitOnP isWildcard := by
  induction s with
  | nil => rfl
  | cons c s ih =>
    rw [List.splitOnP_cons_eq_if_modifyHead, ← ih, ofText]
    split <;> rfl

/-- Every wildcard in its place between the texts of the parts. -/
def pattern (tokenize : String → List Token) (cut : Cut) : String :=
  String.ofList ((soleText (tokenize (String.ofList cut.first))).toList ++
    cut.rest.flatMap fun (c, part) => c :: (soleText (tokenize (String.ofList part))).toList)

/-- The pattern of a cut, none of whose parts may be more than one token. -/
def analyzed (tokenize : String → List Token) (cut : Cut) : Except Error String :=
  if cut.parts.any fun part => 1 < (tokenize (String.ofList part)).length then .error multipleWords
  else .ok (cut.pattern tokenize)

theorem analyzed_singleton (tokenize : String → List Token) (part : List Char) :
    analyzed tokenize ⟨part, []⟩ =
      if 1 < (tokenize (String.ofList part)).length then .error multipleWords
      else .ok (soleText (tokenize (String.ofList part))) := by
  simp [analyzed, parts, pattern]

theorem analyzed_cons (tokenize : String → List Token) (first part : List Char) (c : Char)
    (rest : List (Char × List Char)) :
    analyzed tokenize ⟨first, (c, part) :: rest⟩ =
      if 1 < (tokenize (String.ofList first)).length then .error multipleWords
      else (analyzed tokenize ⟨part, rest⟩).map fun pattern =>
        soleText (tokenize (String.ofList first)) ++ c.toString ++ pattern := by
  have hany : (Cut.parts ⟨first, (c, part) :: rest⟩).any (fun part => 1 < (tokenize (String.ofList part)).length) =
      (decide (1 < (tokenize (String.ofList first)).length) ||
        (Cut.parts ⟨part, rest⟩).any fun part => 1 < (tokenize (String.ofList part)).length) := rfl
  rw [analyzed, hany, analyzed]
  by_cases hfirst : 1 < (tokenize (String.ofList first)).length
  · rw [decide_eq_true hfirst, Bool.true_or, if_pos rfl, if_pos hfirst]
  rw [decide_eq_false hfirst, Bool.false_or, if_neg hfirst]
  split
  · rfl
  · refine congrArg Except.ok (String.toList_injective ?_)
    simp [pattern, Char.toString]

end Cut

section slices
variable {c : Char} {word : String} {before after : List Char}

theorem utf8Size_of_isWildcard (hc : isWildcard c = true) : c.utf8Size = 1 := by
  rcases Bool.or_eq_true_iff.1 hc with h | h
  · rw [eq_of_beq h]
    rfl
  · rw [eq_of_beq h]
    rfl

theorem countP_of_literal {part : List Char} (h : ∀ c ∈ part, isWildcard c = false) :
    part.countP isWildcard = 0 :=
  List.countP_eq_zero.2 fun c hc => Bool.eq_false_iff.1 (h c hc)

theorem countP_marked {marks : List (Char × List Char)} (hwildcard : ∀ mark ∈ marks, isWildcard mark.1 = true)
    (hliteral : ∀ part ∈ marks.map Prod.snd, ∀ c ∈ part, isWildcard c = false) :
    (marks.flatMap fun (c, part) => c :: part).countP isWildcard = marks.length := by
  induction marks with
  | nil => rfl
  | cons mark marks ih =>
    obtain ⟨hc, hwildcard⟩ := List.forall_mem_cons.1 hwildcard
    obtain ⟨hpart, hliteral⟩ := List.forall_mem_cons.1 hliteral
    rw [List.flatMap_cons, List.countP_append, List.countP_cons_of_pos hc, countP_of_literal hpart,
      ih hwildcard hliteral, List.length_cons, Nat.zero_add, Nat.add_comm]

/-- A wildcard is found by the number of wildcards before it. -/
theorem getElem?_wildcardOffsets (hc : isWildcard c = true) (offset : Nat) :
    (wildcardOffsets offset (before ++ c :: after))[before.countP isWildcard]? =
      some (offset + String.utf8Len before) := by
  induction before generalizing offset with
  | nil => rw [List.nil_append, wildcardOffsets, if_pos hc]; rfl
  | cons d before ih =>
    have hoffset : offset + d.utf8Size + String.utf8Len before = offset + String.utf8Len (d :: before) := by
      rw [String.utf8Len_cons]
      omega
    rw [List.cons_append, wildcardOffsets, ← hoffset]
    split
    · rename_i hd
      rw [List.countP_cons_of_pos hd, List.getElem?_cons_succ, ih]
    · rename_i hd
      rw [List.countP_cons_of_neg hd, ih]

theorem isValid_utf8Len (hword : word.toList = before ++ after) :
    String.Pos.Raw.IsValid word ⟨String.utf8Len before⟩ := by
  refine String.Pos.Raw.isValid_iff_exists_append.2 ⟨String.ofList before, String.ofList after, ?_, ?_⟩
  · rw [← String.ofList_append, ← hword, String.ofList_toList]
  · rw [String.rawEndPos_ofList]

/-- The byte at which a wildcard starts and the one behind it are boundaries, and the wildcard is between them. -/
theorem slice_of_wildcard (hword : word.toList = before ++ c :: after) (hc : isWildcard c = true) :
    let offset := wildcardOffset word (before.countP isWildcard + 1)
    String.Pos.Raw.IsValid word ⟨offset⟩ ∧ String.Pos.Raw.IsValid word ⟨offset + 1⟩ ∧
      byteSlice? word offset (offset + 1) = some c.toString := by
  intro offset
  have hoffset : offset = String.utf8Len before := by
    simp only [offset, wildcardOffset, hword, Nat.add_sub_cancel, getElem?_wildcardOffsets hc, Nat.zero_add,
      Option.getD_some]
  have hlength : String.utf8Len [c] = 1 := by
    rw [String.utf8Len_cons, String.utf8Len_nil, utf8Size_of_isWildcard hc]
  have htext : word = String.ofList (before ++ [c] ++ after) := by
    rw [List.append_assoc, List.singleton_append, ← hword, String.ofList_toList]
  have hstart : String.Pos.Raw.IsValid word ⟨offset⟩ := hoffset ▸ isValid_utf8Len hword
  have hstop : String.Pos.Raw.IsValid word ⟨offset + 1⟩ := by
    have hbehind : word.toList = before ++ [c] ++ after := by rw [htext, String.toList_ofList]
    have hvalid := isValid_utf8Len hbehind
    rwa [String.utf8Len_append, hlength, ← hoffset] at hvalid
  refine ⟨hstart, hstop, ?_⟩
  rw [byteSlice?, if_pos ⟨Nat.le_succ _, String.Pos.Raw.isValid_eq_true_iff.2 hstart,
    String.Pos.Raw.isValid_eq_true_iff.2 hstop⟩, htext, hoffset]
  have hextract := String.extract_of_valid before [c] after
  rw [hlength] at hextract
  rw [hextract]
  rfl

end slices

section assembling
variable {word : String}

/-- The slices that the pattern is put together from are the wildcards of the cut. -/
theorem assemble_eq (tokenize : String → List Token) {rest : List (Char × List Char)} {before part : List Char}
    {pattern mark : String} {number : Nat}
    (hword : word.toList = before ++ (part ++ rest.flatMap fun (c, part) => c :: part))
    (hbefore : before.countP isWildcard = number) (hmark : markBefore? word number = some mark)
    (hliteral : ∀ text ∈ part :: rest.map Prod.snd, ∀ c ∈ text, isWildcard c = false)
    (hwildcard : ∀ mark ∈ rest, isWildcard mark.1 = true) :
    assemble tokenize word pattern number (part :: rest.map Prod.snd) =
      some ((Cut.analyzed tokenize ⟨part, rest⟩).map (pattern ++ mark ++ ·)) := by
  -- `before` is what was cut off so far, and its wildcards are as many as the number of the part
  induction rest generalizing before part pattern mark number with
  | nil =>
    rw [assemble, hmark, Cut.analyzed_singleton]
    dsimp only
    split
    · rfl
    · rfl
  | cons next rest ih =>
    obtain ⟨c, next⟩ := next
    obtain ⟨hpart, hliteral⟩ := List.forall_mem_cons.1 hliteral
    obtain ⟨hc, hwildcard⟩ := List.forall_mem_cons.1 hwildcard
    rw [assemble, hmark, Cut.analyzed_cons]
    dsimp only
    split
    · rfl
    have hword' : word.toList = (before ++ part) ++ c :: (next ++ rest.flatMap fun (c, part) => c :: part) := by
      rw [hword, List.flatMap_cons, List.append_assoc, List.cons_append]
    have hcount : (before ++ part).countP isWildcard = number := by
      rw [List.countP_append, hbefore, countP_of_literal hpart, Nat.add_zero]
    have hnext : word.toList = (before ++ part ++ [c]) ++ (next ++ rest.flatMap fun (c, part) => c :: part) := by
      rw [hword', List.append_assoc _ [c], List.singleton_append]
    have hcount' : (before ++ part ++ [c]).countP isWildcard = number + 1 := by
      rw [List.countP_append, hcount, List.countP_singleton, if_pos hc]
    have hmark' : markBefore? word (number + 1) = some c.toString := by
      rw [markBefore?, if_neg (Nat.succ_ne_zero number), ← hcount]
      exact (slice_of_wildcard hword' hc).2.2
    rw [List.map_cons, ih hnext hcount' hmark' hliteral hwildcard]
    cases Cut.analyzed tokenize ⟨next, rest⟩ with
    | error => rfl
    | ok result => simp only [Except.map, String.append_assoc]

theorem slicedPattern_eq (tokenize : String → List Token) {cut : Cut} (h : cut.Cuts word.toList) :
    slicedPattern tokenize word = some (cut.analyzed tokenize) := by
  have hparts : word.toList.splitOnP isWildcard = cut.first :: cut.rest.map Prod.snd := by
    rw [← Cut.parts_ofText, ← h.eq_ofText]
    rfl
  have hword : word.toList = [] ++ (cut.first ++ cut.rest.flatMap fun (c, part) => c :: part) := h.text.symm
  have hassemble : assemble tokenize word "" 0 (cut.first :: cut.rest.map Prod.snd) =
      some ((cut.analyzed tokenize).map ("" ++ "" ++ ·)) :=
    assemble_eq tokenize hword rfl rfl h.literal h.wildcard
  rw [slicedPattern, hparts, hassemble]
  cases cut.analyzed tokenize with
  | error => rfl
  | ok pattern => rw [Except.map, String.append_empty, String.empty_append]

variable {a : Analyzer}

theorem literal_eq (a : Analyzer) (part : List Char) :
    (analyzePatternAfter.literal a part).map String.ofList = Cut.analyzed a.tokenize ⟨part.reverse, []⟩ := by
  rw [Cut.analyzed_singleton, analyzePatternAfter.literal, Analyzer.terms]
  rcases a.tokenize (String.ofList part.reverse) with _ | ⟨t, _ | ⟨t', rest⟩⟩
  · rfl
  · simp [soleText, Except.map]
  · simp [Except.map, multipleWords]

/-- The characters of a part are collected with the last one first. -/
theorem analyzePatternAfter_literal {part : List Char} (h : ∀ c ∈ part, isWildcard c = false)
    (collected s : List Char) :
    analyzePatternAfter a collected (part ++ s) = analyzePatternAfter a (part.reverse ++ collected) s := by
  induction part generalizing collected with
  | nil => rfl
  | cons c part ih =>
    obtain ⟨hc, hpart⟩ := List.forall_mem_cons.1 h
    rw [List.cons_append, analyzePatternAfter, hc, if_neg Bool.false_ne_true, ih hpart, List.reverse_cons,
      List.append_assoc, List.singleton_append]

theorem analyzePatternAfter_marked (part : List Char) {rest : List (Char × List Char)}
    (hliteral : ∀ text ∈ rest.map Prod.snd, ∀ c ∈ text, isWildcard c = false)
    (hwildcard : ∀ mark ∈ rest, isWildcard mark.1 = true) :
    (analyzePatternAfter a part.reverse (rest.flatMap fun (c, part) => c :: part)).map String.ofList =
      Cut.analyzed a.tokenize ⟨part, rest⟩ := by
  induction rest generalizing part with
  | nil =>
    rw [List.flatMap_nil, analyzePatternAfter, literal_eq, List.reverse_reverse]
  | cons next rest ih =>
    obtain ⟨c, next⟩ := next
    obtain ⟨hnext, hliteral⟩ := List.forall_mem_cons.1 hliteral
    obtain ⟨hc, hwildcard⟩ := List.forall_mem_cons.1 hwildcard
    have hpart := literal_eq a part.reverse
    rw [List.reverse_reverse, Cut.analyzed_singleton] at hpart
    have hrest := ih next hliteral hwildcard
    rw [List.flatMap_cons, List.cons_append, analyzePatternAfter, if_pos hc, Cut.analyzed_cons,
      analyzePatternAfter_literal hnext, List.append_nil, ← hrest]
    by_cases hmany : 1 < (a.tokenize (String.ofList part)).length
    · rw [if_pos hmany] at hpart ⊢
      rw [map_eq_error.1 hpart]
      rfl
    · rw [if_neg hmany] at hpart ⊢
      obtain ⟨text, hliteral, htext⟩ := Lexeme.map_eq_ok.1 hpart
      rw [hliteral, ← htext]
      dsimp only
      cases analyzePatternAfter a next.reverse (rest.flatMap fun (c, part) => c :: part) with
      | error e => rfl
      | ok pattern =>
        refine congrArg Except.ok (String.toList_injective ?_)
        simp [Char.toString]

theorem analyzePattern_eq {cut : Cut} (h : cut.Cuts word.toList) :
    analyzePattern a word = cut.analyzed a.tokenize := by
  obtain ⟨hfirst, hliteral⟩ := List.forall_mem_cons.1 h.literal
  rw [analyzePattern, ← h.text, analyzePatternAfter_literal hfirst, List.append_nil]
  exact analyzePatternAfter_marked cut.first hliteral h.wildcard

theorem Cut.analyzed_eq_error (tokenize : String → List Token) (cut : Cut) (e : Error) :
    cut.analyzed tokenize = .error e ↔
      e = multipleWords ∧ ∃ part ∈ cut.parts, 1 < (tokenize (String.ofList part)).length := by
  have hany : (cut.parts.any fun part => 1 < (tokenize (String.ofList part)).length) = true ↔
      ∃ part ∈ cut.parts, 1 < (tokenize (String.ofList part)).length := by
    simp only [List.any_eq_true, decide_eq_true_eq]
  rw [analyzed, ← hany]
  split
  · rename_i hmany
    exact ⟨fun h => ⟨(Except.error.inj h).symm, hmany⟩, fun h => congrArg Except.error h.1.symm⟩
  · rename_i hone
    exact ⟨nofun, fun h => absurd h.2 hone⟩

theorem Cut.analyzed_of_single {tokenize : String → List Token} {cut : Cut}
    (h : ∀ part ∈ cut.parts, (tokenize (String.ofList part)).length ≤ 1) :
    cut.analyzed tokenize = .ok (cut.pattern tokenize) := by
  rw [analyzed, if_neg]
  rw [List.any_eq_true]
  rintro ⟨part, hpart, hmany⟩
  exact absurd (of_decide_eq_true hmany) (Nat.not_lt.2 (h part hpart))

/-- The wildcard with an index in the cut is the one that counting finds for the part behind it. -/
theorem Cut.Cuts.slice_of_mark {cut : Cut} (h : cut.Cuts word.toList) {i : Nat} {c : Char} {part : List Char}
    (hmark : cut.rest[i]? = some (c, part)) :
    let offset := wildcardOffset word (i + 1)
    String.Pos.Raw.IsValid word ⟨offset⟩ ∧ String.Pos.Raw.IsValid word ⟨offset + 1⟩ ∧
      byteSlice? word offset (offset + 1) = some c.toString := by
  obtain ⟨hfirst, hliteral⟩ := List.forall_mem_cons.1 h.literal
  have hi : i < cut.rest.length := (List.getElem?_eq_some_iff.1 hmark).1
  have hrest : cut.rest = cut.rest.take i ++ (c, part) :: cut.rest.drop (i + 1) := by
    rw [← (List.getElem?_eq_some_iff.1 hmark).2, List.getElem_cons_drop, List.take_append_drop]
  have hword := h.text.symm
  rw [hrest, List.flatMap_append, List.flatMap_cons, ← List.append_assoc, List.cons_append] at hword
  have hcount : (cut.first ++ (cut.rest.take i).flatMap fun (c, part) => c :: part).countP isWildcard = i := by
    rw [List.countP_append, countP_of_literal hfirst, Nat.zero_add, countP_marked, List.length_take_of_le hi.le]
    · exact fun mark hm => h.wildcard mark (List.mem_of_mem_take hm)
    · intro text htext
      rw [List.map_take] at htext
      exact hliteral text (List.mem_of_mem_take htext)
  have hslice := slice_of_wildcard hword (h.wildcard (c, part) (List.mem_of_getElem? hmark))
  rwa [hcount] at hslice

end assembling

/-- A word is cut at its wildcards in one way. Its pattern is refused if a part is more than one token, and else has
every wildcard of the word in its place. Each slice taken on the way is the wildcard that it stands for. -/
theorem slicedPattern_keeps_wildcards (tokenize : String → List Token) (word : String) :
    ∃ cut : Cut, cut.Cuts word.toList ∧ (∀ other : Cut, other.Cuts word.toList → other = cut) ∧
      (slicedPattern tokenize word = some (.error multipleWords) ↔
        ∃ part ∈ cut.parts, 1 < (tokenize (String.ofList part)).length) ∧
      ((∀ part ∈ cut.parts, (tokenize (String.ofList part)).length ≤ 1) →
        slicedPattern tokenize word = some (.ok (cut.pattern tokenize))) ∧
      (∀ (i : Nat) (c : Char) (part : List Char), cut.rest[i]? = some (c, part) →
        ∃ offset, offset = wildcardOffset word (i + 1) ∧ offset + 1 ≤ word.utf8ByteSize ∧
          String.Pos.Raw.IsValid word ⟨offset⟩ ∧ String.Pos.Raw.IsValid word ⟨offset + 1⟩ ∧
            byteSlice? word offset (offset + 1) = some c.toString) ∧
      ∀ a : Analyzer, slicedPattern a.tokenize word = some (analyzePattern a word) := by
  have hcuts := Cut.cuts_ofText word.toList
  have hpattern := slicedPattern_eq tokenize hcuts
  refine ⟨Cut.ofText word.toList, hcuts, fun other h => h.eq_ofText, ?_, ?_, ?_, ?_⟩
  · rw [hpattern, Option.some_inj, Cut.analyzed_eq_error]
    exact and_iff_right rfl
  · intro hsingle
    rw [hpattern, Cut.analyzed_of_single hsingle]
  · intro i c part hmark
    obtain ⟨hstart, hstop, hslice⟩ := hcuts.slice_of_mark hmark
    exact ⟨_, rfl, hstop.le_rawEndPos, hstart, hstop, hslice⟩
  · intro a
    rw [slicedPattern_eq a.tokenize hcuts, analyzePattern_eq hcuts]

/-- Each text is one word, in lower case. -/
def wholeLower : StandardAnalyzer where
  findWords text := if text.isEmpty then [] else [(0, text)]
  splitting := .words
  filters := [.lowerCase]

/-- Runs of letters. -/
def letterRuns : StandardAnalyzer where
  findWords _ := []
  splitting := .letters
  filters := []

theorem starredWord_keeps_wildcards :
    slicedPattern wholeLower.tokenize "Té?*Äß*" = some (.ok "té?*äß*") ∧
      analyzePattern wholeLower.toAnalyzer "Té?*Äß*" = .ok "té?*äß*" ∧
      wildcardOffset "Té?*Äß*" 3 = 9 ∧ byteSlice? "Té?*Äß*" 9 10 = some "*" ∧ byteSlice? "Té?*Äß*" 2 3 = none ∧
      slicedPattern letterRuns.tokenize "a b?c" = some (.error multipleWords) := by
  obtain ⟨cut, hcut, -, -, hpattern, hslices, hsame⟩ := slicedPattern_keeps_wildcards wholeLower.tokenize "Té?*Äß*"
  obtain ⟨cut', hcut', -, hrefused, -⟩ := slicedPattern_keeps_wildcards letterRuns.tokenize "a b?c"
  have hparts : cut = ⟨['T', 'é'], [('?', []), ('*', ['Ä', 'ß']), ('*', [])]⟩ := hcut.eq_ofText
  have hparts' : cut' = ⟨['a', ' ', 'b'], [('?', ['c'])]⟩ := hcut'.eq_ofText
  subst hparts hparts'
  have hfound := hpattern (by decide +kernel)
  have htext : Cut.pattern wholeLower.tokenize ⟨['T', 'é'], [('?', []), ('*', ['Ä', 'ß']), ('*', [])]⟩ =
      "té?*äß*" := by decide +kernel
  rw [htext] at hfound
  have hoffset : wildcardOffset "Té?*Äß*" 3 = 9 := by decide +kernel
  obtain ⟨_, rfl, -, -, -, hslice⟩ := hslices 2 '*' [] rfl
  rw [hoffset] at hslice
  refine ⟨hfound, ?_, hoffset, hslice, by decide +kernel, hrefused.2 ⟨_, List.mem_cons_self, by decide +kernel⟩⟩
  exact Option.some_inj.1 ((hsame wholeLower.toAnalyzer).symm.trans hfound)

end Glob

end TextSearch
