import TextSearch.Proofs.Hiding

/-! The addresses of a query string come through the scan whole: each is part of one word, field or phrase. -/
namespace TextSearch

namespace Segment

/-- A segment as the scan sees it. -/
def guarded : Segment → List Char
  | gap c => [c]
  | hit address => hideColons address

theorem hides_guarded (segments : List Segment) : Hides (segments.flatMap chars) (segments.flatMap guarded) := by
  induction segments with
  | nil => exact .nil
  | cons segment rest ih =>
    refine List.rel_append ?_ ih
    cases segment with
    | gap c => exact .cons (.inl rfl) .nil
    | hit address => exact Hides.hideColons address

theorem guarded_eq_chars {segments : List Segment} (h : hits segments = []) :
    segments.flatMap guarded = segments.flatMap chars := by
  induction segments with
  | nil => rfl
  | cons segment rest ih =>
    cases segment with
    | gap c => rw [List.flatMap_cons, List.flatMap_cons, ih h]; rfl
    | hit address => cases h

/-- Only the characters of addresses are hidden. -/
theorem hit_of_hidden {segments : List Segment} {i : Nat} {c d : Char}
    (hc : (segments.flatMap chars)[i]? = some c) (hd : (segments.flatMap guarded)[i]? = some d) (hne : d ≠ c) :
    ∃ before address after, segments = before ++ .hit address :: after ∧
      (before.flatMap chars).length ≤ i ∧ i < (before.flatMap chars).length + address.length := by
  induction segments generalizing i with
  | nil => cases hc
  | cons segment rest ih =>
    rw [List.flatMap_cons] at hc hd
    by_cases hi : i < segment.chars.length
    · cases segment with
      | gap e =>
        obtain rfl : i = 0 := by simpa [chars] using hi
        exact absurd (Option.some.inj (hd.symm.trans hc)) hne
      | hit address => exact ⟨[], address, rest, rfl, Nat.zero_le i, by simpa [chars] using hi⟩
    · have hlength : segment.guarded.length = segment.chars.length := by
        cases segment with
        | gap => rfl
        | hit address => exact List.length_map _
      rw [List.getElem?_append_right (by omega)] at hc hd
      rw [hlength] at hd
      obtain ⟨before, address, after, rfl, hle, hlt⟩ := ih hc hd
      refine ⟨segment :: before, address, after, rfl, ?_, ?_⟩ <;>
        rw [List.flatMap_cons, List.length_append] <;> omega

end Segment

theorem occursIn_iff {part text : List Char} : occursIn part text = true ↔ part <:+: text := by
  induction text with
  | nil => simp [occursIn]
  | cons c rest ih =>
    rw [occursIn, Bool.or_eq_true, ih, List.isPrefixOf_iff_prefix, List.infix_cons_iff]

namespace GuardedQuery

theorem text_toList (query : String) :
    (ofQuery query).text.toList = (segments query).flatMap Segment.guarded := by
  rw [ofQuery, String.toList_ofList]
  rfl

theorem showColons_hideColons {address : List Char} (h : hiddenColon ∉ address) :
    showColons (hideColons address) = address :=
  (Hides.hideColons address).showColons_eq h

/-- A text with a hidden address gets all of its colons back. -/
theorem restoreText_of_address {literals : List String} {text address : String} (ha : address ∈ literals)
    (hcolon : ':' ∈ address.toList) (hhidden : hiddenColon ∉ address.toList)
    (h : hideColons address.toList <:+: text.toList) :
    (restoreText literals text).toList = showColons text.toList ∧
      address.toList <:+: (restoreText literals text).toList := by
  have hshown : address.toList <:+: showColons text.toList := by
    have hmap := h.map fun c => if c == hiddenColon then ':' else c
    rwa [← showColons, showColons_hideColons hhidden] at hmap
  have hcontains : hiddenColon ∈ text.toList := by
    refine h.subset ?_
    exact List.mem_map.2 ⟨':', hcolon, rfl⟩
  have hrestored : restoreText literals text = String.ofList (showColons text.toList) := by
    have hany : literals.any (fun a => occursIn a.toList (showColons text.toList)) = true :=
      List.any_eq_true.2 ⟨address, ha, occursIn_iff.2 hshown⟩
    simp [restoreText, hcontains, hany]
  rw [hrestored, String.toList_ofList]
  exact ⟨rfl, hshown⟩

theorem restoreText_of_not_mem {literals : List String} {text : String} (h : hiddenColon ∉ text.toList) :
    restoreText literals text = text := by
  simp [restoreText, h]

theorem restoreText_nil (text : String) : restoreText [] text = text := by
  simp [restoreText]

end GuardedQuery

namespace Lexeme

open GuardedQuery

/-- What the lexemes of a query string have to do with it. They make it up at their positions, they say what is
written there, and each address is whole in one of them. -/
structure FromSource (query : String) (placed : List Placed) : Prop where
  tiled : Tiled query.toList [] placed
  faithful : ∀ x ∈ placed, hiddenColon ∉ x.source → x.Faithful ∧ hiddenColon ∉ x.lexeme.text.toList
  addresses : ∀ before address after, segments query = before ++ .hit address :: after →
    ∃ x ∈ placed, (x.lexeme.kind = .word ∨ x.lexeme.kind = .field ∨ x.lexeme.kind = .phrase) ∧
      x.Covers (before.flatMap Segment.chars).length address.length ∧ address <:+: x.lexeme.text.toList ∧
      ∀ y ∈ placed, y.Covers (before.flatMap Segment.chars).length address.length → y = x

section tokenize
variable {query : String} {placed placed' : List Placed} {before after : List Segment} {address : List Char}

/-- Every address of a query string is in one of the lexemes of the hidden text. -/
theorem exists_holds (ht : Tiled (GuardedQuery.ofQuery query).text.toList [] placed)
    (h : segments query = before ++ .hit address :: after) :
    ∃ x ∈ placed, x.Holds (before.flatMap Segment.chars).length (hideColons address) := by
  have hm : .hit address ∈ segments query := by simp [h]
  obtain ⟨hcolon, hchars⟩ := address_of_mem_segments hm
  have hhidden : hiddenColon ∈ hideColons address := List.mem_map.2 ⟨':', hcolon, rfl⟩
  have hplain := plain_hideColons hchars
  have heq : before.flatMap Segment.guarded ++ (hideColons address ++ after.flatMap Segment.guarded) =
      (GuardedQuery.ofQuery query).text.toList ++ [] := by
    simp [text_toList, h, Segment.guarded]
  have hlt : (before.flatMap Segment.guarded).length < (GuardedQuery.ofQuery query).text.toList.length := by
    rw [List.append_nil] at heq
    have hpos := List.length_pos_of_mem hhidden
    simp only [← heq, List.length_append]
    omega
  rw [(Segment.hides_guarded before).length_eq]
  exact ht.holds heq hplain hhidden hlt

/-- A hidden colon in a lexeme is part of an address that the lexeme holds, unless the query string has the
character there. -/
theorem holds_of_hidden {t : String → String} {x y : Placed}
    (ht : Tiled (GuardedQuery.ofQuery query).text.toList [] placed) (ht' : Tiled query.toList [] placed')
    (hx : x ∈ placed) (hy : y ∈ placed') (hu : Unhidden t y x) (hhidden : hiddenColon ∈ x.source)
    (hshown : hiddenColon ∉ y.source) :
    ∃ before address after, segments query = before ++ .hit address :: after ∧
      x.Holds (before.flatMap Segment.chars).length (hideColons address) := by
  obtain ⟨j, hj⟩ := List.mem_iff_getElem?.1 hhidden
  have hlt : j < x.source.length := (List.getElem?_eq_some_iff.1 hj).1
  have hlt' : j < y.source.length := by rwa [hu.source.length_eq]
  obtain ⟨b, a, hb, hposition⟩ := ht.source_at x hx
  obtain ⟨b', a', hb', hposition'⟩ := ht'.source_at y hy
  have hlength : b'.length = b.length := by
    have hsame : y.lexeme.position = x.lexeme.position := by rw [hu.lexeme]
    omega
  rw [List.append_nil] at hb hb'
  have hd : ((segments query).flatMap Segment.guarded)[b.length + j]? = some hiddenColon := by
    rw [← text_toList, hb, List.getElem?_append_right (by omega), Nat.add_sub_cancel_left,
      List.getElem?_append_left hlt, hj]
  have hc : ((segments query).flatMap Segment.chars)[b.length + j]? = some y.source[j] := by
    rw [segments_flatMap_chars, hb', ← hlength, List.getElem?_append_right (by omega), Nat.add_sub_cancel_left,
      List.getElem?_append_left hlt', List.getElem?_eq_getElem hlt']
  have hne : hiddenColon ≠ y.source[j] := fun he => hshown (he ▸ List.getElem_mem hlt')
  obtain ⟨before, address, after, hsegments, hle, hlt''⟩ := Segment.hit_of_hidden hc hd hne
  obtain ⟨z, hz, hholds⟩ := exists_holds ht hsegments
  have hzcovers : z.Covers (b.length + j) 1 := by
    obtain ⟨hstart, hstop⟩ := hholds.covers
    rw [hideColons, List.length_map] at hstop
    exact ⟨by omega, by omega⟩
  have hxcovers : x.Covers (b.length + j) 1 := ⟨by omega, by omega⟩
  obtain rfl := ht.eq_of_covers hz hx Nat.one_pos hzcovers hxcovers
  exact ⟨before, address, after, hsegments, hholds⟩

/-- A lexeme that holds an address has all of its colons back. -/
theorem Unhidden.of_holds {x y : Placed} (hu : Unhidden (restoreText (GuardedQuery.ofQuery query).literals) y x)
    (hf : x.Faithful) (h : segments query = before ++ .hit address :: after) {start : Nat}
    (hx : x.Holds start (hideColons address)) :
    y.lexeme.text.toList = showColons x.reading ∧ address <:+: y.lexeme.text.toList := by
  have hm : .hit address ∈ segments query := by simp [h]
  obtain ⟨hcolon, hchars⟩ := address_of_mem_segments hm
  have hhidden : hiddenColon ∉ address := fun hc => absurd (hchars _ hc) (by decide)
  have hliteral : String.ofList address ∈ (GuardedQuery.ofQuery query).literals :=
    List.mem_map_of_mem (List.mem_filterMap.2 ⟨_, hm, rfl⟩)
  have hreads : hideColons (String.ofList address).toList <:+: x.lexeme.text.toList := by
    rw [hf, String.toList_ofList]
    exact hx.reads
  have hrestored := restoreText_of_address hliteral (by simpa using hcolon) (by simpa using hhidden) hreads
  rw [hu.lexeme, ← hf]
  simpa using hrestored

theorem Unhidden.faithful {x y : Placed} (hu : Unhidden (restoreText (GuardedQuery.ofQuery query).literals) y x)
    (ht : Tiled (GuardedQuery.ofQuery query).text.toList [] placed) (ht' : Tiled query.toList [] placed')
    (hx : x ∈ placed) (hy : y ∈ placed') (hf : x.Faithful) (hshown : hiddenColon ∉ y.source) : y.Faithful := by
  by_cases hhidden : hiddenColon ∈ x.reading
  · have hsource := Placed.mem_source_of_mem_reading hhidden
    obtain ⟨before, address, after, hsegments, hholds⟩ := holds_of_hidden ht ht' hx hy hu hsource hshown
    rw [Placed.Faithful, (hu.of_holds hf hsegments hholds).1]
    exact hu.reading.showColons_eq (mt Placed.mem_source_of_mem_reading hshown)
  · have htext : hiddenColon ∉ x.lexeme.text.toList := by rwa [hf]
    rw [Placed.Faithful, hu.lexeme, restoreText_of_not_mem htext, hu.reading.eq_of_not_mem hhidden]
    exact hf

theorem map_lexeme_of_unhidden (hp : List.Forall₂ (Unhidden (restoreText (GuardedQuery.ofQuery query).literals))
    placed' placed) :
    placed'.map Placed.lexeme = (placed.map Placed.lexeme).map (GuardedQuery.ofQuery query).restore := by
  induction hp with
  | nil => rfl
  | cons hu _ ih =>
    rw [List.map_cons, ih, hu.lexeme]
    rfl

theorem tokenize_fromSource {xs : List Lexeme} (h : tokenize query = .ok xs) :
    ∃ placed, placed.map Placed.lexeme = xs ∧ FromSource query placed := by
  obtain ⟨ys, hys, rfl⟩ := map_eq_ok.1 h
  obtain ⟨placed, htiled, rfl, hfaithful⟩ := ofQuery_tiled hys
  have hq : Hides query.toList ((GuardedQuery.ofQuery query).text.toList ++ []) := by
    rw [List.append_nil, text_toList, ← segments_flatMap_chars]
    exact Segment.hides_guarded _
  obtain ⟨read, rest, placed', heq, -, hrest, htiled', hp⟩ :=
    htiled.unhide (restoreText (GuardedQuery.ofQuery query).literals) hq
  cases hrest
  rw [List.append_nil] at heq
  rw [← heq] at htiled'
  obtain ⟨hback, hforth⟩ := exists_of_forall₂ hp
  refine ⟨placed', map_lexeme_of_unhidden hp, htiled', ?_, ?_⟩
  · intro y hy hshown
    obtain ⟨x, hx, hu⟩ := hback y hy
    have hf : y.Faithful := hu.faithful htiled htiled' hx hy (hfaithful x hx) hshown
    exact ⟨hf, by rw [hf]; exact mt Placed.mem_source_of_mem_reading hshown⟩
  · intro before address after hsegments
    obtain ⟨x, hx, hholds⟩ := exists_holds htiled hsegments
    obtain ⟨y, hy, hu⟩ := hforth x hx
    have hcovers : y.Covers (before.flatMap Segment.chars).length address.length := by
      have hcovers := hholds.covers
      rw [hideColons, List.length_map] at hcovers
      rwa [Placed.Covers, hu.lexeme, hu.source.length_eq]
    have hpos : 0 < address.length := by
      have hm : .hit address ∈ segments query := by simp [hsegments]
      exact List.length_pos_of_mem (address_of_mem_segments hm).1
    refine ⟨y, hy, ?_, hcovers, (hu.of_holds (hfaithful x hx) hsegments hholds).2, fun z hz hzcovers => ?_⟩
    · rw [hu.lexeme]
      exact hholds.kind
    · exact htiled'.eq_of_covers hz hy hpos hzcovers hcovers

/-- Without addresses there is nothing to hide. -/
theorem tokenize_of_no_hits (h : Segment.hits (segments query) = []) : tokenize query = ofQuery query := by
  have htext : (GuardedQuery.ofQuery query).text = query := by
    rw [← String.toList_inj, text_toList, Segment.guarded_eq_chars h, segments_flatMap_chars]
  have hrestore : (GuardedQuery.ofQuery query).restore = id := by
    have hliterals : (GuardedQuery.ofQuery query).literals = [] := by simp [GuardedQuery.ofQuery, h]
    funext x
    rw [restore, hliterals, restoreText_nil, id]
  rw [tokenize, htext, hrestore]
  cases ofQuery query <;> simp [Except.map]

/-- Hiding the colons of addresses changes nothing but that addresses stay whole. -/
theorem tokenize_keeps_source (query : String) :
    (∀ xs, tokenize query = .ok xs → ∃ placed, placed.map Placed.lexeme = xs ∧ FromSource query placed) ∧
      (Segment.hits (segments query) = [] → tokenize query = ofQuery query) :=
  ⟨fun _ => tokenize_fromSource, tokenize_of_no_hits⟩

end tokenize

theorem fieldOfAddress_keeps_source :
    Segment.hits (segments "ip:fe80::1") = ["fe80::1".toList] ∧
      ∃ placed, tokenize "ip:fe80::1" = .ok (placed.map Placed.lexeme) ∧ FromSource "ip:fe80::1" placed := by
  have hhits : Segment.hits (segments "ip:fe80::1") = ["fe80::1".toList] := by decide +kernel
  have hread : (tokenize "ip:fe80::1").toBool = true := by decide +kernel
  cases hxs : tokenize "ip:fe80::1" with
  | error e =>
    rw [hxs] at hread
    cases hread
  | ok xs =>
    obtain ⟨placed, rfl, hsource⟩ := (tokenize_keeps_source "ip:fe80::1").1 xs hxs
    exact ⟨hhits, placed, rfl, hsource⟩

end Lexeme

end TextSearch
