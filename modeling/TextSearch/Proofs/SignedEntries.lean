import TextSearch.Lexeme.Scan
import TextSearch.Proofs.SignColumns

/-! Levels whose entries are joined by signs. No entry and no sign is lost, whatever is asked of them. -/
namespace TextSearch

namespace Scope

/-- Each entry of a level without operators stands where it was added, with its sign and as it was changed. -/
structure Signed (s : Scope) (done : List Request) : Prop where
  sign : s.pendingSign = Request.lastSign done
  length : s.items.length = done.countP Request.isEntry
  entries : ∀ op position, .operator op position ∉ s.items
  entry : ∀ before entry after, done = before ++ .addEntry entry :: after →
    s.items[before.countP Request.isEntry]? = some (.entry (entry.changed after) (Request.lastSign before))

/-- The last request is the one that adds an entry, or it stands behind it. -/
theorem concat_eq_append_addEntry {done before after : List Request} {r : Request} {entry : Entry}
    (h : done ++ [r] = before ++ .addEntry entry :: after) :
    (r = .addEntry entry ∧ before = done ∧ after = []) ∨
      ∃ between, after = between ++ [r] ∧ done = before ++ .addEntry entry :: between := by
  rcases List.eq_nil_or_concat' after with rfl | ⟨between, last, rfl⟩
  · obtain ⟨hdone, hr⟩ := List.append_inj' h rfl
    exact .inl ⟨(List.cons.inj hr).1, hdone.symm, rfl⟩
  · rw [← List.cons_append, ← List.append_assoc] at h
    obtain ⟨hdone, hr⟩ := List.append_inj' h rfl
    exact .inr ⟨between, by rw [(List.cons.inj hr).1], hdone⟩

/-- What neither adds an entry nor changes one keeps the items. -/
theorem Signed.entry_concat {s : Scope} {done : List Request} {r : Request} (h : s.Signed done)
    (hentry : r.isEntry = false) (hr : r.isModifier = false) {before after : List Request} {entry : Entry}
    (hdone : done ++ [r] = before ++ .addEntry entry :: after) :
    s.items[before.countP Request.isEntry]? = some (.entry (entry.changed after) (Request.lastSign before)) := by
  rcases concat_eq_append_addEntry hdone with ⟨rfl, -⟩ | ⟨between, rfl, hbetween⟩
  · cases hentry
  · rw [Entry.changed_concat_of_not_isModifier hr]
    exact h.entry before entry between hbetween

theorem Signed.addEntry {s : Scope} {done : List Request} (h : s.Signed done) (added : Entry) :
    (s.addEntry added).Signed (done ++ [.addEntry added]) where
  sign := by rw [Request.lastSign_concat]; rfl
  length := by
    rw [List.countP_append, ← h.length]
    exact List.length_append
  entries op position hm := by
    rcases List.mem_append.1 hm with hm | hm
    · exact h.entries op position hm
    · cases List.mem_singleton.1 hm
  entry before entry after hdone := by
    rcases concat_eq_append_addEntry hdone with ⟨hr, rfl, rfl⟩ | ⟨between, rfl, hbetween⟩
    · cases hr
      rw [← h.length, ← h.sign]
      exact List.getElem?_concat_length
    · have hold := h.entry before entry between hbetween
      obtain ⟨hlt, -⟩ := List.getElem?_eq_some_iff.1 hold
      rw [Entry.changed_concat_of_not_isModifier rfl, ← hold]
      exact List.getElem?_append_left hlt

theorem Signed.modify {s : Scope} {done : List Request} (h : s.Signed done) {r : Request} (hr : r.isModifier = true)
    {front : List Item} {last : Entry} {sign : Option Occur} (hitems : s.items = front ++ [.entry last sign]) :
    Signed { s with items := front ++ [.entry (last.modified r) sign] } (done ++ [r]) := by
  obtain ⟨hentry, hnosign⟩ := Request.of_isModifier hr
  have hlength := h.length
  rw [hitems, List.length_append, List.length_singleton] at hlength
  refine ⟨?_, ?_, ?_, ?_⟩
  · rw [Request.lastSign_concat, hentry, hnosign, h.sign]
    rfl
  · rw [List.countP_append, List.countP_singleton, hentry, ← hlength]
    exact List.length_append
  · intro op position hm
    rcases List.mem_append.1 hm with hm | hm
    · exact h.entries op position (hitems ▸ List.mem_append_left _ hm)
    · cases List.mem_singleton.1 hm
  · intro before entry after hdone
    rcases concat_eq_append_addEntry hdone with ⟨rfl, -⟩ | ⟨between, rfl, rfl⟩
    · cases hr
    have hold := h.entry before entry between rfl
    rw [hitems] at hold
    rw [List.countP_append, List.countP_cons_of_pos rfl] at hlength
    rw [Entry.changed_concat]
    -- only the last entry is changed, and it is this one if no other was added behind it
    cases hany : between.any Request.isEntry with
    | true =>
      have hpos : 0 < between.countP Request.isEntry := List.countP_pos_iff.2 (List.any_eq_true.1 hany)
      have hlt : before.countP Request.isEntry < front.length := by omega
      rw [List.getElem?_append_left hlt] at hold ⊢
      exact hold
    | false =>
      have hzero : between.countP Request.isEntry = 0 :=
        List.countP_eq_zero.2 (by simpa using hany)
      have hlast : before.countP Request.isEntry = front.length := by omega
      rw [hlast, List.getElem?_concat_length] at hold ⊢
      cases hold
      rfl

theorem Signed.step {s s' : Scope} {done : List Request} {r : Request} (h : s.Signed done) (hr : s.Performs r s')
    (hjoined : ∀ op position, r ≠ .addOperator op position) : s'.Signed (done ++ [r]) := by
  cases hr with
  | addEntry entry => exact h.addEntry entry
  | modify hr hfield hsign hitems => exact h.modify hr hitems
  | addOperator op position => exact absurd rfl (hjoined op position)
  | setField field =>
    refine ⟨?_, ?_, h.entries, fun before entry after => h.entry_concat rfl rfl⟩
    · rw [Request.lastSign_concat, ← h.sign]
      rfl
    · rw [List.countP_append, ← h.length]
      rfl
  | setSign sign =>
    refine ⟨?_, ?_, h.entries, fun before entry after => h.entry_concat rfl rfl⟩
    · rw [Request.lastSign_concat]
      rfl
    · rw [List.countP_append, ← h.length]
      rfl

/-- The clauses of entries come one for each, in their order. -/
theorem signedClauses_getElem? {default : Occur} {items : List Item} {clauses : List (Occur × Query)}
    (h : signedClauses default items = .ok clauses) (hentries : ∀ op position, .operator op position ∉ items) :
    clauses.length = items.length ∧ ∀ (i : Nat) entry sign, items[i]? = some (.entry entry sign) →
      ∃ query, entry.toQuery = .ok query ∧ clauses[i]? = some (sign.getD default, query) := by
  induction items generalizing clauses with
  | nil =>
    cases h
    exact ⟨rfl, nofun⟩
  | cons item rest ih =>
    cases item with
    | operator op position => exact absurd List.mem_cons_self (hentries op position)
    | entry entry sign =>
      rw [signedClauses] at h
      split at h
      · cases h
      rename_i query hquery
      obtain ⟨others, hothers, rfl⟩ := Lexeme.map_eq_ok.1 h
      obtain ⟨hlength, hrest⟩ := ih hothers fun op position hm => hentries op position (List.mem_cons_of_mem _ hm)
      refine ⟨by rw [List.length_cons, List.length_cons, hlength], fun i entry' sign' hi => ?_⟩
      cases i with
      | zero =>
        cases hi
        exact ⟨query, hquery, rfl⟩
      | succ i => exact hrest i entry' sign' hi

end Scope

section fresh
variable (inheritedField : Option String) (junction : Junction) (requests : List Request)

theorem Scope.junction_after : (Request.after perform { inheritedField, junction } requests).junction = junction := by
  refine Request.run_induction (P := fun (s : Scope) _ => s.junction = junction) rfl ?_ requests
  intro s₁ done r s₂ h hr
  cases performs_of_ok hr <;> exact h

theorem Scope.styled_after :
    Styled (Request.after perform { inheritedField, junction } requests)
      (Request.accepted perform { inheritedField, junction } requests) := by
  refine Request.run_induction ⟨?_, ?_⟩ (fun s₁ done r s₂ h hr => h.step (performs_of_ok hr)) requests
  · simp
  · simp

theorem Scope.signed_after
    (h : ∀ op position, .addOperator op position ∉ Request.accepted perform { inheritedField, junction } requests) :
    Signed (Request.after perform { inheritedField, junction } requests)
      (Request.accepted perform { inheritedField, junction } requests) := by
  revert h
  refine Request.run_induction
    (P := fun (s : Scope) done => (∀ op position, .addOperator op position ∉ done) → s.Signed done) ?_ ?_ requests
  · exact fun _ => ⟨rfl, rfl, nofun, fun before entry after h => by cases before <;> cases h⟩
  · intro s₁ done r s₂ ih hr h
    refine (ih fun op position hm => h op position (List.mem_append_left _ hm)).step (performs_of_ok hr) ?_
    rintro op position rfl
    exact h op position (List.mem_append_right _ List.mem_cons_self)

theorem Columns.shows_after :
    Request.accepted perform { inheritedField, junction } requests =
        Request.accepted Scope.perform { inheritedField, junction } requests ∧
      Shows (Request.after perform { inheritedField, junction } requests)
        (Request.after Scope.perform { inheritedField, junction } requests) :=
  Request.run_alike (fun _ _ r h => h.perform r) requests ⟨rfl, rfl, fun _ => rfl⟩

end fresh

/-- Signs and operators are never both accepted. Where no operator is, the query of the level has a clause for each
entry that was added, in their order, with the last sign set since the entry before or else that of the junction.
A list of signs beside the items gives the same query, as it is as long as they are. -/
theorem Scope.clause_of_each_entry (inheritedField : Option String) (junction : Junction) (requests : List Request) :
    let done := Request.accepted Scope.perform { inheritedField, junction } requests
    let s := Request.after Scope.perform { inheritedField, junction } requests
    let c := Request.after Columns.perform { inheritedField, junction } requests
    ¬((∃ sign, .setSign sign ∈ done) ∧ ∃ op position, .addOperator op position ∈ done) ∧
      done.filter Request.isEntry = requests.filter Request.isEntry ∧
      Request.accepted Columns.perform { inheritedField, junction } requests = done ∧ c.toQuery = s.toQuery ∧
      ((∀ op position, .addOperator op position ∉ done) →
        c.signs.length = c.items.length ∧ ∀ query, s.toQuery = .ok query →
          ∃ clauses, query = .ofClauses clauses 1 ∧ clauses.length = requests.countP Request.isEntry ∧
            ∀ before entry after, done = before ++ .addEntry entry :: after →
              ∃ q, (entry.changed after).toQuery = .ok q ∧ clauses[before.countP Request.isEntry]? =
                some ((Request.lastSign before).getD (.ofJunction junction), q)) := by
  intro done s c
  have hstyled := styled_after inheritedField junction requests
  obtain ⟨haccepted, hshows⟩ := Columns.shows_after inheritedField junction requests
  have hfilter : done.filter Request.isEntry = requests.filter Request.isEntry :=
    Request.accepted_filter (fun s entry => ⟨Scope.addEntry s entry, rfl⟩) requests
  refine ⟨?_, hfilter, haccepted, hshows.toQuery, fun hjoined => ?_⟩
  · rintro ⟨hsigns, hoperators⟩
    have hstyle := (hstyled.signs.2 hsigns).symm.trans (hstyled.operators.2 hoperators)
    cases hstyle
  have hsigned := signed_after inheritedField junction requests hjoined
  have hstyle : s.style ≠ some .operators := by
    intro h
    obtain ⟨op, position, hm⟩ := hstyled.operators.1 h
    exact hjoined op position hm
  constructor
  · have hc : c.style ≠ some .operators := by
      rw [show c.style = s.style from (congrArg Scope.style hshows.scope).symm]
      exact hstyle
    rw [hshows.signs hc, hshows.items, List.length_map, List.length_map]
  · intro query hquery
    rw [toQuery, if_neg hstyle] at hquery
    obtain ⟨clauses, hclauses, rfl⟩ := Lexeme.map_eq_ok.1 hquery
    obtain ⟨hlength, hclause⟩ := signedClauses_getElem? hclauses hsigned.entries
    refine ⟨clauses, rfl, ?_, fun before entry after hdone => ?_⟩
    · rw [hlength, hsigned.length, List.countP_eq_length_filter, List.countP_eq_length_filter]
      exact congrArg List.length hfilter
    · rw [← junction_after inheritedField junction requests]
      exact hclause _ _ _ (hsigned.entry before entry after hdone)

/-- Four entries, and two requests that are refused: an operator after a sign, a modifier after a field. -/
def mixedRequests : List Request :=
  [.setSign .required, .addEntry (.ofWord "gate" none), .addOperator .and 7, .addEntry (.ofWord "lamp" none),
    .boost 2, .setField "host", .boost 3, .addEntry (.ofPhrase "old oak" (some "host")), .setSign .required,
    .setSign .prohibited, .addEntry (.ofWord "moss" none)]

theorem Scope.clauses_of_mixedRequests :
    let done := Request.accepted perform { inheritedField := none, junction := .or } mixedRequests
    (∀ op position, .addOperator op position ∉ done) ∧ done.length = 9 ∧ ∃ clauses,
      (Request.after perform { inheritedField := none, junction := .or } mixedRequests).toQuery =
        .ok (.ofClauses clauses 1) ∧ clauses.length = 4 ∧
      clauses[1]? = some (.optional, .rawTerm { word := "lamp", field := none, boost := 1 * 2 }) ∧
      clauses[3]? = some (.prohibited, .rawTerm { word := "moss", field := none, boost := 1 }) := by
  intro done
  have hdone : done =
    [.setSign .required, .addEntry (.ofWord "gate" none), .addEntry (.ofWord "lamp" none), .boost 2,
      .setField "host", .addEntry (.ofPhrase "old oak" (some "host")), .setSign .required, .setSign .prohibited,
      .addEntry (.ofWord "moss" none)] := rfl
  have hjoined : ∀ op position, .addOperator op position ∉ done := by
    intro op position
    rw [hdone]
    simp
  obtain ⟨-, -, -, -, hsigned⟩ := clause_of_each_entry none .or mixedRequests
  obtain ⟨-, hquery⟩ := hsigned hjoined
  obtain ⟨clauses, hclauses, hlength, hclause⟩ := hquery _ rfl
  obtain ⟨lamp, hlamp, hsecond⟩ := hclause [.setSign .required, .addEntry (.ofWord "gate" none)] _ _ hdone
  obtain ⟨moss, hmoss, hfourth⟩ := hclause [.setSign .required, .addEntry (.ofWord "gate" none),
    .addEntry (.ofWord "lamp" none), .boost 2, .setField "host", .addEntry (.ofPhrase "old oak" (some "host")),
    .setSign .required, .setSign .prohibited] _ _ hdone
  cases hlamp
  cases hmoss
  exact ⟨hjoined, rfl, clauses, congrArg Except.ok hclauses, hlength, hsecond, hfourth⟩

end TextSearch
