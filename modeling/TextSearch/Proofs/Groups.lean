import TextSearch.Proofs.Advance
import TextSearch.Proofs.Levels

/-! A group in parentheses is read like a query of its own, whatever stands around it. -/
namespace TextSearch

namespace Parser

/-- Both kinds, or neither, take the same parameter. -/
def SameMark (k k' : Option LexemeKind) : Prop :=
  (k = some .fuzzy ↔ k' = some .fuzzy) ∧ (k = some .boost ↔ k' = some .boost)

namespace Progress

/-- The same progress over more levels, behind another lexeme and with another open range. -/
def above (r : Progress) (base : List Scope) (k : Option LexemeKind) (t : String) : Progress :=
  { r with outer := r.outer ++ base, previousKind := k, lowerText := t }

private theorem map_withScope_above (e : Except Error Scope) (r : Progress) (base : List Scope)
    (k : Option LexemeKind) (t : String) :
    e.map (r.above base k t).withScope = (e.map r.withScope).map (·.above base k t) := by
  cases e <;> rfl

theorem applyParameter_above {r : Progress} {k : Option LexemeKind} (hk : SameMark k r.previousKind)
    (base : List Scope) (t text : String) :
    (r.above base k t).applyParameter text = (r.applyParameter text).map (·.above base k t) := by
  obtain ⟨hf, hb⟩ := hk
  unfold applyParameter
  cases Decimal.read? text.toList with
  | none => rfl
  | some value =>
    by_cases hkf : k = some .fuzzy
    · rw [hf.1 hkf]
      simp only [above, hkf]
      exact map_withScope_above ..
    by_cases hkb : k = some .boost
    · rw [hb.1 hkb]
      simp only [above, hkb]
      exact map_withScope_above ..
    have hrf : r.previousKind ≠ some .fuzzy := fun h => hkf (hf.2 h)
    have hrb : r.previousKind ≠ some .boost := fun h => hkb (hb.2 h)
    simp [above, Except.map]

end Progress

theorem addRange_above (p : Parser) (r : Progress) (base : List Scope) (k : Option LexemeKind)
    (text : String) (inclusive : Bool) :
    p.addRange text inclusive (r.above base k r.lowerText) =
      (p.addRange text inclusive r).map (·.above base k r.lowerText) := by
  rw [addRange_eq, addRange_eq]
  change (p.rangeEntry r.lowerText text inclusive r).map _ = _
  cases p.rangeEntry r.lowerText text inclusive r <;> rfl

/-- Outside of ranges nothing below the current level matters, except for the end of that level. -/
theorem input_above (p : Parser) {x : Lexeme} {r : Progress} {k : Option LexemeKind}
    (hk : SameMark k r.previousKind) (hx : x.kind = .groupEnd → r.outer ≠ [])
    (base : List Scope) (t : String) :
    p.input x (r.above base k t) = (p.input x r).map (·.above base k t) := by
  unfold input
  cases hkind : x.kind with
  | word =>
    unfold addWord
    change (p.entryField r _).map _ = _
    cases p.entryField r _ <;> rfl
  | phrase =>
    unfold addPhrase
    change (p.entryField r _).map _ = _
    cases p.entryField r _ <;> rfl
  | required | prohibited | fuzzy | and | or | not => exact Progress.map_withScope_above ..
  | number => exact Progress.applyParameter_above hk base t x.text
  | groupEnd =>
    obtain ⟨parent, outer, ho⟩ := List.exists_cons_of_ne_nil (hx hkind)
    simp only [Progress.closeGroup, Progress.above, ho]
    cases r.scope.toQuery <;> rfl
  | _ => rfl

/-- Whether the lower bound of a range is read and still to be used. -/
def holdsLower : Phase → Bool
  | .range _ .first | .range _ .upTo => true
  | _ => false

private theorem effect_above (p : Parser) {phase target : Phase} {x : Lexeme} {r : Progress}
    {k : Option LexemeKind} {t : String} (hn : phase.next x.kind = some target)
    (hk : SameMark k r.previousKind) (ht : holdsLower phase → t = r.lowerText)
    (hx : x.kind = .groupEnd → r.outer ≠ []) (base : List Scope) :
    ∃ t', p.effect phase x (r.above base k t) = (p.effect phase x r).map (·.above base k t') ∧
      ∀ r', p.effect phase x r = .ok r' → holdsLower target → t' = r'.lowerText := by
  match phase with
  | .common =>
    refine ⟨t, input_above p hk hx base t, ?_⟩
    intro r' _ hl
    rcases Phase.next_common hn with ⟨rfl, -⟩ | ⟨b, -, rfl⟩ <;> cases hl
  | .range b .start =>
    refine ⟨x.text, rfl, ?_⟩
    intro r' hr _
    cases hr
    rfl
  | .range b .first =>
    refine ⟨t, rfl, ?_⟩
    intro r' hr _
    cases hr
    exact ht rfl
  | .range b .upTo =>
    obtain rfl := ht rfl
    refine ⟨r.lowerText, addRange_above p r base k x.text (b = .closed), ?_⟩
    intro r' _ hl
    obtain ⟨-, rfl⟩ := Phase.next_range hn
    cases hl
  | .range b .last =>
    refine ⟨t, rfl, ?_⟩
    intro r' _ hl
    obtain ⟨-, rfl⟩ := Phase.next_range hn
    cases hl

/-- The same machine over more levels. -/
def machineAbove (m : Machine Progress) (base : List Scope) (k : Option LexemeKind) (t : String) :
    Machine Progress :=
  { m with data := m.data.above base k t }

/-- One lexeme does the same over other levels, unless it leaves the lowest one of its own. -/
theorem advance_above (p : Parser) {m : Machine Progress} {x : Lexeme} {k : Option LexemeKind} {t : String}
    (hk : SameMark k m.data.previousKind) (ht : holdsLower m.phase → t = m.data.lowerText)
    (hx : x.kind = .groupEnd → m.data.outer ≠ []) (base : List Scope) :
    ∃ t', p.advance (machineAbove m base k t) x =
        (p.advance m x).map (machineAbove · base (some x.kind) t') ∧
      ∀ m', p.advance m x = .ok m' → holdsLower m'.phase → t' = m'.data.lowerText := by
  cases hn : m.phase.next x.kind with
  | none =>
    refine ⟨t, ?_, ?_⟩
    · rw [advance_eq, advance_eq]
      simp [machineAbove, hn, Except.map]
    · intro m' hm
      simp [advance_eq, hn] at hm
  | some target =>
    obtain ⟨t', he, hl⟩ := effect_above p hn hk ht hx base
    refine ⟨t', ?_, ?_⟩
    · rw [advance_eq, advance_eq]
      simp only [machineAbove, hn, he]
      cases p.effect m.phase x m.data <;> rfl
    · intro m' hm
      obtain ⟨target', r', hn', hr, rfl⟩ := advance_ok hm
      obtain rfl : target = target' := by simpa [hn] using hn'
      exact hl r' hr

/-- The current level stays the current one, with its operators still anchored. -/
def Stays (r r' : Progress) : Prop :=
  r'.outer = r.outer ∧ (r.scope.Anchored → r'.scope.Anchored)

private theorem input_stays {p : Parser} {x : Lexeme} {r r' : Progress} (h : p.input x r = .ok r')
    (hs : x.kind ≠ .groupStart) (he : x.kind ≠ .groupEnd) : Stays r r' := by
  have hi := input_ok h
  cases hk : x.kind with
  | word | phrase =>
    simp only [hk] at hi
    obtain ⟨field, rfl⟩ := hi
    exact ⟨rfl, fun hr => hr.addEntry _⟩
  | field =>
    simp only [hk] at hi
    subst hi
    exact ⟨rfl, fun hr => hr.setField x.text⟩
  | required | prohibited =>
    simp only [hk] at hi
    obtain ⟨s, hs, rfl⟩ := hi
    exact ⟨rfl, fun _ => .setSign hs⟩
  | and | or | not =>
    simp only [hk] at hi
    obtain ⟨s, hs, rfl⟩ := hi
    exact ⟨rfl, fun _ => .addOperator hs⟩
  | fuzzy =>
    simp only [hk] at hi
    obtain ⟨s, hs, rfl⟩ := hi
    exact ⟨rfl, fun hr => hr.modifyLast hs⟩
  | number =>
    simp only [hk] at hi
    obtain ⟨value, s, -, rfl, ⟨-, hs⟩ | ⟨-, hs⟩⟩ := hi <;> exact ⟨rfl, fun hr => hr.modifyLast hs⟩
  | groupStart => exact absurd hk hs
  | groupEnd => exact absurd hk he
  | boost | closedStart | closedEnd | openedStart | openedEnd | upTo =>
    simp only [hk] at hi
    subst hi
    exact ⟨rfl, id⟩

private theorem range_stays {p : Parser} {b : Brackets} {part : RangePart} {x : Lexeme} {r r' : Progress}
    (h : p.effect (.range b part) x r = .ok r') : Stays r r' := by
  cases part with
  | upTo =>
    simp only [effect, addRange_eq] at h
    obtain ⟨entry, -, rfl⟩ := Lexeme.map_eq_ok.1 h
    exact ⟨rfl, fun hr => hr.addEntry entry⟩
  | start | first | last =>
    cases h
    exact ⟨rfl, id⟩

/-- A lexeme opens a level, closes one or stays on it. -/
theorem advance_levels {p : Parser} {m m' : Machine Progress} {x : Lexeme} (h : p.advance m x = .ok m') :
    (x.kind = .groupStart ∧ m'.data.scope = m.data.scope.inner ∧
        m'.data.outer = m.data.scope :: m.data.outer) ∨
      (x.kind = .groupEnd ∧ ∃ parent query, m.data.outer = parent :: m'.data.outer ∧
        m'.data.scope = parent.addEntry (.ofQuery query)) ∨
      (x.kind ≠ .groupStart ∧ x.kind ≠ .groupEnd ∧ Stays m.data m'.data) := by
  obtain ⟨target, r', hn, he, rfl⟩ := advance_ok h
  cases hp : m.phase with
  | common =>
    rw [hp] at he
    by_cases hs : x.kind = .groupStart
    · have hi := input_ok he
      simp only [hs] at hi
      subst hi
      exact .inl ⟨hs, rfl, rfl⟩
    by_cases hc : x.kind = .groupEnd
    · have hi := input_ok he
      simp only [hc] at hi
      obtain ⟨parent, outer, query, ho, -, rfl⟩ := hi
      exact .inr (.inl ⟨hc, parent, query, ho, rfl⟩)
    have hr : Stays m.data r' := input_stays he hs hc
    exact .inr (.inr ⟨hs, hc, hr⟩)
  | range b part =>
    rw [hp] at hn he
    have hr : Stays m.data r' := range_stays he
    refine .inr (.inr ⟨?_, ?_, hr⟩) <;> intro hk <;> rw [hk] at hn <;>
      cases b <;> cases part <;> cases hn

/-- All levels that are open have their operators anchored. -/
def AllAnchored (r : Progress) : Prop := ∀ s ∈ r.scope :: r.outer, s.Anchored

theorem AllAnchored.advance {p : Parser} {m m' : Machine Progress} {x : Lexeme}
    (hm : AllAnchored m.data) (h : p.advance m x = .ok m') : AllAnchored m'.data := by
  unfold AllAnchored at *
  rw [List.forall_mem_cons] at *
  rcases advance_levels h with ⟨-, hs, ho⟩ | ⟨-, parent, query, ho, hs⟩ | ⟨-, -, ho, ha⟩
  · rw [hs, ho]
    exact ⟨nofun, List.forall_mem_cons.2 hm⟩
  · rw [ho, List.forall_mem_cons] at hm
    rw [hs]
    exact ⟨hm.2.1.addEntry _, hm.2.2⟩
  · rw [ho]
    exact ⟨ha hm.1, hm.2⟩

/-- Parentheses that match stay matched behind a lexeme, counted from the levels that are open. -/
theorem balanced_advance {p : Parser} {m m' : Machine Progress} {x : Lexeme} {rest : List Lexeme}
    (h : p.advance m x = .ok m') (hb : Lexeme.Balanced m.data.outer.length (x :: rest)) :
    Lexeme.Balanced m'.data.outer.length rest := by
  rcases advance_levels h with ⟨hk, -, ho⟩ | ⟨hk, parent, query, ho, -⟩ | ⟨hs, he, ho, -⟩
  · simpa [ho] using (Lexeme.balanced_opening hk _ rest).1 hb
  · simpa [ho] using ((Lexeme.balanced_closing hk _ rest).1 hb).2
  · rw [ho]
    exact (Lexeme.balanced_other hs he _ rest).1 hb

/-- A run that leaves no level of its own does the same over other levels. -/
theorem run_above (p : Parser) (base : List Scope) {xs : List Lexeme} {m : Machine Progress}
    {k : Option LexemeKind} {t : String} (hk : SameMark k m.data.previousKind)
    (ht : holdsLower m.phase → t = m.data.lowerText) (hb : Lexeme.Balanced m.data.outer.length xs)
    (ha : AllAnchored m.data) :
    ∃ k' t', xs.foldlM p.advance (machineAbove m base k t) =
        (xs.foldlM p.advance m).map (machineAbove · base k' t') ∧
      ∀ m', xs.foldlM p.advance m = .ok m' → m'.data.outer = [] ∧ AllAnchored m'.data := by
  induction xs generalizing m k t with
  | nil =>
    refine ⟨k, t, rfl, ?_⟩
    intro m' hm
    cases hm
    exact ⟨List.length_eq_zero_iff.1 hb, ha⟩
  | cons x rest ih =>
    have hx : x.kind = .groupEnd → m.data.outer ≠ [] := by
      intro hx ho
      rw [Lexeme.balanced_closing hx, ho] at hb
      exact Nat.lt_irrefl 0 hb.1
    obtain ⟨t₁, hstep, hl⟩ := advance_above p hk ht hx base
    simp only [List.foldlM_cons]
    cases hm : p.advance m x with
    | error e =>
      refine ⟨k, t, ?_, ?_⟩
      · rw [hstep, hm]
        rfl
      · intro m' h
        cases h
    | ok m₁ =>
      have hprev : m₁.data.previousKind = some x.kind := by
        obtain ⟨target, r', -, -, rfl⟩ := advance_ok hm
        rfl
      obtain ⟨k', t', hrun, hend⟩ := ih (k := some x.kind) (t := t₁) (by rw [hprev]; exact ⟨.rfl, .rfl⟩)
        (hl m₁ hm) (balanced_advance hm hb) (ha.advance hm)
      refine ⟨k', t', ?_, hend⟩
      rw [hstep, hm]
      exact hrun

private theorem advance_opening (p : Parser) (r : Progress) {opening : Lexeme}
    (ho : opening.kind = .groupStart) :
    p.advance { data := r } opening =
      .ok (machineAbove { data := { scope := r.scope.inner } } (r.scope :: r.outer) (some .groupStart)
        r.lowerText) := by
  have he : p.effect .common opening r = .ok r.openGroup := by simp only [effect, input, ho]
  have hn : Phase.common.next opening.kind = some .common := by
    rw [ho]
    rfl
  have h : p.advance { data := r } opening = .ok (behind .common opening r.openGroup) :=
    advance_of_effect hn he
  rw [h, behind, ho]
  rfl

private theorem advance_closing (p : Parser) {m : Machine Progress} {closing : Lexeme} {parent : Scope}
    {outer : List Scope} (hc : closing.kind = .groupEnd) (ho : m.data.outer = [])
    (ha : m.data.scope.Anchored) (k : Option LexemeKind) (t : String) :
    p.advance (machineAbove m (parent :: outer) k t) closing =
      if m.phase = .common then
        m.data.scope.toQuery.map fun query =>
          { data := {
              scope := parent.addEntry (.ofQuery query)
              outer := outer
              previousKind := some .groupEnd
              lowerText := t } }
      else .error (Machine.misplaced closing) := by
  rw [advance_eq]
  cases hp : m.phase with
  | common =>
    simp only [machineAbove, hp, effect, input, hc, Phase.next, Progress.closeGroup, Progress.above, ho]
    cases hq : m.data.scope.toQuery with
    | error e => simp [Except.map, Scope.toQuery_error_locate ha hq]
    | ok query => simp [Except.map, behind, hc]
  | range b part =>
    have hn : (Phase.range b part).next closing.kind = none := by
      rw [hc]
      cases b <;> cases part <;> rfl
    simp [machineAbove, hp, hn]

private theorem run_group (p : Parser) (r : Progress) {opening closing : Lexeme} {inner : List Lexeme}
    (ho : opening.kind = .groupStart) (hc : closing.kind = .groupEnd) (hb : Lexeme.Balanced 0 inner) :
    ∃ lowerText, (opening :: inner ++ [closing]).foldlM p.advance { data := r } =
      (inner.foldlM p.advance { data := { scope := r.scope.inner } }).bind fun m =>
        if m.phase = .common then
          m.data.scope.toQuery.map fun query =>
            { data := {
                scope := r.scope.addEntry (.ofQuery query)
                outer := r.outer
                previousKind := some .groupEnd
                lowerText := lowerText } }
        else .error (Machine.misplaced closing) := by
  have hk : SameMark (some .groupStart) none := ⟨by decide, by decide⟩
  have ha : AllAnchored { scope := r.scope.inner } := by simp [AllAnchored, Scope.Anchored, Scope.inner]
  obtain ⟨k, t, hrun, hend⟩ := run_above p (r.scope :: r.outer) (m := { data := { scope := r.scope.inner } })
    (t := r.lowerText) hk nofun hb ha
  refine ⟨t, ?_⟩
  rw [List.cons_append, List.foldlM_cons, advance_opening p r ho]
  change List.foldlM p.advance _ (inner ++ [closing]) = _
  rw [List.foldlM_append, hrun]
  cases hm : inner.foldlM p.advance { data := { scope := r.scope.inner } } with
  | error e => rfl
  | ok m =>
    obtain ⟨hout, hanch⟩ := hend m hm
    change List.foldlM p.advance (machineAbove m (r.scope :: r.outer) k t) [closing] = _
    rw [List.foldlM_cons, advance_closing p hc hout (hanch _ (by simp))]
    simp [Except.bind]

/-- A group in parentheses has the outcome of its inside read alone: the same failure, or an entry for the
query of the inside. The level around it takes the entry with the sign and the field set for it and is
otherwise as it was, like the levels further out. -/
theorem group_reads_alone (p : Parser) (r : Progress) {opening closing : Lexeme} {inner : List Lexeme}
    (ho : opening.kind = .groupStart) (hc : closing.kind = .groupEnd) (hb : Lexeme.Balanced 0 inner) :
    (∃ lowerText, (opening :: inner ++ [closing]).foldlM p.advance { data := r } =
      (inner.foldlM p.advance { data := { scope := r.scope.inner } }).bind fun m =>
        if m.phase = .common then
          m.data.scope.toQuery.map fun query =>
            { data := {
                scope := r.scope.addEntry (.ofQuery query)
                outer := r.outer
                previousKind := some .groupEnd
                lowerText := lowerText } }
        else .error (Machine.misplaced closing)) ∧
    ∀ m, (opening :: inner ++ [closing]).foldlM p.advance { data := r } = .ok m →
      m.phase = .common ∧ m.data.outer = r.outer ∧ ∃ query, m.data.scope = { r.scope with
        items := r.scope.items ++ [.entry (.ofQuery query) r.scope.pendingSign]
        pendingField := none
        pendingSign := none } := by
  obtain ⟨t, hrun⟩ := run_group p r ho hc hb
  refine ⟨⟨t, hrun⟩, ?_⟩
  intro m hm
  rw [hrun] at hm
  cases hi : inner.foldlM p.advance { data := { scope := r.scope.inner } } with
  | error e =>
    rw [hi] at hm
    cases hm
  | ok n =>
    simp only [hi, Except.bind] at hm
    split at hm
    · obtain ⟨query, -, rfl⟩ := Lexeme.map_eq_ok.1 hm
      exact ⟨rfl, rfl, query, rfl⟩
    · cases hm

/-- The level of a query that begins with c +title: and goes on with a group. -/
def groupExpected : Scope where
  inheritedField := none
  pendingField := some "title"
  pendingSign := some .required
  junction := .or
  style := some .signs
  items := [.entry (.ofWord "c" none) none]

/-- The inside of a group with another one in it, a OR (b). -/
def groupInside : List Lexeme :=
  [⟨.word, "a", 11⟩, ⟨.or, "OR", 13⟩, ⟨.groupStart, "(", 16⟩, ⟨.word, "b", 17⟩, ⟨.groupEnd, ")", 18⟩]

theorem groupInside_read :
    let p : Parser := { config := {}, context := .ofConfig {} (.ofConfig .bare {}) }
    let group : List Lexeme := ⟨.groupStart, "(", 10⟩ :: groupInside ++ [⟨.groupEnd, ")", 19⟩]
    Lexeme.Balanced 0 groupInside ∧
      ∃ m, group.foldlM p.advance { data := { scope := groupExpected } } = .ok m ∧
        m.phase = .common ∧ m.data.outer = [] ∧ ∃ query, m.data.scope = { groupExpected with
          items := [.entry (.ofWord "c" none) none, .entry (.ofQuery query) (some .required)]
          pendingField := none
          pendingSign := none } := by
  intro p group
  have hb : Lexeme.Balanced 0 groupInside := by simp [Lexeme.Balanced, groupInside]
  have hok : (group.foldlM p.advance { data := { scope := groupExpected } }).toBool = true := by
    decide +kernel
  cases hm : group.foldlM p.advance { data := { scope := groupExpected } } with
  | error e =>
    rw [hm] at hok
    cases hok
  | ok m =>
    exact ⟨hb, m, rfl, (group_reads_alone p { scope := groupExpected } (by rfl) (by rfl) hb).2 m hm⟩

end Parser
end TextSearch
