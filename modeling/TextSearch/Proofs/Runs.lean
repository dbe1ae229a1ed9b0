import TextSearch.Proofs.Reading

/-! What the parser has read between two lexemes, and where it stops. -/
namespace TextSearch

namespace Parser

open TextSearch.Part

/-- The lexemes around the current level, whose neighbours come first. -/
def opened : List (Level × Lexeme) → List Lexeme
  | [] => []
  | (level, opening) :: around => opened around ++ (lexemesOf level ++ [opening])

/-- What is read of a range, and what the parser knows of it. -/
def InPhase (phase : Phase) (level : Level) (read : List Lexeme) (r : Progress) : Prop :=
  match phase with
  | .common => read = [] ∧ r.scope.Tracks level
  | .range b .start => ∃ start, read = [start] ∧ start.kind = b.opening ∧ r.scope.Tracks level
  | .range b .first => ∃ start lower, read = [start, lower] ∧ start.kind = b.opening ∧
      lower.kind = .word ∧ r.lowerText = lower.text ∧ r.scope.Tracks level
  | .range b .upTo => ∃ start lower upTo, read = [start, lower, upTo] ∧ start.kind = b.opening ∧
      lower.kind = .word ∧ upTo.kind = .upTo ∧ r.lowerText = lower.text ∧ r.scope.Tracks level
  | .range b .last => ∃ start lower upTo upper, read = [start, lower, upTo, upper] ∧
      start.kind = b.opening ∧ lower.kind = .word ∧ upTo.kind = .upTo ∧ upper.kind = .word ∧
      ∀ stop, r.scope.Tracks (level ++ [.range start lower upTo upper stop])

/-- A machine has read the levels around the current one, this level and the begin of a range. -/
structure Reads (around : List (Level × Lexeme)) (level : Level) (read : List Lexeme)
    (m : Machine Progress) : Prop where
  around : List.Forall₂ (fun l s => l.1.Begun ∧ Scope.Tracks l.1 s ∧ l.2.kind = .groupStart)
    around m.data.outer
  begun : level.Begun
  behind : m.phase = .common → level.Behind m.data.previousKind
  inPhase : InPhase m.phase level read m.data

def HasRead (xs : List Lexeme) (m : Machine Progress) : Prop :=
  ∃ around level read, Reads around level read m ∧ xs = opened around ++ (lexemesOf level ++ read)

variable {p : Parser} {around : List (Level × Lexeme)} {level : Level} {read : List Lexeme} {r r' : Progress}
  {x : Lexeme}

private theorem reads_loose (h : Reads around level read { data := r }) (hx : x.kind.isLoose = true)
    (hi : p.input x r = .ok r') :
    HasRead (opened around ++ (lexemesOf level ++ read) ++ [x]) (behind .common x r') := by
  obtain ⟨rfl, ht⟩ := h.inPhase
  obtain ⟨ha, ht', ho⟩ := input_tracks ht (h.behind rfl) hx hi
  refine ⟨around, level ++ [.lexeme x], [], ⟨?_, h.begun.lexeme hx (h.behind rfl) ha, ?_, rfl, ht'⟩, ?_⟩
  · simpa [behind, ho] using h.around
  · intro _
    exact Level.behind_concat_lexeme level x
  · simp [lexemesOf, lexemes]

private theorem reads_opening (h : Reads around level read { data := r }) (hx : x.kind = .groupStart)
    (hi : p.input x r = .ok r') :
    HasRead (opened around ++ (lexemesOf level ++ read) ++ [x]) (behind .common x r') := by
  obtain ⟨rfl, ht⟩ := h.inPhase
  have hr := input_ok hi
  simp only [hx] at hr
  subst hr
  refine ⟨(level, x) :: around, [], [], ⟨.cons ⟨h.begun, ht, hx⟩ h.around, .nil, ?_, rfl, .nil _ _⟩, ?_⟩
  · intro _
    simp only [behind, hx]
    exact .nil (by decide) (by decide)
  · simp [opened, lexemesOf]

private theorem reads_closing (h : Reads around level read { data := r }) (hx : x.kind = .groupEnd)
    (hi : p.input x r = .ok r') :
    HasRead (opened around ++ (lexemesOf level ++ read) ++ [x]) (behind .common x r') := by
  obtain ⟨rfl, ht⟩ := h.inPhase
  have hr := input_ok hi
  simp only [hx] at hr
  obtain ⟨parent, outer, query, ho, hq, rfl⟩ := hr
  have haround := h.around
  simp only [ho] at haround
  cases haround with
  | @cons l _ around _ hl haround =>
    obtain ⟨hbegun, htracks, hopening⟩ := hl
    have hregular : Level.Regular level := ⟨h.begun.oneStyle, h.begun.modifiersPlaced, ht.joined hq⟩
    have hshaped : (Part.group l.2 level x).Shaped := ⟨hopening, h.begun.shaped, hx⟩
    have hinner : ∀ k ∈ (Part.group l.2 level x).levels, Level.Regular k :=
      List.forall_mem_cons.2 ⟨hregular, h.begun.inner⟩
    refine ⟨around, l.1 ++ [.group l.2 level x], [], ⟨haround, hbegun.entry hshaped (by simp) hinner, ?_, rfl,
      htracks.addEntry rfl rfl rfl rfl⟩, ?_⟩
    · intro _
      simp only [behind, hx]
      exact Level.behind_concat_entry l.1 (by simp) (by decide) (by decide)
    · simp [opened, lexemesOf, lexemes]

private theorem reads_rangeStart {b : Brackets} (h : Reads around level read { data := r })
    (hx : x.kind = b.opening) (hi : p.input x r = .ok r') :
    HasRead (opened around ++ (lexemesOf level ++ read) ++ [x]) (behind (.range b .start) x r') := by
  obtain ⟨rfl, ht⟩ := h.inPhase
  have hr : r' = r := by
    have hr := input_ok hi
    cases b <;> simpa [hx, Brackets.opening] using hr
  subst hr
  exact ⟨around, level, [x], ⟨h.around, h.begun, by simp [behind], x, rfl, hx, ht⟩, by simp⟩

private theorem reads_range {b : Brackets} {part : RangePart} {target : Phase}
    (h : Reads around level read { phase := .range b part, data := r })
    (hn : (Phase.range b part).next x.kind = some target) (he : p.effect (.range b part) x r = .ok r') :
    HasRead (opened around ++ (lexemesOf level ++ read) ++ [x]) (behind target x r') := by
  have hplace := Phase.next_range hn
  have hphase {b : Brackets} {part : RangePart} {level : Level} {k : Option LexemeKind} :
      Phase.range b part = .common → level.Behind k := by
    intro h
    cases h
  cases part with
  | start =>
    obtain ⟨hx, rfl⟩ := hplace
    obtain ⟨start, rfl, hs, ht⟩ := h.inPhase
    cases he
    exact ⟨around, level, [start, x], ⟨h.around, h.begun, hphase, start, x, rfl, hs, hx, rfl, ht⟩, by simp⟩
  | first =>
    obtain ⟨hx, rfl⟩ := hplace
    obtain ⟨start, lower, rfl, hs, hl, hlower, ht⟩ := h.inPhase
    cases he
    exact ⟨around, level, [start, lower, x],
      ⟨h.around, h.begun, hphase, start, lower, x, rfl, hs, hl, hx, hlower, ht⟩, by simp⟩
  | upTo =>
    obtain ⟨hx, rfl⟩ := hplace
    obtain ⟨start, lower, upTo, rfl, hs, hl, hu, -, ht⟩ := h.inPhase
    simp only [effect, addRange_eq] at he
    obtain ⟨entry, hentry, rfl⟩ := Lexeme.map_eq_ok.1 he
    refine ⟨around, level, [start, lower, upTo, x],
      ⟨h.around, h.begun, hphase, start, lower, upTo, x, rfl, hs, hl, hu, hx, ?_⟩, by simp⟩
    intro stop
    obtain ⟨query, rfl⟩ := rangeEntry_ok hentry
    exact ht.addEntry rfl rfl rfl rfl
  | last =>
    obtain ⟨hx, rfl⟩ := hplace
    obtain ⟨start, lower, upTo, upper, rfl, hs, hl, hu, hup, ht⟩ := h.inPhase
    cases he
    have hshaped : (Part.range start lower upTo upper x).Shaped := ⟨b, hs, hl, hu, hup, hx⟩
    have hinner : ∀ k ∈ (Part.range start lower upTo upper x).levels, Level.Regular k := by
      intro k hk
      cases hk
    refine ⟨around, level ++ [.range start lower upTo upper x], [],
      ⟨h.around, h.begun.entry hshaped (by simp) hinner, ?_, rfl, ht x⟩, ?_⟩
    · intro _
      simp only [behind, hx]
      exact Level.behind_concat_entry level (by simp) (by cases b <;> decide) (by cases b <;> decide)
    · simp [lexemesOf, lexemes]

/-- What is read stays in shape at every lexeme. -/
theorem HasRead.advance {m m' : Machine Progress} {xs : List Lexeme} (h : HasRead xs m)
    (hm : p.advance m x = .ok m') : HasRead (xs ++ [x]) m' := by
  obtain ⟨around, level, read, hr, rfl⟩ := h
  obtain ⟨target, r', hn, he, rfl⟩ := advance_ok hm
  obtain ⟨phase, r⟩ := m
  cases phase with
  | common =>
    rcases Phase.next_common hn with ⟨rfl, hk⟩ | ⟨b, hk, rfl⟩
    · by_cases hs : x.kind = .groupStart
      · exact reads_opening hr hs he
      by_cases hc : x.kind = .groupEnd
      · exact reads_closing hr hc he
      have hloose : x.kind.isLoose = true := by simp [LexemeKind.isLoose, hk, hs, hc]
      exact reads_loose hr hloose he
    · exact reads_rangeStart hr hk he
  | range b part => exact reads_range hr hn he

/-- What every lexeme preserves holds behind the last one. -/
theorem run_induction {P : List Lexeme → Machine Progress → Prop}
    (step : ∀ {read : List Lexeme} {x : Lexeme} {m m' : Machine Progress},
      P read m → p.advance m x = .ok m' → P (read ++ [x]) m')
    {read xs : List Lexeme} {m m' : Machine Progress} (h : P read m)
    (hm : xs.foldlM p.advance m = .ok m') : P (read ++ xs) m' := by
  induction xs generalizing read m with
  | nil =>
    cases hm
    simpa using h
  | cons x rest ih =>
    rw [List.foldlM_cons] at hm
    cases hx : p.advance m x with
    | error e =>
      rw [hx] at hm
      cases hm
    | ok m₁ =>
      rw [hx] at hm
      rw [List.append_cons]
      exact ih (step h hx) hm

theorem hasRead_start (p : Parser) : HasRead [] p.start :=
  ⟨[], [], [], ⟨.nil, .nil, fun _ => .nil nofun nofun, rfl, .nil _ _⟩, rfl⟩

theorem hasRead_of_run {xs : List Lexeme} {m : Machine Progress} (h : xs.foldlM p.advance p.start = .ok m) :
    HasRead xs m :=
  run_induction HasRead.advance (hasRead_start p) h

theorem regular_nil : Level.Regular [] where
  oneStyle := Level.Begun.nil.oneStyle
  modifiersPlaced := Level.Begun.nil.modifiersPlaced
  joined := nofun

/-- What is read to the end is a query. -/
theorem HasRead.wellFormed {xs : List Lexeme} {m : Machine Progress} {query : Query} (h : HasRead xs m)
    (hq : finish m = .ok query) : Lexeme.WellFormed xs := by
  obtain ⟨around, level, read, hr, rfl⟩ := h
  obtain ⟨phase, r⟩ := m
  unfold finish at hq
  split at hq
  · cases hq
  rename_i hp
  obtain rfl : phase = .common := by simpa using hp
  split at hq
  · cases hq
  rename_i ho
  obtain ⟨rfl, ht⟩ := hr.inPhase
  obtain rfl : around = [] := by
    have ha := hr.around
    simp only [show r.outer = [] by simpa using ho] at ha
    cases ha
    rfl
  have hregular : Level.Regular level := ⟨hr.begun.oneStyle, hr.begun.modifiersPlaced, ht.joined hq⟩
  simp only [opened, List.nil_append, List.append_nil]
  obtain ⟨hc, hb⟩ := (Lexeme.exists_level_iff _).1 ⟨level, hr.begun.shaped, rfl⟩
  exact ⟨hc, hb, level, hr.begun.shaped, rfl, List.forall_mem_cons.2 ⟨hregular, hr.begun.inner⟩⟩

theorem parseLexemes_sound {xs : List Lexeme} {query : Query} (h : p.parseLexemes xs = .ok query) :
    Lexeme.WellFormed xs := by
  unfold parseLexemes at h
  split at h
  · rename_i he
    obtain rfl := List.isEmpty_iff.1 he
    exact ⟨.nil, rfl, [], trivial, rfl, by simpa [levelsIn] using regular_nil⟩
  · cases hm : xs.foldlM p.advance p.start with
    | error e =>
      rw [hm] at h
      cases h
    | ok m =>
      rw [hm] at h
      exact (hasRead_of_run hm).wellFormed h

section run
variable {before after xs : List Lexeme} {m m' : Machine Progress} {e : Error}

theorem previousKind_of_run (h : xs.foldlM p.advance p.start = .ok m) :
    m.data.previousKind = xs.getLast?.map Lexeme.kind := by
  have hstep {read : List Lexeme} {x : Lexeme} {m m' : Machine Progress}
      (_ : m.data.previousKind = read.getLast?.map Lexeme.kind) (hm : p.advance m x = .ok m') :
      m'.data.previousKind = (read ++ [x]).getLast?.map Lexeme.kind := by
    obtain ⟨target, r', -, -, rfl⟩ := advance_ok hm
    rw [List.getLast?_concat]
    rfl
  have hstart : p.start.data.previousKind = ([] : List Lexeme).getLast?.map Lexeme.kind := rfl
  exact run_induction (P := fun read m => m.data.previousKind = read.getLast?.map Lexeme.kind) hstep hstart h

/-- Behind what was read, numbers are where they have to be. -/
theorem numbersPlaced_of_run (hn : Lexeme.NumbersPlaced none (xs ++ after))
    (h : xs.foldlM p.advance p.start = .ok m) : Lexeme.NumbersPlaced m.data.previousKind after := by
  have hafter := (Lexeme.numbersPlaced_append.1 hn).2
  rwa [Option.or_none, ← previousKind_of_run h] at hafter

theorem follows_of_run (h : xs.foldlM p.advance p.start = .ok m) : p.Follows (Naming.behind xs) m := by
  have hstep {read : List Lexeme} {x : Lexeme} {m m' : Machine Progress} (h : p.Follows (Naming.behind read) m)
      (hm : p.advance m x = .ok m') : p.Follows (Naming.behind (read ++ [x])) m' := by
    rw [Naming.behind_concat]
    exact h.advance hm
  have hstart : p.Follows (Naming.behind []) p.start := p.follows_start
  exact run_induction (P := fun read m => p.Follows (Naming.behind read) m) hstep hstart h

theorem next_opening (b : Brackets) : Phase.common.next b.opening = some (.range b .start) := by
  cases b <;> rfl

/-- A range opens outside of ranges only. -/
theorem phase_of_opening {b : Brackets} {start : Lexeme} (hs : start.kind = b.opening)
    (h : p.advance m start = .ok m') : m.phase = .common := by
  obtain ⟨target, r', hn, -, -⟩ := advance_ok h
  obtain ⟨phase, r⟩ := m
  cases phase with
  | common => rfl
  | range b' part =>
    rw [hs] at hn
    cases b <;> cases b' <;> cases part <;> cases hn

/-- The lower bound of a range is read without a look at it. -/
theorem run_lower {b : Brackets} {start lower upTo : Lexeme} (hs : start.kind = b.opening)
    (hl : lower.kind = .word) (hu : upTo.kind = .upTo) (r : Progress) :
    ∃ m, [start, lower, upTo].foldlM p.advance { data := r } = .ok m ∧ m.phase = .range b .upTo ∧
      m.data.lowerText = lower.text ∧ m.data.scope = r.scope ∧ m.data.outer = r.outer := by
  let m₁ := behind (.range b .start) start r
  let m₂ := behind (.range b .first) lower { m₁.data with lowerText := lower.text }
  let m₃ := behind (.range b .upTo) upTo m₂.data
  have h₁ : p.advance { data := r } start = .ok m₁ := by
    refine advance_of_effect (hs ▸ next_opening b) ?_
    cases b <;> simp [effect, input, hs, Brackets.opening]
  have h₂ : p.advance m₁ lower = .ok m₂ := advance_of_effect (by rw [hl]; rfl) rfl
  have h₃ : p.advance m₂ upTo = .ok m₃ := advance_of_effect (by rw [hu]; rfl) rfl
  refine ⟨m₃, ?_, rfl, rfl, rfl, rfl⟩
  simp only [List.foldlM_cons, List.foldlM_nil, h₁, h₂, h₃, bind, Except.bind]
  rfl

/-- Before its upper bound a range is known by its lower one, and its field by the lexemes before it. -/
theorem lower_of_run {b : Brackets} {start lower upTo : Lexeme}
    (h : (before ++ [start, lower, upTo]).foldlM p.advance p.start = .ok m) (hs : start.kind = b.opening)
    (hl : lower.kind = .word) (hu : upTo.kind = .upTo) :
    m.phase = .range b .upTo ∧ m.data.lowerText = lower.text ∧
      m.data.scope.field = (Naming.behind before).field := by
  obtain ⟨m₀, hbefore, hrange⟩ := foldlM_append_eq_ok.1 h
  obtain ⟨m₁, hstart, -⟩ := bind_eq_ok.1 hrange
  have hfollows := follows_of_run hbefore
  obtain ⟨phase, r⟩ := m₀
  obtain rfl : phase = .common := phase_of_opening hs hstart
  obtain ⟨m₃, hlower, hphase, htext, hscope, -⟩ := run_lower (p := p) hs hl hu r
  obtain rfl := Except.ok.inj (hlower.symm.trans hrange)
  refine ⟨hphase, htext, ?_⟩
  rw [hscope]
  exact hfollows.field nofun

/-- An entry has its field from the lexemes before it. -/
theorem field_of_run (h : before.foldlM p.advance p.start = .ok m) (hp : m.phase = .common) :
    (Naming.behind before).inRange = false ∧ m.data.scope.field = (Naming.behind before).field := by
  have hfollows := follows_of_run h
  refine ⟨?_, hfollows.field (by simp [hp])⟩
  simpa [hp] using hfollows.inRange

theorem junction_of_run (h : xs.foldlM p.advance p.start = .ok m) :
    m.data.scope.junction = p.config.defaultOperator :=
  (follows_of_run h).junction m.data.scope List.mem_cons_self

end run

section failing

/-- Failures of a query that ends inside a range, or inside parentheses. -/
inductive Unfinished (xs : List Lexeme) : Error → Prop where
  | range {b : Brackets} {before rest : List Lexeme} {start : Lexeme} : before ++ start :: rest = xs →
      start.kind = b.opening → (∀ x ∈ rest, x.kind = .word ∨ x.kind = .upTo) →
      Unfinished xs (.syntactic "Syntax Error: range query is not closed." none)
  | group {before : List Lexeme} {opening : Lexeme} {level : Level} : before ++ opening :: lexemesOf level = xs →
      opening.kind = .groupStart → AllShaped level → Unfinished xs (Progress.mismatched none)

/-- A failure at a lexeme. That of an expression is at the operator at which the expression of a level fails. -/
structure PointsAt (xs : List Lexeme) (e : Error) (x : Lexeme) : Prop where
  mem : x ∈ xs
  position : e.position? = some x.position
  offends : e = Expression.literalExpected.locate x.position →
    ∃ read level, Lexeme.HasLevel xs read level ∧ level.Offends x

variable {read after xs : List Lexeme} {m : Machine Progress} {e : Error}

/-- A failure of another kind that is placed at a lexeme. -/
theorem pointsAt_of_unplaced (hx : x ∈ xs) (h : e.Unplaced) : PointsAt xs (e.locate x.position) x := by
  obtain ⟨hs, hposition, hne⟩ := h
  obtain ⟨message, position⟩ := hs
  obtain rfl : position = none := hposition
  refine ⟨hx, rfl, fun heq => absurd ?_ hne⟩
  cases heq
  rfl

theorem pointsAt_of_placed {message : String} (hx : x ∈ xs)
    (hm : Error.syntactic message none ≠ Expression.literalExpected) :
    PointsAt xs (.syntactic message (some x.position)) x :=
  pointsAt_of_unplaced (e := .syntactic message none) hx ⟨.syntactic _ _, rfl, hm⟩

theorem pointsAt_of_offends (hl : Lexeme.HasLevel xs read level) (hx : level.Offends x) :
    PointsAt xs (Expression.literalExpected.locate x.position) x := by
  refine ⟨?_, rfl, fun _ => ⟨read, level, hl, hx⟩⟩
  obtain ⟨before, after, rfl, -⟩ := hx
  cases hl with
  | whole _ heq =>
    subst heq
    simp [lexemesOf, lexemes]
  | inside _ _ _ heq =>
    subst heq
    simp [lexemesOf, lexemes]

private theorem opened_cons (l : Level × Lexeme) (around : List (Level × Lexeme)) (level : Level) :
    opened (l :: around) ++ (lexemesOf level ++ []) = opened around ++ lexemesOf l.1 ++ l.2 :: lexemesOf level := by
  simp [opened]

/-- The lexemes of a level that is being closed. -/
theorem HasRead.hasLevel_of_closing {parent : Scope} {outer : List Scope}
    (h : HasRead read m) (hp : m.phase = .common) (ho : m.data.outer = parent :: outer) (hx : x.kind = .groupEnd)
    (hxs : read ++ x :: after = xs) : ∃ level, Lexeme.HasLevel xs read level ∧ m.data.scope.Tracks level := by
  obtain ⟨around, level, last, hr, rfl⟩ := h
  obtain ⟨phase, r⟩ := m
  obtain rfl : phase = .common := hp
  obtain ⟨rfl, ht⟩ := hr.inPhase
  have haround := hr.around
  simp only [show r.outer = parent :: outer from ho] at haround
  cases haround with
  | @cons l _ around _ hl _ =>
    refine ⟨level, ?_, ht⟩
    rw [opened_cons] at hxs ⊢
    exact .inside hl.2.2 hr.begun.shaped hx hxs

/-- The lexemes of the whole query are its outermost level. -/
theorem HasRead.hasLevel_of_end (h : HasRead xs m) (hp : m.phase = .common) (ho : m.data.outer = []) :
    ∃ level, Lexeme.HasLevel xs xs level ∧ m.data.scope.Tracks level := by
  obtain ⟨around, level, last, hr, rfl⟩ := h
  obtain ⟨phase, r⟩ := m
  obtain rfl : phase = .common := hp
  obtain ⟨rfl, ht⟩ := hr.inPhase
  have haround := hr.around
  simp only [show r.outer = [] from ho] at haround
  cases haround
  exact ⟨level, .whole hr.begun.shaped (by simp [opened]), ht⟩

/-- Lexemes with a parenthesis that is still open are not finished. -/
private theorem HasRead.unfinished {parent : Scope} {outer : List Scope} (h : HasRead xs m) (hp : m.phase = .common)
    (ho : m.data.outer = parent :: outer) : Unfinished xs (Progress.mismatched none) := by
  obtain ⟨around, level, read, hr, rfl⟩ := h
  obtain ⟨phase, r⟩ := m
  obtain rfl : phase = .common := hp
  obtain ⟨rfl, -⟩ := hr.inPhase
  have haround := hr.around
  simp only [show r.outer = parent :: outer from ho] at haround
  cases haround with
  | @cons l _ around _ hl _ =>
    exact .group (opened_cons l around level).symm hl.2.2 hr.begun.shaped

private theorem closing_failure (h : read.foldlM p.advance p.start = .ok m) (hp : m.phase = .common)
    (hx : x.kind = .groupEnd) (hxs : read ++ x :: after = xs) (he : m.data.closeGroup x.position = .error e) :
    p.Refuses xs e ∨ e.Syntactic ∧ ∃ y, PointsAt xs (e.locate x.position) y := by
  unfold Progress.closeGroup at he
  split at he
  · cases he
    have hmem : x ∈ xs := hxs ▸ by simp
    exact .inr ⟨.syntactic _ _, x, pointsAt_of_placed hmem (by decide)⟩
  · rename_i parent outer ho
    obtain ⟨level, hlevel, ht⟩ := (hasRead_of_run h).hasLevel_of_closing hp ho hx hxs
    rcases ht.toQuery_fails (map_eq_error.1 he) with ⟨hr, -⟩ | ⟨y, hy, rfl⟩
    · rw [junction_of_run h] at hr
      exact .inl (.word hlevel hr)
    · rw [Error.locate_locate]
      exact .inr ⟨.syntactic _ _, y, pointsAt_of_offends hlevel hy⟩

private theorem common_failure (h : read.foldlM p.advance p.start = .ok m) (hp : m.phase = .common)
    (hk : x.kind.isRangePart = false) (hn : Lexeme.NumberPlaced m.data.previousKind x)
    (hxs : read ++ x :: after = xs) (he : p.input x m.data = .error e) :
    p.Refuses xs e ∨ e.Syntactic ∧ ∃ y, PointsAt xs (e.locate x.position) y := by
  by_cases hs : x.kind = .groupStart
  · simp [input, hs] at he
  by_cases hc : x.kind = .groupEnd
  · simp only [input, hc] at he
    exact closing_failure h hp hc hxs he
  have hloose : x.kind.isLoose = true := by simp [LexemeKind.isLoose, hk, hs, hc]
  obtain ⟨around, level, last, hr, rfl⟩ := hasRead_of_run h
  have ht : m.data.scope.Tracks level := by
    have hphase := hr.inPhase
    rw [hp] at hphase
    exact hphase.2
  rcases input_error ht hloose hn he with ⟨missing, hm, hf⟩ | ⟨hu, -⟩
  · obtain ⟨hrange, hfield⟩ := field_of_run h hp
    rw [hfield] at hf
    exact .inl (.entry hxs hrange hm hf)
  · have hmem : x ∈ xs := hxs ▸ by simp
    exact .inr ⟨hu.syntactic, x, pointsAt_of_unplaced hmem hu⟩

private theorem upper_failure {b : Brackets} (h : read.foldlM p.advance p.start = .ok m)
    (hp : m.phase = .range b .upTo) (hx : x.kind = .word) (hxs : read ++ x :: after = xs)
    (he : p.rangeEntry m.data.lowerText x.text (b = .closed) m.data = .error e) : p.Refuses xs e := by
  obtain ⟨around, level, last, hr, rfl⟩ := hasRead_of_run h
  have hphase := hr.inPhase
  rw [hp] at hphase
  obtain ⟨start, lower, upTo, rfl, hs, hl, hu, -, -⟩ := hphase
  rw [← List.append_assoc] at h hxs
  obtain ⟨-, htext, hfield⟩ := lower_of_run h hs hl hu
  have hrefuses := rangeEntry_error he
  rw [htext, hfield] at hrefuses
  rw [List.append_assoc] at hxs
  exact .range hxs hs hl hu hx hrefuses

/-- A lexeme is not read for what the query means, or for how it is written. That is wrong at a lexeme. -/
theorem advance_fails (h : read.foldlM p.advance p.start = .ok m) (hn : Lexeme.NumberPlaced m.data.previousKind x)
    (hxs : read ++ x :: after = xs) (he : p.advance m x = .error e) :
    p.Refuses xs e ∨ e.Syntactic ∧ ∃ y, PointsAt xs e y := by
  rcases Parser.advance_error he with rfl | ⟨target, f, hnext, hfail, rfl⟩
  · have hmem : x ∈ xs := hxs ▸ by simp
    exact .inr ⟨.syntactic _ _, x, pointsAt_of_placed hmem (by decide)⟩
  suffices p.Refuses xs f ∨ f.Syntactic ∧ ∃ y, PointsAt xs (f.locate x.position) y by
    rcases this with hr | ⟨hs, hpoints⟩
    · rw [hr.refusal.locate]
      exact .inl hr
    · exact .inr ⟨hs.locate x.position, hpoints⟩
  cases hp : m.phase with
  | common =>
    rw [hp] at hnext hfail
    rcases Phase.next_common hnext with ⟨-, hk⟩ | ⟨b, hk, -⟩
    · exact common_failure h hp hk hn hxs hfail
    · cases b <;> simp [effect, input, hk, Brackets.opening] at hfail
  | range b part =>
    rw [hp] at hnext hfail
    cases part with
    | upTo =>
      simp only [effect, addRange_eq] at hfail
      exact .inl (upper_failure h hp (Phase.next_range hnext).1 hxs (map_eq_error.1 hfail))
    | start | first | last => cases hfail

/-- What is read of a range that is still open. -/
theorem InPhase.exists_start {b : Brackets} {part : RangePart} (h : InPhase (.range b part) level read r) :
    ∃ start rest, read = start :: rest ∧ start.kind = b.opening ∧ ∀ x ∈ rest, x.kind = .word ∨ x.kind = .upTo := by
  cases part with
  | start =>
    obtain ⟨start, rfl, hs, -⟩ := h
    exact ⟨start, _, rfl, hs, nofun⟩
  | first =>
    obtain ⟨start, lower, rfl, hs, hl, -⟩ := h
    exact ⟨start, _, rfl, hs, by simp [hl]⟩
  | upTo =>
    obtain ⟨start, lower, upTo, rfl, hs, hl, hu, -⟩ := h
    exact ⟨start, _, rfl, hs, by simp [hl, hu]⟩
  | last =>
    obtain ⟨start, lower, upTo, upper, rfl, hs, hl, hu, hup, -⟩ := h
    exact ⟨start, _, rfl, hs, by simp [hl, hu, hup]⟩

/-- A query that is read to its end and fails there is refused or not finished, or its expression fails. -/
theorem finish_fails (h : xs.foldlM p.advance p.start = .ok m) (he : finish m = .error e) :
    p.Refuses xs e ∨ e.Syntactic ∧ (Unfinished xs e ∨ ∃ x, PointsAt xs e x) := by
  have hread := hasRead_of_run h
  cases hp : m.phase with
  | range b part =>
    obtain ⟨around, level, read, hr, rfl⟩ := hread
    have hphase := hr.inPhase
    rw [hp] at hphase
    obtain ⟨start, rest, rfl, hstart, hrest⟩ := hphase.exists_start
    rw [finish, hp] at he
    cases he
    exact .inr ⟨.syntactic _ _, .inl (.range (List.append_assoc ..) hstart hrest)⟩
  | common =>
    rw [finish, if_neg (not_not.2 hp)] at he
    cases ho : m.data.outer with
    | nil =>
      rw [ho] at he
      obtain ⟨level, hlevel, ht⟩ := hread.hasLevel_of_end hp ho
      rcases ht.toQuery_fails he with ⟨hr, -⟩ | ⟨x, hx, rfl⟩
      · rw [junction_of_run h] at hr
        exact .inl (.word hlevel hr)
      · exact .inr ⟨.syntactic _ _, .inr ⟨x, pointsAt_of_offends hlevel hx⟩⟩
    | cons parent outer =>
      rw [ho] at he
      cases he
      exact .inr ⟨.syntactic _ _, .inl (hread.unfinished hp ho)⟩

end failing

end Parser

end TextSearch
