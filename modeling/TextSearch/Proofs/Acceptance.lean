import TextSearch.Proofs.Runs

/-! The parser accepts the well-formed queries, unless they mean something it refuses. -/
namespace TextSearch

namespace Parser

open TextSearch.Part

variable {p : Parser} {level : Level}

/-- A result is as described, or the query is refused for its meaning. -/
def Accepted {α : Type} (result : Except Error α) (P : α → Prop) : Prop :=
  match result with
  | .ok a => P a
  | .error e => e.Refusal

theorem Accepted.bind {α β : Type} {result : Except Error α} {f : α → Except Error β} {P : α → Prop}
    {Q : β → Prop} (h : Accepted result P) (hf : ∀ a, P a → Accepted (f a) Q) :
    Accepted (result.bind f) Q := by
  cases result with
  | error e => exact h
  | ok a => exact hf a h

theorem Accepted.imp {α : Type} {result : Except Error α} {P Q : α → Prop} (h : Accepted result P)
    (hpq : ∀ a, P a → Q a) : Accepted result Q := by
  cases result with
  | error e => exact h
  | ok a => exact hpq a h

theorem Accepted.of_eq {α : Type} {result : Except Error α} {a : α} {P : α → Prop} (h : Accepted result P)
    (ha : result = .ok a) : P a := by
  subst ha
  exact h

/-- A lexeme that is refused for its meaning ends the reading with that failure. -/
theorem accepted_of_refusal {m : Machine Progress} {x : Lexeme} {target : Phase} {e : Error}
    {P : Machine Progress → Prop} (hn : m.phase.next x.kind = some target)
    (he : p.effect m.phase x m.data = .error e) (hr : e.Refusal) : Accepted (p.advance m x) P := by
  rw [advance_of_failure hn he]
  change (e.locate x.position).Refusal
  rw [hr.locate]
  exact hr

/-- A machine between two parts of a level, with numbers in their places in the rest of the query. -/
structure At (level : Level) (outer : List Scope) (rest : List Lexeme) (m : Machine Progress) : Prop where
  phase : m.phase = .common
  outer : m.data.outer = outer
  tracks : m.data.scope.Tracks level
  behind : level.Behind m.data.previousKind
  numbers : Lexeme.NumbersPlaced m.data.previousKind rest

theorem at_start {xs : List Lexeme} (hn : Lexeme.NumbersPlaced none xs) : At [] [] xs p.start :=
  ⟨rfl, rfl, .nil _ _, .nil nofun nofun, hn⟩

theorem advance_loose {outer : List Scope} {rest : List Lexeme} {ps : List Part} {m : Machine Progress}
    (hx : x.kind.isLoose = true) (ho : Level.OneStyle (level ++ .lexeme x :: ps))
    (hm : Level.ModifiersPlaced (level ++ .lexeme x :: ps)) (h : At level outer (x :: rest) m) :
    Accepted (p.advance m x) (At (level ++ [.lexeme x]) outer rest) := by
  obtain ⟨hnumber, hnumbers⟩ := h.numbers
  have hnext : m.phase.next x.kind = some .common := by
    rw [h.phase]
    revert hx
    cases x.kind <;> simp [LexemeKind.isLoose, LexemeKind.isRangePart, Phase.next]
  have heffect : p.effect m.phase x m.data = p.input x m.data := by rw [h.phase, effect]
  cases hi : p.input x m.data with
  | error e =>
    rcases input_error h.tracks hx hnumber hi with ⟨missing, -, hf⟩ | ⟨-, ha⟩
    · exact accepted_of_refusal hnext (heffect.trans hi) hf.refusal
    · exact absurd (Level.allows_of_regular ho hm h.behind) ha
  | ok r' =>
    obtain ⟨-, ht, hout⟩ := input_tracks h.tracks h.behind hx hi
    rw [advance_of_effect hnext (heffect.trans hi)]
    exact ⟨rfl, hout.trans h.outer, ht, Level.behind_concat_lexeme level x, hnumbers⟩

theorem next_closing (b : Brackets) : (Phase.range b .last).next b.closing = some .common := by
  cases b <;> rfl

/-- The upper bound adds the range, unless that is refused. -/
private theorem run_upper {b : Brackets} {upper stop : Lexeme} {m : Machine Progress}
    (hp : m.phase = .range b .upTo) (hu : upper.kind = .word) (hs : stop.kind = b.closing) :
    Accepted ([upper, stop].foldlM p.advance m) fun m' => ∃ query, m'.phase = .common ∧
      m'.data.scope = m.data.scope.addEntry (.ofQuery query) ∧ m'.data.outer = m.data.outer ∧
        m'.data.previousKind = some b.closing := by
  have hnext : m.phase.next upper.kind = some (.range b .last) := by
    rw [hp, hu]
    rfl
  have heffect : p.effect m.phase upper m.data =
      (p.rangeEntry m.data.lowerText upper.text (b = .closed) m.data).map fun entry =>
        m.data.withScope (m.data.scope.addEntry entry) := by
    rw [hp, effect, addRange_eq]
  rw [List.foldlM_cons]
  cases he : p.rangeEntry m.data.lowerText upper.text (b = .closed) m.data with
  | error e =>
    rw [he] at heffect
    have hr : e.Refusal := (rangeEntry_error he).elim RefusesBounds.refusal RefusesField.refusal
    exact (accepted_of_refusal (P := fun _ => False) hnext heffect hr).bind fun _ => False.elim
  | ok entry =>
    rw [he] at heffect
    obtain ⟨query, rfl⟩ := rangeEntry_ok he
    rw [advance_of_effect hnext heffect]
    let r := m.data.withScope (m.data.scope.addEntry (.ofQuery query))
    have hstop : p.advance (behind (.range b .last) upper r) stop =
        .ok (behind .common stop { r with previousKind := some upper.kind }) :=
      advance_of_effect (hs ▸ next_closing b) rfl
    change Accepted ([stop].foldlM p.advance (behind (.range b .last) upper r)) _
    rw [List.foldlM_cons, hstop]
    exact ⟨query, rfl, rfl, rfl, congrArg some hs⟩

theorem run_range {outer : List Scope} {rest : List Lexeme} {start lower upTo upper stop : Lexeme}
    {m : Machine Progress} (hs : (Part.range start lower upTo upper stop).Shaped)
    (h : At level outer ([start, lower, upTo, upper, stop] ++ rest) m) :
    Accepted ([start, lower, upTo, upper, stop].foldlM p.advance m)
      (At (level ++ [.range start lower upTo upper stop]) outer rest) := by
  obtain ⟨b, hstart, hlower, hupTo, hupper, hstop⟩ := hs
  obtain ⟨phase, r⟩ := m
  obtain rfl : phase = .common := h.phase
  obtain ⟨m, hrun, hp, -, hscope, hout⟩ := run_lower (p := p) hstart hlower hupTo r
  change Accepted (([start, lower, upTo] ++ [upper, stop]).foldlM p.advance _) _
  rw [List.foldlM_append, hrun]
  refine (run_upper hp hupper hstop).imp ?_
  rintro m' ⟨query, hphase, hscope', hout', hk⟩
  refine ⟨hphase, (hout'.trans hout).trans h.outer, ?_, ?_, ?_⟩
  · rw [hscope', hscope]
    exact h.tracks.addEntry rfl rfl rfl rfl
  · rw [hk]
    exact Level.behind_concat_entry level (by simp) (by cases b <;> decide) (by cases b <;> decide)
  · rw [hk, ← hstop]
    exact h.numbers.2.2.2.2.2

theorem enter_group {outer : List Scope} {rest : List Lexeme} {opening : Lexeme}
    {m : Machine Progress} (hx : opening.kind = .groupStart) (h : At level outer (opening :: rest) m) :
    ∃ m', p.advance m opening = .ok m' ∧ At [] (m.data.scope :: outer) rest m' := by
  refine ⟨behind .common opening m.data.openGroup, ?_, rfl, ?_, .nil _ _, ?_, h.numbers.2⟩
  · refine advance_of_effect ?_ ?_
    · rw [h.phase, hx]
      rfl
    · simp [h.phase, effect, input, hx]
  · simp [behind, Progress.openGroup, h.outer]
  · simp only [behind, hx]
    exact .nil (by decide) (by decide)

theorem leave_group {inside : Level} {parent : Scope} {outer : List Scope} {rest : List Lexeme}
    {closing : Lexeme} {m : Machine Progress} (opening : Lexeme) (hp : parent.Tracks level)
    (hj : inside.Joined) (hx : closing.kind = .groupEnd)
    (h : At inside (parent :: outer) (closing :: rest) m) :
    Accepted (p.advance m closing) (At (level ++ [.group opening inside closing]) outer rest) := by
  have hnext : m.phase.next closing.kind = some .common := by
    rw [h.phase, hx]
    rfl
  have heffect : p.effect m.phase closing m.data = m.data.scope.toQuery.map fun query =>
      { m.data with scope := parent.addEntry (.ofQuery query), outer } := by
    simp [h.phase, effect, input, hx, Progress.closeGroup, h.outer]
  cases hq : m.data.scope.toQuery with
  | error e =>
    rw [hq] at heffect
    rcases h.tracks.toQuery_error hq with hr | ⟨-, hn⟩
    · exact accepted_of_refusal hnext heffect hr.refusal
    · exact absurd hj hn
  | ok query =>
    rw [hq] at heffect
    rw [advance_of_effect hnext heffect]
    refine ⟨rfl, rfl, hp.addEntry rfl rfl rfl rfl, ?_, h.numbers.2⟩
    simp only [behind, hx]
    exact Level.behind_concat_entry level (by simp) (by decide) (by decide)

mutual

theorem run_part (p : Parser) : ∀ {part : Part}, part.Shaped → (∀ l ∈ part.levels, Level.Regular l) →
    ∀ {level : Level} {ps : List Part} {outer : List Scope} {rest : List Lexeme} {m : Machine Progress},
      Level.OneStyle (level ++ part :: ps) → Level.ModifiersPlaced (level ++ part :: ps) →
        At level outer (part.lexemes ++ rest) m →
          Accepted (part.lexemes.foldlM p.advance m) (At (level ++ [part]) outer rest)
  | .lexeme x, hs, _, level, ps, outer, rest, m, ho, hm, h => by
    simpa [lexemes] using advance_loose hs ho hm h
  | .range .., hs, _, level, ps, outer, rest, m, _, _, h => run_range hs h
  | .group opening inside closing, hs, hi, level, ps, outer, rest, m, _, _, h => by
    obtain ⟨hopening, hinside, hclosing⟩ := hs
    obtain ⟨hregular, hi⟩ := List.forall_mem_cons.1 hi
    simp only [lexemes, List.cons_append, List.append_assoc, List.nil_append] at h
    obtain ⟨m₁, hm₁, h₁⟩ := enter_group hopening h
    rw [lexemes, List.foldlM_cons, hm₁]
    change Accepted ((lexemesOf inside ++ [closing]).foldlM p.advance m₁) _
    rw [List.foldlM_append]
    have ho : Level.OneStyle ([] ++ inside) := hregular.oneStyle
    have hm : Level.ModifiersPlaced ([] ++ inside) := hregular.modifiersPlaced
    refine (run_parts p hinside hi ho hm h₁).bind ?_
    intro m₂ h₂
    rw [List.foldlM_cons]
    simpa using leave_group opening h.tracks hregular.joined hclosing h₂

theorem run_parts (p : Parser) : ∀ {ps : List Part}, AllShaped ps → (∀ l ∈ levelsIn ps, Level.Regular l) →
    ∀ {level : Level} {outer : List Scope} {rest : List Lexeme} {m : Machine Progress},
      Level.OneStyle (level ++ ps) → Level.ModifiersPlaced (level ++ ps) →
        At level outer (lexemesOf ps ++ rest) m →
          Accepted ((lexemesOf ps).foldlM p.advance m) (At (level ++ ps) outer rest)
  | [], _, _, level, outer, rest, m, _, _, h => by
    rw [List.append_nil]
    exact h
  | part :: ps, hs, hi, level, outer, rest, m, ho, hm, h => by
    obtain ⟨hpart, hps⟩ := List.forall_mem_append.1 hi
    rw [lexemesOf, List.append_assoc] at h
    rw [lexemesOf, List.foldlM_append]
    refine (run_part p hs.1 hpart ho hm h).bind ?_
    intro m' hm'
    rw [List.append_cons] at ho hm ⊢
    exact run_parts p hs.2 hps ho hm hm'

end

theorem finish_accepts {level : Level} {m : Machine Progress} (hj : level.Joined) (h : At level [] [] m) :
    Accepted (finish m) fun _ => True := by
  unfold finish
  simp only [h.phase, h.outer, ne_eq, not_true_eq_false, if_false, List.isEmpty_nil, Bool.not_true,
    Bool.false_eq_true]
  cases hq : m.data.scope.toQuery with
  | ok query => trivial
  | error e =>
    rcases h.tracks.toQuery_error hq with hr | ⟨-, hn⟩
    · exact hr.refusal
    · exact absurd hj hn

theorem parseLexemes_complete (p : Parser) {xs : List Lexeme} (hw : Lexeme.WellFormed xs)
    (hn : Lexeme.NumbersPlaced none xs) : Accepted (p.parseLexemes xs) fun _ => True := by
  obtain ⟨-, -, level, hs, rfl, hl⟩ := hw
  obtain ⟨hregular, hi⟩ := List.forall_mem_cons.1 hl
  unfold parseLexemes
  split
  · trivial
  have ho : Level.OneStyle ([] ++ level) := hregular.oneStyle
  have hm : Level.ModifiersPlaced ([] ++ level) := hregular.modifiersPlaced
  have hstart : At [] [] (lexemesOf level ++ []) p.start := by
    rw [List.append_nil]
    exact at_start hn
  refine (run_parts p hs hi ho hm hstart).bind ?_
  intro m h
  exact finish_accepts hregular.joined h

section reading
variable {outer : List Scope} {rest xs read : List Lexeme} {x : Lexeme} {m m' : Machine Progress} {e : Error}

private theorem At.advance_loose (hx : x.kind.isLoose = true) (h : At level outer (x :: rest) m)
    (hm : p.advance m x = .ok m') : At (level ++ [.lexeme x]) outer rest m' := by
  obtain ⟨target, r', hn, he, rfl⟩ := advance_ok hm
  rw [h.phase] at hn he
  obtain ⟨-, ht, ho⟩ := input_tracks h.tracks h.behind hx he
  rcases Phase.next_common hn with ⟨rfl, -⟩ | ⟨b, hk, -⟩
  · exact ⟨rfl, ho.trans h.outer, ht, Level.behind_concat_lexeme level x, h.numbers.2⟩
  · cases b <;> simp [hk, Brackets.opening, LexemeKind.isLoose, LexemeKind.isRangePart] at hx

private theorem At.advance_closing {inside : Level} {parent : Scope} (opening : Lexeme) (hp : parent.Tracks level)
    (hx : x.kind = .groupEnd) (h : At inside (parent :: outer) (x :: rest) m) (hm : p.advance m x = .ok m') :
    At (level ++ [.group opening inside x]) outer rest m' := by
  obtain ⟨target, r', -, he, -⟩ := advance_ok hm
  rw [h.phase] at he
  have hi := input_ok he
  rw [hx] at hi
  obtain ⟨_, _, query, -, hq, -⟩ := hi
  exact (leave_group opening hp (h.tracks.joined hq) hx h).of_eq hm

mutual

/-- What is read stands behind the parts it is made of, whatever rules these break. -/
theorem at_part (p : Parser) : ∀ {part : Part}, part.Shaped → ∀ {level : Level} {outer : List Scope}
    {rest : List Lexeme} {m m' : Machine Progress}, At level outer (part.lexemes ++ rest) m →
      part.lexemes.foldlM p.advance m = .ok m' → At (level ++ [part]) outer rest m'
  | .lexeme x, hs, level, outer, rest, m, m', h, hm => by
    obtain ⟨m₁, hx, hnil⟩ := bind_eq_ok.1 hm
    cases hnil
    exact h.advance_loose hs hx
  | .range .., hs, level, outer, rest, m, m', h, hm => (run_range hs h).of_eq hm
  | .group opening inside closing, hs, level, outer, rest, m, m', h, hm => by
    obtain ⟨hopening, hinside, hclosing⟩ := hs
    simp only [lexemes, List.cons_append, List.append_assoc, List.nil_append] at h
    obtain ⟨m₁, hm₁, h₁⟩ := enter_group hopening h
    rw [lexemes, List.foldlM_cons, hm₁] at hm
    obtain ⟨m₂, hm₂, hm⟩ := foldlM_append_eq_ok.1 hm
    obtain ⟨m₃, hm₃, hnil⟩ := bind_eq_ok.1 hm
    cases hnil
    exact (at_parts p hinside h₁ hm₂).advance_closing opening h.tracks hclosing hm₃

theorem at_parts (p : Parser) : ∀ {ps : List Part}, AllShaped ps → ∀ {level : Level} {outer : List Scope}
    {rest : List Lexeme} {m m' : Machine Progress}, At level outer (lexemesOf ps ++ rest) m →
      (lexemesOf ps).foldlM p.advance m = .ok m' → At (level ++ ps) outer rest m'
  | [], _, level, outer, rest, m, m', h, hm => by
    cases hm
    rw [List.append_nil]
    exact h
  | part :: ps, hs, level, outer, rest, m, m', h, hm => by
    rw [lexemesOf, List.append_assoc] at h
    obtain ⟨m₁, hm₁, hm⟩ := foldlM_append_eq_ok.1 hm
    rw [List.append_cons]
    exact at_parts p hs.2 (at_part p hs.1 h hm₁) hm

end

/-- An opening parenthesis that is read begins a level. -/
theorem at_of_opening (hx : x.kind = .groupStart) (hm : p.advance m x = .ok m')
    (hn : Lexeme.NumbersPlaced (some x.kind) rest) : At [] (m.data.scope :: m.data.outer) rest m' := by
  obtain ⟨target, r', hnext, he, rfl⟩ := advance_ok hm
  obtain ⟨phase, r⟩ := m
  cases phase with
  | common =>
    have hi := input_ok he
    rw [hx] at hi hnext
    obtain rfl := hi
    obtain rfl := Option.some.inj hnext
    refine ⟨rfl, rfl, .nil _ _, ?_, hn⟩
    simp only [behind, hx]
    exact .nil (by decide) (by decide)
  | range b part =>
    rw [hx] at hnext
    cases b <;> cases part <;> cases hnext

/-- At the end of a level that is read, its query comes next. -/
theorem at_of_hasLevel (hn : Lexeme.NumbersPlaced none xs) (hl : Lexeme.HasLevel xs read level)
    (hm : read.foldlM p.advance p.start = .ok m) :
    (read = xs ∧ At level [] [] m) ∨ ∃ parent outer closing after, closing.kind = .groupEnd ∧
      read ++ closing :: after = xs ∧ At level (parent :: outer) (closing :: after) m := by
  cases hl with
  | whole hs hread =>
    subst hread
    have hstart : At [] [] (lexemesOf level ++ []) p.start := by
      rw [List.append_nil]
      exact at_start hn
    exact .inl ⟨rfl, at_parts p hs hstart hm⟩
  | @inside before after opening closing level hopening hs hclosing heq =>
    subst heq
    obtain ⟨m₀, hm₀, hrest⟩ := foldlM_append_eq_ok.1 hm
    obtain ⟨m₁, hm₁, hinside⟩ := bind_eq_ok.1 hrest
    have hnumbers : Lexeme.NumbersPlaced (some opening.kind) (lexemesOf level ++ closing :: after) := by
      rw [List.append_assoc] at hn
      exact (numbersPlaced_of_run hn hm₀).2
    have hend := at_parts p hs (at_of_opening hopening hm₁ hnumbers) hinside
    exact .inr ⟨_, _, closing, after, hclosing, rfl, hend⟩

end reading

section causes
variable {xs read before : List Lexeme} {x : Lexeme} {m m' : Machine Progress} {query : Query} {e : Error}

theorem parseLexemes_error (hn : Lexeme.NumbersPlaced none xs) (h : p.parseLexemes xs = .error e) :
    p.Refuses xs e ∨ e.Syntactic ∧ (Unfinished xs e ∨ ∃ x, PointsAt xs e x) := by
  unfold parseLexemes at h
  split at h
  · cases h
  cases hm : xs.foldlM p.advance p.start with
  | error f =>
    rw [hm] at h
    cases h
    obtain ⟨read, x, after, m, hxs, hread, hx⟩ := foldlM_eq_error hm
    rw [← hxs] at hn
    rcases advance_fails hread (numbersPlaced_of_run hn hread).1 hxs hx with hr | ⟨hs, hpoints⟩
    · exact .inl hr
    · exact .inr ⟨hs, .inr hpoints⟩
  | ok m =>
    rw [hm] at h
    exact finish_fails hm h

/-- A word or a phrase that is read has a field it may have. -/
theorem not_refusesField_of_advance (hread : before.foldlM p.advance p.start = .ok m)
    (ho : (Naming.behind before).inRange = false) {missing : String} (hk : missing? x.kind = some missing)
    (hx : p.advance m x = .ok m') : ¬RefusesField p.config (Naming.behind before).field missing e := by
  have hp : m.phase = .common := by
    by_contra hp
    exact Bool.eq_false_iff.1 ho ((follows_of_run hread).inRange.2 hp)
  obtain ⟨target, r', -, he, -⟩ := advance_ok hx
  rw [hp] at he
  rw [← (field_of_run hread hp).2, ← entryField_error_iff]
  intro hf
  cases hkind : x.kind with
  | word =>
    rw [hkind] at hk
    cases hk
    simp [effect, input, hkind, addWord, hf, Except.map] at he
  | phrase =>
    rw [hkind] at hk
    cases hk
    simp [effect, input, hkind, addPhrase, hf, Except.map] at he
  | _ =>
    rw [hkind] at hk
    cases hk

/-- A range that is read has bounds and a field it may have. -/
theorem not_refuses_of_upper {b : Brackets} {start lower upTo upper : Lexeme}
    (hread : (before ++ [start, lower, upTo]).foldlM p.advance p.start = .ok m) (hs : start.kind = b.opening)
    (hl : lower.kind = .word) (hu : upTo.kind = .upTo) (hx : p.advance m upper = .ok m') :
    ¬(p.RefusesBounds lower.text upper.text e ∨
      RefusesField p.config (Naming.behind before).field "Field declaration is missing in range." e) := by
  obtain ⟨hp, htext, hfield⟩ := lower_of_run hread hs hl hu
  obtain ⟨target, r', -, he, -⟩ := advance_ok hx
  rw [hp, effect, addRange_eq] at he
  obtain ⟨entry, hentry, -⟩ := Lexeme.map_eq_ok.1 he
  rw [← htext, ← hfield]
  exact not_refuses_of_rangeEntry hentry e

/-- The query of a level that is read to its end is not refused for a word. -/
theorem not_refusesWord_of_run (hn : Lexeme.NumbersPlaced none xs) (hl : Lexeme.HasLevel xs read level)
    (hm : xs.foldlM p.advance p.start = .ok m) (hq : finish m = .ok query) :
    ¬level.RefusesWord p.config.defaultOperator e := by
  obtain ⟨after, hxs⟩ : ∃ after, read ++ after = xs := by
    cases hl with
    | whole => exact ⟨[], List.append_nil _⟩
    | inside _ _ _ hxs => exact ⟨_, hxs⟩
  rw [← hxs] at hm
  obtain ⟨m₀, hread, hafter⟩ := foldlM_append_eq_ok.1 hm
  rw [← junction_of_run hread]
  rcases at_of_hasLevel hn hl hread with ⟨rfl, hend⟩ | ⟨parent, outer, closing, rest, hclosing, hrest, hend⟩
  · obtain rfl : after = [] := List.append_right_eq_self.1 hxs
    cases hafter
    rw [finish, if_neg (not_not.2 hend.phase), hend.outer] at hq
    exact hend.tracks.not_refusesWord hq e
  · obtain rfl : after = closing :: rest := List.append_cancel_left (hxs.trans hrest.symm)
    obtain ⟨m₁, hx, -⟩ := bind_eq_ok.1 hafter
    obtain ⟨target, r', -, he, -⟩ := advance_ok hx
    rw [hend.phase] at he
    have hi := input_ok he
    rw [hclosing] at hi
    obtain ⟨_, _, query, -, hq, -⟩ := hi
    exact hend.tracks.not_refusesWord hq e

/-- Lexemes with a query are read to their end. -/
theorem run_of_parseLexemes (h : p.parseLexemes xs = .ok query) :
    ∃ m query, xs.foldlM p.advance p.start = .ok m ∧ finish m = .ok query := by
  unfold parseLexemes at h
  split at h
  · rename_i he
    obtain rfl := List.isEmpty_iff.1 he
    exact ⟨p.start, _, rfl, rfl⟩
  · obtain ⟨m, hm, hq⟩ := bind_eq_ok.1 h
    exact ⟨m, query, hm, hq⟩

/-- Lexemes with a query are not refused. -/
theorem not_refuses_of_parseLexemes (hn : Lexeme.NumbersPlaced none xs) (h : p.parseLexemes xs = .ok query)
    (e : Error) : ¬p.Refuses xs e := by
  obtain ⟨m, query, hm, hq⟩ := run_of_parseLexemes h
  intro hrefuses
  cases hrefuses with
  | entry hxs ho hk hf =>
    rw [← hxs] at hm
    obtain ⟨m₀, hread, hrest⟩ := foldlM_append_eq_ok.1 hm
    obtain ⟨m₁, hx, -⟩ := bind_eq_ok.1 hrest
    exact not_refusesField_of_advance hread ho hk hx hf
  | @range b before after start lower upTo upper hxs hs hl ht _ _ hr =>
    have hsplit : before ++ [start, lower, upTo] ++ upper :: after = xs := by simpa using hxs
    rw [← hsplit] at hm
    obtain ⟨m₀, hread, hrest⟩ := foldlM_append_eq_ok.1 hm
    obtain ⟨m₁, hx, -⟩ := bind_eq_ok.1 hrest
    exact not_refuses_of_upper hread hs hl ht hx hr
  | word hl hw => exact not_refusesWord_of_run hn hl hm hq hw

end causes

/-- Strict parsing accepts the well-formed queries, but for those that are refused for what their lexemes mean, and
fails for that. Other queries fail where they are no lexemes, and else for how they are written, unless for what they
mean so far. -/
theorem parseStrict_accepts (p : Parser) (query : String) :
    match Lexeme.tokenize query with
    | .error e => p.parseStrict query = .error e ∧ e.Lexical
    | .ok xs =>
      ((∃ q, p.parseStrict query = .ok q) ↔ Lexeme.WellFormed xs ∧ ∀ e, ¬p.Refuses xs e) ∧
        ∀ e, p.parseStrict query = .error e →
          (e.Refusal ∧ p.Refuses xs e) ∨ (e.Syntactic ∧ ¬Lexeme.WellFormed xs) := by
  cases hx : Lexeme.tokenize query with
  | error e =>
    refine ⟨?_, Lexeme.tokenize_error hx⟩
    simp [parseStrict, hx, Except.bind]
  | ok xs =>
    have hn := Lexeme.tokenize_numbersPlaced hx
    have hp : p.parseStrict query = p.parseLexemes xs := by simp [parseStrict, hx, Except.bind]
    have hfails : ∀ e, p.parseLexemes xs = .error e →
        (e.Refusal ∧ p.Refuses xs e) ∨ (e.Syntactic ∧ ¬Lexeme.WellFormed xs) := by
      intro e he
      rcases parseLexemes_error hn he with href | ⟨hsyn, -⟩
      · exact .inl ⟨href.refusal, href⟩
      refine .inr ⟨hsyn, fun hw => ?_⟩
      have hacc := parseLexemes_complete p hw hn
      rw [he] at hacc
      exact Error.Refusal.not_syntactic hacc hsyn
    rw [hp]
    refine ⟨⟨?_, ?_⟩, hfails⟩
    · rintro ⟨q, hq⟩
      exact ⟨parseLexemes_sound hq, not_refuses_of_parseLexemes hn hq⟩
    · rintro ⟨hw, hnone⟩
      cases hr : p.parseLexemes xs with
      | ok q => exact ⟨q, rfl⟩
      | error e =>
        rcases hfails e hr with ⟨-, href⟩ | ⟨-, hnot⟩
        · exact absurd href (hnone e)
        · exact absurd hw hnot

end Parser

end TextSearch
