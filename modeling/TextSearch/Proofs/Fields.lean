import TextSearch.Proofs.Entries
import TextSearch.Proofs.Runs

/-! The fields of a parsed query. A leaf has the index field of an allowed field that the query string names,
or no field at all. -/
namespace TextSearch

namespace Query

/-- The fields of the terms that a leaf holds or stands for. -/
def ownFields : Query → List (Option String)
  | term n => [n.term.field]
  | multiTerm n => n.terms.map (·.2.field)
  | phrase n => n.terms.map (·.1.field)
  | wildcard n => [n.pattern.field]
  | fuzzy n => [n.term.field]
  | range n => [n.field]
  | rawTerm n => [n.field]
  | rawPhrase n => [n.field]
  | rawFuzzy n => [n.field]
  | boolean .. | insignificant _ | emptyResult _ => []

def EachField (P : Option String → Prop) (q : Query) : Prop := ∀ l ∈ q.leaves, ∀ field ∈ l.ownFields, P field

variable {P : Option String → Prop} {q : Query}

theorem eachField_ofClauses {clauses : List (Occur × Query)} (b : Float32)
    (h : ∀ c ∈ clauses, c.2.EachField P) : (ofClauses clauses b).EachField P :=
  forall_leaves_boolean.2 h

theorem eachField_insignificant (b : Float32) : (insignificant b).EachField P := by
  simp [EachField, leaves, ownFields]

theorem EachField.withBoost (h : q.EachField P) (b : Float32) : (q.withBoost b).EachField P := by
  cases q with
  | boolean clauses n => exact forall_leaves_boolean.2 (forall_leaves_boolean.1 h)
  | _ => exact List.forall_mem_singleton.2 (List.forall_mem_singleton.1 h)

end Query

namespace Entry

def EachField (P : Option String → Prop) : Entry → Prop
  | term _ field _ _ | phrase _ field _ _ => P field
  | subquery query _ => query.EachField P

variable {P : Option String → Prop} {entry entry' : Entry}

theorem EachField.toQuery {q : Query} (h : entry.EachField P) (hq : entry.toQuery = .ok q) : q.EachField P := by
  cases entry with
  | term word field similarity boost =>
    cases similarity with
    | none =>
      cases hq
      exact List.forall_mem_singleton.2 (List.forall_mem_singleton.2 h)
    | some s =>
      obtain ⟨_, -, rfl⟩ := Lexeme.map_eq_ok.1 hq
      exact List.forall_mem_singleton.2 (List.forall_mem_singleton.2 h)
  | phrase text field slop boost =>
    cases hq
    exact List.forall_mem_singleton.2 (List.forall_mem_singleton.2 h)
  | subquery query boost =>
    cases hq
    exact Query.EachField.withBoost h _

theorem EachField.loosen {parameter : Option Float32} (h : entry.EachField P)
    (hl : entry.loosen parameter = .ok entry') : entry'.EachField P := by
  cases entry with
  | term | phrase =>
    cases hl
    exact h
  | subquery => cases hl

theorem EachField.multiplyBoost (h : entry.EachField P) (factor : Float32) :
    (entry.multiplyBoost factor).EachField P := by
  cases entry <;> exact h

end Entry

namespace Entry

/-- What the parser keeps of the entries of a level as it changes them and makes one of their group. -/
structure Kept (E : Entry → Prop) : Prop where
  loosen : ∀ {entry entry'} {parameter : Option Float32}, E entry → entry.loosen parameter = .ok entry' → E entry'
  multiplyBoost : ∀ {entry} (factor : Float32), E entry → E (entry.multiplyBoost factor)
  group : ∀ {s : Scope} {q : Query}, s.Entries E → s.toQuery = .ok q → E (.ofQuery q)

end Entry

namespace Scope

abbrev EachField (P : Option String → Prop) (s : Scope) : Prop := s.Entries (Entry.EachField P)

variable {P : Option String → Prop} {E : Entry → Prop} {s s' : Scope}

theorem Entries.loosen (hE : Entry.Kept E) (h : s.Entries E) {parameter : Option Float32}
    (hs : s.loosen parameter = .ok s') : s'.Entries E :=
  h.modifyLast (fun _ _ he hl => hE.loosen he hl) hs

theorem Entries.boost (hE : Entry.Kept E) (h : s.Entries E) {factor : Float32}
    (hs : s.boost factor = .ok s') : s'.Entries E := by
  refine h.modifyLast ?_ hs
  rintro entry _ he ⟨⟩
  exact hE.multiplyBoost factor he

theorem EachField.toQuery {q : Query} (h : s.EachField P) (hq : s.toQuery = .ok q) : q.EachField P :=
  toQuery_of_entries (fun _ b => Query.eachField_ofClauses b) (Query.eachField_insignificant 1)
    (fun entry sign hm _ => (h entry sign hm).toQuery) hq

end Scope

theorem Entry.kept_eachField (P : Option String → Prop) : Kept (EachField P) where
  loosen := .loosen
  multiplyBoost factor h := h.multiplyBoost factor
  group := Scope.EachField.toQuery

namespace Parser

variable {p : Parser} {xs : List Lexeme} {x : Lexeme} {r r' : Progress} {m m' : Machine Progress}
  {P : Option String → Prop} {E : Entry → Prop}

/-- The field of an entry is the index field of an allowed one that is named among the lexemes. There need not
be any if the configuration does not ask for it. -/
def Names (p : Parser) (xs : List Lexeme) : Option String → Prop
  | none => p.config.requireExplicitField = false
  | some field => ∃ x ∈ xs, x.kind = .field ∧ p.config.checkField (some x.text) = .ok () ∧
      field = p.config.mapped x.text

/-- Entries inherit fields as they are named, and map them once. -/
theorem entryField_names (hnamed : ∀ name, r.scope.field = some name → ∃ x ∈ xs, x.kind = .field ∧ x.text = name)
    {missing : String} {field : Option String} (hf : p.entryField r missing = .ok field) : p.Names xs field := by
  unfold entryField at hf
  split at hf
  · cases hf
  rename_i hr
  obtain ⟨_, hc, rfl⟩ := Lexeme.map_eq_ok.1 hf
  cases hs : r.scope.field with
  | none =>
    have hoptional : p.config.requireExplicitField = false := by simpa [hs] using hr
    exact hoptional
  | some named =>
    obtain ⟨x, hx, hk, rfl⟩ := hnamed named hs
    rw [hs] at hc
    exact ⟨x, hx, hk, hc, rfl⟩

theorem rangeEntry_field {lowerText upperText : String} {inclusive : Bool} {entry : Entry}
    (h : p.rangeEntry lowerText upperText inclusive r = .ok entry) :
    ∃ missing range, p.entryField r missing = .ok range.field ∧ entry = .ofQuery (.range range) := by
  obtain ⟨lower, -, h⟩ := bind_eq_ok.1 h
  obtain ⟨upper, -, h⟩ := bind_eq_ok.1 h
  split at h
  · cases h
  rename_i hn
  obtain ⟨field, hf, h⟩ := bind_eq_ok.1 h
  obtain ⟨range, hr, hrange⟩ := between_ok field inclusive (Bool.eq_false_iff.2 hn)
  rw [hr] at h
  cases h
  exact ⟨_, { range with termsLimit := p.context.termsLimit }, by rw [hf, ← hrange], rfl⟩

/-- All entries of the levels that are open are such. -/
def AllEntries (E : Entry → Prop) (r : Progress) : Prop := ∀ s ∈ r.scope :: r.outer, s.Entries E

abbrev EachField (P : Option String → Prop) (r : Progress) : Prop := AllEntries (Entry.EachField P) r

theorem AllEntries.withScope (h : AllEntries E r) {s : Scope} (hs : s.Entries E) :
    AllEntries E (r.withScope s) :=
  List.forall_mem_cons.2 ⟨hs, (List.forall_mem_cons.1 h).2⟩

/-- What holds of the entries that lexemes begin here. -/
structure Begins (p : Parser) (E : Entry → Prop) (r : Progress) : Prop where
  word : ∀ {missing field} (word : String), p.entryField r missing = .ok field → E (.ofWord word field)
  phrase : ∀ {missing field} (text : String), p.entryField r missing = .ok field → E (.ofPhrase text field)
  range : ∀ {missing} {range : RangeQuery}, p.entryField r missing = .ok range.field →
    E (.ofQuery (.range range))

private theorem input_entries (hE : Entry.Kept E) (hb : p.Begins E r) (h : AllEntries E r)
    (hi : p.input x r = .ok r') : AllEntries E r' := by
  obtain ⟨hs, hout⟩ := List.forall_mem_cons.1 h
  have hr := input_ok hi
  cases hk : x.kind with
  | word =>
    simp only [input, hk] at hi
    obtain ⟨field, hfield, rfl⟩ := Lexeme.map_eq_ok.1 hi
    exact h.withScope (hs.addEntry (hb.word x.text hfield))
  | phrase =>
    simp only [input, hk] at hi
    obtain ⟨field, hfield, rfl⟩ := Lexeme.map_eq_ok.1 hi
    exact h.withScope (hs.addEntry (hb.phrase x.text hfield))
  | field =>
    simp only [hk] at hr
    subst hr
    exact h.withScope hs
  | required | prohibited =>
    simp only [hk] at hr
    obtain ⟨s, hr, rfl⟩ := hr
    exact h.withScope (hs.setSign hr)
  | and | or | not =>
    simp only [hk] at hr
    obtain ⟨s, hr, rfl⟩ := hr
    exact h.withScope (hs.addOperator hr)
  | fuzzy =>
    simp only [hk] at hr
    obtain ⟨s, hr, rfl⟩ := hr
    exact h.withScope (hs.loosen hE hr)
  | number =>
    simp only [hk] at hr
    obtain ⟨value, s, -, rfl, ⟨-, hr⟩ | ⟨-, hr⟩⟩ := hr
    · exact h.withScope (hs.loosen hE hr)
    · exact h.withScope (hs.boost hE hr)
  | groupStart =>
    simp only [hk] at hr
    subst hr
    have hinner : r.scope.inner.Entries E := by
      intro entry sign hm
      cases hm
    exact List.forall_mem_cons.2 ⟨hinner, h⟩
  | groupEnd =>
    simp only [hk] at hr
    obtain ⟨parent, outer, query, ho, hq, rfl⟩ := hr
    rw [ho] at hout
    obtain ⟨hparent, hout⟩ := List.forall_mem_cons.1 hout
    exact List.forall_mem_cons.2 ⟨hparent.addEntry (hE.group hs hq), hout⟩
  | boost | closedStart | closedEnd | openedStart | openedEnd | upTo =>
    simp only [hk] at hr
    subst hr
    exact h

/-- What holds of the next entry, whatever it is, holds of all entries behind a lexeme. -/
theorem advance_entries (hE : Entry.Kept E) (hb : p.Begins E m.data) (h : AllEntries E m.data)
    (hm : p.advance m x = .ok m') : AllEntries E m'.data := by
  obtain ⟨target, r', -, he, rfl⟩ := advance_ok hm
  obtain ⟨phase, r⟩ := m
  cases phase with
  | common =>
    have hr : AllEntries E r' := input_entries hE hb h he
    exact hr
  | range b part =>
    cases part with
    | upTo =>
      simp only [effect, addRange_eq] at he
      obtain ⟨entry, hentry, rfl⟩ := Lexeme.map_eq_ok.1 he
      obtain ⟨missing, range, hfield, rfl⟩ := rangeEntry_field hentry
      exact h.withScope ((h r.scope List.mem_cons_self).addEntry (hb.range hfield))
    | start | first | last =>
      cases he
      exact h

theorem begins_eachField (hf : ∀ missing field, p.entryField r missing = .ok field → P field) :
    p.Begins (Entry.EachField P) r where
  word _ h := hf _ _ h
  phrase _ h := hf _ _ h
  range h := List.forall_mem_singleton.2 (List.forall_mem_singleton.2 (hf _ _ h))

theorem allEntries_start (p : Parser) (E : Entry → Prop) : AllEntries E p.start.data :=
  List.forall_mem_singleton.2 nofun

/-- The query of lexemes that were all read is that of the outermost level. -/
theorem parseLexemes_ok {query : Query} (h : p.parseLexemes xs = .ok query) :
    query = .insignificant 1 ∨
      ∃ m, xs.foldlM p.advance p.start = .ok m ∧ m.data.scope.toQuery = .ok query := by
  unfold parseLexemes at h
  split at h
  · cases h
    exact .inl rfl
  obtain ⟨m, hm, hfinish⟩ := bind_eq_ok.1 h
  unfold finish at hfinish
  split at hfinish
  · cases hfinish
  split at hfinish
  · cases hfinish
  exact .inr ⟨m, hm, hfinish⟩

theorem run_names (hm : xs.foldlM p.advance p.start = .ok m) : EachField (p.Names xs) m.data := by
  have hstep {read : List Lexeme} {x : Lexeme} {m m' : Machine Progress}
      (h : p.Follows (Naming.behind read) m ∧ (read <+: xs → EachField (p.Names xs) m.data))
      (hm : p.advance m x = .ok m') :
      p.Follows (Naming.behind (read ++ [x])) m' ∧ (read ++ [x] <+: xs → EachField (p.Names xs) m'.data) := by
    obtain ⟨hfollows, hnames⟩ := h
    refine ⟨by rw [Naming.behind_concat]; exact hfollows.advance hm, fun hx => ?_⟩
    have hread := (List.prefix_append _ _).trans hx
    have hnamed : ∀ name, m.data.scope.field = some name → ∃ x ∈ xs, x.kind = .field ∧ x.text = name := by
      intro name hn
      obtain ⟨y, hy, hfield⟩ := hfollows.named (Naming.takenFrom_behind read) hn
      exact ⟨y, hread.subset hy, hfield⟩
    exact advance_entries (Entry.kept_eachField _) (begins_eachField fun _ _ => entryField_names hnamed)
      (hnames hread) hm
  have hstart : p.Follows (Naming.behind []) p.start ∧ ([] <+: xs → EachField (p.Names xs) p.start.data) :=
    ⟨p.follows_start, fun _ => allEntries_start p _⟩
  exact (run_induction
    (P := fun read m => p.Follows (Naming.behind read) m ∧ (read <+: xs → EachField (p.Names xs) m.data)) hstep
    hstart hm).2 List.prefix_rfl

theorem parseLexemes_names {query : Query} (h : p.parseLexemes xs = .ok query) :
    query.EachField (p.Names xs) := by
  obtain rfl | ⟨m, hm, hq⟩ := parseLexemes_ok h
  · exact Query.eachField_insignificant 1
  · exact Scope.EachField.toQuery (run_names hm m.data.scope List.mem_cons_self) hq

variable {s : String} {out : Outcome}

/-- A query is read in its structure, or as a fallback. -/
theorem parse_ok_cases (h : p.parse s = .ok out) :
    (out.suppressed = none ∧ p.parseStrict s = .ok out.query) ∨
      ∃ e, out.suppressed = some e ∧ p.config.suppressExceptions = true ∧ p.parseStrict s = .error e ∧
        out.query = p.fallback s := by
  unfold parse at h
  split at h
  · rename_i hq
    cases h
    exact .inl ⟨rfl, hq⟩
  rename_i e he
  split at h
  · rename_i hs
    cases h
    exact .inr ⟨e, rfl, (Bool.and_eq_true_iff.1 hs).1, he, rfl⟩
  · cases h

theorem fallback_fields (p : Parser) (s : String) :
    (p.fallback s).ownFields = (p.context.analyzer.terms s).map fun _ => none := by
  simp [fallback, Query.ofTerms, Query.ownFields, Function.comp_def]

/-- Whatever field a leaf of a parsed query has is the index field of an allowed one that the query string
names. -/
theorem parse_field_allowed (ha : p.config.allowedFields ≠ []) (h : p.parse s = .ok out) {l : Query}
    (hl : l ∈ out.query.leaves) {field : String} (hf : some field ∈ l.ownFields) :
    ∃ xs, Lexeme.tokenize s = .ok xs ∧ ∃ x ∈ xs, x.kind = .field ∧ x.text ∈ p.config.allowedFields ∧
      field = p.config.mapped x.text := by
  rcases parse_ok_cases h with ⟨-, hq⟩ | ⟨e, -, -, -, hq⟩
  · obtain ⟨xs, hxs, hq⟩ := bind_eq_ok.1 hq
    obtain ⟨x, hx, hk, hc, hmapped⟩ := parseLexemes_names hq l hl (some field) hf
    refine ⟨xs, hxs, x, hx, hk, ?_, hmapped⟩
    have hnamed : x.text.isEmpty = false := Lexeme.tokenize_named hxs x hx (.inr hk)
    have hallowed : p.config.allowedFields.isEmpty = false := by simpa using ha
    by_contra hnot
    simp [Config.checkField, hnamed, hallowed, hnot] at hc
  · rw [hq] at hl
    cases List.mem_singleton.1 hl
    rw [fallback_fields] at hf
    obtain ⟨_, -, hnone⟩ := List.mem_map.1 hf
    cases hnone

/-- Queries may name one field, which has another name in the index. -/
def titleParser : Parser :=
  let c : Config := { allowedFields := ["title"], fieldMapping := [("title", "t"), ("t", "u")] }
  { config := c, context := .ofConfig c (.ofConfig .bare c.analyzer) }

theorem titleGroup_field_allowed : titleParser.config.allowedFields ≠ [] ∧
    ∃ out, titleParser.parse "title:(a (b))" = .ok out ∧ (∃ l ∈ out.query.leaves, some "t" ∈ l.ownFields) ∧
      ∀ l ∈ out.query.leaves, ∀ field, some field ∈ l.ownFields →
        ∃ xs, Lexeme.tokenize "title:(a (b))" = .ok xs ∧ ∃ x ∈ xs, x.kind = .field ∧
          x.text ∈ titleParser.config.allowedFields ∧ field = titleParser.config.mapped x.text := by
  have hallowed : titleParser.config.allowedFields ≠ [] := nofun
  have hread : (match titleParser.parse "title:(a (b))" with
      | .ok out => out.query.leaves.any fun l => l.ownFields.contains (some "t")
      | .error _ => false) = true := by
    decide +kernel
  cases hout : titleParser.parse "title:(a (b))" with
  | error e =>
    rw [hout] at hread
    cases hread
  | ok out =>
    rw [hout] at hread
    obtain ⟨l, hl, hf⟩ := List.any_eq_true.1 hread
    exact ⟨hallowed, out, rfl, ⟨l, hl, List.contains_iff_mem.1 hf⟩,
      fun _ hl _ hf => parse_field_allowed hallowed hout hl hf⟩

/-- Where every part has to have a field it has one, unless the query is a fallback with any words. There are
no fallbacks if the configuration wants none. -/
theorem parse_fields_required (hr : p.config.requireExplicitField = true) (h : p.parse s = .ok out) :
    ((∀ l ∈ out.query.leaves, ∀ field ∈ l.ownFields, field.isSome = true) ↔
      out.suppressed = none ∨ p.context.analyzer.terms s = []) ∧
    (p.config.suppressExceptions = false → out.suppressed = none) := by
  rcases parse_ok_cases h with ⟨hs, hq⟩ | ⟨e, hs, hsuppress, -, hq⟩
  · refine ⟨⟨fun _ => .inl hs, fun _ l hl field hf => ?_⟩, fun _ => hs⟩
    obtain ⟨xs, -, hq⟩ := bind_eq_ok.1 hq
    have hnames := parseLexemes_names hq l hl field hf
    cases field with
    | none =>
      rw [Names, hr] at hnames
      cases hnames
    | some _ => rfl
  · have hleaf : (∀ l ∈ out.query.leaves, ∀ field ∈ l.ownFields, field.isSome = true) ↔
        ∀ field ∈ (p.context.analyzer.terms s).map fun _ => (none : Option String), field.isSome = true := by
      rw [← fallback_fields, hq]
      exact List.forall_mem_singleton
    rw [hleaf, hs, hsuppress]
    cases p.context.analyzer.terms s <;> simp

/-- Every part of a query has to have a field. -/
def explicitParser : Parser :=
  let c : Config := { requireExplicitField := true }
  { config := c, context := .ofConfig c (.ofConfig .bare c.analyzer) }

theorem titleGroup_fields_required : explicitParser.config.requireExplicitField = true ∧
    ∃ out, explicitParser.parse "title:(a (b))" = .ok out ∧
      ((∀ l ∈ out.query.leaves, ∀ field ∈ l.ownFields, field.isSome = true) ↔
        out.suppressed = none ∨ explicitParser.context.analyzer.terms "title:(a (b))" = []) ∧
      (explicitParser.config.suppressExceptions = false → out.suppressed = none) := by
  have hread : (explicitParser.parse "title:(a (b))").toBool = true := by decide +kernel
  cases hout : explicitParser.parse "title:(a (b))" with
  | error e =>
    rw [hout] at hread
    cases hread
  | ok out => exact ⟨rfl, out, rfl, parse_fields_required rfl hout⟩

/-- A word that is refused for its missing field is found in any field once a bracket stands before it. -/
theorem fallback_has_no_field : Parser.ofConfig .bare { requireExplicitField := true } = .ok explicitParser ∧
    (explicitParser.parse "rust").toBool = false ∧
    ∃ out, explicitParser.parse ") rust" = .ok out ∧ ∃ l ∈ out.query.leaves, none ∈ l.ownFields := by
  have hread : (match explicitParser.parse ") rust" with
      | .ok out => out.query.leaves.any fun l => l.ownFields.contains none
      | .error _ => false) = true := by
    decide +kernel
  cases hout : explicitParser.parse ") rust" with
  | error e =>
    rw [hout] at hread
    cases hread
  | ok out =>
    rw [hout] at hread
    obtain ⟨l, hl, hf⟩ := List.any_eq_true.1 hread
    exact ⟨rfl, by decide +kernel, out, rfl, l, hl, List.contains_iff_mem.1 hf⟩

end Parser

end TextSearch
