import TextSearch.Proofs.Fields
import TextSearch.Proofs.Resolving

/-! The fields in which the parts of a parsed query are looked for. A part without a field is looked for in the
search fields of the configuration, unless it is a range or a word of a fallback, which are looked for
everywhere. -/
namespace TextSearch

namespace Query

variable {fields : List String} {q l : Query} {k : Context} {ix : Index}

theorem Primitive.eachField (h : q.Primitive fields) :
    q.EachField fun field => ∃ f ∈ fields, field = some f := by
  induction h with
  | boolean b _ ih => exact eachField_ofClauses b ih
  | term ht => exact List.forall_mem_singleton.2 (List.forall_mem_singleton.2 ht)
  | multiTerm _ ht | phrase _ ht => exact List.forall_mem_singleton.2 (List.forall_mem_map.2 ht)
  | insignificant b => exact eachField_insignificant b
  | emptyResult b => exact List.forall_mem_singleton.2 nofun

/-- The leaves that the parser makes of what it reads. -/
def Parsed : Query → Prop
  | rawTerm _ | rawPhrase _ | rawFuzzy _ | range _ | insignificant _ => True
  | _ => False

def FieldlessRange : Query → Prop
  | range n => n.field = none
  | _ => False

theorem Parsed.sharesField (h : l.Parsed) : l.SharesField := by
  cases l with
  | phrase => cases h
  | _ => trivial

theorem Context.mem_fieldsOf {field : Option String} {f : String} (h : f ∈ k.fieldsOf ix field) :
    some f = field ∨ f ∈ k.searchFields ix := by
  cases field with
  | some g => exact .inl (congrArg some (List.mem_singleton.1 h))
  | none => exact .inr h

/-- A leaf as the parser makes it is looked for in its own field or in the search fields, or it is a range
that may be anywhere. -/
theorem Parsed.searchedFields (h : l.Parsed) {f : String} (hf : f ∈ l.searchedFields k ix) :
    some f ∈ l.ownFields ∨ f ∈ k.searchFields ix ∨ (l.FieldlessRange ∧ f ∈ ix.fieldNames) := by
  cases l with
  | rawTerm n | rawPhrase n | rawFuzzy n =>
    exact (Context.mem_fieldsOf hf).imp List.mem_singleton.2 .inl
  | range n =>
    change f ∈ ix.fieldsOf n.field at hf
    cases hn : n.field with
    | some g =>
      rw [hn] at hf
      cases List.mem_singleton.1 hf
      exact .inl (List.mem_singleton.2 hn.symm)
    | none =>
      rw [hn] at hf
      exact .inr (.inr ⟨hn, hf⟩)
  | insignificant b => cases hf
  | boolean | term | multiTerm | phrase | wildcard | fuzzy | emptyResult => cases h

theorem parsed_withBoost (h : ∀ l ∈ q.leaves, l.Parsed) (b : Float32) :
    ∀ l ∈ (q.withBoost b).leaves, l.Parsed := by
  cases q with
  | boolean clauses n => exact forall_leaves_boolean.2 (forall_leaves_boolean.1 h)
  | _ =>
    have hleaf := h _ (List.mem_singleton_self _)
    exact List.forall_mem_singleton.2 hleaf

end Query

namespace Entry

def Parsed : Entry → Prop
  | term .. | phrase .. => True
  | subquery query _ => ∀ l ∈ query.leaves, l.Parsed

variable {entry entry' : Entry} {q : Query}

theorem Parsed.toQuery (h : entry.Parsed) (hq : entry.toQuery = .ok q) : ∀ l ∈ q.leaves, l.Parsed := by
  cases entry with
  | term word field similarity boost =>
    cases similarity with
    | none =>
      cases hq
      exact List.forall_mem_singleton.2 trivial
    | some s =>
      obtain ⟨_, -, rfl⟩ := Lexeme.map_eq_ok.1 hq
      exact List.forall_mem_singleton.2 trivial
  | phrase text field slop boost =>
    cases hq
    exact List.forall_mem_singleton.2 trivial
  | subquery query boost =>
    cases hq
    exact Query.parsed_withBoost h _

theorem parsed_level {s : Scope} (h : s.Entries Parsed) (hq : s.toQuery = .ok q) : ∀ l ∈ q.leaves, l.Parsed :=
  Scope.toQuery_of_entries (fun _ _ hc => Query.forall_leaves_boolean.2 hc)
    (List.forall_mem_singleton.2 trivial) (fun entry sign hm _ => (h entry sign hm).toQuery) hq

theorem kept_parsed : Kept Parsed where
  loosen {entry _ _} h hl := by
    cases entry with
    | term | phrase =>
      cases hl
      trivial
    | subquery => cases hl
  multiplyBoost {entry} _ h := by
    cases entry <;> exact h
  group := parsed_level

end Entry

namespace Parser

variable {p : Parser} {xs : List Lexeme} {m : Machine Progress} {s : String} {out : Outcome} {c : Config}
  {packages : Packages} {ix : Index} {r : Query}

theorem begins_parsed (p : Parser) (r : Progress) : p.Begins Entry.Parsed r where
  word _ _ := trivial
  phrase _ _ := trivial
  range _ := List.forall_mem_singleton.2 trivial

theorem run_parsed (hm : xs.foldlM p.advance p.start = .ok m) : AllEntries Entry.Parsed m.data := by
  have hstep {x : Lexeme} {m m' : Machine Progress} (h : AllEntries Entry.Parsed m.data)
      (hm : p.advance m x = .ok m') : AllEntries Entry.Parsed m'.data :=
    advance_entries Entry.kept_parsed (begins_parsed p _) h hm
  exact @run_induction p (fun _ m => AllEntries Entry.Parsed m.data) (fun h hm => hstep h hm) [] xs p.start m
    (allEntries_start p _) hm

theorem parseLexemes_parsed {query : Query} (h : p.parseLexemes xs = .ok query) :
    ∀ l ∈ query.leaves, l.Parsed := by
  obtain rfl | ⟨m, hm, hq⟩ := parseLexemes_ok h
  · exact List.forall_mem_singleton.2 trivial
  · exact Entry.parsed_level (run_parsed hm m.data.scope List.mem_cons_self) hq

theorem ofConfig_ok (h : Parser.ofConfig packages c = .ok p) :
    p = { config := c, context := .ofConfig c (.ofConfig packages c.analyzer) } := by
  obtain ⟨_, -, rfl⟩ := Lexeme.map_eq_ok.1 h
  rfl

/-- The index field of a field that a query string names. -/
def NamesField (c : Config) (s f : String) : Prop :=
  ∃ xs, Lexeme.tokenize s = .ok xs ∧ ∃ x ∈ xs, x.kind = .field ∧ f = c.mapped x.text

theorem searchFields_configured (hp : Parser.ofConfig packages c = .ok p) (hc : c.defaultSearchFields ≠ []) :
    p.context.searchFields ix = c.defaultSearchFields := by
  rw [ofConfig_ok hp]
  exact if_neg (by simpa [Context.ofConfig] using hc)

/-- What a query was parsed to is looked for in these fields. -/
theorem parse_searchedFields (hp : Parser.ofConfig packages c = .ok p) (hc : c.defaultSearchFields ≠ [])
    (h : p.parse s = .ok out) {l : Query} (hl : l ∈ out.query.leaves) {f : String}
    (hf : f ∈ l.searchedFields p.context ix) :
    f ∈ c.defaultSearchFields ∨ (some f ∈ l.ownFields ∧ NamesField c s f) ∨
      (f ∈ ix.fieldNames ∧ (out.suppressed.isSome = true ∨ l.FieldlessRange)) := by
  rcases parse_ok_cases h with ⟨-, hq⟩ | ⟨e, hs, -, -, hq⟩
  · obtain ⟨xs, hxs, hq⟩ := bind_eq_ok.1 hq
    rcases (parseLexemes_parsed hq l hl).searchedFields hf with hown | hdefault | ⟨hrange, hindex⟩
    · obtain ⟨x, hx, hk, -, hmapped⟩ := parseLexemes_names hq l hl (some f) hown
      rw [ofConfig_ok hp] at hmapped
      exact .inr (.inl ⟨hown, xs, hxs, x, hx, hk, hmapped⟩)
    · rw [searchFields_configured hp hc] at hdefault
      exact .inl hdefault
    · exact .inr (.inr ⟨hindex, .inr hrange⟩)
  · have hindex : f ∈ ix.fieldNames := by
      rw [hq] at hl
      cases List.mem_singleton.1 hl
      obtain ⟨t, ht, hf⟩ := List.mem_flatMap.1 hf
      obtain ⟨word, -, rfl⟩ := List.mem_map.1 ht
      exact hf
    exact .inr (.inr ⟨hindex, .inl (by rw [hs]; rfl)⟩)

theorem parse_sharesField (h : p.parse s = .ok out) : ∀ l ∈ out.query.leaves, l.SharesField := by
  rcases parse_ok_cases h with ⟨-, hq⟩ | ⟨e, -, -, -, hq⟩
  · obtain ⟨xs, -, hq⟩ := bind_eq_ok.1 hq
    exact fun l hl => (parseLexemes_parsed hq l hl).sharesField
  · rw [hq]
    exact List.forall_mem_singleton.2 trivial

/-- With search fields in its configuration, a parser's query is resolved to terms of these fields and of those
that the query string names for the part they come from. Other fields of the index occur only for a range without
a field, or if the query is a fallback. -/
theorem parse_resolves_configured (hp : Parser.ofConfig packages c = .ok p) (hc : c.defaultSearchFields ≠ [])
    (h : p.parse s = .ok out) (hr : (out.query.resolve p.context ix).1 = .ok r) :
    ∀ l ∈ r.leaves, ∃ part ∈ out.query.leaves,
      (∃ resolved, (part.resolve p.context ix).1 = .ok resolved ∧ l ∈ resolved.leaves) ∧
      ∀ field ∈ l.ownFields, ∃ f, field = some f ∧
        (f ∈ c.defaultSearchFields ∨ (some f ∈ part.ownFields ∧ NamesField c s f) ∨
          (f ∈ ix.fieldNames ∧ (out.suppressed.isSome = true ∨ part.FieldlessRange))) := by
  intro l hl
  obtain ⟨part, hpart, resolved, hresolved, hl⟩ := Query.resolve_leaves hr l hl
  refine ⟨part, hpart, ⟨resolved, hresolved, hl⟩, fun field hfield => ?_⟩
  have hleaf := Query.leaves_of_mem_leaves hpart
  have hprimitive := Query.resolve_primitive (q := part)
    (by rw [hleaf]; exact List.forall_mem_singleton.2 (parse_sharesField h part hpart)) hresolved
  obtain ⟨f, hf, rfl⟩ := hprimitive.eachField l hl field hfield
  rw [hleaf, List.flatMap_singleton] at hf
  exact ⟨f, rfl, parse_searchedFields hp hc h hpart hf⟩

/-- Parts without a field are to be looked for in the titles. -/
def titlesConfig : Config := { defaultSearchFields := ["title"] }

def titlesParser : Parser :=
  { config := titlesConfig, context := .ofConfig titlesConfig (.ofConfig .bare titlesConfig.analyzer) }

/-- A document whose title and text hold the same word. -/
def titledDocument : Index :=
  ({ analyzer := .ofConfig .bare {} } : Index).add [("title", .text "b"), ("text", .text "b")]

/-- The fields of all terms of a query string that is parsed and resolved. -/
def resolvedFields (p : Parser) (ix : Index) (s : String) : Option (List (Option String)) :=
  match p.parse s with
  | .error _ => none
  | .ok out =>
    match (out.query.resolve p.context ix).1 with
    | .error _ => none
    | .ok r => some (r.leaves.flatMap Query.ownFields)

theorem resolvedFields_eq {fields : List (Option String)} (h : p.resolvedFields ix s = some fields) :
    ∃ out r, p.parse s = .ok out ∧ (out.query.resolve p.context ix).1 = .ok r ∧
      fields = r.leaves.flatMap Query.ownFields := by
  unfold resolvedFields at h
  split at h
  · cases h
  split at h
  · cases h
  rename_i out hout _ r hr
  cases h
  exact ⟨out, r, hout, hr, rfl⟩

theorem titledDocument_resolves_configured : Parser.ofConfig .bare titlesConfig = .ok titlesParser ∧
    titlesConfig.defaultSearchFields ≠ [] ∧
    ∃ out r, titlesParser.parse "b text:b" = .ok out ∧
      (out.query.resolve titlesParser.context titledDocument).1 = .ok r ∧
      r.leaves.flatMap Query.ownFields = [some "title", some "text"] ∧
      ∀ l ∈ r.leaves, ∃ part ∈ out.query.leaves,
        (∃ resolved, (part.resolve titlesParser.context titledDocument).1 = .ok resolved ∧ l ∈ resolved.leaves) ∧
        ∀ field ∈ l.ownFields, ∃ f, field = some f ∧
          (f ∈ titlesConfig.defaultSearchFields ∨ (some f ∈ part.ownFields ∧ NamesField titlesConfig "b text:b" f) ∨
            (f ∈ titledDocument.fieldNames ∧ (out.suppressed.isSome = true ∨ part.FieldlessRange))) := by
  have hfields : titlesParser.resolvedFields titledDocument "b text:b" = some [some "title", some "text"] := by
    decide +kernel
  obtain ⟨out, r, hout, hr, hown⟩ := resolvedFields_eq hfields
  exact ⟨rfl, nofun, out, r, hout, hr, hown.symm, parse_resolves_configured rfl nofun hout hr⟩

/-- A range without a field finds a word in the text, though only titles are to be searched. -/
theorem range_searches_text : Parser.ofConfig .bare titlesConfig = .ok titlesParser ∧
    titlesConfig.defaultSearchFields ≠ [] ∧
    ∃ out r, titlesParser.parse "[a TO c]" = .ok out ∧
      (out.query.resolve titlesParser.context titledDocument).1 = .ok r ∧
      (∃ l ∈ r.leaves, some "text" ∈ l.ownFields) ∧ "text" ∉ titlesConfig.defaultSearchFields ∧
      ¬NamesField titlesConfig "[a TO c]" "text" := by
  have hfields : titlesParser.resolvedFields titledDocument "[a TO c]" = some [some "title", some "text"] := by
    decide +kernel
  have hread : (match Lexeme.tokenize "[a TO c]" with
      | .ok xs => xs.all fun x => x.kind != .field
      | .error _ => true) = true := by
    decide +kernel
  have hunnamed : ¬NamesField titlesConfig "[a TO c]" "text" := by
    rintro ⟨xs, hxs, x, hx, hk, -⟩
    rw [hxs] at hread
    have hkind := List.all_eq_true.1 hread x hx
    simp [hk] at hkind
  obtain ⟨out, r, hout, hr, hown⟩ := resolvedFields_eq hfields
  have htext : some "text" ∈ r.leaves.flatMap Query.ownFields := by simp [← hown]
  exact ⟨rfl, nofun, out, r, hout, hr, List.mem_flatMap.1 htext, by decide, hunnamed⟩

end Parser

end TextSearch
