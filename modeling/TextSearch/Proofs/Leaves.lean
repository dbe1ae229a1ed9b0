import Mathlib.Data.List.Forall2
import TextSearch.Lexeme.Scan
import TextSearch.Proofs.Execution
import TextSearch.Proofs.Failures
import TextSearch.Query.Resolve

/-! Queries by their leaves, and what resolving the leaves says about the resolved query. -/
namespace TextSearch.Query

/-- Induction on a query, with one step for all clauses of a combination. -/
@[elab_as_elim]
theorem clauseInduction {motive : Query → Prop}
    (boolean : ∀ clauses n, (∀ c ∈ clauses, motive c.2) → motive (boolean clauses n))
    (term : ∀ n, motive (term n)) (multiTerm : ∀ n, motive (multiTerm n)) (phrase : ∀ n, motive (phrase n))
    (wildcard : ∀ n, motive (wildcard n)) (fuzzy : ∀ n, motive (fuzzy n)) (range : ∀ n, motive (range n))
    (insignificant : ∀ b, motive (insignificant b)) (emptyResult : ∀ b, motive (emptyResult b))
    (rawTerm : ∀ n, motive (rawTerm n)) (rawPhrase : ∀ n, motive (rawPhrase n))
    (rawFuzzy : ∀ n, motive (rawFuzzy n)) (q : Query) : motive q := by
  refine Query.rec (motive_1 := motive) (motive_2 := fun clauses => ∀ c ∈ clauses, motive c.2)
    (motive_3 := fun c => motive c.2) boolean term multiTerm phrase wildcard fuzzy range insignificant
    emptyResult rawTerm rawPhrase rawFuzzy ?_ ?_ ?_ q
  · intro c hc
    cases hc
  · intro c clauses hc hclauses
    exact List.forall_mem_cons.2 ⟨hc, hclauses⟩
  · intro occur q hq
    exact hq

mutual

/-- The nodes of a query that are no combinations. -/
def leaves : Query → List Query
  | boolean clauses _ => clauseLeaves clauses
  | q => [q]

def clauseLeaves : List (Occur × Query) → List Query
  | [] => []
  | (_, query) :: rest => query.leaves ++ clauseLeaves rest

end

theorem mem_leaves_boolean {clauses : List (Occur × Query)} {n : Combination} {l : Query} :
    l ∈ (boolean clauses n).leaves ↔ ∃ c ∈ clauses, l ∈ c.2.leaves := by
  rw [leaves]
  induction clauses with
  | nil => simp [clauseLeaves]
  | cons c rest ih => simp [clauseLeaves, ih]

theorem forall_leaves_boolean {clauses : List (Occur × Query)} {n : Combination} {P : Query → Prop} :
    (∀ l ∈ (boolean clauses n).leaves, P l) ↔ ∀ c ∈ clauses, ∀ l ∈ c.2.leaves, P l := by
  simp only [mem_leaves_boolean, forall_exists_index, and_imp]
  exact ⟨fun h c hc l hl => h l c hc hl, fun h l c hc hl => h c hc l hl⟩

theorem boolean_not_mem_leaves {q : Query} {clauses : List (Occur × Query)} {n : Combination} :
    boolean clauses n ∉ q.leaves := by
  induction q using clauseInduction with
  | boolean cs m ih =>
    intro h
    obtain ⟨c, hc, hl⟩ := mem_leaves_boolean.1 h
    exact ih c hc hl
  | _ => exact nofun

section leafMaps
variable {f g : Query → Query} {q : Query} {clauses : List (Occur × Query)} {n : Combination}

mutual

/-- A query with something else in place of each leaf. -/
def mapLeaves (f : Query → Query) : Query → Query
  | boolean clauses n => boolean (mapClauseLeaves f clauses) n
  | q => f q

def mapClauseLeaves (f : Query → Query) : List (Occur × Query) → List (Occur × Query)
  | [] => []
  | (occur, query) :: rest => (occur, query.mapLeaves f) :: mapClauseLeaves f rest

end

theorem mapLeaves_boolean :
    (boolean clauses n).mapLeaves f = boolean (clauses.map fun c => (c.1, c.2.mapLeaves f)) n := by
  rw [mapLeaves]
  congr 1
  induction clauses with
  | nil => rfl
  | cons c rest ih => simp [mapClauseLeaves, ih]

theorem mapLeaves_congr (h : ∀ l ∈ q.leaves, f l = g l) : q.mapLeaves f = q.mapLeaves g := by
  induction q using clauseInduction with
  | boolean clauses n ih =>
    rw [mapLeaves_boolean, mapLeaves_boolean]
    congr 1
    refine List.map_congr_left fun c hc => ?_
    rw [ih c hc (forall_leaves_boolean.1 h c hc)]
  | _ => exact h _ (List.mem_singleton_self _)

theorem mapLeaves_of_leaves (h : q.leaves = [q]) : q.mapLeaves f = f q := by
  cases q with
  | boolean => exact absurd (h ▸ List.mem_singleton_self _) boolean_not_mem_leaves
  | _ => rfl

theorem leaves_of_mem_leaves {l : Query} (h : l ∈ q.leaves) : l.leaves = [l] := by
  cases l with
  | boolean => exact absurd h boolean_not_mem_leaves
  | _ => rfl

theorem mapLeaves_mapLeaves (h : ∀ l ∈ q.leaves, (f l).leaves = [f l]) :
    (q.mapLeaves f).mapLeaves g = q.mapLeaves fun l => g (f l) := by
  induction q using clauseInduction with
  | boolean clauses n ih =>
    rw [mapLeaves_boolean, mapLeaves_boolean, mapLeaves_boolean, List.map_map]
    congr 1
    refine List.map_congr_left fun c hc => ?_
    rw [Function.comp_apply, ih c hc (forall_leaves_boolean.1 h c hc)]
  | _ => exact mapLeaves_of_leaves (h _ (List.mem_singleton_self _))

theorem mem_leaves_mapLeaves (h : ∀ l ∈ q.leaves, (f l).leaves = [f l]) {s : Query} :
    s ∈ (q.mapLeaves f).leaves ↔ ∃ l ∈ q.leaves, s = f l := by
  induction q using clauseInduction with
  | boolean clauses n ih =>
    rw [mapLeaves_boolean, mem_leaves_boolean]
    constructor
    · rintro ⟨_, hd, hs⟩
      obtain ⟨c, hc, rfl⟩ := List.mem_map.1 hd
      obtain ⟨l, hl, rfl⟩ := (ih c hc (forall_leaves_boolean.1 h c hc)).1 hs
      exact ⟨l, mem_leaves_boolean.2 ⟨c, hc, hl⟩, rfl⟩
    · rintro ⟨l, hl, rfl⟩
      obtain ⟨c, hc, hl⟩ := mem_leaves_boolean.1 hl
      exact ⟨_, List.mem_map_of_mem hc, (ih c hc (forall_leaves_boolean.1 h c hc)).2 ⟨l, hl, rfl⟩⟩
  | _ =>
    rw [mapLeaves_of_leaves rfl, h _ (List.mem_singleton_self _)]
    exact ⟨fun hs => ⟨_, List.mem_singleton_self _, List.mem_singleton.1 hs⟩,
      fun ⟨_, hl, hs⟩ => List.mem_singleton.2 (List.mem_singleton.1 hl ▸ hs)⟩

end leafMaps

section resolving
variable {k : Context} {ix : Index} {q r : Query} {clauses resolved : List (Occur × Query)} {n : Combination}

theorem resolveClauses_cons_fst (occur : Occur) (query : Query) (rest : List (Occur × Query)) :
    (resolveClauses k ix ((occur, query) :: rest)).1 = (query.resolve k ix).1.bind fun resolved =>
      (resolveClauses k ix rest).1.map fun others => (occur, resolved) :: others := by
  rw [resolveClauses]
  split <;> simp [*, Except.bind]

/-- Resolving succeeds for each clause if it does for all of them. -/
theorem resolveClauses_forall₂ (h : (resolveClauses k ix clauses).1 = .ok resolved) :
    List.Forall₂ (fun c d => c.1 = d.1 ∧ (c.2.resolve k ix).1 = .ok d.2) clauses resolved := by
  induction clauses generalizing resolved with
  | nil =>
    cases h
    exact .nil
  | cons c rest ih =>
    rw [resolveClauses_cons_fst] at h
    obtain ⟨query, hquery, h⟩ := bind_eq_ok.1 h
    obtain ⟨others, hothers, rfl⟩ := Lexeme.map_eq_ok.1 h
    exact .cons ⟨rfl, hquery⟩ (ih hothers)

theorem resolveClauses_ok (h : (resolveClauses k ix clauses).1 = .ok resolved) :
    ∀ d ∈ resolved, ∃ c ∈ clauses, (c.2.resolve k ix).1 = .ok d.2 := by
  have hpairs := resolveClauses_forall₂ h
  clear h
  induction hpairs with
  | nil => exact nofun
  | @cons c d rest others hc _ ih =>
    refine List.forall_mem_cons.2 ⟨⟨c, List.mem_cons_self, hc.2⟩, fun e he => ?_⟩
    obtain ⟨c', hc', he⟩ := ih e he
    exact ⟨c', List.mem_cons_of_mem _ hc', he⟩

theorem resolve_boolean_fst : ((boolean clauses n).resolve k ix).1 =
    (resolveClauses k ix clauses).1.map fun resolved => ofClauses resolved n.boost := by
  rw [resolve]
  split <;> simp [*, Except.map]

theorem resolve_boolean_snd :
    ((boolean clauses n).resolve k ix).2 = boolean (resolveClauses k ix clauses).2 n := by
  rw [resolve]
  split <;> simp [*]

theorem resolve_boolean_ok (h : ((boolean clauses n).resolve k ix).1 = .ok r) :
    ∃ resolved, (resolveClauses k ix clauses).1 = .ok resolved ∧ r = ofClauses resolved n.boost := by
  rw [resolve_boolean_fst] at h
  obtain ⟨resolved, hr, rfl⟩ := Lexeme.map_eq_ok.1 h
  exact ⟨resolved, hr, rfl⟩

theorem resolve_leaf_ok (h : (q.resolve k ix).1 = .ok r) : ∀ l ∈ q.leaves, ∃ s, (l.resolve k ix).1 = .ok s := by
  induction q using clauseInduction generalizing r with
  | boolean clauses n ih =>
    obtain ⟨resolved, hr, -⟩ := resolve_boolean_ok h
    refine forall_leaves_boolean.2 ?_
    have hpairs := resolveClauses_forall₂ hr
    clear h hr
    induction hpairs with
    | nil => exact nofun
    | cons hc _ ihr =>
      obtain ⟨hquery, hrest⟩ := List.forall_mem_cons.1 ih
      exact List.forall_mem_cons.2 ⟨hquery hc.2, ihr hrest⟩
  | _ => exact List.forall_mem_singleton.2 ⟨r, h⟩

/-- What holds of whatever the leaves are resolved to, and of new combinations of what it holds of, holds of
the resolved query. -/
theorem resolve_of_leaves {P : Query → Prop}
    (combine : ∀ clauses b, (∀ c ∈ clauses, P c.2) → P (ofClauses clauses b))
    (leaf : ∀ l ∈ q.leaves, ∀ s, (l.resolve k ix).1 = .ok s → P s)
    (h : (q.resolve k ix).1 = .ok r) : P r := by
  induction q using clauseInduction generalizing r with
  | boolean clauses n ih =>
    obtain ⟨resolved, hr, rfl⟩ := resolve_boolean_ok h
    refine combine resolved n.boost fun d hd => ?_
    obtain ⟨c, hc, hd⟩ := resolveClauses_ok hr d hd
    exact ih c hc (fun l hl => leaf l (mem_leaves_boolean.2 ⟨c, hc, hl⟩)) hd
  | _ => exact leaf _ (List.mem_singleton_self _) _ h

/-- Each leaf of the resolved query comes from one leaf. -/
theorem resolve_leaves (h : (q.resolve k ix).1 = .ok r) :
    ∀ l ∈ r.leaves, ∃ part ∈ q.leaves, ∃ s, (part.resolve k ix).1 = .ok s ∧ l ∈ s.leaves := by
  refine resolve_of_leaves
    (P := fun r => ∀ l ∈ r.leaves, ∃ part ∈ q.leaves, ∃ s, (part.resolve k ix).1 = .ok s ∧ l ∈ s.leaves)
    (fun _ _ hc => forall_leaves_boolean.2 hc) (fun part hpart s hs l hl => ?_) h
  exact ⟨part, hpart, s, hs, hl⟩

end resolving

end TextSearch.Query
