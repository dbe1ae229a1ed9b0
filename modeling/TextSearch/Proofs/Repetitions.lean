import TextSearch.Proofs.Addresses

/-! What the preferred match of a pattern leaves of a text, and that repetitions prefer as many steps as there are. -/
namespace TextSearch

namespace Pattern

/-- A text that does not begin with an accepted character. -/
def Stops (accepts : Char → Bool) (s : List Char) : Prop := ∀ c ∈ s.head?, accepts c = false

/-- A step that, each time at its first choice, leads in `n` times from a text to what is left of it. -/
inductive Leads (step : List Char → List (List Char)) : Nat → List Char → List Char → Prop
  | none {s : List Char} : Leads step 0 s s
  | more {n : Nat} {s t u : List Char} : (step s).head? = some t → Leads step n t u → Leads step (n + 1) s u

section repeated
variable {step : List Char → List (List Char)} {least most : Nat} {s : List Char}

/-- As many repetitions as can be come first. -/
theorem Leads.head?_repeated {n : Nat} {t : List Char} (h : Leads step n s t) (hleast : least ≤ n) (hmost : n ≤ most)
    (hstop : n = most ∨ step t = []) : (repeated step least most s).head? = some t := by
  induction h generalizing least most with
  | none =>
    obtain rfl := Nat.le_zero.1 hleast
    cases most with
    | zero => rfl
    | succ most =>
      have hstep := hstop.resolve_left (Nat.succ_ne_zero most).symm
      rw [repeated, hstep]
      rfl
  | @more n s t u hfirst _ ih =>
    obtain ⟨most, rfl⟩ := Nat.exists_eq_add_one.2 (Nat.zero_lt_of_lt hmost)
    obtain ⟨others, hothers⟩ := List.head?_eq_some_iff.1 hfirst
    have hrest (least : Nat) (hleast : least ≤ n) :
        ((step s).flatMap (repeated step least most)).head? = some u := by
      have hlast := ih hleast (Nat.le_of_succ_le_succ hmost) (hstop.imp_left Nat.succ.inj)
      rw [hothers, List.flatMap_cons, List.head?_append, hlast, Option.some_or]
    cases least with
    | zero => rw [repeated, List.head?_append, hrest 0 (Nat.zero_le n), Option.some_or]
    | succ least => exact hrest least (Nat.le_of_succ_le_succ hleast)

/-- What repetitions leave is either the text itself or what they leave behind a first step. -/
theorem mem_repeated {r : List Char} (h : r ∈ repeated step least most s) :
    (least = 0 ∧ r = s) ∨ ∃ t ∈ step s, ∃ fewer, most = fewer + 1 ∧ r ∈ repeated step (least - 1) fewer t := by
  cases most with
  | zero =>
    cases least with
    | zero => exact .inl ⟨rfl, List.mem_singleton.1 h⟩
    | succ => cases h
  | succ most =>
    cases least with
    | zero =>
      rcases List.mem_append.1 h with h | h
      · obtain ⟨t, ht, hr⟩ := List.mem_flatMap.1 h
        exact .inr ⟨t, ht, most, rfl, hr⟩
      · exact .inl ⟨rfl, List.mem_singleton.1 h⟩
    | succ least =>
      obtain ⟨t, ht, hr⟩ := List.mem_flatMap.1 h
      exact .inr ⟨t, ht, most, rfl, hr⟩

theorem repeated_eq_nil (hleast : 0 < least) (h : step s = []) : repeated step least most s = [] := by
  apply List.eq_nil_iff_forall_not_mem.2
  intro r hr
  rcases mem_repeated hr with ⟨hzero, -⟩ | ⟨t, ht, -⟩
  · omega
  · rw [h] at ht
    cases ht

theorem repeated_one : repeated step 1 1 s = step s := by
  rw [repeated]
  exact List.flatMap_singleton' (step s)

/-- A run of accepted characters is taken whole first. Any shorter match stops before such a character. -/
theorem repeated_one_accepts {accepts : Char → Bool} {run t : List Char} (hrun : ∀ c ∈ run, accepts c = true)
    (ht : Stops accepts t) (hleast : least ≤ run.length) (hmost : run.length ≤ most) :
    ∃ others, repeated (one accepts).rests least most (run ++ t) = t :: others ∧
      ∀ r ∈ others, ¬Stops accepts r := by
  induction run generalizing least most with
  | nil =>
    obtain rfl := Nat.le_zero.1 hleast
    refine ⟨[], ?_, nofun⟩
    cases most with
    | zero => rfl
    | succ most =>
      cases t with
      | nil => rfl
      | cons c t => simp [repeated, rests, ht c rfl]
  | cons c run ih =>
    obtain ⟨hc, hrun⟩ := List.forall_mem_cons.1 hrun
    obtain ⟨most, rfl⟩ := Nat.exists_eq_add_one.2 (Nat.zero_lt_of_lt hmost)
    have hmost : run.length ≤ most := Nat.le_of_succ_le_succ hmost
    have hstep : (one accepts).rests (c :: (run ++ t)) = [run ++ t] := by simp [rests, hc]
    cases least with
    | zero =>
      obtain ⟨others, hothers, hstops⟩ := ih hrun (Nat.zero_le _) hmost
      refine ⟨others ++ [c :: (run ++ t)], by simp [repeated, hstep, hothers], ?_⟩
      refine List.forall_mem_append.2 ⟨hstops, List.forall_mem_singleton.2 fun hs => ?_⟩
      exact Bool.false_ne_true ((hs c rfl).symm.trans hc)
    | succ least =>
      obtain ⟨others, hothers, hstops⟩ := ih hrun (Nat.le_of_succ_le_succ hleast) hmost
      exact ⟨others, by simp [repeated, hstep, hothers], hstops⟩

end repeated

section rest?
variable {p q : Pattern} {s t u : List Char}

theorem rest?_seq_of_rest? (hp : p.rest? s = some t) (hq : q.rest? t = some u) : (seq p q).rest? s = some u := by
  obtain ⟨others, hothers⟩ := List.head?_eq_some_iff.1 hp
  have hq : (q.rests t).head? = some u := hq
  rw [rest?, rests, hothers, List.flatMap_cons, List.head?_append, hq, Option.some_or]

theorem rest?_seq_eq_none (h : ∀ r ∈ p.rests s, q.rests r = []) : (seq p q).rest? s = none := by
  rw [rest?, rests, List.flatMap_eq_nil_iff.2 h, List.head?_nil]

theorem rest?_firstOf (ps : List Pattern) (s : List Char) : (firstOf ps).rest? s = ps.findSome? (·.rest? s) := by
  fun_induction firstOf ps with
  | case1 => cases s <;> rfl
  | case2 p => simp
  | case3 p ps _ ih =>
    have halt : (alt p (firstOf ps)).rest? s = (p.rest? s).or ((firstOf ps).rest? s) := List.head?_append
    rw [halt, ih, List.findSome?_cons]
    cases p.rest? s <;> rfl

theorem rest?_eq_none_of_needs {A : Char → Prop} (hp : p.Needs A) (h : ∀ c ∈ s, ¬A c) : p.rest? s = none := by
  cases hrest : p.rest? s with
  | none => rfl
  | some after =>
    obtain ⟨taken, rfl, hm⟩ := rest?_matches hrest
    obtain ⟨c, hc, ha⟩ := hm.needs hp
    exact absurd ha (h c (List.mem_append_left _ hc))

end rest?

end Pattern

end TextSearch
