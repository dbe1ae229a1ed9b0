import TextSearch.Proofs.Repetitions

/-! Plain addresses and the shapes of the address pattern. One and the same shape comes first and takes all of an
address, however its groups stand around two colons. -/
namespace TextSearch

namespace Address

open Pattern

/-- One to four hexadecimal digits. -/
structure IsGroup (g : List Char) : Prop where
  ne_nil : g ≠ []
  short : g.length ≤ 4
  digits : ∀ c ∈ g, isHexDigit c = true

instance : DecidablePred IsGroup := fun g =>
  decidable_of_iff (g ≠ [] ∧ g.length ≤ 4 ∧ g.all isHexDigit = true)
    ⟨fun ⟨hne, hshort, hdigits⟩ => ⟨hne, hshort, List.all_eq_true.1 hdigits⟩,
      fun h => ⟨h.ne_nil, h.short, List.all_eq_true.2 h.digits⟩⟩

/-- Groups with a colon between any two. -/
def joined (groups : List (List Char)) : List Char := [':'].intercalate groups

/-- Eight groups, or at most seven with two colons where groups are left out. -/
inductive IsShape : List Char → Prop
  | full {groups : List (List Char)} (hlength : groups.length = 8) (hgroups : ∀ g ∈ groups, IsGroup g) :
    IsShape (joined groups)
  | compressed {front back : List (List Char)} (hlength : front.length + back.length ≤ 7)
    (hfront : ∀ g ∈ front, IsGroup g) (hback : ∀ g ∈ back, IsGroup g) :
    IsShape (joined front ++ ':' :: ':' :: joined back)

/-- Nothing, or a slash and a number up to 128 without leading zeros. -/
inductive IsNetwork : List Char → Prop
  | none : IsNetwork []
  | length {n : Nat} (h : n ≤ 128) : IsNetwork ('/' :: Nat.toDigits 10 n)

/-- A plain address. It has neither points nor a zone. -/
def IsPlain (s : List Char) : Prop :=
  ∃ shape network, s = shape ++ network ∧ IsShape shape ∧ IsNetwork network

/-- Groups with a colon behind each. -/
def closed (groups : List (List Char)) : List Char := groups.flatMap (· ++ [':'])

/-- Groups with a colon before each. -/
def opened (groups : List (List Char)) : List Char := groups.flatMap (':' :: ·)

theorem joined_cons (g : List Char) (rest : List (List Char)) : joined (g :: rest) = g ++ opened rest := by
  induction rest generalizing g with
  | nil => simp [joined, opened]
  | cons next rest ih =>
    have hjoined : joined (g :: next :: rest) = g ++ ':' :: joined (next :: rest) := by
      simp [joined, List.intercalate]
    rw [hjoined, ih]
    rfl

theorem opened_append_colon (groups : List (List Char)) : opened groups ++ [':'] = ':' :: closed groups := by
  induction groups with
  | nil => rfl
  | cons g rest ih => simp_all [opened, closed]

theorem closed_cons (g : List Char) (rest : List (List Char)) (s : List Char) :
    closed (g :: rest) ++ s = g ++ ':' :: (closed rest ++ s) := by
  simp [closed]

theorem joined_concat (groups : List (List Char)) (g : List Char) : joined (groups ++ [g]) = closed groups ++ g := by
  cases groups with
  | nil => simp [joined, closed]
  | cons first rest =>
    have hopened : opened (rest ++ [g]) = opened rest ++ [':'] ++ g := by simp [opened]
    rw [List.cons_append, joined_cons, hopened, opened_append_colon, closed_cons, List.cons_append]

theorem joined_append_colon {groups : List (List Char)} (h : groups ≠ []) :
    joined groups ++ [':'] = closed groups := by
  obtain ⟨g, rest, rfl⟩ := List.exists_cons_of_ne_nil h
  rw [joined_cons, List.append_assoc, opened_append_colon]
  simp [closed]

theorem colon_cons_joined {groups : List (List Char)} (h : groups ≠ []) :
    ':' :: joined groups = opened groups := by
  obtain ⟨g, rest, rfl⟩ := List.exists_cons_of_ne_nil h
  rw [joined_cons]
  rfl

section steps
variable {g s t u : List Char} {front back : List (List Char)} {least most : Nat}

theorem stops_cons {c : Char} (h : isHexDigit c = false) (s : List Char) : Stops isHexDigit (c :: s) := by
  rintro _ ⟨⟩
  exact h

theorem not_stops_group (hg : IsGroup g) (s : List Char) : ¬Stops isHexDigit (g ++ s) := by
  obtain ⟨c, rest, rfl⟩ := List.exists_cons_of_ne_nil hg.ne_nil
  intro h
  exact Bool.false_ne_true ((h c rfl).symm.trans (hg.digits c List.mem_cons_self))

theorem rests_colon_of_not_stops (h : ¬Stops isHexDigit s) : (text ":").rests s = [] := by
  cases s with
  | nil => rfl
  | cons c s =>
    have hc : c ≠ ':' := by
      rintro rfl
      exact h (stops_cons (by decide) s)
    simp [text, rests, hc]

theorem rests_group_of_stops (h : Stops isHexDigit s) : group.rests s = [] := by
  apply repeated_eq_nil Nat.one_pos
  cases s with
  | nil => rfl
  | cons c s => simp [rests, h c rfl]

/-- A group is taken whole first. Any shorter match stops before a digit. -/
theorem rests_group (hg : IsGroup g) (ht : Stops isHexDigit t) :
    ∃ others, group.rests (g ++ t) = t :: others ∧ ∀ r ∈ others, ¬Stops isHexDigit r :=
  repeated_one_accepts hg.digits ht (List.length_pos_of_ne_nil hg.ne_nil) hg.short

theorem rests_groupColon (hg : IsGroup g) (ht : Stops isHexDigit t) :
    groupColon.rests (g ++ t) = (text ":").rests t := by
  obtain ⟨others, hothers, hstops⟩ := rests_group hg ht
  have hnone : others.flatMap (text ":").rests = [] :=
    List.flatMap_eq_nil_iff.2 fun r hr => rests_colon_of_not_stops (hstops r hr)
  rw [groupColon, rests, hothers, List.flatMap_cons, hnone, List.append_nil]

theorem rests_groupColon_of_stops (h : Stops isHexDigit s) : groupColon.rests s = [] := by
  rw [groupColon, rests, rests_group_of_stops h, List.flatMap_nil]

theorem rests_colonGroup_of_not_stops (h : ¬Stops isHexDigit s) : colonGroup.rests s = [] := by
  rw [colonGroup, rests, rests_colon_of_not_stops h, List.flatMap_nil]

theorem rests_colonGroup (s : List Char) : colonGroup.rests (':' :: s) = group.rests s :=
  List.append_nil _

/-- A group and the colon behind it are taken in one way only. -/
theorem rests_closed (hg : IsGroup g) (s : List Char) : groupColon.rests (g ++ ':' :: s) = [s] := by
  rw [rests_groupColon hg (stops_cons (by decide) s)]
  rfl

theorem leads_closed (h : ∀ g ∈ front, IsGroup g) (s : List Char) :
    Leads groupColon.rests front.length (closed front ++ s) s := by
  induction front with
  | nil => exact .none
  | cons g rest ih =>
    obtain ⟨hg, hrest⟩ := List.forall_mem_cons.1 h
    rw [closed_cons]
    refine .more ?_ (ih hrest)
    rw [rests_closed hg, List.head?_cons]

theorem stops_opened (ht : Stops isHexDigit t) (back : List (List Char)) : Stops isHexDigit (opened back ++ t) := by
  cases back with
  | nil => exact ht
  | cons g rest => exact stops_cons (by decide) _

theorem leads_opened (h : ∀ g ∈ back, IsGroup g) (ht : Stops isHexDigit t) :
    Leads colonGroup.rests back.length (opened back ++ t) t := by
  induction back with
  | nil => exact .none
  | cons g rest ih =>
    obtain ⟨hg, hrest⟩ := List.forall_mem_cons.1 h
    have hopened : opened (g :: rest) ++ t = ':' :: (g ++ (opened rest ++ t)) := by simp [opened]
    obtain ⟨others, hothers, -⟩ := rests_group hg (stops_opened ht rest)
    rw [hopened]
    refine .more ?_ (ih hrest)
    rw [rests_colonGroup, hothers, List.head?_cons]

/-- Repeated groups with a colon behind each leave the last of these groups. -/
theorem mem_rests_closed (h : ∀ g ∈ front, IsGroup g) (hs : groupColon.rests s = []) {r : List Char}
    (hr : r ∈ (rep groupColon least most).rests (closed front ++ s)) :
    ∃ n, least ≤ n ∧ n ≤ most ∧ n ≤ front.length ∧ r = closed (front.drop n) ++ s := by
  induction front generalizing least most with
  | nil =>
    rcases mem_repeated hr with ⟨rfl, rfl⟩ | ⟨t, ht, -⟩
    · exact ⟨0, Nat.le_refl 0, Nat.zero_le most, Nat.le_refl 0, rfl⟩
    · rw [closed, List.flatMap_nil, List.nil_append, hs] at ht
      cases ht
  | cons g rest ih =>
    obtain ⟨hg, hrest⟩ := List.forall_mem_cons.1 h
    rcases mem_repeated hr with ⟨rfl, rfl⟩ | ⟨t, ht, fewer, rfl, hr⟩
    · exact ⟨0, Nat.le_refl 0, Nat.zero_le most, Nat.zero_le _, rfl⟩
    · rw [closed_cons, rests_closed hg] at ht
      obtain rfl := List.mem_singleton.1 ht
      obtain ⟨n, hleast, hmost, hn, rfl⟩ := ih hrest hr
      refine ⟨n + 1, by omega, Nat.succ_le_succ hmost, ?_, by rw [List.drop_succ_cons]⟩
      rw [List.length_cons]
      exact Nat.succ_le_succ hn

end steps

section shapes
variable {s t network : List Char} {front back : List (List Char)}

/-- Up to `k + 1` groups, two colons and up to `6 - k` groups. -/
def compressedShape (k : Nat) : Pattern := seq (rep groupColon 1 (k + 1)) (rep colonGroup 1 (6 - k))

def fullShape : Pattern := seq (rep groupColon 7 7) group

def leadingShape : Pattern := seq (text ":") (alt (rep colonGroup 1 7) (text ":"))

def trailingShape : Pattern := seq (rep groupColon 1 7) (text ":")

theorem dotted_needs : dotted.Needs (· = '.') := .inl ⟨by decide, .inr (needs_text (by decide))⟩

/-- Where there are neither points nor percent signs, the shapes with a number of groups on both sides of two colons
are tried between that of a full address and those with groups on one side at most. -/
theorem rest?_shapes (hpoint : '.' ∉ s) (hpercent : '%' ∉ s) :
    (firstOf shapes).rest? s =
      (fullShape.rest? s).or (((List.range 6).findSome? fun k => (compressedShape k).rest? s).or
        ((leadingShape.rest? s).or (trailingShape.rest? s))) := by
  have hdotted (p q : Pattern) : (Pattern.sequence [p, q, dotted]).rest? s = none :=
    rest?_eq_none_of_needs (.inr (.inr (.inl dotted_needs))) fun c hc he => hpoint (he ▸ hc)
  have hpercents : (text "%").Needs (· = '%') := needs_text (by decide)
  have hzoned (p q r : Pattern) : (Pattern.sequence [p, q, text "%", r]).rest? s = none :=
    rest?_eq_none_of_needs (.inr (.inr (.inl hpercents))) fun c hc he => hpercent (he ▸ hc)
  have hfirst : (Pattern.sequence [groupColon, rep colonGroup 1 6]).rest? s = (compressedShape 0).rest? s := by
    simp [rest?, rests, Pattern.sequence, compressedShape, repeated_one]
  have hlast : (seq (rep groupColon 1 6) colonGroup).rest? s = (compressedShape 5).rest? s := by
    simp [rest?, rests, compressedShape, repeated_one]
  have hcons {α : Type} (f : α → Option (List Char)) (x : α) (xs : List α) :
      (x :: xs).findSome? f = (f x).or (xs.findSome? f) := by
    rw [List.findSome?_cons]
    cases f x <;> rfl
  have hrange : List.range 6 = [0, 1, 2, 3, 4, 5] := rfl
  rw [rest?_firstOf, hrange]
  simp only [shapes, hcons, hdotted, hzoned, hfirst, hlast, List.findSome?_nil, Option.none_or, Option.or_none,
    Option.or_assoc]
  rfl

theorem rest?_fullShape (h : ∀ g ∈ front, IsGroup g) (hlength : front.length = 8) (ht : Stops isHexDigit t) :
    fullShape.rest? (joined front ++ t) = some t := by
  obtain ⟨init, g, rfl⟩ := List.eq_nil_or_concat' front |>.resolve_left (by rintro rfl; cases hlength)
  obtain ⟨hinit, hg⟩ := List.forall_mem_append.1 h
  have hlength : init.length = 7 := by simpa using hlength
  have hfront := (leads_closed hinit (g ++ t)).head?_repeated hlength.ge hlength.le (.inl hlength)
  obtain ⟨others, hothers, -⟩ := rests_group (List.forall_mem_singleton.1 hg) ht
  rw [joined_concat, List.append_assoc]
  refine rest?_seq_of_rest? hfront ?_
  rw [rest?, hothers, List.head?_cons]

theorem rest?_fullShape_eq_none (h : ∀ g ∈ front, IsGroup g) (hlength : front.length ≤ 7) (s : List Char) :
    fullShape.rest? (closed front ++ ':' :: s) = none := by
  have hcolon : Stops isHexDigit (':' :: s) := stops_cons (by decide) s
  refine rest?_seq_eq_none fun r hr => ?_
  obtain ⟨n, hleast, -, -, rfl⟩ := mem_rests_closed h (rests_groupColon_of_stops hcolon) hr
  rw [List.drop_eq_nil_of_le (hlength.trans hleast)]
  exact rests_group_of_stops hcolon

/-- A shape with too few groups before the two colons, or one for groups where there are none, matches nothing. -/
theorem rest?_compressedShape_eq_none {k : Nat} (h : ∀ g ∈ front, IsGroup g)
    (hnone : k + 1 < front.length ∨ Stops isHexDigit s) :
    (compressedShape k).rest? (closed front ++ ':' :: s) = none := by
  have hcolon : Stops isHexDigit (':' :: s) := stops_cons (by decide) s
  refine rest?_seq_eq_none fun r hr => repeated_eq_nil Nat.one_pos ?_
  obtain ⟨n, -, hmost, hn, rfl⟩ := mem_rests_closed h (rests_groupColon_of_stops hcolon) hr
  cases hdrop : front.drop n with
  | nil =>
    have hle := List.drop_eq_nil_iff.1 hdrop
    have hs := hnone.resolve_left (by omega)
    exact (rests_colonGroup s).trans (rests_group_of_stops hs)
  | cons g rest =>
    have hg : g ∈ front := List.mem_of_mem_drop (hdrop ▸ List.mem_cons_self)
    rw [closed_cons]
    exact rests_colonGroup_of_not_stops (not_stops_group (h g hg) _)

theorem rest?_compressedShape {k : Nat} (hfront : ∀ g ∈ front, IsGroup g) (hback : ∀ g ∈ back, IsGroup g)
    (hk : front.length = k + 1) (hne : back ≠ []) (hlength : front.length + back.length ≤ 7)
    (ht : Stops isHexDigit t) (hnone : colonGroup.rests t = []) :
    (compressedShape k).rest? (closed front ++ (opened back ++ t)) = some t := by
  have hpos := List.length_pos_of_ne_nil hne
  have hfirst : (rep groupColon 1 (k + 1)).rest? (closed front ++ (opened back ++ t)) = some (opened back ++ t) :=
    (leads_closed hfront _).head?_repeated (by omega) hk.le (.inl hk)
  have hrest : (rep colonGroup 1 (6 - k)).rest? (opened back ++ t) = some t :=
    (leads_opened hback ht).head?_repeated hpos (by omega) (.inr hnone)
  exact rest?_seq_of_rest? hfirst hrest

theorem rest?_leadingShape (h : ∀ g ∈ back, IsGroup g) (hlength : back.length ≤ 7) (ht : Stops isHexDigit t)
    (hnone : colonGroup.rests t = []) : leadingShape.rest? (':' :: ':' :: (joined back ++ t)) = some t := by
  have hcolon : (text ":").rest? (':' :: ':' :: (joined back ++ t)) = some (':' :: (joined back ++ t)) := rfl
  refine rest?_seq_of_rest? hcolon ?_
  rw [rest?, rests]
  by_cases hne : back = []
  · subst hne
    have hgroups : colonGroup.rests (':' :: t) = [] := (rests_colonGroup t).trans (rests_group_of_stops ht)
    have hrep : (rep colonGroup 1 7).rests (':' :: t) = [] := repeated_eq_nil Nat.one_pos hgroups
    exact congrArg (fun rests => (rests ++ (text ":").rests (':' :: t)).head?) hrep
  · have hrep : ((rep colonGroup 1 7).rests (opened back ++ t)).head? = some t :=
      (leads_opened h ht).head?_repeated (List.length_pos_of_ne_nil hne) hlength (.inr hnone)
    rw [← List.cons_append, colon_cons_joined hne, List.head?_append, hrep, Option.some_or]

theorem rest?_trailingShape (h : ∀ g ∈ front, IsGroup g) (hne : front ≠ []) (hlength : front.length ≤ 7)
    (s : List Char) : trailingShape.rest? (closed front ++ ':' :: s) = some s := by
  have hcolon : groupColon.rests (':' :: s) = [] := rests_groupColon_of_stops (stops_cons (by decide) s)
  have hgroups : (rep groupColon 1 7).rest? (closed front ++ ':' :: s) = some (':' :: s) :=
    (leads_closed h _).head?_repeated (List.length_pos_of_ne_nil hne) hlength (.inr hcolon)
  exact rest?_seq_of_rest? hgroups rfl

theorem IsNetwork.stops (h : IsNetwork network) : Stops isHexDigit network := by
  cases h with
  | none => exact nofun
  | length => exact stops_cons (by decide) _

theorem IsNetwork.rests_colonGroup (h : IsNetwork network) : colonGroup.rests network = [] := by
  cases h <;> rfl

/-- No network length is cut off: the longer numbers are tried first. -/
theorem networkLength_whole {n : Nat} (h : n ≤ 128) :
    (optional networkLength).rest? ('/' :: Nat.toDigits 10 n) = some [] ∧
      (∀ c ∈ Nat.toDigits 10 n, isHexDigit c = true) ∧ (Nat.toDigits 10 n).length ≤ 3 := by
  have hall : (List.range 129).all (fun n =>
      (optional networkLength).rest? ('/' :: Nat.toDigits 10 n) == some [] &&
        ((Nat.toDigits 10 n).all isHexDigit && (Nat.toDigits 10 n).length ≤ 3)) = true := by
    decide +kernel
  have hn := List.all_eq_true.1 hall n (List.mem_range.2 (Nat.lt_succ_of_le h))
  simpa only [Bool.and_eq_true, beq_iff_eq, List.all_eq_true, decide_eq_true_eq] using hn

theorem IsNetwork.rest? (h : IsNetwork network) : (optional networkLength).rest? network = some [] := by
  cases h with
  | none => rfl
  | length h => exact (networkLength_whole h).1

private theorem findSome?_range {α : Type} {f : Nat → Option α} {n k : Nat} {a : α} (hk : k < n) (hf : f k = some a)
    (hnone : ∀ i < k, f i = none) : (List.range n).findSome? f = some a := by
  induction n with
  | zero => cases hk
  | succ n ih =>
    rw [List.range_succ, List.findSome?_append]
    rcases Nat.lt_succ_iff_lt_or_eq.1 hk with hk | rfl
    · rw [ih hk, Option.some_or]
    · have hbefore : (List.range k).findSome? f = none :=
        List.findSome?_eq_none_iff.2 fun i hi => hnone i (List.mem_range.1 hi)
      rw [hbefore, Option.none_or, List.findSome?_singleton, hf]

theorem rest?_leadingShape_eq_none (h : ¬Stops isHexDigit s) : leadingShape.rest? s = none := by
  refine rest?_seq_eq_none fun r hr => ?_
  rw [rests_colon_of_not_stops h] at hr
  cases hr

/-- Two colons that begin an address are left to the shape for them. -/
theorem rest?_shapes_leading (hback : ∀ g ∈ back, IsGroup g) (hlength : back.length ≤ 7) (hn : IsNetwork network)
    (hs : s = ':' :: ':' :: (joined back ++ network)) (hpoint : '.' ∉ s) (hpercent : '%' ∉ s) :
    (firstOf shapes).rest? s = some network := by
  have hnone : ∀ g ∈ [], IsGroup g := nofun
  have hfull : fullShape.rest? s = none := hs ▸ rest?_fullShape_eq_none hnone (Nat.zero_le 7) _
  have hcompressed : ((List.range 6).findSome? fun k => (compressedShape k).rest? s) = none := by
    apply List.findSome?_eq_none_iff.2
    intro k _
    rw [hs]
    exact rest?_compressedShape_eq_none hnone (.inr (stops_cons (by decide) _))
  have hleading : leadingShape.rest? s = some network :=
    hs ▸ rest?_leadingShape hback hlength hn.stops hn.rests_colonGroup
  rw [rest?_shapes hpoint hpercent, hfull, hcompressed, hleading, Option.none_or, Option.none_or, Option.some_or]

section front
variable (hfront : ∀ g ∈ front, IsGroup g) (hne : front ≠ [])
include hfront hne

theorem not_stops_closed (s : List Char) : ¬Stops isHexDigit (closed front ++ s) := by
  obtain ⟨g, rest, rfl⟩ := List.exists_cons_of_ne_nil hne
  rw [closed_cons]
  exact not_stops_group (hfront g List.mem_cons_self) _

/-- Two colons that end an address are left to the last shape. -/
theorem rest?_shapes_trailing (hlength : front.length ≤ 7) (hn : IsNetwork network)
    (hs : s = closed front ++ ':' :: network) (hpoint : '.' ∉ s) (hpercent : '%' ∉ s) :
    (firstOf shapes).rest? s = some network := by
  have hfull : fullShape.rest? s = none := hs ▸ rest?_fullShape_eq_none hfront hlength _
  have hcompressed : ((List.range 6).findSome? fun k => (compressedShape k).rest? s) = none := by
    apply List.findSome?_eq_none_iff.2
    intro k _
    rw [hs]
    exact rest?_compressedShape_eq_none hfront (.inr hn.stops)
  have hleading : leadingShape.rest? s = none := hs ▸ rest?_leadingShape_eq_none (not_stops_closed hfront hne _)
  have htrailing : trailingShape.rest? s = some network := hs ▸ rest?_trailingShape hfront hne hlength network
  rw [rest?_shapes hpoint hpercent, hfull, hcompressed, hleading, htrailing, Option.none_or, Option.none_or,
    Option.none_or]

/-- With groups on both sides of the two colons, the number of those before them says which shape matches. -/
theorem rest?_shapes_between (hback : ∀ g ∈ back, IsGroup g) (hback_ne : back ≠ [])
    (hlength : front.length + back.length ≤ 7) (hn : IsNetwork network)
    (hs : s = closed front ++ ':' :: (joined back ++ network)) (hpoint : '.' ∉ s) (hpercent : '%' ∉ s) :
    (firstOf shapes).rest? s = some network := by
  have hbackLength := List.length_pos_of_ne_nil hback_ne
  obtain ⟨k, hk⟩ := Nat.exists_eq_add_one.2 (List.length_pos_of_ne_nil hne)
  have hopened : s = closed front ++ (opened back ++ network) := by
    rw [hs, ← colon_cons_joined hback_ne, List.cons_append]
  have hfull : fullShape.rest? s = none := hs ▸ rest?_fullShape_eq_none hfront (by omega) _
  have hmatch : (compressedShape k).rest? s = some network :=
    hopened ▸ rest?_compressedShape hfront hback hk hback_ne hlength hn.stops hn.rests_colonGroup
  have hcompressed : ((List.range 6).findSome? fun k => (compressedShape k).rest? s) = some network := by
    apply findSome?_range (by omega : k < 6) hmatch
    intro i hi
    rw [hs]
    exact rest?_compressedShape_eq_none hfront (.inl (by omega))
  rw [rest?_shapes hpoint hpercent, hfull, hcompressed, Option.none_or, Option.some_or]

end front

/-- Whatever the shape, the first alternative that matches takes all of it. -/
theorem IsShape.rest? (h : IsShape s) (hn : IsNetwork network) (hpoint : '.' ∉ s ++ network)
    (hpercent : '%' ∉ s ++ network) : (firstOf shapes).rest? (s ++ network) = some network := by
  cases h with
  | full hlength hgroups =>
    rw [rest?_shapes hpoint hpercent, rest?_fullShape hgroups hlength hn.stops, Option.some_or]
  | @compressed front back hlength hfront hback =>
    by_cases hne : front = []
    · subst hne
      exact rest?_shapes_leading hback (by simpa using hlength) hn rfl hpoint hpercent
    · have htext : joined front ++ ':' :: ':' :: joined back ++ network =
          closed front ++ ':' :: (joined back ++ network) := by
        simp [← joined_append_colon hne]
      by_cases hback_ne : back = []
      · subst hback_ne
        exact rest?_shapes_trailing hfront hne (by omega) hn htext hpoint hpercent
      · exact rest?_shapes_between hfront hne hback hback_ne hlength hn htext hpoint hpercent

end shapes

theorem opened_chars {groups : List (List Char)} (h : ∀ g ∈ groups, IsGroup g) :
    ∀ c ∈ opened groups, isHexDigit c = true ∨ c = ':' := by
  intro c hc
  obtain ⟨g, hg, hc⟩ := List.mem_flatMap.1 hc
  rcases List.mem_cons.1 hc with rfl | hc
  · exact .inr rfl
  · exact .inl ((h g hg).digits c hc)

theorem joined_chars {groups : List (List Char)} (h : ∀ g ∈ groups, IsGroup g) :
    ∀ c ∈ joined groups, isHexDigit c = true ∨ c = ':' := by
  cases groups with
  | nil => exact nofun
  | cons g rest =>
    obtain ⟨hg, hrest⟩ := List.forall_mem_cons.1 h
    rw [joined_cons]
    exact List.forall_mem_append.2 ⟨fun c hc => .inl (hg.digits c hc), opened_chars hrest⟩

theorem IsShape.chars {s : List Char} (h : IsShape s) : ∀ c ∈ s, isHexDigit c = true ∨ c = ':' := by
  cases h with
  | full _ hgroups => exact joined_chars hgroups
  | compressed _ hfront hback =>
    refine List.forall_mem_append.2 ⟨joined_chars hfront, List.forall_mem_cons.2 ⟨.inr rfl, ?_⟩⟩
    exact List.forall_mem_cons.2 ⟨.inr rfl, joined_chars hback⟩

theorem IsNetwork.chars {s : List Char} (h : IsNetwork s) : ∀ c ∈ s, isHexDigit c = true ∨ c = '/' := by
  cases h with
  | none => exact nofun
  | length h => exact List.forall_mem_cons.2 ⟨.inr rfl, fun c hc => .inl ((networkLength_whole h).2.1 c hc)⟩

section
variable {s : List Char}

theorem IsPlain.chars (h : IsPlain s) : ∀ c ∈ s, isHexDigit c = true ∨ c = ':' ∨ c = '/' := by
  obtain ⟨shape, network, rfl, hs, hn⟩ := h
  refine List.forall_mem_append.2 ⟨fun c hc => (hs.chars c hc).imp_right .inl, fun c hc => ?_⟩
  exact (hn.chars c hc).imp_right .inr

/-- The address pattern takes all of a plain address. -/
theorem IsPlain.rest? (h : IsPlain s) : pattern.rest? s = some [] := by
  have hpoint : '.' ∉ s := fun hc => absurd (h.chars _ hc) (by decide)
  have hpercent : '%' ∉ s := fun hc => absurd (h.chars _ hc) (by decide)
  obtain ⟨shape, network, rfl, hs, hn⟩ := h
  exact rest?_seq_of_rest? (hs.rest? hn hpoint hpercent) hn.rest?

theorem IsPlain.ne_nil (h : IsPlain s) : s ≠ [] := by
  obtain ⟨address, rfl, hcolon, -⟩ := rest?_address h.rest?
  rw [List.append_nil]
  exact List.ne_nil_of_mem hcolon

theorem IsPlain.ascii (h : IsPlain s) : ∀ c ∈ s, c.toNat < 0x80 := by
  intro c hc
  rcases h.chars c hc with hdigit | rfl | rfl
  · have hle {d : Char} (h : c ≤ d) (hd : d.toNat < 0x80) : c.toNat < 0x80 := Nat.lt_of_le_of_lt h hd
    simp only [isHexDigit, isDigit, Bool.or_eq_true, Bool.and_eq_true, decide_eq_true_eq] at hdigit
    rcases hdigit with (⟨-, h⟩ | ⟨-, h⟩) | ⟨-, h⟩ <;> exact hle h (by decide)
  · decide
  · decide

theorem joined_length_le {groups : List (List Char)} (h : ∀ g ∈ groups, IsGroup g) :
    (joined groups).length ≤ 5 * groups.length := by
  have hopened {rest : List (List Char)} (h : ∀ g ∈ rest, IsGroup g) : (opened rest).length ≤ 5 * rest.length := by
    induction rest with
    | nil => exact Nat.le_refl 0
    | cons g rest ih =>
      obtain ⟨hg, hrest⟩ := List.forall_mem_cons.1 h
      have hshort := hg.short
      have hrest : (rest.flatMap (':' :: ·)).length ≤ 5 * rest.length := ih hrest
      simp only [opened, List.flatMap_cons, List.length_append, List.length_cons]
      omega
  cases groups with
  | nil => exact Nat.le_refl 0
  | cons g rest =>
    obtain ⟨hg, hrest⟩ := List.forall_mem_cons.1 h
    have hshort := hg.short
    have hrest := hopened hrest
    rw [joined_cons, List.length_append, List.length_cons]
    omega

theorem IsNetwork.length_le (h : IsNetwork s) : s.length ≤ 4 := by
  cases h with
  | none => exact Nat.zero_le 4
  | length h => exact Nat.succ_le_succ (networkLength_whole h).2.2

theorem IsPlain.length_le (h : IsPlain s) : s.length ≤ 44 := by
  obtain ⟨shape, network, rfl, hs, hn⟩ := h
  have hnetwork := hn.length_le
  rw [List.length_append]
  cases hs with
  | full hlength hgroups =>
    have hgroups := joined_length_le hgroups
    omega
  | compressed hlength hfront hback =>
    have hfront := joined_length_le hfront
    have hback := joined_length_le hback
    simp only [List.length_append, List.length_cons]
    omega

end

end Address

end TextSearch
