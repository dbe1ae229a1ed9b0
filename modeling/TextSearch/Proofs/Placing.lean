import Mathlib.Data.List.Nodup
import TextSearch.Index.Basic

/-! Where the terms of values stand that follow each other in a field. -/
namespace TextSearch

section tokens

theorem Splitting.increment_of_mem_tokensFrom (offset : Nat) (segments : List Segment) :
    ∀ t ∈ tokensFrom offset segments, t.increment = 1 := by
  induction segments generalizing offset with
  | nil => nofun
  | cons segment rest ih =>
    cases segment with
    | gap c => exact ih _
    | hit text => exact List.forall_mem_cons.mpr ⟨rfl, ih _⟩

namespace StandardAnalyzer

/-- Unfiltered words directly follow each other. -/
theorem increment_of_mem_words (a : StandardAnalyzer) (text : String) : ∀ w ∈ a.words text, w.increment = 1 := by
  unfold words Splitting.split
  split
  · exact Splitting.increment_of_mem_tokensFrom _ _
  · exact List.forall_mem_map.mpr fun _ _ => rfl

theorem increment_pos_of_mem_keep (filters : List TokenFilter) (pending : Nat) {words : List Token}
    (h : ∀ w ∈ words, 0 < w.increment) : ∀ t ∈ keep filters pending words, 0 < t.increment := by
  induction words generalizing pending with
  | nil => nofun
  | cons word rest ih =>
    obtain ⟨hword, hrest⟩ := List.forall_mem_cons.mp h
    rw [keep]
    split
    · exact ih _ hrest
    · refine List.forall_mem_cons.mpr ⟨?_, ih _ hrest⟩
      exact Nat.add_pos_right pending hword

end StandardAnalyzer

/-- No two tokens of a text stand at one position, and none before the text. -/
def Analyzer.Advances (a : Analyzer) : Prop := ∀ text, ∀ t ∈ a.tokenize text, 0 < t.increment

/-- Whatever its filters do, a standard analyzer counts the words that it drops. -/
theorem StandardAnalyzer.advances (a : StandardAnalyzer) : a.toAnalyzer.Advances := by
  intro text
  apply increment_pos_of_mem_keep
  intro word hword
  rw [a.increment_of_mem_words text word hword]
  exact Nat.one_pos

variable {tokens : List Token}

/-- The terms of tokens with their positions, the first token standing at `next` if it follows directly, and the
position behind the last one. -/
def spread (next : Nat) : List Token → List (String × Nat) × Nat
  | [] => ([], next)
  | t :: rest =>
    let (placed, after) := spread (next + t.increment) rest
    ((t.text, next + t.increment - 1) :: placed, after)

/-- The positions of tokens move with the start. -/
theorem spread_add (start next : Nat) (h : ∀ t ∈ tokens, 0 < t.increment) : spread (start + next) tokens =
    ((spread next tokens).1.map fun p => (p.1, start + p.2), start + (spread next tokens).2) := by
  induction tokens generalizing next with
  | nil => rfl
  | cons t rest ih =>
    obtain ⟨ht, hrest⟩ := List.forall_mem_cons.mp h
    have hposition : start + next + t.increment - 1 = start + (next + t.increment - 1) := by omega
    simp only [spread, List.map_cons, Nat.add_assoc start next, ih _ hrest]
    rw [← Nat.add_assoc, hposition]

theorem le_spread (next : Nat) (tokens : List Token) : next ≤ (spread next tokens).2 := by
  induction tokens generalizing next with
  | nil => exact Nat.le_refl next
  | cons t rest ih => exact Nat.le_trans (Nat.le_add_right next t.increment) (ih _)

/-- A term at a position, as a word of 32 bits. -/
def atWord (p : String × Nat) : String × UInt32 := (p.1, UInt32.ofNat p.2)

theorem UInt32.ofInt_natCast (n : Nat) : UInt32.ofInt (n : Int) = UInt32.ofNat n := by
  have hresidue : ((n : Int) % 2 ^ 32).toNat = n % 2 ^ 32 := by omega
  rw [UInt32.ofInt, hresidue, UInt32.ofNat_mod_size]

/-- Signed positions are the true ones, in 32 bits. Nothing is cut off at zero. -/
theorem place_eq (next : Nat) (h : ∀ t ∈ tokens, 0 < t.increment) :
    place (next - 1) tokens = ((spread next tokens).1.map atWord, ((spread next tokens).2 : Int) - 1) := by
  induction tokens generalizing next with
  | nil => rfl
  | cons t rest ih =>
    obtain ⟨ht, hrest⟩ := List.forall_mem_cons.mp h
    have hmoved : (next : Int) - 1 + t.increment = ((next + t.increment : Nat) : Int) - 1 := by omega
    have hposition : max (((next + t.increment : Nat) : Int) - 1) 0 = ((next + t.increment - 1 : Nat) : Int) := by
      omega
    rw [place, hmoved, ih _ hrest, hposition, UInt32.ofInt_natCast]
    rfl

end tokens

/-- The values a document has in a field, in order. -/
def Document.valuesOf (document : Document) (field : String) : List FieldValue :=
  (document.filter (·.1 == field)).map (·.2)

/-- The terms of a value with their positions from `start` on, and the position behind it. -/
def FieldValue.placed (a : Analyzer) (start : Nat) : FieldValue → List (String × Nat) × Nat
  | .keyword word => ([(word, start)], start + 1)
  | .text words => spread start (a.tokenize words)

/-- The terms of values that follow each other, with their positions from `start` on, and the position behind
the last value. -/
def placeValues (a : Analyzer) (start : Nat) : List FieldValue → List (String × Nat) × Nat
  | [] => ([], start)
  | value :: rest =>
    let (placed, after) := value.placed a start
    let (others, stop) := placeValues a after rest
    (placed ++ others, stop)

/-- A value takes its true positions, in 32 bits, wherever it starts. -/
theorem FieldValue.store_eq {a : Analyzer} (h : a.Advances) (start : Nat) (value : FieldValue) :
    value.store a (UInt32.ofNat start) =
      ((value.placed a start).1.map atWord, UInt32.ofNat (value.placed a start).2) := by
  cases value with
  | keyword word => simp [store, placed, atWord]
  | text words =>
    have hstart : start = start / 2 ^ 32 * 2 ^ 32 + (UInt32.ofNat start).toNat := by
      rw [UInt32.toNat_ofNat']
      omega
    have hwrap (n : Nat) : UInt32.ofNat (start / 2 ^ 32 * 2 ^ 32 + n) = UInt32.ofNat n := by
      rw [← UInt32.ofNat_mod_size, Nat.mul_add_mod_self_right, UInt32.ofNat_mod_size]
    have hnext : max ((spread (UInt32.ofNat start).toNat (a.tokenize words)).2 - 1 + 1 : Int)
        (UInt32.ofNat start).toNat = (spread (UInt32.ofNat start).toNat (a.tokenize words)).2 := by
      have hle := le_spread (UInt32.ofNat start).toNat (a.tokenize words)
      omega
    have hspread := spread_add (start / 2 ^ 32 * 2 ^ 32) (UInt32.ofNat start).toNat (h words)
    rw [← hstart] at hspread
    simp only [store, placed, place_eq _ (h words), hnext, UInt32.ofInt_natCast, hspread, List.map_map, hwrap]
    refine Prod.ext (List.map_congr_left fun p _ => ?_) rfl
    exact Prod.ext rfl (hwrap p.2).symm

/-- The positions of one of the placed terms. -/
def positionsAt {α : Type} (text : String) (placed : List (String × α)) : List α :=
  (placed.filter (·.1 == text)).map (·.2)

theorem mem_positionsAt {α : Type} {text : String} {placed : List (String × α)} {position : α} :
    position ∈ positionsAt text placed ↔ (text, position) ∈ placed := by
  simp [positionsAt]

@[simp] theorem positionsAt_append {α : Type} (text : String) (placed others : List (String × α)) :
    positionsAt text (placed ++ others) = positionsAt text placed ++ positionsAt text others := by
  simp [positionsAt]

@[simp] theorem positionsAt_nil {α : Type} (text : String) : positionsAt text ([] : List (String × α)) = [] := rfl

theorem positionsAt_atWord (text : String) (placed : List (String × Nat)) :
    positionsAt text (placed.map atWord) = (positionsAt text placed).map UInt32.ofNat := by
  simp only [positionsAt, List.filter_map, List.map_map]
  rfl

theorem placeValues_append (a : Analyzer) (start : Nat) (values others : List FieldValue) :
    placeValues a start (values ++ others) =
      ((placeValues a start values).1 ++ (placeValues a (placeValues a start values).2 others).1,
        (placeValues a (placeValues a start values).2 others).2) := by
  induction values generalizing start with
  | nil => rfl
  | cons value rest ih => simp [placeValues, ih]

/-- One more than the largest of the positions, or zero if there are none. -/
def extent (placed : List (String × Nat)) : Nat := (placed.map (·.2)).max?.elim 0 (· + 1)

/-- Terms lie at positions from `start` on, one behind the other, up to `stop`. -/
structure Laid (start : Nat) (placed : List (String × Nat)) (stop : Nat) : Prop where
  increasing : placed.Pairwise fun p q => p.2 < q.2
  within : ∀ p ∈ placed, start ≤ p.2 ∧ p.2 < stop
  start_le : start ≤ stop
  /-- Nothing is left free behind the last term. -/
  ends : placed = [] ∧ stop = start ∨ ∃ p ∈ placed, stop = p.2 + 1

namespace Laid
variable {start middle stop : Nat} {placed others : List (String × Nat)}

theorem nothing (start : Nat) : Laid start [] start where
  increasing := .nil
  within := nofun
  start_le := Nat.le_refl start
  ends := .inl ⟨rfl, rfl⟩

theorem single (text : String) {position : Nat} (h : start ≤ position) :
    Laid start [(text, position)] (position + 1) where
  increasing := List.pairwise_singleton _ _
  within := List.forall_mem_singleton.2 ⟨h, Nat.lt_succ_self position⟩
  start_le := Nat.le_succ_of_le h
  ends := .inr ⟨_, List.mem_singleton_self _, rfl⟩

theorem append (h : Laid start placed middle) (k : Laid middle others stop) : Laid start (placed ++ others) stop where
  increasing := List.pairwise_append.2
    ⟨h.increasing, k.increasing, fun p hp q hq => Nat.lt_of_lt_of_le (h.within p hp).2 (k.within q hq).1⟩
  within := List.forall_mem_append.2
    ⟨fun p hp => ⟨(h.within p hp).1, Nat.lt_of_lt_of_le (h.within p hp).2 k.start_le⟩,
      fun p hp => ⟨Nat.le_trans h.start_le (k.within p hp).1, (k.within p hp).2⟩⟩
  start_le := Nat.le_trans h.start_le k.start_le
  ends := by
    rcases k.ends with ⟨rfl, rfl⟩ | ⟨p, hp, hstop⟩
    · rw [List.append_nil]
      exact h.ends
    · exact .inr ⟨p, List.mem_append_right _ hp, hstop⟩

theorem stop_eq (h : Laid 0 placed stop) : stop = extent placed := by
  rcases h.ends with ⟨rfl, rfl⟩ | ⟨p, hp, hstop⟩
  · rfl
  · have hmax : (placed.map (·.2)).max? = some p.2 := by
      refine List.max?_eq_some_iff.2 ⟨List.mem_map_of_mem hp, List.forall_mem_map.2 fun q hq => ?_⟩
      have hq' := (h.within q hq).2
      omega
    rw [extent, hmax, hstop]
    rfl

theorem eq_of_position (h : Laid start placed stop) {p q : String × Nat} (hp : p ∈ placed) (hq : q ∈ placed)
    (heq : p.2 = q.2) : p = q := by
  have hnodup : (placed.map (·.2)).Nodup :=
    List.pairwise_map.2 (h.increasing.imp fun hlt => Nat.ne_of_lt hlt)
  exact List.inj_on_of_nodup_map hnodup hp hq heq

theorem positionsAt_increasing (h : Laid start placed stop) (text : String) :
    (positionsAt text placed).Pairwise (· < ·) :=
  List.pairwise_map.2 (h.increasing.filter _)

end Laid

theorem laid_spread {tokens : List Token} (start : Nat) (h : ∀ t ∈ tokens, 0 < t.increment) :
    Laid start (spread start tokens).1 (spread start tokens).2 := by
  induction tokens generalizing start with
  | nil => exact .nothing start
  | cons t rest ih =>
    obtain ⟨ht, hrest⟩ := List.forall_mem_cons.1 h
    have hstart : start ≤ start + t.increment - 1 := by omega
    have hnext : start + t.increment - 1 + 1 = start + t.increment := by omega
    have hsingle := Laid.single t.text hstart
    rw [hnext] at hsingle
    exact hsingle.append (ih _ hrest)

theorem FieldValue.laid_placed {a : Analyzer} (h : a.Advances) (start : Nat) (value : FieldValue) :
    Laid start (value.placed a start).1 (value.placed a start).2 := by
  cases value with
  | keyword word => exact .single word (Nat.le_refl start)
  | text words => exact laid_spread start (h words)

theorem laid_placeValues {a : Analyzer} (h : a.Advances) (start : Nat) (values : List FieldValue) :
    Laid start (placeValues a start values).1 (placeValues a start values).2 := by
  induction values generalizing start with
  | nil => exact .nothing start
  | cons value rest ih => exact (value.laid_placed h start).append (ih _)

example : placeValues (.ofConfig .bare {}) 0 [.keyword "A-1", .text "Rust in Action", .text ""] =
    ([("A-1", 0), ("rust", 1), ("in", 2), ("action", 3)], 4) := by decide +kernel

/-- The terms of a value, in order. -/
def FieldValue.terms (a : Analyzer) : FieldValue → List String
  | .keyword word => [word]
  | .text words => a.terms words

theorem texts_spread (start : Nat) (tokens : List Token) : (spread start tokens).1.map (·.1) = tokens.map (·.text) := by
  induction tokens generalizing start with
  | nil => rfl
  | cons t rest ih => exact congrArg (t.text :: ·) (ih _)

theorem texts_placeValues (a : Analyzer) (start : Nat) (values : List FieldValue) :
    (placeValues a start values).1.map (·.1) = values.flatMap (·.terms a) := by
  induction values generalizing start with
  | nil => rfl
  | cons value rest ih =>
    have hvalue : (value.placed a start).1.map (·.1) = value.terms a := by
      cases value with
      | keyword word => rfl
      | text words => exact texts_spread start _
    rw [placeValues, List.map_append, hvalue, ih, List.flatMap_cons]

/-- Each value stands somewhere among the values of its field. -/
theorem exists_start_of_mem {a : Analyzer} (ha : a.Advances) {value : FieldValue} {values : List FieldValue}
    (h : value ∈ values) : ∃ start, (value.placed a start).1 ⊆ (placeValues a 0 values).1 ∧
      (value.placed a start).2 ≤ (placeValues a 0 values).2 := by
  obtain ⟨before, after, rfl⟩ := List.append_of_mem h
  refine ⟨(placeValues a 0 before).2, ?_, ?_⟩
  · rw [placeValues_append, placeValues]
    intro p hp
    exact List.mem_append_right _ (List.mem_append_left _ hp)
  · rw [placeValues_append, placeValues]
    exact (laid_placeValues ha _ after).start_le

end TextSearch
