import TextSearch.Proofs.Requests

/-! Levels whose signs are kept in a list of their own, which has to stay as long as that of the items. -/
namespace TextSearch

/-- An item without its sign. -/
inductive Unsigned where
  | entry (entry : Entry)
  | operator (op : Operator) (position : Nat)

def Unsigned.signed (sign : Option Occur) : Unsigned → Item
  | entry e => .entry e sign
  | operator op position => .operator op position

def Item.unsigned : Item → Unsigned
  | entry e _ => .entry e
  | operator op position => .operator op position

/-- The sign of an entry, if there is one. -/
def Item.sign : Item → Option Occur
  | entry _ sign => sign
  | operator .. => none

namespace Scope

theorem readExpression_unsigned (e : Expression Entry) (items : List Item) :
    readExpression e (items.map (Unsigned.signed none ∘ Item.unsigned)) = readExpression e items := by
  induction items generalizing e with
  | nil => rfl
  | cons item rest ih =>
    rw [List.map_cons]
    cases item with
    | entry entry sign => exact ih _
    | operator op position =>
      rw [Function.comp_apply, Item.unsigned, Unsigned.signed, readExpression, readExpression]
      split
      · rfl
      · exact ih _

theorem lastOperator?_unsigned (items : List Item) :
    lastOperator? (items.map (Unsigned.signed none ∘ Item.unsigned)) = lastOperator? items := by
  rw [lastOperator?, ← List.map_reverse, List.findSome?_map, lastOperator?]
  congr 1
  funext item
  cases item <;> rfl

/-- An expression has no signs. -/
theorem expressionQuery_unsigned (s : Scope) :
    { s with items := s.items.map (Unsigned.signed none ∘ Item.unsigned) }.expressionQuery = s.expressionQuery := by
  rw [expressionQuery, expressionQuery]
  dsimp only
  rw [readExpression_unsigned, lastOperator?_unsigned]

end Scope

/-- A level whose signs are kept in a list of their own. -/
structure Columns where
  inheritedField : Option String
  pendingField : Option String := none
  pendingSign : Option Occur := none
  junction : Junction
  style : Option Style := none
  items : List Unsigned := []
  signs : List (Option Occur) := []

namespace Columns

/-- The level with other items. -/
def scope (c : Columns) (items : List Item) : Scope where
  inheritedField := c.inheritedField
  pendingField := c.pendingField
  pendingSign := c.pendingSign
  junction := c.junction
  style := c.style
  items := items

def setField (c : Columns) (field : String) : Columns := { c with pendingField := some field }

def setSign (c : Columns) (sign : Occur) : Except Error Columns :=
  if c.style = some .operators then .error Scope.mixedStyles
  else .ok { c with style := some .signs, pendingSign := some sign }

/-- Adds an entry. Its sign is kept unless there are operators. -/
def addEntry (c : Columns) (entry : Entry) : Columns :=
  { c with
    signs := if c.style = some .operators then c.signs else c.signs ++ [c.pendingSign]
    items := c.items ++ [.entry entry]
    pendingField := none
    pendingSign := none }

def addOperator (c : Columns) (op : Operator) (position : Nat) : Except Error Columns :=
  if c.style = some .signs then .error Scope.mixedStyles
  else .ok { c with style := some .operators, items := c.items ++ [.operator op position] }

def modifyLast (c : Columns) (misplaced : Error) (change : Entry → Except Error Entry) : Except Error Columns :=
  if c.pendingField.isSome || c.pendingSign.isSome then .error misplaced
  else
    match c.items.getLast? with
    | some (.entry entry) => (change entry).map fun entry => { c with items := c.items.dropLast ++ [.entry entry] }
    | _ => .error misplaced

def perform (c : Columns) : Request → Except Error Columns
  | .setField field => .ok (c.setField field)
  | .setSign sign => c.setSign sign
  | .addEntry entry => .ok (c.addEntry entry)
  | .addOperator op position => c.addOperator op position
  | .loosen parameter =>
    c.modifyLast (.syntactic "'~' modifier must follow word or phrase." none) (·.loosen parameter)
  | .boost factor => c.modifyLast (.syntactic "'^' modifier must follow word, phrase or subquery." none)
    fun entry => .ok (entry.multiplyBoost factor)

/-- Items in pairs with signs. What has no partner is left out. -/
def paired (c : Columns) : List Item := List.zipWith (fun item sign => item.signed sign) c.items c.signs

def toQuery (c : Columns) : Except Error Query :=
  if c.style = some .operators then (c.scope (c.items.map (·.signed none))).expressionQuery
  else (Scope.signedClauses (.ofJunction c.junction) c.paired).map fun clauses => .ofClauses clauses 1

/-- The level that columns stand for. Without operators, each item has its sign. -/
structure Shows (c : Columns) (s : Scope) : Prop where
  scope : s = c.scope s.items
  items : c.items = s.items.map Item.unsigned
  signs : c.style ≠ some .operators → c.signs = s.items.map Item.sign

theorem Shows.setField {c : Columns} {s : Scope} (h : c.Shows s) (field : String) :
    (c.setField field).Shows (s.setField field) :=
  ⟨congrArg (Scope.setField · field) h.scope, h.items, h.signs⟩

theorem Shows.setSign {c : Columns} {s : Scope} (h : c.Shows s) (sign : Occur) :
    Request.Alike Shows (c.setSign sign) (s.setSign sign) := by
  have hstyle : s.style = c.style := congrArg Scope.style h.scope
  rw [Columns.setSign, Scope.setSign, hstyle]
  split
  · rfl
  · rename_i hsigns
    exact ⟨congrArg (fun s => { s with style := some .signs, pendingSign := some sign }) h.scope, h.items,
      fun _ => h.signs hsigns⟩

theorem Shows.addEntry {c : Columns} {s : Scope} (h : c.Shows s) (entry : Entry) :
    (c.addEntry entry).Shows (s.addEntry entry) where
  scope := by
    rw [h.scope]
    rfl
  items := by
    rw [Columns.addEntry, Scope.addEntry, h.items, List.map_append]
    rfl
  signs hstyle := by
    have hsign : s.pendingSign = c.pendingSign := congrArg Scope.pendingSign h.scope
    have hkept : (c.addEntry entry).signs = c.signs ++ [c.pendingSign] := if_neg hstyle
    rw [hkept, h.signs hstyle, Scope.addEntry, List.map_append, hsign]
    rfl

theorem Shows.addOperator {c : Columns} {s : Scope} (h : c.Shows s) (op : Operator) (position : Nat) :
    Request.Alike Shows (c.addOperator op position) (s.addOperator op position) := by
  have hstyle : s.style = c.style := congrArg Scope.style h.scope
  rw [Columns.addOperator, Scope.addOperator, hstyle]
  split
  · rfl
  · refine ⟨?_, ?_, fun hoperators => absurd rfl hoperators⟩
    · rw [h.scope]
      rfl
    · dsimp only
      rw [h.items, List.map_append]
      rfl

theorem Shows.modifyLast {c : Columns} {s : Scope} (h : c.Shows s) (misplaced : Error)
    (change : Entry → Except Error Entry) :
    Request.Alike Shows (c.modifyLast misplaced change) (s.modifyLast misplaced change) := by
  have hfield : s.pendingField = c.pendingField := congrArg Scope.pendingField h.scope
  have hsign : s.pendingSign = c.pendingSign := congrArg Scope.pendingSign h.scope
  rw [Columns.modifyLast, Scope.modifyLast, hfield, hsign]
  split
  · rfl
  have hitems := h.items
  have hsigns := h.signs
  rcases List.eq_nil_or_concat' s.items with hnil | ⟨front, last, hlast⟩
  · rw [hitems, hnil]
    rfl
  rw [hlast, List.map_append, List.map_singleton] at hitems
  rw [hlast, List.map_append, List.map_singleton] at hsigns
  rw [hitems, hlast, List.getLast?_concat, List.getLast?_concat, List.dropLast_concat, List.dropLast_concat]
  cases last with
  | operator op position => rfl
  | entry entry sign =>
    dsimp only [Item.unsigned]
    cases change entry with
    | error e => rfl
    | ok entry' =>
      refine ⟨?_, ?_, fun hstyle => ?_⟩
      · rw [h.scope]
        rfl
      · dsimp only
        rw [List.map_append]
        rfl
      · dsimp only
        rw [hsigns hstyle, List.map_append]
        rfl

theorem Shows.perform {c : Columns} {s : Scope} (r : Request) (h : c.Shows s) :
    Request.Alike Shows (c.perform r) (s.perform r) := by
  cases r with
  | setField field => exact h.setField field
  | setSign sign => exact h.setSign sign
  | addEntry entry => exact h.addEntry entry
  | addOperator op position => exact h.addOperator op position
  | loosen parameter => exact h.modifyLast _ _
  | boost factor => exact h.modifyLast _ _

/-- Items come in pairs with their signs, so none is left out. -/
theorem Shows.paired {c : Columns} {s : Scope} (h : c.Shows s) (hstyle : c.style ≠ some .operators) :
    c.paired = s.items := by
  rw [Columns.paired, h.items, h.signs hstyle, List.zipWith_map, List.zipWith_self]
  refine (List.map_congr_left fun item _ => ?_).trans (List.map_id _)
  cases item <;> rfl

theorem Shows.toQuery {c : Columns} {s : Scope} (h : c.Shows s) : c.toQuery = s.toQuery := by
  have hstyle : s.style = c.style := congrArg Scope.style h.scope
  have hjunction : s.junction = c.junction := congrArg Scope.junction h.scope
  rw [Columns.toQuery, Scope.toQuery, hstyle, hjunction]
  split
  · rw [h.items, List.map_map, h.scope]
    exact Scope.expressionQuery_unsigned (c.scope s.items)
  · rename_i hsigns
    rw [h.paired hsigns]

end Columns

end TextSearch
