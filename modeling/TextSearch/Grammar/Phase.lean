import TextSearch.Lexeme.Basic

/-! Where in a query string a lexeme stands: outside of ranges, or in a place of one. -/
namespace TextSearch

/-- The brackets of a range, which belong to it or not. -/
inductive Brackets where
  | closed
  | opened
  deriving DecidableEq, Repr

/-- The last thing read of a range. -/
inductive RangePart where
  | start
  | first
  | upTo
  | last
  deriving DecidableEq, Repr

inductive Phase where
  | common
  | range (brackets : Brackets) (part : RangePart)
  deriving DecidableEq, Repr

namespace Phase

/-- The phase behind a lexeme, if it may stand in the phase. A range is two words with the keyword between
them in brackets of one kind. -/
def next (phase : Phase) (kind : LexemeKind) : Option Phase :=
  match phase, kind with
  | common, .closedStart => some (range .closed .start)
  | common, .openedStart => some (range .opened .start)
  | common, .upTo | common, .closedEnd | common, .openedEnd => none
  | common, _ => some common
  | range b .start, .word => some (range b .first)
  | range b .first, .upTo => some (range b .upTo)
  | range b .upTo, .word => some (range b .last)
  | range .closed .last, .closedEnd => some common
  | range .opened .last, .openedEnd => some common
  | _, _ => none

def partName : RangePart → String
  | .start => "Start"
  | .first => "First"
  | .upTo => "To"
  | .last => "Last"

def name : Phase → String
  | common => "Common"
  | range .closed part => "Closed" ++ partName part
  | range .opened part => "Opened" ++ partName part

def all : List Phase :=
  common :: [Brackets.closed, .opened].flatMap fun b =>
    [RangePart.start, .first, .upTo, .last].map (range b)

def ofName? (text : String) : Option Phase := all.find? (·.name == text)

end Phase

end TextSearch
