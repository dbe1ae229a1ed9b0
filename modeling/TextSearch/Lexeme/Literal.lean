import TextSearch.Lexeme.Scan
import TextSearch.Text.Address
import TextSearch.Text.Segment

/-! Addresses in a query keep their colons: these are hidden from the scan and put back afterwards. -/
namespace TextSearch

/-- Stands for a colon of an address; a private-use character. -/
def hiddenColon : Char := '\ue000'

def hideColons (text : List Char) : List Char :=
  text.map fun c => if c == ':' then hiddenColon else c

def showColons (text : List Char) : List Char :=
  text.map fun c => if c == hiddenColon then ':' else c

def occursIn (part : List Char) : List Char → Bool
  | [] => part.isEmpty
  | c :: rest => part.isPrefixOf (c :: rest) || occursIn part rest

/-- A query whose addresses have hidden colons, with the addresses in order. -/
structure GuardedQuery where
  text : String
  literals : List String

namespace GuardedQuery

def segments (query : String) : List Segment :=
  Segment.cut Address.pattern.rest? query.toList

def ofQuery (query : String) : GuardedQuery where
  text := String.ofList ((segments query).flatMap fun
    | .gap c => [c]
    | .hit address => hideColons address)
  literals := (Segment.hits (segments query)).map String.ofList

/-- The text with its colons shown, if that brings an address of the query back. -/
def restoreText (literals : List String) (text : String) : String :=
  let shown := showColons text.toList
  if text.toList.contains hiddenColon && literals.any (fun address => occursIn address.toList shown) then
    String.ofList shown
  else text

def restore (g : GuardedQuery) (lexeme : Lexeme) : Lexeme :=
  { lexeme with text := restoreText g.literals lexeme.text }

end GuardedQuery

def Lexeme.tokenize (query : String) : Except Error (List Lexeme) :=
  let g := GuardedQuery.ofQuery query
  (Lexeme.ofQuery g.text).map (·.map g.restore)

end TextSearch
