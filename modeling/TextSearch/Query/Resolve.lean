import TextSearch.Query.Raw

/-! Query trees in terms of an index: every node is resolved into terms of fields. -/
namespace TextSearch

def TermQuery.resolve (ix : Index) (n : TermQuery) : Query :=
  match n.term.field with
  | some _ => .term n
  | none =>
    match ix.fieldNames with
    | [] => .emptyResult 1
    | fields => .ofTerms (fields.map fun field => (.optional, .inField field n.term.text)) n.boost

def MultiTermQuery.resolve (ix : Index) (n : MultiTermQuery) : Query :=
  if n.terms.isEmpty then .emptyResult 1
  else if n.terms.all fun (_, t) => t.field.isSome then .multiTerm n
  else .ofClauses (n.terms.map fun (occur, t) => (occur, TermQuery.resolve ix { term := t })) n.boost

def PhraseQuery.resolve (ix : Index) (n : PhraseQuery) : Query :=
  if n.terms.isEmpty then .emptyResult 1
  else if n.field.isSome then .phrase n
  else .ofClauses (ix.fieldNames.map fun field =>
    (.optional, .phrase {
      terms := n.terms.map fun (t, offset) => (.inField field t.text, offset)
      slop := n.slop })) n.boost

namespace Query

/-- The outcome of expanding a node, and the node with the terms it was found to stand for. -/
def settle (expansion : Except Error Expansion) (q : Query) (record : Option (List Term) → Query) :
    Except Error Query × Query :=
  match expansion with
  | .ok x => (.ok x.query, record (some x.matched))
  | .error e => (.error e, q)

mutual

/-- An equivalent of a query that holds only combinations, terms of fields and phrases in fields; and the
query itself, in which every expanded node keeps the terms it was found to stand for. A failure leaves the
nodes behind it as they were. -/
def resolve (k : Context) (ix : Index) : Query → Except Error Query × Query
  | boolean clauses n =>
    match resolveClauses k ix clauses with
    | (.ok resolved, clauses) => (.ok (.ofClauses resolved n.boost), boolean clauses n)
    | (.error e, clauses) => (.error e, boolean clauses n)
  | term n => (.ok (n.resolve ix), term n)
  | multiTerm n => (.ok (n.resolve ix), multiTerm n)
  | phrase n => (.ok (n.resolve ix), phrase n)
  | wildcard n => settle (n.expand ix) (wildcard n) fun matched => wildcard { n with matched }
  | fuzzy n => settle (n.expand ix) (fuzzy n) fun matched => fuzzy { n with matched }
  | range n => settle (n.expand ix) (range n) fun matched => range { n with matched }
  | insignificant b => (.ok (insignificant b), insignificant b)
  | emptyResult b => (.ok (emptyResult b), emptyResult b)
  | rawTerm n => settle (n.expand k ix) (rawTerm n) fun matched => rawTerm { n with matched }
  | rawPhrase n => settle (n.expand k ix) (rawPhrase n) fun matched => rawPhrase { n with matched }
  | rawFuzzy n => settle (n.expand k ix) (rawFuzzy n) fun matched => rawFuzzy { n with matched }

def resolveClauses (k : Context) (ix : Index) :
    List (Occur × Query) → Except Error (List (Occur × Query)) × List (Occur × Query)
  | [] => (.ok [], [])
  | (occur, query) :: rest =>
    match query.resolve k ix with
    | (.error e, query) => (.error e, (occur, query) :: rest)
    | (.ok resolved, query) =>
      let (others, rest) := resolveClauses k ix rest
      (others.map fun others => (occur, resolved) :: others, (occur, query) :: rest)

end

end Query

end TextSearch
