import TextSearch.Index.Basic

/-! What the words of a query string are looked up with. -/
namespace TextSearch

/-- What queries are resolved with. Words without a field are looked for in the search fields, or everywhere if there are
none; a limit of zero is none. -/
structure Context where
  analyzer : Analyzer
  defaultSearchFields : List String := []
  wildcardMinPrefixLength : Nat := 3
  fuzzyPrefixLength : Nat := 3
  termsLimit : Nat := 1024

namespace Context

def ofConfig (c : Config) (analyzer : Analyzer) : Context where
  analyzer := analyzer
  defaultSearchFields := c.defaultSearchFields
  wildcardMinPrefixLength := c.wildcardMinPrefixLength
  fuzzyPrefixLength := c.fuzzyPrefixLength
  termsLimit := c.termsPerQueryLimit

def searchFields (k : Context) (ix : Index) : List String :=
  if k.defaultSearchFields.isEmpty then ix.fieldNames else k.defaultSearchFields

end Context

end TextSearch
