import TextSearch.Analysis.Token
import TextSearch.Language
import TextSearch.Text.LowerCase

/-! Texts turned into the terms they are indexed and searched by. -/
namespace TextSearch

/-- Whatever turns texts into tokens. -/
structure Analyzer where
  tokenize : String → List Token

def Analyzer.terms (a : Analyzer) (text : String) : List String := (a.tokenize text).map (·.text)

/-- What is taken from other packages: the words of a text by the Unicode standard, each with the byte it
starts at, the stop words of languages, and stems. -/
structure Packages where
  findWords : String → List (Nat × String)
  stopWords : Language → List String
  stem : Language → String → String

def Packages.bare : Packages where
  findWords _ := []
  stopWords _ := []
  stem _ word := word

abbrev TokenFilter := Token → Option Token

namespace TokenFilter

def lowerCase : TokenFilter := fun token => some { token with text := TextSearch.lowerCase token.text }

def stopWords (words : List String) : TokenFilter := fun token =>
  if words.contains (TextSearch.lowerCase token.text) then none else some token

/-- The stop words of a language, if it has any, and further words. -/
def stopWordsOf (packages : Packages) (language : String) (further : List String) : TokenFilter :=
  let listed := (Language.ofName? language).elim [] packages.stopWords
  stopWords ((listed ++ further).map TextSearch.lowerCase)

/-- Keeps words whose number of characters lies within bounds. -/
def length (least most : Nat) : TokenFilter := fun token =>
  if least ≤ token.text.length && token.text.length ≤ most then some token else none

def stem (stemmer : String → String) : TokenFilter := fun token =>
  some { token with text := stemmer token.text }

def stemOf? (packages : Packages) (language : String) : Option TokenFilter :=
  (Language.ofName? language).map fun language => stem (packages.stem language)

/-- Applies filters one after the other, until one drops the token. -/
def applyAll (filters : List TokenFilter) (token : Token) : Option Token :=
  filters.foldlM (fun t f => f t) token

end TokenFilter

/-- A splitting followed by a chain of filters. -/
structure StandardAnalyzer where
  findWords : String → List (Nat × String)
  splitting : Splitting
  filters : List TokenFilter

namespace StandardAnalyzer

def stopFilters (packages : Packages) (c : AnalyzerConfig) : List TokenFilter :=
  if c.removeStopWords then [.stopWordsOf packages c.language c.stopWords]
  else if c.stopWords.isEmpty then []
  else [.stopWords (c.stopWords.map TextSearch.lowerCase)]

def stemFilters (packages : Packages) (c : AnalyzerConfig) : List TokenFilter :=
  if c.stem then (TokenFilter.stemOf? packages c.language).toList else []

def ofConfig (packages : Packages) (c : AnalyzerConfig) : StandardAnalyzer where
  findWords := packages.findWords
  splitting := c.kind
  filters := (if c.lowercase then [.lowerCase] else []) ++ stopFilters packages c ++
    [.length c.minTokenLength c.maxTokenLength] ++ stemFilters packages c

def filteredBy (a : StandardAnalyzer) (filter : TokenFilter) : StandardAnalyzer :=
  { a with filters := a.filters ++ [filter] }

/-- The words of a text before they are filtered. -/
def words (a : StandardAnalyzer) (text : String) : List Token := a.splitting.split a.findWords text

/-- Filters words. The increment of a dropped word goes to the next word that stays. -/
def keep (filters : List TokenFilter) (pending : Nat) : List Token → List Token
  | [] => []
  | word :: rest =>
    match TokenFilter.applyAll filters word with
    | none => keep filters (pending + word.increment) rest
    | some token => { token with increment := pending + word.increment } :: keep filters 0 rest

def tokenize (a : StandardAnalyzer) (text : String) : List Token := keep a.filters 0 (a.words text)

def toAnalyzer (a : StandardAnalyzer) : Analyzer := ⟨a.tokenize⟩

end StandardAnalyzer

def Analyzer.ofConfig (packages : Packages) (c : AnalyzerConfig) : Analyzer :=
  (StandardAnalyzer.ofConfig packages c).toAnalyzer

end TextSearch
