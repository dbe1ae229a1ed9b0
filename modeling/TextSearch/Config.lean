import TextSearch.Error
import TextSearch.Json

/-! Settings of the analyzer and of the query parser. -/
namespace TextSearch

/-- How two entries of a query are joined where it names no operator. -/
inductive Junction where
  | or
  | and
  deriving DecidableEq, Repr

namespace Junction

def name : Junction → String
  | or => "or"
  | and => "and"

def ofName? : String → Option Junction
  | "or" => some or
  | "and" => some and
  | _ => none

end Junction

/-- How a text is split into words: by the characters that belong to one, with internet addresses kept whole or without,
or at the word boundaries of the Unicode standard. -/
inductive Splitting where
  | letters
  | lettersDigits
  | lettersDigitsDots
  | addresses
  | words
  deriving DecidableEq, Repr

namespace Splitting

def name : Splitting → String
  | letters => "text"
  | lettersDigits => "text_num"
  | lettersDigitsDots => "text_num_with_dot"
  | addresses => "text_num_with_dot_and_ip_v6"
  | words => "unicode_words"

def ofName? (text : String) : Option Splitting :=
  [letters, lettersDigits, lettersDigitsDots, addresses, words].find? (·.name == text)

end Splitting

structure AnalyzerConfig where
  kind : Splitting := .addresses
  lowercase : Bool := true
  removeStopWords : Bool := false
  stem : Bool := false
  minTokenLength : Nat := 1
  maxTokenLength : Nat := 255
  language : String := "english"
  stopWords : List String := []
  deriving DecidableEq, Repr

/-- How queries are read. An empty list of search fields or of allowed fields stands for all fields, and a limit of zero
for none. Private fields are allowed ones that no failure mentions; stop words come on top of those of the language. -/
structure Config where
  defaultSearchFields : List String := []
  defaultOperator : Junction := .or
  encoding : String := "UTF-8"
  suppressExceptions : Bool := true
  fieldMapping : List (String × String) := []
  allowedFields : List String := []
  privateFields : List String := []
  requireExplicitField : Bool := false
  wildcardMinPrefixLength : Nat := 3
  fuzzyPrefixLength : Nat := 3
  termsPerQueryLimit : Nat := 1024
  analyzer : AnalyzerConfig := {}
  deriving DecidableEq, Repr

namespace AnalyzerConfig

def keys : List String :=
  ["kind", "lowercase", "remove_stopwords", "stem", "min_token_length", "max_token_length",
    "language", "stop_words"]

def ofJson? (json : Json) : Option AnalyzerConfig := do
  let record ← json.record? keys
  let base : AnalyzerConfig := {}
  some {
    kind := ← Json.member? record "kind" (Json.choice? Splitting.ofName?) base.kind
    lowercase := ← Json.member? record "lowercase" Json.flag? base.lowercase
    removeStopWords := ← Json.member? record "remove_stopwords" Json.flag? base.removeStopWords
    stem := ← Json.member? record "stem" Json.flag? base.stem
    minTokenLength := ← Json.member? record "min_token_length" Json.natural? base.minTokenLength
    maxTokenLength := ← Json.member? record "max_token_length" Json.natural? base.maxTokenLength
    language := ← Json.member? record "language" Json.text? base.language
    stopWords := ← Json.member? record "stop_words" (Json.list? Json.text?) base.stopWords }

def toJson (c : AnalyzerConfig) : Json :=
  .object [
    ("kind", .string c.kind.name),
    ("lowercase", .bool c.lowercase),
    ("remove_stopwords", .bool c.removeStopWords),
    ("stem", .bool c.stem),
    ("min_token_length", .ofNat c.minTokenLength),
    ("max_token_length", .ofNat c.maxTokenLength),
    ("language", .string c.language),
    ("stop_words", .array (c.stopWords.map .string))]

end AnalyzerConfig

namespace Config

def keys : List String :=
  ["default_search_fields", "default_operator", "encoding", "suppress_exceptions", "field_mapping",
    "allowed_fields", "private_fields", "require_explicit_field", "wildcard_min_prefix_length",
    "fuzzy_prefix_length", "terms_per_query_limit", "analyzer"]

def ofJson? (json : Json) : Option Config := do
  let record ← json.record? keys
  let base : Config := {}
  let texts? := Json.list? Json.text?
  some {
    defaultSearchFields := ← Json.member? record "default_search_fields" texts? base.defaultSearchFields
    defaultOperator := ←
      Json.member? record "default_operator" (Json.choice? Junction.ofName?) base.defaultOperator
    encoding := ← Json.member? record "encoding" Json.text? base.encoding
    suppressExceptions := ← Json.member? record "suppress_exceptions" Json.flag? base.suppressExceptions
    fieldMapping := ← Json.member? record "field_mapping" (Json.table? Json.text?) base.fieldMapping
    allowedFields := ← Json.member? record "allowed_fields" texts? base.allowedFields
    privateFields := ← Json.member? record "private_fields" texts? base.privateFields
    requireExplicitField := ←
      Json.member? record "require_explicit_field" Json.flag? base.requireExplicitField
    wildcardMinPrefixLength := ←
      Json.member? record "wildcard_min_prefix_length" Json.natural? base.wildcardMinPrefixLength
    fuzzyPrefixLength := ←
      Json.member? record "fuzzy_prefix_length" Json.natural? base.fuzzyPrefixLength
    termsPerQueryLimit := ←
      Json.member? record "terms_per_query_limit" Json.natural? base.termsPerQueryLimit
    analyzer := ← Json.member? record "analyzer" AnalyzerConfig.ofJson? base.analyzer }

def toJson (c : Config) : Json :=
  .object [
    ("default_search_fields", .array (c.defaultSearchFields.map .string)),
    ("default_operator", .string c.defaultOperator.name),
    ("encoding", .string c.encoding),
    ("suppress_exceptions", .bool c.suppressExceptions),
    ("field_mapping", .object (c.fieldMapping.map fun (name, field) => (name, .string field))),
    ("allowed_fields", .array (c.allowedFields.map .string)),
    ("private_fields", .array (c.privateFields.map .string)),
    ("require_explicit_field", .bool c.requireExplicitField),
    ("wildcard_min_prefix_length", .ofNat c.wildcardMinPrefixLength),
    ("fuzzy_prefix_length", .ofNat c.fuzzyPrefixLength),
    ("terms_per_query_limit", .ofNat c.termsPerQueryLimit),
    ("analyzer", c.analyzer.toJson)]

def mapField (c : Config) (name field : String) : Config :=
  { c with fieldMapping := c.fieldMapping.filter (fun entry => entry.1 != name) ++ [(name, field)] }

/-- Letter case, hyphens and underscores in the name of an encoding do not count. -/
def isUtf8 (encoding : String) : Bool :=
  (encoding.toList.map Char.toLower).filter (fun c => c != '-' && c != '_') == "utf8".toList

def strayPrivateFields (c : Config) : List String :=
  if c.allowedFields.isEmpty then [] else c.privateFields.filter (!c.allowedFields.contains ·)

def validate (c : Config) : Except Error Unit :=
  if !isUtf8 c.encoding then
    .error (.configuration s!"unsupported encoding '{c.encoding}', only UTF-8 is accepted")
  else if c.analyzer.minTokenLength > c.analyzer.maxTokenLength then
    .error (.configuration
      s!"analyzer min_token_length {c.analyzer.minTokenLength} exceeds max_token_length {c.analyzer.maxTokenLength}")
  else
    match c.strayPrivateFields with
    | field :: _ => .error (.configuration s!"private field '{field}' is not in the allow-list")
    | [] => .ok ()

/-- Reads and validates a configuration document. Missing keys have their default values. -/
def ofText (text : String) : Except Error Config :=
  match (Json.read? text).bind ofJson? with
  | none => .error .json
  | some c => c.validate.map fun _ => c

end Config

end TextSearch
