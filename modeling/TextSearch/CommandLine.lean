import TextSearch.Grammar.Parser
import TextSearch.Text.Quoted

/-! The command line: a query string is printed as its canonical query or as its lexemes. -/
namespace TextSearch

def Lexeme.render (x : Lexeme) : String :=
  s!"{x.kind.name}@{x.position} " ++ Quoted.encode x.text

namespace CommandLine

structure Options where
  query : String
  fields : List String := []
  and : Bool := false
  strict : Bool := false
  configPath : Option String := none
  lexemes : Bool := false
  deriving DecidableEq, Repr

inductive Request where
  | run (options : Options)
  | help
  | misuse
  deriving DecidableEq, Repr

structure Reading where
  query : Option String := none
  fields : List String := []
  and : Bool := false
  strict : Bool := false
  configPath : Option String := none
  lexemes : Bool := false

namespace Reading

def addQuery (r : Reading) (query : String) : Option Reading :=
  if r.query.isSome then none else some { r with query := some query }

def setSwitch (r : Reading) (name : String) : Option Reading :=
  match name with
  | "and" => if r.and then none else some { r with and := true }
  | "strict" => if r.strict then none else some { r with strict := true }
  | "lexemes" => if r.lexemes then none else some { r with lexemes := true }
  | _ => none

/-- Fields add up, separated by commas or named one by one. There is one configuration. -/
def setOption (r : Reading) (name value : String) : Option Reading :=
  match name with
  | "field" => some { r with fields := r.fields ++ value.splitOn "," }
  | "config" =>
    if r.configPath.isSome || value.isEmpty then none else some { r with configPath := some value }
  | _ => none

def finish (r : Reading) : Request :=
  match r.query with
  | none => .misuse
  | some query =>
    .run {
      query
      fields := r.fields
      and := r.and
      strict := r.strict
      configPath := r.configPath
      lexemes := r.lexemes }

/-- Behind two hyphens every argument is a query. -/
def readQueries (r : Reading) : List String → Request
  | [] => r.finish
  | query :: rest =>
    match r.addQuery query with
    | some r => r.readQueries rest
    | none => .misuse

/-- A value may start with a hyphen only if it is nothing else. -/
def isValue (argument : String) : Bool :=
  argument == "-" || argument.toList.head? != some '-'

def read (r : Reading) : List String → Request
  | [] => r.finish
  | argument :: rest =>
    match argument.toList with
    | ['-', '-'] => r.readQueries rest
    | '-' :: '-' :: long =>
      let name := String.ofList (long.takeWhile (· != '='))
      match long.dropWhile (· != '=') with
      | _ :: value =>
        match r.setOption name (String.ofList value) with
        | some r => r.read rest
        | none => .misuse
      | [] =>
        if name == "help" then .help
        else if name == "field" || name == "config" then
          match rest with
          | value :: rest =>
            if isValue value then
              match r.setOption name value with
              | some r => r.read rest
              | none => .misuse
            else .misuse
          | [] => .misuse
        else
          match r.setSwitch name with
          | some r => r.read rest
          | none => .misuse
    | '-' :: 'h' :: _ => .help
    | '-' :: _ :: _ => .misuse
    | _ =>
      match r.addQuery argument with
      | some r => r.read rest
      | none => .misuse

end Reading

def Request.ofArguments (arguments : List String) : Request :=
  Reading.read {} arguments

structure Answer where
  code : Nat
  output : String := ""
  errors : String := ""
  deriving DecidableEq, Repr

/-- A failure, alone or as the cause of a failed step. Further lines of a cause are indented, too. -/
def failure (step : Option String) (e : Error) : Answer :=
  let message := match step with
    | none => e.message
    | some step => step ++ "\n\nCaused by:\n    " ++ "\n    ".intercalate (e.message.splitOn "\n")
  { code := 1, errors := "Error: " ++ message ++ "\n" }

def help (program : String) : Answer where
  code := 0
  output := "Parse a Lucene-style query string and print its canonical form\n\n" ++
    "Usage: " ++ program ++ " [OPTIONS] <QUERY>\n\n" ++
    "Arguments:\n  <QUERY>  Query string to parse\n\n" ++
    "Options:\n" ++
    "      --field <FIELDS>   Default search field (repeatable)\n" ++
    "      --and              Combine entries without an explicit operator with AND\n" ++
    "      --strict           Report syntax errors instead of falling back to a term query\n" ++
    "      --config <CONFIG>  JSON configuration file\n" ++
    "      --lexemes          Print the lexeme stream instead of the parsed query\n" ++
    "  -h, --help             Print help\n"

def misuse : Answer where
  code := 2
  errors := "error: the arguments are not understood\n\nFor more information, try '--help'.\n"

def Options.adjust (o : Options) (c : Config) : Config :=
  { c with
    defaultSearchFields := if o.fields.isEmpty then c.defaultSearchFields else o.fields
    defaultOperator := if o.and then .and else c.defaultOperator
    suppressExceptions := c.suppressExceptions && !o.strict }

def Options.config (o : Options) (file : Option String) : Except Answer Config :=
  match o.configPath with
  | none => .ok {}
  | some path =>
    let loaded := (file.map Config.ofText).getD (.error .file)
    loaded.mapError (failure (some ("failed to load configuration " ++ path)))

/-- Answers a query, given the text of the configuration file where one is named and can be read. -/
def Options.answer (packages : Packages) (o : Options) (file : Option String) : Answer :=
  match o.config file with
  | .error a => a
  | .ok c =>
    match Parser.ofConfig packages (o.adjust c) with
    | .error e => failure (some "invalid parser configuration") e
    | .ok p =>
      if o.lexemes then
        match Lexeme.tokenize o.query with
        | .error e => failure none e
        | .ok lexemes => { code := 0, output := String.join (lexemes.map fun x => x.render ++ "\n") }
      else
        match p.parse o.query with
        | .error e => failure (some ("failed to parse query " ++ Quoted.encode o.query)) e
        | .ok outcome => { code := 0, output := outcome.query.render ++ "\n" }

def Request.answer (packages : Packages) (program : String) (file : Option String) : Request → Answer
  | run options => options.answer packages file
  | help => CommandLine.help program
  | misuse => CommandLine.misuse

end CommandLine

end TextSearch
