import TextSearch.CommandLine

/-! Reads the configuration file the arguments name, answers the query and prints. -/
namespace TextSearch.CommandLine

def readConfig (request : Request) : IO (Option String) := do
  match request with
  | .run { configPath := some path, .. } =>
    try return some (← IO.FS.readFile path) catch _ => return none
  | _ => return none

/-- The program over the packages it is built with. -/
def run (packages : Packages) (arguments : List String) : IO UInt32 := do
  let request := Request.ofArguments arguments
  let program := (← IO.appPath).fileName.getD "textsearch"
  let answer := request.answer packages program (← readConfig request)
  IO.print answer.output
  IO.eprint answer.errors
  return answer.code.toUInt32

end TextSearch.CommandLine
