import TextSearch.Text.Pattern

/-! Globs: texts with a star for any run of characters and a question mark for any one character. -/
namespace TextSearch.Glob

def isWildcard (c : Char) : Bool := c == '*' || c == '?'

/-- Wildcards stand for any character that does not end a line. -/
def isPlain (c : Char) : Bool := c != '\n'

def part (c : Char) : Pattern :=
  if c = '*' then .optional (.many isPlain)
  else if c = '?' then .one isPlain
  else .one (· == c)

def pattern (glob : List Char) : Pattern := .sequence (glob.map part)

def accepts (glob text : List Char) : Bool := (pattern glob).isWhole text

def literalStart (glob : List Char) : List Char :=
  glob.takeWhile (!isWildcard ·)

end TextSearch.Glob
