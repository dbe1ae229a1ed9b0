import TextSearch.Text.Pattern

/-! Internet addresses of version six, as they stand in running text. -/
namespace TextSearch.Address

open Pattern

def isDigit (c : Char) : Bool := '0' ≤ c && c ≤ '9'

def isHexDigit (c : Char) : Bool :=
  isDigit c || ('a' ≤ c && c ≤ 'f') || ('A' ≤ c && c ≤ 'F')

def isWordChar (c : Char) : Bool :=
  isDigit c || ('a' ≤ c && c ≤ 'z') || ('A' ≤ c && c ≤ 'Z')

def between (low high : Char) : Pattern := one fun c => low ≤ c && c ≤ high

def digit : Pattern := one isDigit

def group : Pattern := rep (one isHexDigit) 1 4

def groupColon : Pattern := seq group (text ":")

def colonGroup : Pattern := seq (text ":") group

def octet : Pattern :=
  alt (seq (text "25") (between '0' '5'))
    (seq (optional (alt (seq (text "2") (between '0' '4')) (seq (optional (text "1")) digit))) digit)

def dotted : Pattern := seq (rep (seq octet (text ".")) 3 3) octet

/-- The shapes of an address. An earlier shape wins even where a later one would match more. -/
def shapes : List Pattern :=
  [ seq (rep groupColon 7 7) group,
    sequence [text "::",
      optional (sequence [text "ffff", optional (seq (text ":") (rep (text "0") 1 4)), text ":"]),
      dotted],
    sequence [rep groupColon 1 4, text ":", dotted],
    sequence [text "fe80:", rep (seq (text ":") (rep (one isHexDigit) 0 4)) 0 4, text "%", many isWordChar],
    sequence [groupColon, rep colonGroup 1 6],
    seq (rep groupColon 1 2) (rep colonGroup 1 5),
    seq (rep groupColon 1 3) (rep colonGroup 1 4),
    seq (rep groupColon 1 4) (rep colonGroup 1 3),
    seq (rep groupColon 1 5) (rep colonGroup 1 2),
    seq (rep groupColon 1 6) colonGroup,
    seq (text ":") (alt (rep colonGroup 1 7) (text ":")),
    seq (rep groupColon 1 7) (text ":") ]

def networkLength : Pattern :=
  seq (text "/") (firstOf [
    seq (text "12") (between '0' '8'),
    sequence [text "1", between '0' '1', digit],
    seq (between '1' '9') digit,
    digit ])

/-- An address and, where one follows, the length of its network. -/
def pattern : Pattern := seq (firstOf shapes) (optional networkLength)

end TextSearch.Address
