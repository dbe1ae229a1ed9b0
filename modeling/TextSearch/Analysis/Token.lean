import TextSearch.Config
import TextSearch.Text.Address
import TextSearch.Text.Segment

/-! The words of a text and where they stand. -/
namespace TextSearch

/-- A word, the bytes it starts at and ends before, and how many words further it stands than the token
before it. -/
structure Token where
  text : String
  start : Nat
  stop : Nat
  increment : Nat := 1
  deriving DecidableEq, Repr

namespace Splitting

def isLetter (c : Char) : Bool :=
  ('a' ≤ c && c ≤ 'z') || ('A' ≤ c && c ≤ 'Z')

def isDotted (c : Char) : Bool := Address.isWordChar c || c == '.'

/-- What is left behind the run of accepted characters at the start of a text, if there is one. -/
def run? (accepts : Char → Bool) : List Char → Option (List Char)
  | [] => none
  | c :: rest => if accepts c then some (rest.dropWhile accepts) else none

/-- How a word that starts with a text goes on, for the splittings by characters. -/
def word? : Splitting → Option (List Char → Option (List Char))
  | letters => some (run? isLetter)
  | lettersDigits => some (run? Address.isWordChar)
  | lettersDigitsDots => some (run? isDotted)
  | addresses => some fun s => (Address.pattern.rest? s).or (run? isDotted s)
  | words => none

def byteCount (text : List Char) : Nat := (text.map Char.utf8Size).foldr (· + ·) 0

def tokensFrom (offset : Nat) : List Segment → List Token
  | [] => []
  | .gap c :: rest => tokensFrom (offset + c.utf8Size) rest
  | .hit text :: rest =>
    let stop := offset + byteCount text
    { text := String.ofList text, start := offset, stop } :: tokensFrom stop rest

/-- The words of a text. Those of the Unicode standard are found by `findWords`, each with the byte it
starts at. -/
def split (kind : Splitting) (findWords : String → List (Nat × String)) (text : String) : List Token :=
  match kind.word? with
  | some rest? => tokensFrom 0 (Segment.cut rest? text.toList)
  | none =>
    (findWords text).map fun (start, word) => { text := word, start, stop := start + word.utf8ByteSize }

end Splitting

end TextSearch
