import TextSearch.Text.CaseTable

/-! Small letters for capital ones, by the full rules of the Unicode standard. -/
namespace TextSearch

def CaseRun.lower? (run : CaseRun) (c : Char) : Option Char :=
  let offset := c.toNat - run.first
  if run.first ≤ c.toNat && c.toNat ≤ run.last && offset % run.step == 0 then
    some (Char.ofNat (run.lower + offset))
  else none

/-- Characters out of context. The dotted capital I keeps its dot as a mark. -/
def lowerChar (c : Char) : List Char :=
  if c.toNat < 0x80 then [c.toLower]
  else if c == '\u0130' then ['i', '\u0307']
  else [(CaseRun.all.findSome? (·.lower? c)).getD c]

def meetsLetter (s : List Char) : Bool :=
  match s.dropWhile CharRanges.caseIgnorable.contains with
  | c :: _ => CharRanges.cased.contains c
  | [] => false

/-- Lowers `s`, which follows the characters of `before`, the last one first. A sigma that ends a word
has a form of its own. -/
def lowerAfter (before : List Char) : List Char → List Char
  | [] => []
  | c :: rest =>
    let small :=
      if c == '\u03a3' then
        if meetsLetter before && !meetsLetter rest then ['\u03c2'] else ['\u03c3']
      else lowerChar c
    small ++ lowerAfter (c :: before) rest

def lowerCase (text : String) : String :=
  String.ofList (lowerAfter [] text.toList)

end TextSearch
