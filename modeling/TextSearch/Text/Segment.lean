/-! Texts cut into matches and the characters between them. -/
namespace TextSearch

inductive Segment where
  | gap (c : Char)
  | hit (text : List Char)
  deriving DecidableEq, Repr

namespace Segment

def chars : Segment → List Char
  | gap c => [c]
  | hit text => text

/-- Cuts a text from left to right. `rest?` says what a match leaves of the text it starts at; a match
that takes nothing is none. -/
def cut (rest? : List Char → Option (List Char)) (s : List Char) : List Segment :=
  match s with
  | [] => []
  | c :: s =>
    match rest? (c :: s) with
    | none => gap c :: cut rest? s
    | some after =>
      if _ : after.length ≤ s.length then
        hit ((c :: s).take (s.length + 1 - after.length)) :: cut rest? after
      else gap c :: cut rest? s
  termination_by s.length

def hits (segments : List Segment) : List (List Char) :=
  segments.filterMap fun
    | gap _ => none
    | hit text => some text

end Segment

end TextSearch
