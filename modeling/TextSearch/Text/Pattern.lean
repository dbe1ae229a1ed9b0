/-! Patterns with ordered choice: where several matches start at one place, the first in order counts. -/
namespace TextSearch

/-- Patterns with their matches in order of preference: the alternatives as they are listed, the longer repetitions before
the shorter ones. -/
inductive Pattern where
  | nothing
  | one (accepts : Char → Bool)
  | seq (first second : Pattern)
  | alt (first second : Pattern)
  | rep (body : Pattern) (least most : Nat)
  | many (accepts : Char → Bool)

namespace Pattern

def text (s : String) : Pattern :=
  s.toList.foldr (fun c p => seq (one (· == c)) p) nothing

def sequence (ps : List Pattern) : Pattern :=
  ps.foldr seq nothing

def firstOf : List Pattern → Pattern
  | [] => one fun _ => false
  | [p] => p
  | p :: ps => alt p (firstOf ps)

def optional (p : Pattern) : Pattern := rep p 0 1

/-- What can be left after repeating a step, the longest repetitions first. -/
def repeated (step : List Char → List (List Char)) : Nat → Nat → List Char → List (List Char)
  | 0, 0, s => [s]
  | _ + 1, 0, _ => []
  | 0, most + 1, s => (step s).flatMap (repeated step 0 most) ++ [s]
  | least + 1, most + 1, s => (step s).flatMap (repeated step least most)

def runs (accepts : Char → Bool) : List Char → List (List Char)
  | [] => []
  | c :: s => if accepts c then runs accepts s ++ [s] else []

/-- What each match at the start of a text leaves of it, in order of preference. -/
def rests : Pattern → List Char → List (List Char)
  | nothing, s => [s]
  | one accepts, s =>
    match s with
    | c :: s => if accepts c then [s] else []
    | [] => []
  | seq p q, s => (p.rests s).flatMap q.rests
  | alt p q, s => p.rests s ++ q.rests s
  | rep p least most, s => repeated p.rests least most s
  | many accepts, s => runs accepts s

def rest? (p : Pattern) (s : List Char) : Option (List Char) :=
  (p.rests s).head?

def isWhole (p : Pattern) (s : List Char) : Bool :=
  (p.rests s).any (·.isEmpty)

end Pattern

end TextSearch
