import TextSearch.Error
import TextSearch.Grammar.Phase

/-! Lexemes read one by one, with actions on data of the reader. -/
namespace TextSearch

/-- What happens to the data at a lexeme: an action where it may stand in the phase, and one where it leads into another
phase. A failing action leaves the data as they were. -/
structure Actions (σ : Type) where
  input : Phase → Lexeme → σ → Except Error σ
  entry : Phase → Lexeme → σ → Except Error σ

structure Machine (σ : Type) where
  phase : Phase := .common
  data : σ

namespace Machine

def misplaced (x : Lexeme) : Error := .syntactic "Syntax error" (some x.position)

/-- Reads a lexeme. The phase changes between the two actions, so that it has changed also if only the
second one fails. Failures of actions are placed at the lexeme. -/
def step {σ : Type} (actions : Actions σ) (m : Machine σ) (x : Lexeme) : Machine σ × Option Error :=
  match m.phase.next x.kind with
  | none => (m, some (misplaced x))
  | some target =>
    match actions.input m.phase x m.data with
    | .error e => (m, some (e.locate x.position))
    | .ok data =>
      if m.phase = target then ({ phase := target, data }, none)
      else
        match actions.entry target x data with
        | .error e => ({ phase := target, data }, some (e.locate x.position))
        | .ok data => ({ phase := target, data }, none)

end Machine

end TextSearch
