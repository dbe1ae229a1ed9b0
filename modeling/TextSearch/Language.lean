/-! The languages whose stop words and stems a filter may ask for. -/
namespace TextSearch

inductive Language where
  | english
  | french
  | german
  | spanish
  | italian
  | portuguese
  | dutch
  | russian
  deriving DecidableEq, Repr

/-- A language by its name or its two-letter code, in any letter case. -/
def Language.ofName? (name : String) : Option Language :=
  match String.ofList (name.toList.map Char.toLower) with
  | "english" | "en" => some english
  | "french" | "fr" => some french
  | "german" | "de" => some german
  | "spanish" | "es" => some spanish
  | "italian" | "it" => some italian
  | "portuguese" | "pt" => some portuguese
  | "dutch" | "nl" => some dutch
  | "russian" | "ru" => some russian
  | _ => none

end TextSearch
