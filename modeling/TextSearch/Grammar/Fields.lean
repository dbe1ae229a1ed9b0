import TextSearch.Config

/-! The fields queries may name, and what they are called in the index. -/
namespace TextSearch.Config

/-- Refuses a field that is not allowed. The empty name is always allowed, and failures do not mention
private fields. -/
def checkField (c : Config) (field : Option String) : Except Error Unit :=
  match field with
  | none => .ok ()
  | some field =>
    if field.isEmpty || c.allowedFields.isEmpty || c.allowedFields.contains field then .ok ()
    else .error (.unauthorized field (c.allowedFields.filter (!c.privateFields.contains ·)))

def mapped (c : Config) (field : String) : String :=
  (c.fieldMapping.lookup field).getD field

def resolveField (c : Config) (field : Option String) : Except Error (Option String) :=
  (c.checkField field).map fun _ => field.map c.mapped

end TextSearch.Config
