/-!
# Labelled text

Values in the log are written with their names: `Name(value)` for one part, and named parts in
braces for several.
-/

namespace Reckon.Labelled

def wrap (name inner : String) : String := name ++ "(" ++ inner ++ ")"

/-- `name`, then each part as `label: value`. -/
def record (name : String) (parts : List (String × String)) : String :=
  let shown := parts.map fun (label, value) => label ++ ": " ++ value
  name ++ " \x7b " ++ ", ".intercalate shown ++ " \x7d"

end Reckon.Labelled
