/-! Environment variables. -/
namespace SchemaShift

/-- Variables with their values; of equal names the first one counts. -/
abbrev Environment := List (String × String)

namespace Environment

/-- The value of a variable that is set. -/
def get? (env : Environment) (name : String) : Option String := env.lookup name

/-- Sets a variable. -/
def set (env : Environment) (name value : String) : Environment :=
  (name, value) :: env.filter fun entry => entry.1 != name

end Environment
end SchemaShift
