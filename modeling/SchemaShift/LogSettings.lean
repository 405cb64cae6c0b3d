import SchemaShift.Environment

/-! What the environment says about logging.

Three variables decide whether to log at all, from which level on and in which
format; the case of letters in their values does not matter, and a value that is
not known counts as not set. -/
namespace SchemaShift
namespace LogSettings

def debugVariable : String := "TABULA_DEBUG"

def levelVariable : String := "TABULA_LOG_LEVEL"

def formatVariable : String := "TABULA_LOG_FORMAT"

/-- The levels, from the most talkative one on. -/
def levels : List String := ["trace", "debug", "info", "warn", "error"]

/-- The value of a variable in small letters. -/
def lowered? (env : Environment) (name : String) : Option String :=
  (env.get? name).map String.toLower

/-- Debugging is switched on. -/
def isDebug (env : Environment) : Bool :=
  (lowered? env debugVariable).any fun value => ["true", "1", "yes"].contains value

/-- The level to log from. -/
def level (env : Environment) : String :=
  ((lowered? env levelVariable).filter levels.contains).getD
    (if isDebug env then "debug" else "warn")

/-- The format to log in. -/
def format (env : Environment) : String :=
  ((lowered? env formatVariable).filter ["pretty", "compact"].contains).getD "json"

/-- Asks for a level. -/
def withLevel (env : Environment) (level : String) : Environment := env.set levelVariable level

/-- Switches debugging on. -/
def withDebug (env : Environment) : Environment := env.set debugVariable "true"

end LogSettings
end SchemaShift
