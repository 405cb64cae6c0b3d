/-! What can go wrong.

A fault names its cause; its wording, its code and the advice that goes with it
are functions of the cause. A failed foreign key trace carries the faults of its
columns, one by one. -/
namespace SchemaShift

/-- Why an operation failed. -/
inductive Fault where
  /-- A change to data that is shared and read-only. -/
  | staticData (name : String)
  /-- No entry of that name. -/
  | entryNotFound (name : String)
  /-- The trail of a name ends in a pending drop. -/
  | dropped (name : String)
  /-- Foreign keys that could not be traced, in order. -/
  | traceFailed (faults : List Fault)
  /-- A file that is not there or holds no text. -/
  | unreadable (path : String)
  /-- Settings that are well formed and make no sense. -/
  | badSettings (text : String)
  /-- A settings document that is not well formed. -/
  | badDocument
  deriving Repr, BEq, Inhabited

namespace Fault

/-- The coarse class of a fault. -/
inductive Code where
  | staticData
  | entryNotFound
  | dropped
  | config
  deriving DecidableEq, Repr

/-- The word for a class of faults. -/
def Code.describe : Code → String
  | .staticData => "StaticData"
  | .entryNotFound => "EntryNotFound"
  | .dropped => "ReentryDropped"
  | .config => "Config"

/-- The text of a fault. -/
def message : Fault → String
  | staticData name => "cannot migrate static data `" ++ name ++ "`"
  | entryNotFound name => "entry `" ++ name ++ "` not found"
  | dropped name => "`" ++ name ++ "` was dropped by a pending migration"
  | traceFailed faults =>
    "foreign key tracing failed with " ++ toString faults.length ++ " error(s)"
  | unreadable path => "failed to read file: " ++ path
  | badSettings text => "configuration error: " ++ text
  | badDocument => "failed to parse TOML"

/-- The word for the kind of a fault. -/
def kind : Fault → String
  | staticData _ => "StaticData"
  | entryNotFound _ => "EntryNotFound"
  | dropped _ => "ReentryDropped"
  | traceFailed _ => "TraceFailed"
  | unreadable _ => "IoError"
  | badSettings _ => "ConfigError"
  | badDocument => "TomlError"

/-- The dotted name under which a fault is looked up. -/
def diagnostic : Fault → String
  | staticData _ => "tabula::schema::static_data"
  | entryNotFound _ => "tabula::schema::entry_not_found"
  | dropped _ => "tabula::schema::reentry_dropped"
  | traceFailed _ => "tabula::schema::trace_failed"
  | unreadable _ => "tabula::schema::io_error"
  | badSettings _ => "tabula::schema::config_error"
  | badDocument => "tabula::schema::toml_error"

/-- What to do about a fault, where there is something to do. -/
def help? : Fault → Option String
  | staticData _ => some "only tables created at runtime can accumulate migrations"
  | _ => none

mutual

/-- The class of a fault; a failed trace has the class of its last fault. -/
def code : Fault → Code
  | staticData _ => .staticData
  | entryNotFound _ => .entryNotFound
  | dropped _ => .dropped
  | traceFailed faults => lastCode .entryNotFound faults
  | unreadable _ => .config
  | badSettings _ => .config
  | badDocument => .config

/-- The class of the last fault of a list, `default` for none. -/
def lastCode (default : Code) : List Fault → Code
  | [] => default
  | fault :: rest => lastCode fault.code rest

end

/-- The faults of a failed trace; any other fault stands for itself. -/
def parts : Fault → List Fault
  | traceFailed faults => faults
  | fault => [fault]

/-- One fault for all faults of a trace, if there are any. -/
def ofTrace? (faults : List Fault) : Option Fault :=
  if faults.isEmpty then none else some (traceFailed faults)

end Fault
end SchemaShift
