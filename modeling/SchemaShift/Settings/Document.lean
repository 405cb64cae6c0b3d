import SchemaShift.Settings.Encoding
import SchemaShift.Settings.Expansion
import SchemaShift.Toml.Document

/-! Settings documents.

A settings document is TOML in which references to environment variables are
expanded first. What it says is validated. -/
namespace SchemaShift
namespace Settings

/-- A list that stands for a section of a document may go on after its fields. -/
def documentLists : Data.ListForm := { bounded := false }

/-- The settings of a document whose references are expanded, as they are. -/
def ofDocument? (text : String) : Option Settings :=
  (Toml.data? text).bind (Settings.ofData? documentLists)

/-- The valid settings of a document. -/
def ofText (env : Environment) (text : String) : Except Fault Settings :=
  match ofDocument? (Expansion.expand env text) with
  | none => .error .badDocument
  | some settings => do
    settings.validate
    return settings

/-- The valid settings of a file, which is there and holds UTF-8 text. -/
def ofFile (env : Environment) (path : String) (contents : Option ByteArray) :
    Except Fault Settings :=
  match contents.bind String.fromUTF8? with
  | none => .error (.unreadable path)
  | some text => ofText env text

end Settings
end SchemaShift
