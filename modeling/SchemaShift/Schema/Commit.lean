import SchemaShift.Schema
import SchemaShift.Table.Accumulate

/-! Ending the pending changes of a schema. -/
namespace SchemaShift
namespace Schema

/-- Removes the table log, commits every table with the flags to clear and to
set, and moves the committed part to the end of the list. -/
def clearChanges (s : Schema) (clear set : Flags) : Schema :=
  let tables := s.tables.removePlaceholders
  { s with
    tables := tables.modifyAll fun t => t.commit clear set
    offset := tables.length
    flags := s.flags.remove .change }

end Schema
end SchemaShift
