import SchemaShift.Entries
import SchemaShift.LinkGraph

/-! The history of names.

The pending drops and renames of a collection become a graph: a rename is an
edge from the old name to the new one, a drop an edge to the mark of a dropped
name. The trail of a name takes at every step the oldest edge that it has not
taken yet, so it ends also where names were renamed back and forth. -/
namespace SchemaShift

/-- What a name became: another name, or nothing. -/
inductive Fate where
  | name (name : String)
  | dropped
  deriving DecidableEq, Repr

namespace Fate

/-- Names by code points, and the mark of a dropped name after all names. -/
def order : Fate → Fate → Ordering
  | name a, name b => compare a b
  | name _, dropped => .lt
  | dropped, name _ => .gt
  | dropped, dropped => .eq

instance : Ord Fate := ⟨order⟩

end Fate

/-- The graph of what names became. -/
abbrev RenameGraph := LinkGraph Fate

namespace RenameGraph

/-- The heads for which a graph makes room when no number is given. -/
def defaultCapacity : UInt64 := 16

/-- The edge that an entry adds to a history: a rename or a drop of its old name. -/
def edge? {ε : Type} [Entry ε] (e : ε) : Option (Fate × Fate) :=
  match Entry.oldName e, Entry.change? e with
  | some old, some .rename => (Entry.name e).map fun new => (.name old, .name new)
  | some old, some .drop => some (.name old, .dropped)
  | _, _ => none

/-- The edges of a log, in order. -/
def edges {ε : Type} [Entry ε] (log : List ε) : List (Fate × Fate) := log.filterMap edge?

/-- Adds one-way edges in order. -/
def addEdges (g : RenameGraph) (p : NodePool Fate) (edges : List (Fate × Fate)) :
    RenameGraph × NodePool Fate :=
  edges.foldl (fun (g, p) edge => g.add p edge.1 (some edge.2) true) (g, p)

/-- The history that the entries from `offset` on record. -/
def ofEntries {ε : Type} [Entry ε] (es : Entries ε) (offset : Nat) (p : NodePool Fate) (capacity : UInt64) :
    RenameGraph × NodePool Fate :=
  addEdges (.ofCapacity capacity) p (edges (es.values.drop offset))

/-- The oldest edge of a name that is not among the followed ones. -/
def oldest? (g : RenameGraph) (p : NodePool Fate) (followed : List NodeId) (current : Fate) :
    Option (NodeId × Fate) :=
  ((p.chain (g.firstEdge? current)).filter fun edge => !followed.contains edge.1).getLast?

/-- The edges that a trail takes, at most `limit` of them. -/
def trailUpTo (g : RenameGraph) (p : NodePool Fate) :
    (limit : Nat) → (followed : List NodeId) → Fate → List (Fate × Fate)
  | 0, _, _ => []
  | limit + 1, followed, current =>
    match oldest? g p followed current with
    | none => []
    | some (id, target) =>
      (current, target) ::
        if target = .dropped then [] else g.trailUpTo p limit (id :: followed) target

/-- The edges that the trail of a name takes. It takes no edge twice, so it takes
no more of them than the pool has nodes. -/
def trail (g : RenameGraph) (p : NodePool Fate) (name : String) : List (Fate × Fate) :=
  trailUpTo g p p.nodes.length [] (.name name)

/-- Where a trail that starts at `start` ends. -/
def trailEnd (start : Fate) (trail : List (Fate × Fate)) : Fate :=
  (trail.getLast?.map Prod.snd).getD start

/-- What a name became; a name without an edge has no history. -/
def trace? (g : RenameGraph) (p : NodePool Fate) (name : String) : Option Fate :=
  (g.firstEdge? (.name name)).map fun _ => trailEnd (.name name) (g.trail p name)

/-- Erases the first edge for each step of a trail. -/
def eraseTrail (g : RenameGraph) (p : NodePool Fate) (trail : List (Fate × Fate)) :
    RenameGraph × NodePool Fate :=
  trail.foldl (fun (g, p) step =>
    let (g, p, _) := g.erase p step.1 (some step.2) .keep
    (g, p)) (g, p)

/-- What a name became, with the edges of its trail erased and the heads that
have none left dropped. -/
def consume (g : RenameGraph) (p : NodePool Fate) (name : String) :
    Option Fate × RenameGraph × NodePool Fate :=
  match g.trace? p name with
  | none => (none, g, p)
  | some fate =>
    let (g', p') := g.eraseTrail p (g.trail p name)
    (some fate, g'.removeEmpty, p')

/-- What a name became; with `erase` the history that led there is gone afterwards. -/
def traceName (g : RenameGraph) (p : NodePool Fate) (name : String) (erase : Bool) :
    Option Fate × RenameGraph × NodePool Fate :=
  if erase then g.consume p name else (g.trace? p name, g, p)

end RenameGraph
end SchemaShift
