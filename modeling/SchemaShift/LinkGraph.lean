import SchemaShift.NodePool

/-! Relations between objects.

A graph has one head for every object that relates to others, in the order of
the objects. The objects that it relates to hang on the head as a chain of pool
nodes, the most recent one first and as often as they were added. Any number of
graphs share a pool, which every operation takes and gives back. -/
namespace SchemaShift

/-- What an erasure does about the edges that point back. -/
inductive EraseMode where
  /-- Erases the edge back as well. -/
  | mirror
  /-- Leaves edges back alone. -/
  | keep
  /-- Erases every edge back from the related objects first and then reports the
  object as unlinked. -/
  | unlink
  deriving DecidableEq, Repr

namespace EraseMode

/-- The mode of a numeric code. -/
def ofCode? : Int → Option EraseMode
  | 0 => some mirror
  | 1 => some keep
  | -1 => some unlink
  | _ => none

/-- The word for a mode. -/
def describe : EraseMode → String
  | mirror => "Mirror"
  | keep => "Keep"
  | unlink => "Unlink"

end EraseMode

/-- The heads of a relation, one for each object, in order. -/
structure LinkGraph (α : Type) where
  heads : List (Node α) := []
  deriving DecidableEq, Repr

namespace LinkGraph

variable {α : Type}

/-- A graph without heads. It makes room for a number of them, and for more as they come. -/
def ofCapacity (_capacity : UInt64) : LinkGraph α := {}

def size (g : LinkGraph α) : Nat := g.heads.length

def isEmpty (g : LinkGraph α) : Bool := g.heads.isEmpty

/-! ### Heads -/

section Heads
variable [DecidableEq α]

/-- The head of an object. -/
def head? (g : LinkGraph α) (object : α) : Option (Node α) :=
  g.heads.find? fun head => head.object = object

/-- The first node on the chain of an object. -/
def firstEdge? (g : LinkGraph α) (object : α) : Option NodeId := (g.head? object).bind Node.next

/-- Hangs another chain on the head of an object. -/
def withFirst (g : LinkGraph α) (object : α) (next : Option NodeId) : LinkGraph α :=
  ⟨g.heads.map fun head => if head.object = object then { head with next } else head⟩

/-- Removes the head of an object. -/
def withoutHead (g : LinkGraph α) (object : α) : LinkGraph α :=
  ⟨g.heads.filter fun head => !decide (head.object = object)⟩

end Heads

/-- Heads in order with one for `object` among them. -/
def insertHead [Ord α] (object : α) : List (Node α) → List (Node α)
  | [] => [{ object }]
  | head :: rest =>
    match compare object head.object with
    | .lt => { object } :: head :: rest
    | .eq => head :: rest
    | .gt => head :: insertHead object rest

/-- Sees to a head for `object`. -/
def withHead [Ord α] (g : LinkGraph α) (object : α) : LinkGraph α := ⟨insertHead object g.heads⟩

/-! ### Edges -/

section Edges
variable [DecidableEq α] [Ord α]

/-- Adds one edge in front of the others of `source`. -/
def addEdge (g : LinkGraph α) (p : NodePool α) (source target : α) : LinkGraph α × NodePool α :=
  let g := g.withHead source
  let (id, p) := p.alloc target (g.firstEdge? source)
  (g.withFirst source (some id), p)

/-- Relates `source` to `target`, and back unless `oneWay`. Without a target
`source` only gets its head. -/
def add (g : LinkGraph α) (p : NodePool α) (source : α) (target : Option α) (oneWay : Bool) :
    LinkGraph α × NodePool α :=
  match target with
  | none => (g.withHead source, p)
  | some target =>
    let (g, p) := g.addEdge p source target
    if oneWay then (g, p) else g.addEdge p target source

end Edges

section Look
variable [DecidableEq α]

/-- The objects that `source` relates to, the most recent one first. -/
def related (g : LinkGraph α) (p : NodePool α) (source : α) : List α :=
  (p.chain (g.firstEdge? source)).map Prod.snd

/-- The head of `source`, or the first node of its chain that holds `target`. -/
def find? (g : LinkGraph α) (p : NodePool α) (source : α) (target : Option α) : Option (Node α) :=
  match target with
  | none => g.head? source
  | some target => (p.findInChain (g.firstEdge? source) target).bind fun found => p.get? found.node

/-- Removes the first edge from `source` to `target`, if there is one. -/
def unlinkEdge? (g : LinkGraph α) (p : NodePool α) (source target : α) :
    Option (LinkGraph α × NodePool α) :=
  (p.findInChain (g.firstEdge? source) target).map fun found =>
    let next := (p.get? found.node).bind Node.next
    let (g, p) := match found.prev with
      | none => (g.withFirst source next, p)
      | some prev => (g, p.link prev next)
    (g, (p.release found.node).2)

/-- Removes the first edge from `source` to `target` or changes nothing. -/
def unlinkEdge (g : LinkGraph α) (p : NodePool α) (source target : α) : LinkGraph α × NodePool α :=
  (g.unlinkEdge? p source target).getD (g, p)

/-- Removes edges from `source` to `target`, at most `limit` of them. -/
def unlinkUpTo (g : LinkGraph α) (p : NodePool α) (source target : α) :
    (limit : Nat) → LinkGraph α × NodePool α
  | 0 => (g, p)
  | limit + 1 =>
    match g.unlinkEdge? p source target with
    | none => (g, p)
    | some (g, p) => g.unlinkUpTo p source target limit

/-- Removes every edge from `source` to `target`; each removal frees a node, so
there are no more of them than nodes. -/
def unlinkAll (g : LinkGraph α) (p : NodePool α) (source target : α) : LinkGraph α × NodePool α :=
  g.unlinkUpTo p source target p.nodes.length

/-- Removes every edge to `target` from each of the sources. -/
def scrub (g : LinkGraph α) (p : NodePool α) (target : α) (sources : List α) :
    LinkGraph α × NodePool α :=
  sources.foldl (fun (g, p) source => g.unlinkAll p source target) (g, p)

/-- Removes one edge to `target` from each of the sources. -/
def unmirror (g : LinkGraph α) (p : NodePool α) (target : α) (sources : List α) :
    LinkGraph α × NodePool α :=
  sources.foldl (fun (g, p) source => g.unlinkEdge p source target) (g, p)

/-- Erases the first edge from `source` to `target`, or without a target the
whole chain of `source`; `mode` says what becomes of edges back. The third
component is the object to report as unlinked: `source`, when it is unlinked and
either a target is given or `source` has a head. Heads stay, also empty ones. -/
def erase (g : LinkGraph α) (p : NodePool α) (source : α) (target : Option α) (mode : EraseMode) :
    LinkGraph α × NodePool α × Option α :=
  let (g, p) := if mode = .unlink then g.scrub p source (g.related p source) else (g, p)
  let report := if mode = .unlink then some source else none
  match target with
  | some target =>
    match g.unlinkEdge? p source target with
    | none => (g, p, report)
    | some (g, p) =>
      let (g, p) := if mode = .mirror then g.unlinkEdge p target source else (g, p)
      (g, p, report)
  | none =>
    match g.head? source with
    | none => (g, p, none)
    | some head =>
      let (released, p) := p.releaseChain head.next
      let g := g.withFirst source none
      let (g, p) := if mode = .mirror then g.unmirror p source released else (g, p)
      (g, p, report)

/-- Puts `new` in the place of `old` in the nodes of the given handles. -/
def renameNodes (p : NodePool α) (old new : α) (ids : List NodeId) : NodePool α :=
  ids.foldl (fun p id => p.modify id fun node =>
    if node.object = old then { node with object := new } else node) p

/-- Puts `new` in the place of `old` on the chain of every head. -/
def renameTargets (g : LinkGraph α) (p : NodePool α) (old new : α) : NodePool α :=
  g.heads.foldl (fun p head => renameNodes p old new ((p.chain head.next).map Prod.fst)) p

/-- Drops the heads without a chain. -/
def removeEmpty (g : LinkGraph α) : LinkGraph α := ⟨g.heads.filter fun head => head.next.isSome⟩

/-- Gives all chains back to the pool and drops all heads. -/
def clear (g : LinkGraph α) (p : NodePool α) : LinkGraph α × NodePool α :=
  ({}, g.heads.foldl (fun p head => (p.releaseChain head.next).2) p)

end Look

/-- Replaces `old` by `new` as a target everywhere. Unless `oneWay`, the edges
that start at `old` move as well: they go behind those of `new`. -/
def replace [DecidableEq α] [Ord α] (g : LinkGraph α) (p : NodePool α) (old new : α)
    (oneWay : Bool) : LinkGraph α × NodePool α :=
  let p := g.renameTargets p old new
  match oneWay, g.head? old with
  | false, some head =>
    let g := (g.withoutHead old).withHead new
    match g.firstEdge? new with
    | none => (g.withFirst new head.next, p)
    | some first =>
      let tail := ((p.chain (some first)).getLast?.map Prod.fst).getD first
      (g, p.link tail head.next)
  | _, _ => (g, p)

end LinkGraph
end SchemaShift
