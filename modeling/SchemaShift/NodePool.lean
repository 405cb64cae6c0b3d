/-! A pool of chain nodes.

Nodes are addressed by handles. A freed handle is handed out again, the last one
freed first, before the pool grows; the pool grows by whole chunks and never
shrinks. A chain is followed from node to node until a handle is missing or no
longer in use. -/
namespace SchemaShift

/-- The handle of a node in a pool. -/
structure NodeId where
  index : Nat
  deriving DecidableEq, Repr

/-- An object and the node after it. -/
structure Node (α : Type) where
  object : α
  next : Option NodeId := none
  deriving DecidableEq, Repr

/-- Where an object stands in a chain: its node and the one before it. -/
structure ChainMatch where
  node : NodeId
  prev : Option NodeId
  deriving DecidableEq, Repr

/-- Nodes in use and handles to hand out again. -/
structure NodePool (α : Type) where
  /-- The number of nodes per chunk. -/
  chunkSize : UInt64
  /-- What each handle issued so far stands for. -/
  nodes : List (Option (Node α)) := []
  /-- The handles that were freed, the last one first. -/
  free : List NodeId := []
  deriving DecidableEq, Repr

namespace NodePool

variable {α : Type}

/-- The chunk size of a pool for which none is given. -/
def defaultChunkSize : UInt64 := 64

/-- A pool without nodes; a chunk holds at least one. -/
def ofChunkSize (chunkSize : UInt64) : NodePool α := { chunkSize := max chunkSize 1 }

/-- The number of nodes in use. -/
def size (p : NodePool α) : Nat := p.nodes.countP Option.isSome

def isEmpty (p : NodePool α) : Bool := p.size == 0

/-- The number of chunks that hold the handles issued so far. -/
def chunks (p : NodePool α) : Nat := (p.nodes.length + p.chunkSize.toNat - 1) / p.chunkSize.toNat

/-- The number of nodes that fit into the chunks. -/
def capacity (p : NodePool α) : Nat := p.chunks * p.chunkSize.toNat

/-- The node of a handle in use. -/
def get? (p : NodePool α) (id : NodeId) : Option (Node α) := (p.nodes[id.index]?).bind fun n => n

/-- Puts an object in front of `next`, on the handle freed last or on a new one. -/
def alloc (p : NodePool α) (object : α) (next : Option NodeId) : NodeId × NodePool α :=
  match p.free with
  | id :: free => (id, { p with nodes := p.nodes.set id.index (some ⟨object, next⟩), free })
  | [] => (⟨p.nodes.length⟩, { p with nodes := p.nodes ++ [some ⟨object, next⟩] })

/-- Takes a handle back, with the object it held; nothing happens to one that is
not in use. -/
def release (p : NodePool α) (id : NodeId) : Option α × NodePool α :=
  match p.get? id with
  | some node => (some node.object, { p with nodes := p.nodes.set id.index none, free := id :: p.free })
  | none => (none, p)

/-- Changes the node of a handle in use. -/
def modify (p : NodePool α) (id : NodeId) (f : Node α → Node α) : NodePool α :=
  { p with nodes := p.nodes.modify id.index fun n => n.map f }

/-- Links the node of a handle to another one. -/
def link (p : NodePool α) (id : NodeId) (next : Option NodeId) : NodePool α :=
  p.modify id fun node => { node with next }

/-! ### Chains -/

/-- The first nodes of a chain, at most `limit` of them. -/
def walk (p : NodePool α) : (limit : Nat) → Option NodeId → List (NodeId × α)
  | 0, _ => []
  | _ + 1, none => []
  | limit + 1, some id =>
    match p.get? id with
    | none => []
    | some node => (id, node.object) :: p.walk limit node.next

/-- The nodes of a chain with their objects. A chain that does not run in a
circle has no more nodes than the pool. -/
def chain (p : NodePool α) (start : Option NodeId) : List (NodeId × α) :=
  p.walk p.nodes.length start

/-- The first node that holds `object`, given the node in front of the list. -/
def matchIn [DecidableEq α] (object : α) : Option NodeId → List (NodeId × α) → Option ChainMatch
  | _, [] => none
  | prev, (id, held) :: rest =>
    if held = object then some ⟨id, prev⟩ else matchIn object (some id) rest

/-- The first node of a chain that holds `object`. -/
def findInChain [DecidableEq α] (p : NodePool α) (start : Option NodeId) (object : α) :
    Option ChainMatch :=
  matchIn object none (p.chain start)

/-- Takes the handles of a chain back, at most `limit` of them. -/
def releaseUpTo (p : NodePool α) : (limit : Nat) → Option NodeId → List α × NodePool α
  | 0, _ => ([], p)
  | _ + 1, none => ([], p)
  | limit + 1, some id =>
    match p.get? id with
    | none => ([], p)
    | some node =>
      let (objects, p) := (p.release id).2.releaseUpTo limit node.next
      (node.object :: objects, p)

/-- Takes all handles of a chain back, with the objects they held. Every handle
taken back was in use, so there are no more of them than nodes. -/
def releaseChain (p : NodePool α) (start : Option NodeId) : List α × NodePool α :=
  p.releaseUpTo p.nodes.length start

end NodePool
end SchemaShift
