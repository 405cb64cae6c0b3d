import SchemaShift.NodePool

/-! The storage of a node pool.

Nodes stand in chunks of one size, and a handle counts the cells of all chunks.
A cell that is not in use holds the handle of the next such cell, so the cells to
hand out again form a list inside the storage. The store answers what a
`NodePool` answers, which knows neither chunks nor cells. -/
namespace SchemaShift

/-- A place for a node. -/
inductive Cell (α : Type) where
  | used (node : Node α)
  /-- Not in use, with the one to hand out after it. -/
  | vacant (next : Option NodeId)
  deriving DecidableEq, Repr

namespace Cell

variable {α : Type}

/-- The node in a cell in use. -/
def node? : Cell α → Option (Node α)
  | used node => some node
  | vacant _ => none

@[simp] theorem node?_used (node : Node α) : (used node).node? = some node := rfl

@[simp] theorem node?_vacant (next : Option NodeId) : (vacant next : Cell α).node? = none := rfl

end Cell

/-- Chunks of cells. -/
structure ChunkStore (α : Type) where
  /-- The number of cells in a full chunk. -/
  chunkSize : UInt64
  chunks : List (List (Cell α)) := []
  /-- The cell to hand out next. -/
  freeHead : Option NodeId := none
  /-- The number of cells in use. -/
  inUse : Nat := 0
  deriving DecidableEq, Repr

namespace ChunkStore

variable {α : Type}

/-- A store without chunks; a chunk holds at least one cell. -/
def ofChunkSize (chunkSize : UInt64) : ChunkStore α := { chunkSize := max chunkSize 1 }

def size (s : ChunkStore α) : Nat := s.inUse

def chunkCount (s : ChunkStore α) : Nat := s.chunks.length

/-! ### One cell -/

/-- The cell with a number. -/
def cellAt (chunkSize : Nat) (chunks : List (List (Cell α))) (i : Nat) : Option (Cell α) :=
  chunks[i / chunkSize]?.bind fun chunk => chunk[i % chunkSize]?

/-- Writes the cell with a number. -/
def setCell (chunkSize : Nat) (chunks : List (List (Cell α))) (i : Nat) (cell : Cell α) :
    List (List (Cell α)) :=
  chunks.modify (i / chunkSize) fun chunk => chunk.set (i % chunkSize) cell

/-- The chunks with a place in the last one. -/
def withPlace (chunkSize : Nat) (chunks : List (List (Cell α))) : List (List (Cell α)) :=
  if chunks.getLast?.all fun chunk => chunk.length == chunkSize then chunks ++ [[]] else chunks

/-- The cell of a handle. -/
def cell? (s : ChunkStore α) (id : NodeId) : Option (Cell α) := cellAt s.chunkSize.toNat s.chunks id.index

/-- The node of a handle in use. -/
def get? (s : ChunkStore α) (id : NodeId) : Option (Node α) := (s.cell? id).bind Cell.node?

/-! ### Calls -/

/-- Hands out the first cell of the list inside the storage, or else the first
one that is not used in the last chunk. -/
def alloc (s : ChunkStore α) (object : α) (next : Option NodeId) : NodeId × ChunkStore α :=
  match s.freeHead with
  | some id =>
    (id, { s with
      chunks := setCell s.chunkSize.toNat s.chunks id.index (.used ⟨object, next⟩)
      freeHead := match s.cell? id with
        | some (.vacant after) => after
        | _ => s.freeHead
      inUse := s.inUse + 1 })
  | none =>
    let chunks := withPlace s.chunkSize.toNat s.chunks
    let last := chunks.length - 1
    (⟨last * s.chunkSize.toNat + (chunks[last]?.getD []).length⟩, { s with
      chunks := chunks.modify last fun chunk => chunk ++ [.used ⟨object, next⟩]
      inUse := s.inUse + 1 })

/-- Takes a handle back, with the object it held; nothing happens to one that is
not in use. -/
def release (s : ChunkStore α) (id : NodeId) : Option α × ChunkStore α :=
  match s.cell? id with
  | some (.used node) =>
    (some node.object, { s with
      chunks := setCell s.chunkSize.toNat s.chunks id.index (.vacant s.freeHead)
      freeHead := some id
      inUse := s.inUse - 1 })
  | _ => (none, s)

/-- Changes the node of a handle in use. -/
def modify (s : ChunkStore α) (id : NodeId) (f : Node α → Node α) : ChunkStore α :=
  match s.cell? id with
  | some (.used node) => { s with chunks := setCell s.chunkSize.toNat s.chunks id.index (.used (f node)) }
  | _ => s

end ChunkStore
end SchemaShift
