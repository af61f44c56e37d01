import ListScheduling.Constraint.Node

/-!
The store of a constraint graph: vertices in insertion order, each with its outgoing edges.
-/
namespace ListScheduling

/-- Errors of growing the store and of typed access to it. -/
inductive StoreError where
  | overflow (limit : Nat)
  | typeMismatch (index : Nat) (expected found : NodeKind)
  | unknownVertex (index : Nat)
deriving DecidableEq, Repr

/-- The text of a store error. -/
def StoreError.message : StoreError → String
  | .overflow limit => s!"Vertex index space exhausted (limit {limit})"
  | .typeMismatch i expected found => s!"Vertex {i} is a {found.name}, expected {expected.name}"
  | .unknownVertex i => s!"Unknown vertex: {i}"

/-- A vertex with the destinations of its outgoing edges, in insertion order. -/
structure Slot where
  node : Node
  out : Array Nat := #[]
deriving Repr, Inhabited

/-- The largest number of vertices any store may hold: vertex indices are 32-bit words. -/
def maxVertices : Nat := Nat.pow 2 32 - 1

/-- A constraint graph. -/
structure Store where
  slots : Array Slot := #[]
  numEdges : Nat := 0
  limit : Nat := maxVertices
deriving Repr, Inhabited

namespace Store

/-- An empty store that refuses to grow past `limit` vertices, capped at `maxVertices`. -/
def withLimit (limit : Nat) : Store := { limit := min limit maxVertices }

/-- The number of vertices. -/
def size (s : Store) : Nat := s.slots.size

/-- Whether the store has no vertex. -/
def isEmpty (s : Store) : Bool := s.slots.isEmpty

/-- Appends a vertex, whatever the limit. -/
def append (s : Store) (n : Node) : Store := { s with slots := s.slots.push { node := n } }

/-- Fails when the store holds as many vertices as its limit allows. -/
def checkRoom (s : Store) : Except StoreError Unit :=
  if s.limit ≤ s.size then .error (.overflow s.limit) else .ok ()

/-- Appends a vertex and returns its index, unless the store is full. -/
def push (s : Store) (n : Node) : Except StoreError (Nat × Store) := do
  s.checkRoom
  pure (s.size, s.append n)

/-- The vertex at an index. -/
def get (s : Store) (i : Nat) : Except StoreError Node :=
  match s.slots[i]? with
  | some slot => .ok slot.node
  | none => .error (.unknownVertex i)

/-- The kind of the vertex at an index. -/
def kindAt (s : Store) (i : Nat) : Except StoreError NodeKind := (·.kind) <$> s.get i

/-- The vertex at an index, which must be of kind `k`. -/
def expect (s : Store) (i : Nat) (k : NodeKind) : Except StoreError Node := do
  let n ← s.get i
  if n.kind = k then pure n else throw (.typeMismatch i k n.kind)

/-- The root vertex's ready time at an index. -/
def rootAt (s : Store) (i : Nat) : Except StoreError Double := do
  match ← s.get i with
  | .root t => pure t
  | n => throw (.typeMismatch i .root n.kind)

/-- The processor node at an index. -/
def processorAt (s : Store) (i : Nat) : Except StoreError ProcessorNode := do
  match ← s.get i with
  | .processor p => pure p
  | n => throw (.typeMismatch i .processor n.kind)

/-- The unit node at an index. -/
def unitAt (s : Store) (i : Nat) : Except StoreError UnitNode := do
  match ← s.get i with
  | .unit u => pure u
  | n => throw (.typeMismatch i .unit n.kind)

/-- The barrier at an index. -/
def barrierAt (s : Store) (i : Nat) : Except StoreError BarrierNode := do
  match ← s.get i with
  | .barrier b => pure b
  | n => throw (.typeMismatch i .barrier n.kind)

/-- Replaces the vertex at an index, keeping its edges; an index out of range changes nothing. -/
def setNode (s : Store) (i : Nat) (n : Node) : Store :=
  { s with slots := s.slots.modify i ({ · with node := n }) }

/-- Marks a processor node occupied or free. -/
def setOccupied (s : Store) (i : Nat) (occupied : Bool) : Except StoreError Store := do
  let p ← s.processorAt i
  pure (s.setNode i (.processor { p with occupied }))

/-- The destinations of the edges leaving a vertex, in insertion order. -/
def outgoing (s : Store) (i : Nat) : Except StoreError (Array Nat) :=
  match s.slots[i]? with
  | some slot => .ok slot.out
  | none => .error (.unknownVertex i)

/-- The sources of the edges reaching a vertex, in source order and once per edge. -/
def incoming (s : Store) (i : Nat) : List Nat :=
  (s.slots.toList.zipIdx).flatMap fun (slot, src) =>
    (slot.out.toList.filter (· == i)).map fun _ => src

/-- Fails unless the source is of kind `fk` and then the destination of kind `tk`. -/
def checkEdge (s : Store) (fk tk : NodeKind) (src dst : Nat) : Except StoreError Unit := do
  let _ ← s.expect src fk
  let _ ← s.expect dst tk

/-- Appends an edge to the source's list, whatever the kinds. -/
def appendEdge (s : Store) (src dst : Nat) : Store :=
  { s with
    slots := s.slots.modify src (fun slot => { slot with out := slot.out.push dst })
    numEdges := s.numEdges + 1 }

/-- Records an edge from a vertex of kind `fk` to one of kind `tk`. -/
def pushEdge (s : Store) (fk tk : NodeKind) (src dst : Nat) : Except StoreError Store := do
  s.checkEdge fk tk src dst
  pure (s.appendEdge src dst)

/-- The indices of all vertices of a kind, in insertion order. -/
def indicesOf (s : Store) (k : NodeKind) : List Nat :=
  (s.slots.toList.zipIdx).filterMap fun (slot, i) => if slot.node.kind = k then some i else none

/-- The processor nodes that are not occupied, in insertion order. -/
def freeProcessors (s : Store) : List Nat :=
  (s.slots.toList.zipIdx).filterMap fun (slot, i) =>
    match slot.node with
    | .processor p => if p.occupied then none else some i
    | _ => none

/-- The edges leaving a vertex of kind `k`, each with the kind of its destination. -/
def outgoingKinds (s : Store) (k : NodeKind) (i : Nat) : Except StoreError (List (Nat × NodeKind)) := do
  let _ ← s.expect i k
  (← s.outgoing i).toList.mapM fun j => do pure (j, ← s.kindAt j)

end Store

end ListScheduling
