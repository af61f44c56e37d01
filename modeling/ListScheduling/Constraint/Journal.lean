import ListScheduling.Constraint.Store

/-!
A store that keeps a journal of what was added to it.
-/
namespace ListScheduling

/-- A store with the list of its accepted insertions. -/
structure Journal where
  store : Store
  vertices : Array (Nat × NodeKind) := #[]
  edges : Array (Nat × Nat) := #[]
deriving Repr, Inhabited

namespace Journal

/-- An empty journal over an empty store with the given limit. -/
def withLimit (limit : Nat) : Journal := { store := Store.withLimit limit }

/-- Adds a vertex and writes it down. -/
def addVertex (j : Journal) (n : Node) : Except StoreError (Nat × Journal) := do
  let (i, store) ← j.store.push n
  pure (i, { j with store, vertices := j.vertices.push (i, n.kind) })

/-- Adds an edge between vertices of the given kinds and writes it down. -/
def addEdge (j : Journal) (fk tk : NodeKind) (src dst : Nat) : Except StoreError Journal := do
  let store ← j.store.pushEdge fk tk src dst
  pure { j with store, edges := j.edges.push (src, dst) }

end Journal

end ListScheduling
