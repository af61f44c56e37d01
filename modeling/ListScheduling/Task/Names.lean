import ListScheduling.Task.Graph
import Std.Data.HashMap

/-!
Task names and their ids: a map from names to ids beside the names in id order. A new name gets the
next id; interning a known name returns its id, and the strict form refuses it.
-/
namespace ListScheduling

/-- The id of every name seen so far, and the names at the positions of their ids. -/
structure TaskNames where
  toId : Std.HashMap String Nat := {}
  names : Array String := #[]
deriving Inhabited

namespace TaskNames

/-- The id of a name, if it is known. -/
def get? (n : TaskNames) (name : String) : Option Nat := n.toId[name]?

/-- The id of a name, giving the next id to a new name. -/
def intern (n : TaskNames) (name : String) : Nat × TaskNames :=
  match n.get? name with
  | some id => (id, n)
  | none => (n.names.size, ⟨n.toId.insert name n.names.size, n.names.push name⟩)

/-- Interns a name that must be new. -/
def internUnique (n : TaskNames) (name : String) : Except TaskError (Nat × TaskNames) :=
  if n.toId.contains name then .error (.duplicateTask name) else .ok (n.intern name)

/-- The id of a name that must be known. -/
def lookup (n : TaskNames) (name : String) : Except TaskError Nat :=
  match n.get? name with
  | some id => .ok id
  | none => .error (.unknownTaskName name)

/-- The name with a given id. -/
def resolve? (n : TaskNames) (id : Nat) : Option String := n.names[id]?

/-- The number of names. -/
def size (n : TaskNames) : Nat := n.names.size

/-- Whether no name is known. -/
def isEmpty (n : TaskNames) : Bool := n.names.isEmpty

end TaskNames

end ListScheduling
