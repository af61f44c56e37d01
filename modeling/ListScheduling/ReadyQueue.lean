import ListScheduling.Double.Order

/-!
The queue of units that are ready to run: a max-heap of entries stamped in arrival order, under an
order that reverses both the IEEE total order on priorities and the stamps, so the greatest entry is
the lowest priority and, among equal priorities, the earliest arrival.
-/
namespace ListScheduling

/-- An entry of the ready queue: the unit's priority, its arrival stamp and its vertex. -/
structure ReadyEntry where
  priority : Double
  seq : Nat
  vertex : Nat
deriving DecidableEq, Repr

/-- The entry order, reversed on both keys so that a max-heap pops the lowest priority first. -/
def ReadyEntry.cmp (a b : ReadyEntry) : Ordering :=
  (b.priority.totalCmp a.priority).then (compare b.seq a.seq)

theorem ReadyEntry.cmp_eq_gt_of_seq_lt {e f : ReadyEntry} (h : f.seq < e.seq) :
    e.cmp f = .gt ↔ e.priority.totalKey < f.priority.totalKey := by
  simp only [cmp, Double.totalCmp, Ordering.then_eq_gt, Nat.compare_eq_gt, Nat.compare_eq_eq]
  omega

/-- The operations of a max-heap that the queue uses, with `toList` its entries in any order. -/
class MaxHeap (H : Type) (α : outParam Type) where
  empty : H
  push : H → α → H
  pop : H → Option (α × H)
  len : H → Nat
  toList : H → List α

/-- Units waiting for a processor: a heap of entries and the stamp of the next arrival. -/
structure ReadyQueue (H : Type) where
  heap : H
  nextSeq : Nat

namespace ReadyQueue

variable {H : Type} [MaxHeap H ReadyEntry]

/-- The empty queue. -/
def empty : ReadyQueue H := ⟨MaxHeap.empty, 0⟩

instance : Inhabited (ReadyQueue H) := ⟨empty⟩

/-- Adds a unit with its priority, stamped after every earlier arrival. -/
def push (q : ReadyQueue H) (vertex : Nat) (priority : Double) : ReadyQueue H :=
  ⟨MaxHeap.push q.heap ⟨priority, q.nextSeq, vertex⟩, q.nextSeq + 1⟩

/-- Removes the greatest entry and answers its unit. -/
def pop? (q : ReadyQueue H) : Option (Nat × ReadyQueue H) :=
  match MaxHeap.pop q.heap with
  | none => none
  | some (e, heap) => some (e.vertex, ⟨heap, q.nextSeq⟩)

/-- The number of waiting units. -/
def size (q : ReadyQueue H) : Nat := MaxHeap.len q.heap

/-- Whether no unit waits. -/
def isEmpty (q : ReadyQueue H) : Bool := q.size == 0

end ReadyQueue

/-- A max-heap kept as a list, greatest entry first. -/
structure SortedHeap where
  entries : List ReadyEntry
deriving Inhabited

namespace SortedHeap

/-- Inserts an entry before the first entry it is greater than. -/
def insert (e : ReadyEntry) : List ReadyEntry → List ReadyEntry
  | [] => [e]
  | f :: rest => if e.cmp f = .gt then e :: f :: rest else f :: insert e rest

instance : MaxHeap SortedHeap ReadyEntry where
  empty := ⟨[]⟩
  push h e := ⟨insert e h.entries⟩
  pop h := match h.entries with
    | [] => none
    | e :: rest => some (e, ⟨rest⟩)
  len h := h.entries.length
  toList h := h.entries

variable {h : SortedHeap}

theorem toList_eq : MaxHeap.toList h = h.entries := rfl

theorem pop_of_entries_nil (hh : h.entries = []) : MaxHeap.pop h = none := by
  simp only [MaxHeap.pop, hh]

theorem pop_of_entries_cons {e : ReadyEntry} {rest : List ReadyEntry} (hh : h.entries = e :: rest) :
    MaxHeap.pop h = some (e, ⟨rest⟩) := by
  simp only [MaxHeap.pop, hh]

theorem insert_perm (e : ReadyEntry) (l : List ReadyEntry) : (insert e l).Perm (e :: l) := by
  induction l with
  | nil => exact List.Perm.refl _
  | cons f l ih =>
    simp only [insert]
    split
    · exact List.Perm.refl _
    · exact (ih.cons f).trans (List.Perm.swap e f l)

end SortedHeap

namespace ReadyQueue

/-- The entries of a queue over the sorted list, greatest first. -/
def entries (q : ReadyQueue SortedHeap) : List ReadyEntry := q.heap.entries

@[simp] theorem entries_empty : (empty : ReadyQueue SortedHeap).entries = [] := rfl

@[simp] theorem entries_mk (l : List ReadyEntry) (n : Nat) :
    (⟨⟨l⟩, n⟩ : ReadyQueue SortedHeap).entries = l := rfl

variable {q : ReadyQueue SortedHeap}

@[simp] theorem entries_push (vertex : Nat) (priority : Double) :
    (q.push vertex priority).entries = SortedHeap.insert ⟨priority, q.nextSeq, vertex⟩ q.entries :=
  rfl

theorem size_eq_length : q.size = q.entries.length := rfl

theorem size_push (vertex : Nat) (priority : Double) :
    (q.push vertex priority).size = q.size + 1 := by
  simp [size_eq_length, (SortedHeap.insert_perm _ _).length_eq]

theorem mem_push {v : Nat} {p : Double} {e : ReadyEntry} (h : e ∈ (q.push v p).entries) :
    e.vertex = v ∨ e ∈ q.entries := by
  rcases List.mem_cons.1 ((SortedHeap.insert_perm _ _).mem_iff.1 h) with rfl | h
  · exact .inl rfl
  · exact .inr h

theorem pop?_of_entries_nil (h : q.entries = []) : q.pop? = none := by
  simp only [pop?, SortedHeap.pop_of_entries_nil h]

theorem pop?_of_entries_cons {e : ReadyEntry} {rest : List ReadyEntry} (h : q.entries = e :: rest) :
    q.pop? = some (e.vertex, ⟨⟨rest⟩, q.nextSeq⟩) := by
  simp only [pop?, SortedHeap.pop_of_entries_cons h]

end ReadyQueue

end ListScheduling
