import Mathlib
import ListScheduling.ReadyQueue

/-!
The entry order of the ready queue is a lawful total order, and the law a max-heap of entries keeps:
its entries are those pushed and not popped, and a pop answers a greatest one. The sorted list keeps
the law.
-/
namespace ListScheduling

namespace ReadyEntry

/-- When an entry leaves: by priority in the IEEE total order, then by stamp. -/
def rank (e : ReadyEntry) : Nat ×ₗ Nat := toLex (e.priority.totalKey, e.seq)

instance : Std.TransCmp ReadyEntry.cmp :=
  inferInstanceAs (Std.TransCmp (compareLex (fun a b : ReadyEntry => compareOn (·.priority.totalKey) b a)
    (fun a b : ReadyEntry => compareOn ReadyEntry.seq b a)))

theorem cmp_eq_gt_iff {a b : ReadyEntry} : a.cmp b = .gt ↔ a.rank < b.rank := by
  simp only [cmp, Double.totalCmp, rank, Ordering.then_eq_gt, Nat.compare_eq_gt, Nat.compare_eq_eq,
    Prod.Lex.toLex_lt_toLex]
  omega

theorem cmp_isGE_iff {a b : ReadyEntry} : (a.cmp b).isGE ↔ a.rank ≤ b.rank := by
  rw [← Ordering.ne_lt_iff_isGE, ← Std.OrientedCmp.gt_iff_lt, cmp_eq_gt_iff, not_lt]

end ReadyEntry

namespace MaxHeap

variable {H α : Type} [MaxHeap H α]

/-- The heaps built from the empty one by pushes and pops. -/
inductive Built : H → Prop
  | empty : Built MaxHeap.empty
  | push {h : H} (a : α) : Built h → Built (MaxHeap.push h a)
  | pop {h h' : H} {a : α} : Built h → MaxHeap.pop h = some (a, h') → Built h'

variable (H) in
/-- What a max-heap under `cmp` promises of every heap built from the empty one: it holds the
entries pushed and not popped, counts them, and pops a greatest of them. -/
structure Lawful (cmp : α → α → Ordering) : Prop where
  toList_empty : toList (empty : H) = []
  toList_push : ∀ {h : H}, Built h → ∀ a, (toList (push h a)).Perm (a :: toList h)
  toList_of_pop_none : ∀ {h : H}, Built h → pop h = none → toList h = []
  pop_some : ∀ {h h' : H} {a : α}, Built h → pop h = some (a, h') →
    (toList h).Perm (a :: toList h') ∧ ∀ b ∈ toList h', (cmp a b).isGE
  len_eq : ∀ {h : H}, Built h → len h = (toList h).length

end MaxHeap

namespace SortedHeap

/-- The entries stand greatest first. -/
def Sorted (h : SortedHeap) : Prop := h.entries.Pairwise fun a b => (a.cmp b).isGE

theorem pairwise_insert {e : ReadyEntry} {l : List ReadyEntry}
    (hl : l.Pairwise fun a b => (a.cmp b).isGE) :
    (insert e l).Pairwise fun a b => (a.cmp b).isGE := by
  induction l with
  | nil => exact List.pairwise_singleton _ _
  | cons f rest ih =>
    obtain ⟨hf, hrest⟩ := List.pairwise_cons.1 hl
    simp only [insert]
    split
    · rename_i hgt
      refine List.Pairwise.cons (fun g hg => ?_) hl
      rcases List.mem_cons.1 hg with rfl | hg
      · exact Ordering.isGE_of_eq_gt hgt
      · exact Ordering.isGE_of_eq_gt (Std.TransCmp.gt_of_gt_of_isGE hgt (hf g hg))
    · rename_i hgt
      have hfe : (f.cmp e).isGE := Std.OrientedCmp.isGE_of_isLE (Ordering.isLE_iff_ne_gt.2 hgt)
      refine List.Pairwise.cons (fun g hg => ?_) (ih hrest)
      rcases List.mem_cons.1 ((insert_perm e rest).mem_iff.1 hg) with rfl | hg
      · exact hfe
      · exact hf g hg

theorem entries_of_pop_some {h h' : SortedHeap} {a : ReadyEntry} (hpop : MaxHeap.pop h = some (a, h')) :
    h.entries = a :: h'.entries := by
  cases hh : h.entries with
  | nil => rw [pop_of_entries_nil hh] at hpop; cases hpop
  | cons e rest => rw [pop_of_entries_cons hh] at hpop; cases hpop; rfl

theorem entries_of_pop_none {h : SortedHeap} (hpop : MaxHeap.pop h = none) : h.entries = [] := by
  cases hh : h.entries with
  | nil => rfl
  | cons e rest => rw [pop_of_entries_cons hh] at hpop; cases hpop

theorem sorted_of_built {h : SortedHeap} (hb : MaxHeap.Built h) : h.Sorted := by
  induction hb with
  | empty => exact List.Pairwise.nil
  | push a _ ih => exact pairwise_insert ih
  | pop _ hpop ih =>
    unfold Sorted at ih
    rw [entries_of_pop_some hpop] at ih
    exact (List.pairwise_cons.1 ih).2

/-- The sorted list is a max-heap under the entry order. -/
theorem lawful : MaxHeap.Lawful SortedHeap ReadyEntry.cmp where
  toList_empty := rfl
  toList_push _ a := insert_perm a _
  toList_of_pop_none _ hpop := entries_of_pop_none hpop
  pop_some hb hpop := by
    have hs := sorted_of_built hb
    unfold Sorted at hs
    rw [entries_of_pop_some hpop] at hs
    exact ⟨by rw [toList_eq, entries_of_pop_some hpop]; rfl, (List.pairwise_cons.1 hs).1⟩
  len_eq _ := rfl

end SortedHeap

end ListScheduling
