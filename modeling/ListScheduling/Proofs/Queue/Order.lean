import ListScheduling.Proofs.Queue.Heap
import ListScheduling.Proofs.Double.Order

/-!
The order in which the ready queue lets its entries leave, over any heap that keeps the law.
-/
namespace ListScheduling

namespace Double

/-- Where a double stands in the IEEE total order: negative NaNs, `-∞`, negative numbers, `-0`,
`+0`, positive numbers, `+∞`, positive NaNs. -/
def totalClass (x : Double) : Nat :=
  if x.isNaN then (if x.signBit then 0 else 7)
  else if x.isInf then (if x.signBit then 1 else 6)
  else if x.isZero then (if x.signBit then 3 else 4)
  else if x.signBit then 2 else 5

/-- The least key of each class, and `2 ^ 64` past the last one. -/
def classFloor : Nat → Nat
  | 0 => 0
  | 1 => 0x000FFFFFFFFFFFFF
  | 2 => 0x0010000000000000
  | 3 => 0x7FFFFFFFFFFFFFFF
  | 4 => 0x8000000000000000
  | 5 => 0x8000000000000001
  | 6 => 0xFFF0000000000000
  | 7 => 0xFFF0000000000001
  | _ => 2 ^ 64

theorem totalKey_mem_class (z : Double) :
    classFloor z.totalClass ≤ z.totalKey ∧ z.totalKey < classFloor (z.totalClass + 1) := by
  have hz := bits_toNat_lt z
  rw [totalKey_eq]
  unfold totalClass
  cases hn : z.isNaN <;> cases hi : z.isInf <;> cases h0 : z.isZero <;> cases hs : z.signBit <;>
    simp only [Bool.false_eq_true, if_false, if_true] <;>
    simp only [Bool.eq_false_iff, ne_eq, isNaN_iff, isInf_iff, isZero_iff, signBit_iff] at hn hi h0 hs <;>
    simp only [classFloor] <;> split <;> omega

theorem totalKey_lt_of_totalClass_lt {x y : Double} (h : x.totalClass < y.totalClass) :
    x.totalKey < y.totalKey := by
  have hx := totalKey_mem_class x
  have hy := totalKey_mem_class y
  have hlt : y.totalClass ≤ 7 := by
    unfold totalClass
    split_ifs <;> decide
  have hfloor : ∀ i < 8, ∀ j < 8, i < j → classFloor (i + 1) ≤ classFloor j := by decide
  have := hfloor _ (by omega) _ (by omega) h
  omega

end Double

/-- A call on the ready queue. -/
inductive QueueCall where
  | push (vertex : Nat) (priority : Double)
  | pop
deriving DecidableEq, Repr

/-- Whether a call is a push. -/
def QueueCall.isPush : QueueCall → Bool
  | .push _ _ => true
  | .pop => false

/-- The ready queue as its contract describes it: the entries still waiting, in arrival order,
and the number of arrivals so far. -/
structure Waiting where
  live : List ReadyEntry := []
  arrived : Nat := 0

namespace Waiting

/-- A new arrival, stamped after all before it. -/
def push (w : Waiting) (vertex : Nat) (priority : Double) : Waiting :=
  ⟨w.live ++ [⟨priority, w.arrived, vertex⟩], w.arrived + 1⟩

/-- The waiting entry of least rank, removed. -/
def pop? (w : Waiting) : Option (Nat × Waiting) :=
  (w.live.argmin ReadyEntry.rank).map fun a => (a.vertex, { w with live := w.live.erase a })

/-- A call: a push answers nothing, a pop the vertex it removes, if any. -/
def call (w : Waiting) : QueueCall → List (Option Nat) × Waiting
  | .push v p => ([], w.push v p)
  | .pop => match w.pop? with
    | none => ([none], w)
    | some (v, w') => ([some v], w')

/-- The answers to a sequence of calls, and the contract after them. -/
def replay (w : Waiting) : List QueueCall → List (Option Nat) × Waiting
  | [] => ([], w)
  | c :: cs => ((w.call c).1 ++ (replay (w.call c).2 cs).1, (replay (w.call c).2 cs).2)

/-- The waiting entries stand in arrival order, each stamped before the next arrival. -/
structure Stamped (w : Waiting) : Prop where
  ordered : w.live.Pairwise (·.seq < ·.seq)
  fresh : ∀ a ∈ w.live, a.seq < w.arrived

theorem stamped_empty : Stamped {} := ⟨List.Pairwise.nil, fun _ h => absurd h List.not_mem_nil⟩

theorem Stamped.push {w : Waiting} (h : w.Stamped) (v : Nat) (p : Double) : (w.push v p).Stamped where
  ordered := List.pairwise_append.2 ⟨h.ordered, List.pairwise_singleton _ _,
    fun a ha b hb => (List.mem_singleton.1 hb) ▸ h.fresh a ha⟩
  fresh a ha := by
    rcases List.mem_append.1 ha with ha | ha
    · exact Nat.lt_succ_of_lt (h.fresh a ha)
    · rw [List.mem_singleton.1 ha]
      exact Nat.lt_succ_self _

theorem Stamped.erase {w : Waiting} (h : w.Stamped) (a : ReadyEntry) :
    ({ w with live := w.live.erase a } : Waiting).Stamped where
  ordered := h.ordered.sublist (List.erase_sublist ..)
  fresh b hb := h.fresh b (List.mem_of_mem_erase hb)

theorem Stamped.eq_of_seq_eq {w : Waiting} (h : w.Stamped) {a b : ReadyEntry} (ha : a ∈ w.live)
    (hb : b ∈ w.live) (hs : a.seq = b.seq) : a = b := by
  have hnd : (w.live.map (·.seq)).Nodup := (List.pairwise_map.2 h.ordered).imp ne_of_lt
  exact List.inj_on_of_nodup_map hnd ha hb hs

theorem Stamped.argmin_eq {w : Waiting} (h : w.Stamped) {a : ReadyEntry} (ha : a ∈ w.live)
    (hmin : ∀ b ∈ w.live, a.rank ≤ b.rank) : w.live.argmin ReadyEntry.rank = some a := by
  rw [List.argmin_eq_some_iff]
  refine ⟨ha, hmin, fun b hb hba => ?_⟩
  have hseq : a.seq = b.seq := by
    have := le_antisymm (hmin b hb) hba
    simp only [ReadyEntry.rank, toLex_inj, Prod.mk.injEq] at this
    exact this.2
  rw [h.eq_of_seq_eq ha hb hseq]

end Waiting

namespace ReadyQueue

variable {H : Type} [MaxHeap H ReadyEntry]

/-- A call on the queue: a push answers nothing, a pop the vertex it removes, if any. -/
def call (q : ReadyQueue H) : QueueCall → List (Option Nat) × ReadyQueue H
  | .push v p => ([], q.push v p)
  | .pop => match q.pop? with
    | none => ([none], q)
    | some (v, q') => ([some v], q')

/-- The answers to a sequence of calls, and the queue after them. -/
def replay (q : ReadyQueue H) : List QueueCall → List (Option Nat) × ReadyQueue H
  | [] => ([], q)
  | c :: cs => ((q.call c).1 ++ (replay (q.call c).2 cs).1, (replay (q.call c).2 cs).2)

/-- The queue's heap, built by its own calls, holds the contract's entries, and the queue stamps
its next arrival as the contract counts it. -/
structure Holds (q : ReadyQueue H) (w : Waiting) : Prop where
  built : MaxHeap.Built q.heap
  perm : (MaxHeap.toList q.heap).Perm w.live
  nextSeq : q.nextSeq = w.arrived
  stamped : w.Stamped

section Calls

variable (hH : MaxHeap.Lawful H ReadyEntry.cmp) {q : ReadyQueue H} {w : Waiting}
include hH

theorem holds_empty : Holds (empty : ReadyQueue H) {} :=
  ⟨.empty, by rw [empty, hH.toList_empty], rfl, Waiting.stamped_empty⟩

theorem Holds.size (h : Holds q w) : q.size = w.live.length := by
  rw [ReadyQueue.size, hH.len_eq h.built, h.perm.length_eq]

theorem Holds.push (h : Holds q w) (v : Nat) (p : Double) : Holds (q.push v p) (w.push v p) where
  built := .push _ h.built
  perm := by
    rw [ReadyQueue.push, h.nextSeq]
    exact (hH.toList_push h.built _).trans
      ((h.perm.cons _).trans (List.perm_append_singleton _ _).symm)
  nextSeq := by rw [ReadyQueue.push, Waiting.push, h.nextSeq]
  stamped := h.stamped.push v p

/-- A pop answers what the contract answers, and the two go on as one: the heap's greatest entry
has the least rank, and the stamps make it the only such entry. -/
theorem Holds.pop (h : Holds q w) :
    (q.call .pop).1 = (w.call .pop).1 ∧ Holds (q.call .pop).2 (w.call .pop).2 := by
  cases hp : MaxHeap.pop q.heap with
  | none =>
    have hw : w.live = [] := List.Perm.nil_eq (hH.toList_of_pop_none h.built hp ▸ h.perm) |>.symm
    have hq' : q.call .pop = ([none], q) := by simp [call, pop?, hp]
    have hw' : w.call .pop = ([none], w) := by simp [Waiting.call, Waiting.pop?, hw]
    rw [hq', hw']
    exact ⟨rfl, h⟩
  | some r =>
    obtain ⟨a, heap⟩ := r
    obtain ⟨hperm, hgreat⟩ := hH.pop_some h.built hp
    have hlive : w.live.Perm (a :: MaxHeap.toList heap) := h.perm.symm.trans hperm
    have ha : a ∈ w.live := hlive.mem_iff.2 List.mem_cons_self
    have hmin : ∀ b ∈ w.live, a.rank ≤ b.rank := by
      intro b hb
      rcases List.mem_cons.1 (hlive.mem_iff.1 hb) with rfl | hb
      · exact le_refl _
      · exact ReadyEntry.cmp_isGE_iff.1 (hgreat b hb)
    have hq' : q.call .pop = ([some a.vertex], ⟨heap, q.nextSeq⟩) := by simp [call, pop?, hp]
    have hw' : w.call .pop = ([some a.vertex], { w with live := w.live.erase a }) := by
      simp [Waiting.call, Waiting.pop?, h.stamped.argmin_eq ha hmin]
    rw [hq', hw']
    refine ⟨rfl, .pop h.built hp, ?_, h.nextSeq, h.stamped.erase a⟩
    simpa using (hlive.erase a).symm

theorem Holds.call (h : Holds q w) (c : QueueCall) :
    (q.call c).1 = (w.call c).1 ∧ Holds (q.call c).2 (w.call c).2 := by
  cases c with
  | push v p => exact ⟨rfl, h.push hH v p⟩
  | pop => exact h.pop hH

theorem Holds.replay (h : Holds q w) (calls : List QueueCall) :
    (q.replay calls).1 = (w.replay calls).1 ∧ Holds (q.replay calls).2 (w.replay calls).2 := by
  induction calls generalizing q w with
  | nil => exact ⟨rfl, h⟩
  | cons c cs ih =>
    obtain ⟨h₁, h₂⟩ := h.call hH c
    obtain ⟨h₃, h₄⟩ := ih h₂
    exact ⟨by rw [ReadyQueue.replay, Waiting.replay, h₁, h₃], h₄⟩

end Calls

theorem length_call (w : Waiting) (c : QueueCall) :
    (w.call c).2.live.length + ((w.call c).1.filter Option.isSome).length =
      w.live.length + if c.isPush then 1 else 0 := by
  cases c with
  | push v p => simp [Waiting.call, Waiting.push, QueueCall.isPush]
  | pop =>
    simp only [Waiting.call, QueueCall.isPush, Bool.false_eq_true, if_false, Nat.add_zero]
    cases hp : w.pop? with
    | none => simp
    | some r =>
      obtain ⟨v, w'⟩ := r
      simp only [Waiting.pop?, Option.map_eq_some_iff, Prod.mk.injEq] at hp
      obtain ⟨a, ha, -, rfl⟩ := hp
      have := List.length_pos_of_mem (List.argmin_mem ha)
      simp only [List.filter_cons, Option.isSome_some, if_true, List.filter_nil, List.length_cons,
        List.length_nil, List.length_erase_of_mem (List.argmin_mem ha)]
      omega

theorem length_replay (w : Waiting) (calls : List QueueCall) :
    (w.replay calls).2.live.length + ((w.replay calls).1.filter Option.isSome).length =
      w.live.length + (calls.filter QueueCall.isPush).length := by
  induction calls generalizing w with
  | nil => simp [Waiting.replay]
  | cons c cs ih =>
    have h₁ := length_call w c
    have h₂ := ih (w.call c).2
    have hpush : ((c :: cs).filter QueueCall.isPush).length =
        (cs.filter QueueCall.isPush).length + if c.isPush then 1 else 0 := by
      cases c <;> simp [List.filter_cons, QueueCall.isPush]
    simp only [Waiting.replay, List.filter_append, List.length_append, hpush]
    generalize (if c.isPush then 1 else 0) = k at *
    omega

/-- Over any lawful max-heap, every pop answers the waiting entry of least rank, lowest priority in
the IEEE total order and then first to arrive. -/
theorem replay_leaves_in_order (hH : MaxHeap.Lawful H ReadyEntry.cmp) (calls : List QueueCall) :
    Std.TransCmp ReadyEntry.cmp ∧
      ((empty : ReadyQueue H).replay calls).1 = (Waiting.replay {} calls).1 ∧
      ((empty : ReadyQueue H).replay calls).2.size +
          (((empty : ReadyQueue H).replay calls).1.filter Option.isSome).length =
        (calls.filter QueueCall.isPush).length ∧
      ∀ x y : Double, x.totalClass < y.totalClass → x.totalKey < y.totalKey := by
  obtain ⟨h₁, h₂⟩ := (holds_empty hH).replay hH calls
  refine ⟨inferInstance, h₁, ?_, fun _ _ => Double.totalKey_lt_of_totalClass_lt⟩
  rw [h₂.size hH, h₁]
  simpa using length_replay {} calls

/-- On the sorted list, priorities `3.0`, `-1.0` and `2.0` leave lowest first, and a fourth pop
finds nothing; so does the contract. -/
theorem sortedHeap_leaves_in_order :
    MaxHeap.Lawful SortedHeap ReadyEntry.cmp ∧
      (Waiting.replay {} [.push 10 ⟨0x4008000000000000⟩, .push 11 ⟨0xBFF0000000000000⟩,
        .push 12 ⟨0x4000000000000000⟩, .pop, .pop, .pop, .pop]).1 =
        [some 11, some 12, some 10, none] :=
  ⟨SortedHeap.lawful, (replay_leaves_in_order SortedHeap.lawful _).2.1.symm.trans (by decide)⟩

end ReadyQueue

end ListScheduling
