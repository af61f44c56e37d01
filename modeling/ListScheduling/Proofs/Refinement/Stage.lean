import ListScheduling.Proofs.Refinement.Layout

/-!
The store of a run while it is built.
-/
namespace ListScheduling.Direct

variable (P : Problem)

/-- What the barriers of a run being built hold: what each begin awaits and where it leads,
what each end awaits and the begins it leads to. -/
structure Stage where
  ins : Nat → Nat
  made : Nat → List Nat
  waits : Nat → Nat
  outs : Nat → List Nat

/-- A barrier at the release time that has not fired. -/
def restingBarrier (w : Nat) (out : List Nat) : Slot :=
  ⟨.barrier ⟨w, .since P.release, false⟩, out.toArray⟩

namespace Stage

variable (σ : Stage)

/-- Barrier `i` in vertex order: the begin and the end of each task in turn. -/
def barrier (i : Nat) : Slot :=
  if i % 2 = 0 then restingBarrier P (σ.ins (i / 2)) (σ.made (i / 2))
  else restingBarrier P (σ.waits (i / 2)) ((σ.outs (i / 2)).map P.entryVertex)

/-- Vertex `i` of a run being built, whose root leads to `ro`. -/
def slot (ro : List Nat) (i : Nat) : Slot :=
  if i = 0 then rootSlot P ro.toArray
  else if i ≤ P.processors then processorSlot P (initial P) (i - 1)
  else if i < P.unitBase then σ.barrier P (i - (P.processors + 1))
  else ((P.units[i - P.unitBase]?).map (unitSlot P (initial P))).getD default

/-- The first `len` vertices. -/
def slots (ro : List Nat) (len : Nat) : List Slot := (List.range len).map (σ.slot P ro)

/-- The end of `t` gets an edge to the begin of `x`. -/
def link (t x : Nat) : Stage := { σ with outs := Function.update σ.outs t (σ.outs t ++ [x]) }

/-- The begin of `x` awaits one more input. -/
def await (x : Nat) : Stage := { σ with ins := Function.update σ.ins x (σ.ins x + 1) }

/-- The begin of `t` gets an edge to vertex `v`. -/
def lead (t v : Nat) : Stage := { σ with made := Function.update σ.made t (σ.made t ++ [v]) }

/-- The end of `t` awaits one more input. -/
def expect (t : Nat) : Stage := { σ with waits := Function.update σ.waits t (σ.waits t + 1) }

end Stage

section Read

variable {P} (σ : Stage) (ro : List Nat)

theorem Stage.length_slots (len : Nat) : (σ.slots P ro len).length = len := by
  simp [Stage.slots]

theorem Stage.getElem?_slots {len i : Nat} (hi : i < len) :
    (σ.slots P ro len)[i]? = some (σ.slot P ro i) := by
  simp [Stage.slots, hi]

theorem Stage.slots_succ (len : Nat) :
    σ.slots P ro (len + 1) = σ.slots P ro len ++ [σ.slot P ro len] := by
  simp [Stage.slots, List.range_succ]

theorem Stage.slot_processor {i : Nat} (hi : i < P.processors) :
    σ.slot P ro (i + 1) = ⟨.processor ⟨i, P.release, false⟩, #[]⟩ := by
  simp [Stage.slot, Nat.succ_le_of_lt hi, processorSlot, initial, Problem.moment, hi]

theorem Stage.slot_barrier {b : Nat} (hb : b < 2 * P.size) :
    σ.slot P ro (P.processors + 1 + b) = σ.barrier P b := by
  have hlt : P.processors + 1 + b < P.unitBase := by simp only [Problem.unitBase]; omega
  simp only [Stage.slot, hlt, if_true]
  rw [if_neg (by omega), if_neg (by omega), Nat.add_sub_cancel_left]

theorem Stage.slot_entry {t : Nat} (ht : t < P.size) :
    σ.slot P ro (P.entryVertex t) = restingBarrier P (σ.ins t) (σ.made t) := by
  rw [Problem.entryVertex, σ.slot_barrier ro (by omega), Stage.barrier, if_pos (by omega),
    Nat.mul_div_cancel_left _ (by decide)]

theorem Stage.slot_exit {t : Nat} (ht : t < P.size) :
    σ.slot P ro (P.exitVertex t) =
      restingBarrier P (σ.waits t) ((σ.outs t).map P.entryVertex) := by
  have h2 : (2 * t + 1) / 2 = t := by omega
  rw [Problem.exitVertex, show P.processors + 2 + 2 * t = P.processors + 1 + (2 * t + 1) by omega,
    σ.slot_barrier ro (by omega), Stage.barrier, if_neg (by omega), h2]

theorem Stage.slot_unit {u : UnitId} (hu : P.Valid u) :
    σ.slot P ro (P.unitVertex u) = ⟨.unit (UnitNode.new u (P.execTime u) P.release),
      #[P.exitVertex u.task]⟩ := by
  have hv : P.unitVertex u - P.unitBase = P.offset u.task + u.subtask := by
    simp only [Problem.unitVertex]
    omega
  have hnot : ¬ P.unitVertex u < P.unitBase := by simp only [Problem.unitVertex]; omega
  have hne : P.unitVertex u ≠ 0 := by simp only [Problem.unitVertex, Problem.unitBase]; omega
  have hgt : ¬ P.unitVertex u ≤ P.processors := by
    simp only [Problem.unitVertex, Problem.unitBase]; omega
  simp only [Stage.slot, hne, hgt, hnot, if_false, hv, P.getElem?_units hu, Option.map_some,
    Option.getD_some, unitSlot, initial, nodesAfter, List.length_nil, List.range_zero,
    List.filter_nil, List.map_nil]
  rfl

end Read

section Update

variable {P} {σ σ' : Stage} {ro ro' : List Nat} {len : Nat}

theorem Stage.modify_slots {i : Nat} {f : Slot → Slot} (hf : f (σ.slot P ro i) = σ'.slot P ro' i)
    (hrest : ∀ j, j ≠ i → σ'.slot P ro' j = σ.slot P ro j) :
    (σ.slots P ro len).modify i f = σ'.slots P ro' len := by
  rw [Stage.slots, List.modify_map_range, Stage.slots]
  refine List.map_congr_left fun j _ => ?_
  by_cases hj : j = i
  · subst hj
    simp [hf]
  · simp [hj, hrest j hj]

theorem Stage.modify_root (v : Nat) :
    (σ.slots P ro len).modify 0 (fun slot => { slot with out := slot.out.push v }) =
      σ.slots P (ro ++ [v]) len := by
  refine Stage.modify_slots ?_ fun j hj => ?_
  · simp [Stage.slot, rootSlot, List.push_toArray]
  · simp [Stage.slot, hj]

theorem Stage.modify_barrier {b : Nat} (hb : b < 2 * P.size) {f : Slot → Slot}
    (hf : f (σ.barrier P b) = σ'.barrier P b) (hrest : ∀ c, c ≠ b → σ'.barrier P c = σ.barrier P c) :
    (σ.slots P ro len).modify (P.processors + 1 + b) f = σ'.slots P ro len := by
  refine Stage.modify_slots (by rw [σ.slot_barrier ro hb, σ'.slot_barrier ro hb, hf]) fun j hj => ?_
  unfold Stage.slot
  split_ifs with h0 hp hu
  · rfl
  · rfl
  · exact hrest _ (by omega)
  · rfl

theorem restingBarrier_push (w : Nat) (out : List Nat) (v : Nat) :
    { restingBarrier P w out with out := (restingBarrier P w out).out.push v } =
      restingBarrier P w (out ++ [v]) := by
  simp [restingBarrier, List.push_toArray]

theorem Stage.modify_link {t : Nat} (ht : t < P.size) (x : Nat) :
    (σ.slots P ro len).modify (P.exitVertex t)
        (fun slot => { slot with out := slot.out.push (P.entryVertex x) }) =
      (σ.link t x).slots P ro len := by
  rw [Problem.exitVertex, show P.processors + 2 + 2 * t = P.processors + 1 + (2 * t + 1) by omega]
  have h2 : (2 * t + 1) / 2 = t := by omega
  refine Stage.modify_barrier (by omega) ?_ fun c hc => ?_
  · simp only [Stage.barrier, if_neg (show ¬ (2 * t + 1) % 2 = 0 by omega), h2, restingBarrier_push,
      Stage.link, Function.update_self, List.map_append, List.map_singleton]
  · unfold Stage.barrier
    split_ifs with hc2
    · rfl
    · have hct : c / 2 ≠ t := by omega
      simp [Stage.link, Function.update_of_ne hct]

theorem Stage.modify_await {x : Nat} (hx : x < P.size) :
    (σ.slots P ro len).modify (P.entryVertex x)
        ({ · with node := .barrier ⟨σ.ins x + 1, .since P.release, false⟩ }) =
      (σ.await x).slots P ro len := by
  have h2 : 2 * x / 2 = x := by omega
  refine Stage.modify_barrier (by omega) ?_ fun c hc => ?_
  · simp only [Stage.barrier, if_pos (show 2 * x % 2 = 0 by omega), h2, Stage.await,
      Function.update_self, restingBarrier]
  · unfold Stage.barrier
    split_ifs with hc2
    · have hcx : c / 2 ≠ x := by omega
      simp [Stage.await, Function.update_of_ne hcx]
    · rfl

theorem Stage.modify_lead {t : Nat} (ht : t < P.size) (v : Nat) :
    (σ.slots P ro len).modify (P.entryVertex t) (fun slot => { slot with out := slot.out.push v }) =
      (σ.lead t v).slots P ro len := by
  have h2 : 2 * t / 2 = t := by omega
  refine Stage.modify_barrier (by omega) ?_ fun c hc => ?_
  · simp only [Stage.barrier, if_pos (show 2 * t % 2 = 0 by omega), h2, restingBarrier_push,
      Stage.lead, Function.update_self]
  · unfold Stage.barrier
    split_ifs with hc2
    · have hct : c / 2 ≠ t := by omega
      simp [Stage.lead, Function.update_of_ne hct]
    · rfl

theorem Stage.modify_expect {t : Nat} (ht : t < P.size) :
    (σ.slots P ro len).modify (P.exitVertex t)
        ({ · with node := .barrier ⟨σ.waits t + 1, .since P.release, false⟩ }) =
      (σ.expect t).slots P ro len := by
  rw [Problem.exitVertex, show P.processors + 2 + 2 * t = P.processors + 1 + (2 * t + 1) by omega]
  have h2 : (2 * t + 1) / 2 = t := by omega
  refine Stage.modify_barrier (by omega) ?_ fun c hc => ?_
  · simp only [Stage.barrier, if_neg (show ¬ (2 * t + 1) % 2 = 0 by omega), h2, Stage.expect,
      Function.update_self, restingBarrier]
  · unfold Stage.barrier
    split_ifs with hc2
    · rfl
    · have hct : c / 2 ≠ t := by omega
      simp [Stage.expect, Function.update_of_ne hct]

end Update

section Initial

variable {P}

/-- The stage of the direct scheduler's initial state: every begin awaits its dependencies and
leads to its units, every end awaits its units and leads to its successors. -/
def Stage.complete (P : Problem) : Stage :=
  ⟨P.inDegree, P.entryOut, fun t => max (P.unitCount t) 1, P.graph.successors⟩

theorem layout_unitBase {ρ : State} {out : Array Nat} {j : Nat} (hj : j < P.totalUnits) :
    (layout P ρ out)[P.unitBase + j]? = (P.units[j]?).map (unitSlot P ρ) := by
  rw [Problem.unitBase, show P.processors + 1 + 2 * P.size + j = P.processors + 2 * P.size + j + 1
      by omega, layout, List.getElem?_cons_succ,
    List.getElem?_append_left (by simp [Problem.length_units]; omega),
    List.getElem?_append_right (by simp)]
  simp

/-- Once every edge is in, the store being built is the layout of the initial state. -/
theorem Stage.slots_complete (ro : List Nat) :
    (Stage.complete P).slots P ro P.nodeBase = layout P (initial P) ro.toArray := by
  refine List.ext_getElem? fun i => ?_
  by_cases hi : i < P.nodeBase
  · rw [Stage.getElem?_slots _ _ hi]
    by_cases h0 : i = 0
    · subst h0
      rfl
    by_cases hp : i ≤ P.processors
    · obtain ⟨k, rfl⟩ : ∃ k, i = k + 1 := ⟨i - 1, by omega⟩
      rw [layout_processor (by omega), Stage.slot_processor _ _ (by omega)]
      simp [processorSlot, initial, Problem.moment, show k < P.processors by omega]
    by_cases hb : i < P.unitBase
    · obtain ⟨b, rfl⟩ : ∃ b, i = P.processors + 1 + b := ⟨i - (P.processors + 1), by omega⟩
      have hb2 : b < 2 * P.size := by simp only [Problem.unitBase] at hb; omega
      rw [layout_barrier hb2, Stage.slot_barrier _ _ hb2]
      unfold barrierSlot Stage.barrier
      split_ifs <;> rfl
    · obtain ⟨j, rfl⟩ : ∃ j, i = P.unitBase + j := ⟨i - P.unitBase, by omega⟩
      have hj : j < P.totalUnits := by simp only [Problem.nodeBase] at hi; omega
      rw [layout_unitBase hj]
      obtain ⟨u, hu⟩ : ∃ u, P.units[j]? = some u :=
        Option.isSome_iff_exists.1 (by simp [Problem.length_units, hj])
      simp only [Stage.slot, hu, Nat.add_sub_cancel_left, Option.map_some, Option.getD_some,
        if_neg hb, if_neg hp, if_neg h0]
  · rw [List.getElem?_eq_none (by simp [Stage.length_slots]; omega),
      List.getElem?_eq_none (by simp [length_layout, initial]; omega)]

theorem Stage.slots_congr {σ σ' : Stage} {ro : List Nat} {len : Nat}
    (hins : ∀ t < P.size, σ'.ins t = σ.ins t) (hmade : ∀ t < P.size, σ'.made t = σ.made t)
    (hwaits : ∀ t < P.size, σ'.waits t = σ.waits t) (houts : ∀ t < P.size, σ'.outs t = σ.outs t) :
    σ'.slots P ro len = σ.slots P ro len := by
  refine List.map_congr_left fun j _ => ?_
  unfold Stage.slot
  split_ifs with h0 hp hu
  · rfl
  · rfl
  · have ht : (j - (P.processors + 1)) / 2 < P.size := by simp only [Problem.unitBase] at hu; omega
    unfold Stage.barrier
    split_ifs
    · rw [hins _ ht, hmade _ ht]
    · rw [hwaits _ ht, houts _ ht]
  · rfl

end Initial

section Order

/-- The successor lists of the ends once the dependencies of the tasks before `t` and the first
`m` of `t` are recorded. -/
def Problem.recorded (t m w : Nat) : List Nat :=
  if w < t then P.graph.successors w else if w = t then (P.graph.successors t).take m else []

/-- The same dependencies, as the list of the begins they lead to, in recorded order. -/
def Problem.depsUpTo (t m : Nat) : List Nat :=
  (List.range t).flatMap P.graph.successors ++ (P.graph.successors t).take m

/-- The stage while the dependencies are recorded. -/
def Stage.recording (t m : Nat) : Stage :=
  ⟨fun u => (P.depsUpTo t m).count u, fun _ => [], fun _ => 0, P.recorded t m⟩

/-- The stage while the units are inserted: the tasks before `t` have all theirs, and `t` its
first `k`. -/
def Stage.inserting (t k : Nat) : Stage :=
  ⟨P.inDegree,
    fun w => if w < t then P.entryOut w
      else if w = t then (List.range k).map fun j => P.unitVertex ⟨t, j⟩ else [],
    fun w => if w < t then max (P.unitCount w) 1 else if w = t then k else 0,
    P.graph.successors⟩

variable {P}

theorem Stage.recording_succ {t m : Nat} (hm : m < (P.graph.successors t).length) :
    Stage.recording P t (m + 1) =
      ((Stage.recording P t m).link t (P.graph.successors t)[m]).await
        (P.graph.successors t)[m] := by
  have htake : (P.graph.successors t).take (m + 1) =
      (P.graph.successors t).take m ++ [(P.graph.successors t)[m]] := by
    rw [List.take_add_one, List.getElem?_eq_getElem hm, Option.toList_some]
  unfold Stage.recording Stage.link Stage.await
  congr 1
  · funext u
    rw [Function.update_apply, Problem.depsUpTo, Problem.depsUpTo, htake, ← List.append_assoc,
      List.count_append, List.count_singleton]
    by_cases hu : u = (P.graph.successors t)[m]
    · subst hu
      simp
    · simp [hu, Ne.symm hu]
  · funext w
    dsimp only
    rw [Function.update_apply]
    by_cases hw : w = t
    · subst hw
      rw [if_pos rfl]
      unfold Problem.recorded
      rw [if_neg (Nat.lt_irrefl w), if_pos rfl, if_neg (Nat.lt_irrefl w), if_pos rfl, htake]
    · simp [Problem.recorded, hw]

theorem Stage.recording_next (t : Nat) :
    Stage.recording P t (P.graph.successors t).length = Stage.recording P (t + 1) 0 := by
  unfold Stage.recording
  congr 1
  · funext u
    simp [Problem.depsUpTo, List.range_succ, List.flatMap_append]
  · funext w
    unfold Problem.recorded
    by_cases hw : w < t
    · rw [if_pos hw, if_pos (by omega)]
    · by_cases hwt : w = t
      · subst hwt
        rw [if_neg hw, if_pos rfl, if_pos (by omega), List.take_length]
      · rw [if_neg hw, if_neg hwt, if_neg (show ¬ w < t + 1 by omega)]
        split_ifs <;> simp

theorem Problem.count_dependencies (n u : Nat) :
    ((List.range n).flatMap P.graph.successors).count u =
      ∑ s ∈ Finset.range n, (P.graph.successors s).count u := by
  induction n with
  | zero => rfl
  | succ n ih =>
    rw [List.range_succ, List.flatMap_append, List.count_append, ih, Finset.sum_range_succ,
      List.flatMap_singleton]

theorem Problem.count_depsUpTo_le {t : Nat} (ht : t < P.size) (m u : Nat) :
    (P.depsUpTo t m).count u ≤ P.inDegree u := by
  have hsub : (P.depsUpTo t m).Sublist ((List.range P.size).flatMap P.graph.successors) := by
    obtain ⟨r, hr⟩ : ∃ r, P.size = t + 1 + r := ⟨P.size - (t + 1), by omega⟩
    rw [hr, List.range_add, List.range_succ, List.flatMap_append, List.flatMap_append,
      List.flatMap_singleton, Problem.depsUpTo, List.append_assoc]
    exact ((List.take_sublist m _).trans (List.sublist_append_left _ _)).append_left _
  calc (P.depsUpTo t m).count u
      ≤ ((List.range P.size).flatMap P.graph.successors).count u := hsub.count_le u
    _ = P.inDegree u := P.count_dependencies P.size u

theorem Stage.slots_recording_size {ro : List Nat} {len : Nat} :
    (Stage.recording P P.size 0).slots P ro len = (Stage.inserting P 0 0).slots P ro len := by
  refine Stage.slots_congr (fun t _ => ?_) (fun t _ => ?_) (fun t _ => ?_) (fun t ht => ?_)
  · simp [Stage.recording, Stage.inserting, Problem.depsUpTo, Problem.count_dependencies,
      Problem.inDegree]
  · simp [Stage.recording, Stage.inserting]
  · simp [Stage.recording, Stage.inserting]
  · simp [Stage.recording, Stage.inserting, Problem.recorded, ht]

theorem Stage.inserting_succ (t k : Nat) :
    ((Stage.inserting P t k).lead t (P.unitVertex ⟨t, k⟩)).expect t = Stage.inserting P t (k + 1) := by
  unfold Stage.inserting Stage.lead Stage.expect
  congr 1
  · funext w
    dsimp only
    rw [Function.update_apply]
    by_cases hw : w = t
    · subst hw
      simp [List.range_succ]
    · simp [hw]
  · funext w
    dsimp only
    rw [Function.update_apply]
    by_cases hw : w = t
    · subst hw
      simp
    · simp [hw]

theorem Stage.inserting_next {t : Nat} (hc : 0 < P.unitCount t) :
    Stage.inserting P t (P.unitCount t) = Stage.inserting P (t + 1) 0 := by
  unfold Stage.inserting
  congr 1
  · funext w
    by_cases hw : w < t
    · simp [hw, show w < t + 1 by omega]
    · by_cases hwt : w = t
      · subst hwt
        simp [Problem.entryOut, show P.unitCount w ≠ 0 by omega]
      · simp [hw, hwt, show ¬ w < t + 1 by omega]
  · funext w
    by_cases hw : w < t
    · simp [hw, show w < t + 1 by omega]
    · by_cases hwt : w = t
      · subst hwt
        simp
        omega
      · simp [hw, hwt, show ¬ w < t + 1 by omega]

theorem Stage.inserting_skip {t : Nat} (hc : P.unitCount t = 0) :
    ((Stage.inserting P t 0).lead t (P.exitVertex t)).expect t = Stage.inserting P (t + 1) 0 := by
  unfold Stage.inserting Stage.lead Stage.expect
  congr 1
  · funext w
    dsimp only
    rw [Function.update_apply]
    by_cases hw : w = t
    · subst hw
      simp [Problem.entryOut, hc]
    · by_cases hwt : w < t
      · simp [hw, hwt, show w < t + 1 by omega]
      · simp [hw, hwt, show ¬ w < t + 1 by omega]
  · funext w
    dsimp only
    rw [Function.update_apply]
    by_cases hw : w = t
    · subst hw
      simp [hc]
    · by_cases hwt : w < t
      · simp [hw, hwt, show w < t + 1 by omega]
      · simp [hw, hwt, show ¬ w < t + 1 by omega]

theorem Stage.slots_inserting_size {ro : List Nat} {len : Nat} :
    (Stage.inserting P P.size 0).slots P ro len = (Stage.complete P).slots P ro len := by
  refine Stage.slots_congr (fun t _ => rfl) (fun t ht => ?_) (fun t ht => ?_) (fun t _ => rfl)
  · simp [Stage.inserting, Stage.complete, ht]
  · simp [Stage.inserting, Stage.complete, ht]

end Order

end ListScheduling.Direct
