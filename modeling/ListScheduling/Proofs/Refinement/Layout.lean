import ListScheduling.Proofs.Direct.Invariant
import ListScheduling.Scheduler.State

/-!
The constraint graph of a state of the direct scheduler.
-/
namespace List

variable {α : Type} {l₁ l₂ : List α} {f : α → α} {i : Nat}

theorem modify_append_of_lt (h : i < l₁.length) : (l₁ ++ l₂).modify i f = l₁.modify i f ++ l₂ := by
  refine List.ext_getElem? fun j => ?_
  by_cases hj : j < l₁.length
  · simp [List.getElem?_modify, List.getElem?_append, List.getElem_modify, hj]
  · have hij : i ≠ j := by omega
    simp [List.getElem?_append, hj, hij]

theorem modify_append_of_le (h : l₁.length ≤ i) :
    (l₁ ++ l₂).modify i f = l₁ ++ l₂.modify (i - l₁.length) f := by
  refine List.ext_getElem? fun j => ?_
  by_cases hj : j < l₁.length
  · have hij : i ≠ j := by omega
    simp [List.getElem?_append, hj, hij]
  · have hiff : i - l₁.length = j - l₁.length ↔ i = j := by omega
    simp [List.getElem?_modify, List.getElem?_append, hj, hiff]

theorem modify_map_range (g : Nat → α) (m i : Nat) :
    ((List.range m).map g).modify i f = (List.range m).map fun j => if j = i then f (g j) else g j := by
  refine List.ext_getElem? fun j => ?_
  by_cases hj : j < m
  · by_cases hji : j = i
    · subst hji
      simp [hj]
    · simp [hj, hji, Ne.symm hji]
  · simp [hj]

theorem sum_map_range_le (g : Nat → Nat) {t n : Nat} (h : t ≤ n) :
    ((List.range t).map g).sum ≤ ((List.range n).map g).sum := by
  induction n, h using Nat.le_induction with
  | base => exact Nat.le_refl _
  | succ n _ ih =>
    rw [List.range_succ, List.map_append, List.sum_append]
    omega

theorem getElem?_flatMap_range {β : Type} (g : Nat → List β) {n t k : Nat} (ht : t < n)
    (hk : k < (g t).length) :
    ((List.range n).flatMap g)[((List.range t).map fun s => (g s).length).sum + k]? = (g t)[k]? := by
  induction n with
  | zero => omega
  | succ n ih =>
    rw [List.range_succ, List.flatMap_append, List.flatMap_singleton]
    by_cases htn : t < n
    · have hle := sum_map_range_le (fun s => (g s).length) (Nat.succ_le_of_lt htn)
      rw [List.range_succ, List.map_append, List.sum_append, List.map_singleton,
        List.sum_singleton] at hle
      rw [List.getElem?_append_left (by simp [List.length_flatMap]; omega), ih htn]
    · have htn' : t = n := by omega
      subst htn'
      rw [List.getElem?_append_right (by simp [List.length_flatMap]), List.length_flatMap]
      simp

theorem modify_map_of_nodup {β : Type} [DecidableEq β] {l : List β} (hl : l.Nodup) {a : β}
    (ha : l[i]? = some a) (g : β → α) :
    (l.map g).modify i f = l.map fun x => if x = a then f (g x) else g x := by
  refine List.ext_getElem? fun j => ?_
  simp only [List.getElem?_modify, List.getElem?_map]
  cases hj : l[j]? with
  | none => rfl
  | some b =>
    have hiff : i = j ↔ b = a := by
      constructor
      · rintro rfl
        rw [ha] at hj
        exact (Option.some.inj hj).symm
      · rintro rfl
        exact (List.getElem?_inj (List.getElem?_eq_some_iff.1 ha).1 hl).1 (ha.trans hj.symm)
    by_cases hb : b = a <;> simp [hiff, hb]

end List

namespace ListScheduling

namespace Direct

namespace Problem

variable (P : Problem)

/-- The entry barrier of task `t`. -/
def entryVertex (t : Nat) : Nat := P.processors + 1 + 2 * t

/-- The exit barrier of task `t`. -/
def exitVertex (t : Nat) : Nat := P.processors + 2 + 2 * t

/-- The first unit. -/
def unitBase : Nat := P.processors + 1 + 2 * P.size

/-- The number of units of the tasks before `t`. -/
def offset (t : Nat) : Nat := ((List.range t).map P.unitCount).sum

/-- The unit node of `u`. -/
def unitVertex (u : UnitId) : Nat := P.unitBase + P.offset u.task + u.subtask

/-- The processor node made by the first assignment. -/
def nodeBase : Nat := P.unitBase + P.totalUnits

/-- The processor node of a stamp: a processor's first node, or the node an assignment made. -/
def stampVertex (σ : Nat) : Nat :=
  if σ < P.processors then σ + 1 else P.nodeBase + (σ - P.processors)

/-- Every unit, task by task and subtask by subtask. -/
def units : List UnitId :=
  (List.range P.size).flatMap fun t => (List.range (P.unitCount t)).map (UnitId.mk t)

/-- Where the entry barrier of `t` leads: its units, or its exit. -/
def entryOut (t : Nat) : List Nat :=
  if P.unitCount t = 0 then [P.exitVertex t]
  else (List.range (P.unitCount t)).map fun k => P.unitVertex ⟨t, k⟩

theorem offset_succ (t : Nat) : P.offset (t + 1) = P.offset t + P.unitCount t := by
  simp [offset, List.range_succ]

theorem offset_size : P.offset P.size = P.totalUnits := rfl

theorem length_units : P.units.length = P.totalUnits := by
  simp [units, List.length_flatMap, totalUnits]

theorem getElem?_units {u : UnitId} (hu : P.Valid u) :
    P.units[P.offset u.task + u.subtask]? = some u := by
  have h := List.getElem?_flatMap_range (fun t => (List.range (P.unitCount t)).map (UnitId.mk t))
    hu.1 (k := u.subtask) (by simpa using hu.2)
  simp only [List.length_map, List.length_range] at h
  rw [units, offset, h]
  simp [hu.2]

theorem unitVertex_lt_nodeBase {u : UnitId} (hu : P.Valid u) : P.unitVertex u < P.nodeBase := by
  have hlt : P.offset u.task + u.subtask < P.totalUnits := by
    rw [← length_units]
    exact (List.getElem?_eq_some_iff.1 (P.getElem?_units hu)).1
  simp only [unitVertex, nodeBase]
  omega

theorem mem_units {u : UnitId} : u ∈ P.units ↔ P.Valid u := by
  simp only [units, List.mem_flatMap, List.mem_range, List.mem_map, Problem.Valid]
  constructor
  · rintro ⟨t, ht, k, hk, rfl⟩
    exact ⟨ht, hk⟩
  · intro h
    exact ⟨u.task, h.1, u.subtask, h.2, rfl⟩

theorem nodup_units : P.units.Nodup := by
  refine List.nodup_flatMap.2 ⟨fun t _ => (List.nodup_range).map fun a b h => ?_, ?_⟩
  · exact congrArg UnitId.subtask h
  · refine List.nodup_range.pairwise_of_forall_ne fun a _ b _ hab => ?_
    simp only [Function.onFun, List.disjoint_left, List.mem_map, List.mem_range]
    rintro _ ⟨k, -, rfl⟩ ⟨k', -, h⟩
    exact hab (congrArg UnitId.task h).symm

end Problem

variable (P : Problem)

/-- The root, with whatever edges the run gave it. -/
def rootSlot (out : Array Nat) : Slot := ⟨.root P.release, out⟩

/-- The node of free moment `σ`: occupied once a placement took it, with an edge to the unit
placed there. -/
def processorSlot (ρ : State) (σ : Nat) : Slot :=
  ⟨.processor ⟨(P.moment ρ.log σ).processor, (P.moment ρ.log σ).time,
      decide (σ ∈ ρ.log.map Placement.taken)⟩,
    ((ρ.log.filter (·.taken = σ)).map fun pl => P.unitVertex pl.id).toArray⟩

/-- The entry barrier of `t`: the begin's count, time and flag. -/
def entrySlot (ρ : State) (t : Nat) : Slot :=
  ⟨.barrier ⟨(ρ.task t).remaining, .since (ρ.task t).beginTime, (ρ.task t).begun⟩,
    (P.entryOut t).toArray⟩

/-- The exit barrier of `t`: the end's count, time and flag. -/
def exitSlot (ρ : State) (t : Nat) : Slot :=
  ⟨.barrier ⟨(ρ.task t).pending, .since (ρ.task t).endTime, (ρ.task t).ended⟩,
    ((P.graph.successors t).map P.entryVertex).toArray⟩

/-- The barriers in vertex order: entry and exit of each task in turn. -/
def barrierSlot (ρ : State) (i : Nat) : Slot :=
  if i % 2 = 0 then entrySlot P ρ (i / 2) else exitSlot P ρ (i / 2)

/-- The processor nodes made by the placements of `u`: at most one. -/
def nodesAfter (log : List Placement) (u : UnitId) : List Nat :=
  ((List.range log.length).filter fun j => log[j]?.map Placement.id = some u).map (P.nodeBase + ·)

/-- The node of unit `u`: its timing and processor, an edge to its task's exit and one to the
processor node its placement made. -/
def unitSlot (ρ : State) (u : UnitId) : Slot :=
  ⟨.unit ⟨u, P.execTime u, (ρ.unit u).timing, (ρ.unit u).processor⟩,
    (P.exitVertex u.task :: nodesAfter P ρ.log u).toArray⟩

/-- The constraint graph of a state, in vertex order. -/
def layout (ρ : State) (out : Array Nat) : List Slot :=
  rootSlot P out ::
    ((List.range P.processors).map (processorSlot P ρ) ++
      (List.range (2 * P.size)).map (barrierSlot P ρ) ++
      P.units.map (unitSlot P ρ) ++
      (List.range ρ.log.length).map fun j => processorSlot P ρ (P.processors + j))

section Read

variable {P} {ρ : State} {out : Array Nat}

theorem length_layout : (layout P ρ out).length = P.nodeBase + ρ.log.length := by
  simp only [layout, List.length_cons, List.length_append, List.length_map, List.length_range,
    Problem.length_units, Problem.nodeBase, Problem.unitBase]
  omega

theorem layout_zero : (layout P ρ out)[0]? = some (rootSlot P out) := rfl

theorem layout_processor {σ : Nat} (hσ : σ < P.processors) :
    (layout P ρ out)[σ + 1]? = some (processorSlot P ρ σ) := by
  rw [layout, List.getElem?_cons_succ, List.getElem?_append_left (by simp; omega),
    List.getElem?_append_left (by simp; omega), List.getElem?_append_left (by simp; omega)]
  simp [hσ]

theorem layout_barrier {i : Nat} (hi : i < 2 * P.size) :
    (layout P ρ out)[P.processors + 1 + i]? = some (barrierSlot P ρ i) := by
  rw [show P.processors + 1 + i = P.processors + i + 1 by omega, layout, List.getElem?_cons_succ,
    List.getElem?_append_left (by simp; omega), List.getElem?_append_left (by simp; omega),
    List.getElem?_append_right (by simp)]
  simp [hi]

theorem layout_entry {t : Nat} (ht : t < P.size) :
    (layout P ρ out)[P.entryVertex t]? = some (entrySlot P ρ t) := by
  rw [Problem.entryVertex, layout_barrier (by omega), barrierSlot, if_pos (by omega),
    Nat.mul_div_cancel_left _ (by decide)]

theorem layout_exit {t : Nat} (ht : t < P.size) :
    (layout P ρ out)[P.exitVertex t]? = some (exitSlot P ρ t) := by
  rw [Problem.exitVertex, show P.processors + 2 + 2 * t = P.processors + 1 + (2 * t + 1) by omega,
    layout_barrier (by omega), barrierSlot, if_neg (by omega)]
  congr 3
  omega

theorem layout_unit {u : UnitId} (hu : P.Valid u) :
    (layout P ρ out)[P.unitVertex u]? = some (unitSlot P ρ u) := by
  have hlt : P.offset u.task + u.subtask < P.totalUnits := by
    rw [← Problem.length_units]
    exact (List.getElem?_eq_some_iff.1 (P.getElem?_units hu)).1
  rw [Problem.unitVertex, Problem.unitBase,
    show P.processors + 1 + 2 * P.size + P.offset u.task + u.subtask =
      P.processors + 2 * P.size + (P.offset u.task + u.subtask) + 1 by omega,
    layout, List.getElem?_cons_succ, List.getElem?_append_left (by simp [Problem.length_units]; omega),
    List.getElem?_append_right (by simp)]
  simp [P.getElem?_units hu]

theorem layout_node {j : Nat} (hj : j < ρ.log.length) :
    (layout P ρ out)[P.nodeBase + j]? = some (processorSlot P ρ (P.processors + j)) := by
  rw [Problem.nodeBase, Problem.unitBase,
    show P.processors + 1 + 2 * P.size + P.totalUnits + j =
      P.processors + 2 * P.size + P.totalUnits + j + 1 by omega,
    layout, List.getElem?_cons_succ,
    List.getElem?_append_right (by simp only [List.length_append, List.length_map,
      List.length_range, Problem.length_units]; omega)]
  have hlen : P.processors + 2 * P.size + P.totalUnits + j -
      ((List.range P.processors).map (processorSlot P ρ) ++
        (List.range (2 * P.size)).map (barrierSlot P ρ) ++ P.units.map (unitSlot P ρ)).length = j := by
    simp only [List.length_append, List.length_map, List.length_range, Problem.length_units]
    omega
  rw [hlen, List.getElem?_map, List.getElem?_range hj]
  rfl

theorem layout_stamp {σ : Nat} (hσ : σ < P.processors + ρ.log.length) :
    (layout P ρ out)[P.stampVertex σ]? = some (processorSlot P ρ σ) := by
  unfold Problem.stampVertex
  split
  · exact layout_processor ‹_›
  · rw [layout_node (by omega), Nat.add_sub_cancel' (by omega)]

end Read

section Update

variable {P} {ρ ρ' : State} {out : Array Nat}

theorem processorSlot_congr (h : ρ'.log = ρ.log) : processorSlot P ρ' = processorSlot P ρ := by
  funext σ
  simp [processorSlot, h]

theorem unitSlot_congr (hu : ρ'.unit = ρ.unit) (h : ρ'.log = ρ.log) :
    unitSlot P ρ' = unitSlot P ρ := by
  funext u
  simp [unitSlot, hu, h]

theorem layout_modify_barrier {i : Nat} (hi : i < 2 * P.size) {f : Slot → Slot}
    (hf : f (barrierSlot P ρ i) = barrierSlot P ρ' i)
    (hrest : ∀ j, j ≠ i → barrierSlot P ρ' j = barrierSlot P ρ j)
    (hunit : ρ'.unit = ρ.unit) (hlog : ρ'.log = ρ.log) :
    (layout P ρ out).modify (P.processors + 1 + i) f = layout P ρ' out := by
  rw [show P.processors + 1 + i = P.processors + i + 1 by omega, layout, List.modify_succ_cons,
    List.modify_append_of_lt (by simp; omega), List.modify_append_of_lt (by simp; omega),
    List.modify_append_of_le (by simp), List.length_map, List.length_range,
    Nat.add_sub_cancel_left, List.modify_map_range, layout, processorSlot_congr hlog,
    unitSlot_congr hunit hlog]
  have hbar : (List.range (2 * P.size)).map (fun j => if j = i then f (barrierSlot P ρ j)
      else barrierSlot P ρ j) = (List.range (2 * P.size)).map (barrierSlot P ρ') := by
    refine List.map_congr_left fun j _ => ?_
    by_cases hj : j = i
    · subst hj
      simp [hf]
    · simp [hj, hrest j hj]
  rw [hbar, hlog]

theorem layout_setTask_entry {t : Nat} (ht : t < P.size) {ts : TaskState} {f : Slot → Slot}
    (hf : f (entrySlot P ρ t) = entrySlot P (ρ.setTask t ts) t)
    (hx : exitSlot P (ρ.setTask t ts) t = exitSlot P ρ t) :
    (layout P ρ out).modify (P.entryVertex t) f = layout P (ρ.setTask t ts) out := by
  refine layout_modify_barrier (by omega) ?_ (fun j hj => ?_) rfl rfl
  · simpa [barrierSlot, Nat.mul_div_cancel_left t (by decide : 0 < 2)] using hf
  · unfold barrierSlot
    by_cases hjt : j / 2 = t
    · have hj1 : j % 2 = 1 := by omega
      simp [hj1, hjt, hx]
    · simp [entrySlot, exitSlot, hjt]

theorem layout_setTask_exit {t : Nat} (ht : t < P.size) {ts : TaskState} {f : Slot → Slot}
    (hf : f (exitSlot P ρ t) = exitSlot P (ρ.setTask t ts) t)
    (he : entrySlot P (ρ.setTask t ts) t = entrySlot P ρ t) :
    (layout P ρ out).modify (P.exitVertex t) f = layout P (ρ.setTask t ts) out := by
  rw [Problem.exitVertex, show P.processors + 2 + 2 * t = P.processors + 1 + (2 * t + 1) by omega]
  refine layout_modify_barrier (by omega) ?_ (fun j hj => ?_) rfl rfl
  · have h2 : (2 * t + 1) / 2 = t := by omega
    simpa [barrierSlot, h2] using hf
  · unfold barrierSlot
    by_cases hjt : j / 2 = t
    · have hj0 : j % 2 = 0 := by omega
      simp [hj0, hjt, he]
    · simp [entrySlot, exitSlot, hjt]

/-- Changing one unit of the layout renders a state that differs there only. -/
theorem layout_modify_unit {u : UnitId} (hu : P.Valid u) {f : Slot → Slot}
    (hf : f (unitSlot P ρ u) = unitSlot P ρ' u) (hrest : ∀ w, w ≠ u → ρ'.unit w = ρ.unit w)
    (htask : ρ'.task = ρ.task) (hlog : ρ'.log = ρ.log) :
    (layout P ρ out).modify (P.unitVertex u) f = layout P ρ' out := by
  have hlt : P.offset u.task + u.subtask < P.totalUnits := by
    rw [← Problem.length_units]
    exact (List.getElem?_eq_some_iff.1 (P.getElem?_units hu)).1
  rw [Problem.unitVertex, Problem.unitBase,
    show P.processors + 1 + 2 * P.size + P.offset u.task + u.subtask =
      P.processors + 2 * P.size + (P.offset u.task + u.subtask) + 1 by omega,
    layout, List.modify_succ_cons,
    List.modify_append_of_lt (by simp [Problem.length_units]; omega),
    List.modify_append_of_le (by simp),
    List.modify_map_of_nodup P.nodup_units (by simpa using P.getElem?_units hu), layout,
    processorSlot_congr hlog]
  have hbar : barrierSlot P ρ' = barrierSlot P ρ := by
    funext i
    simp [barrierSlot, entrySlot, exitSlot, htask]
  have hunits : P.units.map (fun w => if w = u then f (unitSlot P ρ w) else unitSlot P ρ w) =
      P.units.map (unitSlot P ρ') := by
    refine List.map_congr_left fun w _ => ?_
    by_cases hw : w = u
    · subst hw
      simp [hf]
    · simp [hw, unitSlot, hrest w hw, hlog]
  rw [hbar, hunits, hlog]

/-- An assignment changes one free moment and one unit, and adds the next moment at the end. -/
theorem layout_assign {pl : Placement} {σ : Nat} {u : UnitId} (hu : P.Valid u)
    (hσ : σ < P.processors + ρ.log.length) (hlog : ρ'.log = ρ.log ++ [pl])
    (htask : ρ'.task = ρ.task) {fp fu : Slot → Slot}
    (hfp : fp (processorSlot P ρ σ) = processorSlot P ρ' σ)
    (hproc : ∀ σ', σ' < P.processors + ρ.log.length → σ' ≠ σ →
      processorSlot P ρ' σ' = processorSlot P ρ σ')
    (hfu : fu (unitSlot P ρ u) = unitSlot P ρ' u)
    (hunit : ∀ w, w ≠ u → unitSlot P ρ' w = unitSlot P ρ w) :
    layout P ρ' out = ((layout P ρ out).modify (P.stampVertex σ) fp).modify (P.unitVertex u) fu ++
      [processorSlot P ρ' (P.processors + ρ.log.length)] := by
  have hlt : P.offset u.task + u.subtask < P.totalUnits := by
    rw [← Problem.length_units]
    exact (List.getElem?_eq_some_iff.1 (P.getElem?_units hu)).1
  have hbar : barrierSlot P ρ' = barrierSlot P ρ := by
    funext i
    simp [barrierSlot, entrySlot, exitSlot, htask]
  have hC : (P.units.map (unitSlot P ρ)).modify (P.offset u.task + u.subtask) fu =
      P.units.map (unitSlot P ρ') := by
    rw [List.modify_map_of_nodup P.nodup_units (by simpa using P.getElem?_units hu)]
    refine List.map_congr_left fun w _ => ?_
    by_cases hw : w = u
    · subst hw
      simp [hfu]
    · simp [hw, hunit w hw]
  have hvertex : P.unitVertex u =
      P.processors + 2 * P.size + (P.offset u.task + u.subtask) + 1 := by
    simp only [Problem.unitVertex, Problem.unitBase]
    omega
  rw [layout, layout, hbar, hlog, List.length_append, List.length_singleton, List.range_succ,
    List.map_append, List.map_singleton]
  set A := (List.range P.processors).map (processorSlot P ρ)
  set B := (List.range (2 * P.size)).map (barrierSlot P ρ)
  set C := P.units.map (unitSlot P ρ)
  set D := (List.range ρ.log.length).map fun j => processorSlot P ρ (P.processors + j)
  have hlenA : A.length = P.processors := by simp [A]
  have hlenB : B.length = 2 * P.size := by simp [B]
  have hlenC : C.length = P.totalUnits := by simp [C, Problem.length_units]
  have hunitMod : ∀ A' D' : List Slot, A'.length = P.processors →
      (A' ++ B ++ C ++ D').modify (P.processors + 2 * P.size + (P.offset u.task + u.subtask)) fu =
        A' ++ B ++ P.units.map (unitSlot P ρ') ++ D' := by
    intro A' D' hA'
    have h1 : P.processors + 2 * P.size + (P.offset u.task + u.subtask) < (A' ++ B ++ C).length := by
      simp only [List.length_append]
      omega
    have h2 : (A' ++ B).length ≤ P.processors + 2 * P.size + (P.offset u.task + u.subtask) := by
      simp only [List.length_append]
      omega
    rw [List.modify_append_of_lt h1, List.modify_append_of_le h2, List.length_append, hA', hlenB,
      Nat.add_sub_cancel_left, hC]
  unfold Problem.stampVertex
  split
  · rename_i hσp
    have hA : A.modify σ fp = (List.range P.processors).map (processorSlot P ρ') := by
      rw [List.modify_map_range]
      refine List.map_congr_left fun σ' hσ' => ?_
      by_cases he : σ' = σ
      · subst he
        simp [hfp]
      · simp [he, hproc σ' (by simp at hσ'; omega) he]
    have hD : (List.range ρ.log.length).map (fun j => processorSlot P ρ' (P.processors + j)) = D :=
      List.map_congr_left fun j hj => hproc _ (by simp at hj; omega) (by omega)
    have h1 : σ < (A ++ B ++ C).length := by simp only [List.length_append]; omega
    have h2 : σ < (A ++ B).length := by simp only [List.length_append]; omega
    rw [List.modify_succ_cons, List.modify_append_of_lt h1, List.modify_append_of_lt h2,
      List.modify_append_of_lt (by omega), hA, hvertex, List.modify_succ_cons,
      hunitMod _ _ (by simp), hD]
    simp only [List.cons_append, List.append_assoc]
  · rename_i hσp
    have hD : D.modify (σ - P.processors) fp =
        (List.range ρ.log.length).map fun j => processorSlot P ρ' (P.processors + j) := by
      rw [List.modify_map_range]
      refine List.map_congr_left fun j hj => ?_
      by_cases he : j = σ - P.processors
      · subst he
        simp [Nat.add_sub_cancel' (Nat.le_of_not_lt hσp), hfp]
      · simp only [he, if_false]
        exact (hproc _ (by simp at hj; omega) (by omega)).symm
    have hA : (List.range P.processors).map (processorSlot P ρ') = A :=
      List.map_congr_left fun σ' hσ' => hproc σ' (by simp at hσ'; omega) (by simp at hσ'; omega)
    have hnode : P.nodeBase + (σ - P.processors) =
        P.processors + 2 * P.size + P.totalUnits + (σ - P.processors) + 1 := by
      simp only [Problem.nodeBase, Problem.unitBase]
      omega
    have h1 : (A ++ B ++ C).length ≤ P.processors + 2 * P.size + P.totalUnits + (σ - P.processors) := by
      simp only [List.length_append]
      omega
    rw [hnode, List.modify_succ_cons, List.modify_append_of_le h1,
      show P.processors + 2 * P.size + P.totalUnits + (σ - P.processors) - (A ++ B ++ C).length =
        σ - P.processors by simp only [List.length_append]; omega,
      hD, hvertex, List.modify_succ_cons, hunitMod _ _ hlenA, hA]
    simp only [List.cons_append, List.append_assoc]

end Update

end Direct

end ListScheduling
