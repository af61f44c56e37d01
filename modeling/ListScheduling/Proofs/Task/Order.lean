import Mathlib
import ListScheduling.Task.Order

/-!
What the release loop computes.
-/
namespace ListScheduling

namespace TaskGraph

variable (g : TaskGraph)

/-- Every recorded dependency as `(task, successor)`, task by task, each task's successors in the
order they were recorded, a repeated one as often as it was. -/
def dependencies : List (Nat × Nat) :=
  (List.range g.size).flatMap fun t => (g.successors t).map (t, ·)

/-- Every subtask time as `(task, subtask, time)`, task by task and subtask by subtask. -/
def subtaskEntries : List (Nat × Nat × Double) :=
  (List.range g.size).flatMap fun t => (g.subtaskTimes t).zipIdx.map fun (v, k) => (t, k, v)

/-- Task `s` depends directly on task `t`. -/
def Edge (t s : Nat) : Prop := s ∈ g.successors t

/-- Some task depends on itself through one or more dependencies. -/
def HasCycle : Prop := ∃ t, Relation.TransGen g.Edge t t

/-- `order` lists every task once, each after every task it depends on. -/
structure IsTopologicalOrder (order : List Nat) : Prop where
  perm : order.Perm (List.range g.size)
  before : ∀ t s, g.Edge t s → order.idxOf t < order.idxOf s

variable {g}

theorem lt_size_of_edge {t s : Nat} (h : g.Edge t s) : t < g.size := by
  by_contra hn
  have hnone : g.tasks[t]? = none := Array.getElem?_eq_none (by simpa [size] using hn)
  simp [Edge, successors, hnone] at h

theorem IsTopologicalOrder.not_hasCycle {order : List Nat} (h : g.IsTopologicalOrder order) :
    ¬ g.HasCycle := by
  rintro ⟨t, ht⟩
  have hlt : ∀ a b, Relation.TransGen g.Edge a b → order.idxOf a < order.idxOf b := by
    intro a b hab
    induction hab with
    | single hab => exact h.before _ _ hab
    | tail _ hbc ih => exact ih.trans (h.before _ _ hbc)
  exact Nat.lt_irrefl _ (hlt t t ht)

theorem hasCycle_of_forall_exists_edge {U : Nat → Prop} (hU : ∀ s, U s → s < g.size)
    (hne : ∃ s, U s) (hpred : ∀ s, U s → ∃ t, U t ∧ g.Edge t s) : g.HasCycle := by
  by_contra hno
  let R : Fin g.size → Fin g.size → Prop := fun a b => Relation.TransGen g.Edge a b
  have : IsTrans (Fin g.size) R := ⟨fun _ _ _ hab hbc => hab.trans hbc⟩
  have : Std.Irrefl R := ⟨fun a ha => hno ⟨a, ha⟩⟩
  obtain ⟨s, hs⟩ := hne
  obtain ⟨m, hm, hmin⟩ := (Finite.wellFounded_of_trans_of_irrefl R).has_min {x | U x}
    ⟨⟨s, hU s hs⟩, hs⟩
  obtain ⟨t, ht, hts⟩ := hpred m hm
  exact hmin ⟨t, hU t ht⟩ ht (.single hts)

/-! The in-degrees. -/

/-- The successors of all tasks, in task order, a repeated dependency as often as recorded. -/
def inputs (g : TaskGraph) : List Nat := (List.range g.size).flatMap g.successors

theorem inputs_eq_map : g.inputs = g.dependencies.map Prod.snd := by
  simp [inputs, dependencies, List.map_flatMap, Function.comp_def]

theorem foldlM_flatMap {m : Type → Type} [Monad m] [LawfulMonad m] {α β γ : Type}
    (f : β → α → m β) (h : γ → List α) (l : List γ) (b : β) :
    (l.flatMap h).foldlM f b = l.foldlM (fun b c => (h c).foldlM f b) b := by
  induction l generalizing b with
  | nil => rfl
  | cons c l ih => simp [List.flatMap_cons, List.foldlM_append, ih]

/-- One step of counting in-degrees. -/
abbrev countInput (deg : Array Nat) (s : Nat) : Except TaskError (Array Nat) :=
  if s < deg.size then .ok (deg.modify s (· + 1)) else .error (.unknownTask s)

theorem size_foldl_modify (l : List Nat) (deg : Array Nat) :
    (l.foldl (fun d s => d.modify s (· + 1)) deg).size = deg.size := by
  induction l generalizing deg with
  | nil => rfl
  | cons s l ih => rw [List.foldl_cons, ih, Array.size_modify]

theorem getElem?_foldl_modify (l : List Nat) (deg : Array Nat) (i : Nat) :
    (l.foldl (fun d s => d.modify s (· + 1)) deg)[i]? = deg[i]?.map (· + l.count i) := by
  induction l generalizing deg with
  | nil => simp
  | cons s l ih =>
    rw [List.foldl_cons, ih, Array.getElem?_modify, List.count_cons]
    by_cases hs : s = i
    · subst hs
      cases deg[s]? <;> simp [Nat.add_assoc, Nat.add_comm 1]
    · simp [hs]

theorem foldlM_countInput_of_lt {l : List Nat} {deg : Array Nat} (hl : ∀ s ∈ l, s < deg.size) :
    l.foldlM countInput deg = .ok (l.foldl (fun d s => d.modify s (· + 1)) deg) := by
  induction l generalizing deg with
  | nil => rfl
  | cons s l ih =>
    have hs : s < deg.size := hl s List.mem_cons_self
    have hrest : ∀ x ∈ l, x < (deg.modify s (· + 1)).size := fun x hx => by
      rw [Array.size_modify]; exact hl x (List.mem_cons_of_mem _ hx)
    simp only [List.foldlM_cons, countInput, hs, if_true, List.foldl_cons]
    exact ih hrest

theorem foldlM_countInput_of_find? {l : List Nat} {deg : Array Nat} {s : Nat}
    (h : l.find? (deg.size ≤ ·) = some s) : l.foldlM countInput deg = .error (.unknownTask s) := by
  induction l generalizing deg with
  | nil => simp at h
  | cons x l ih =>
    by_cases hx : deg.size ≤ x
    · have hxs : x = s := by simpa [List.find?_cons, hx] using h
      subst hxs
      simp [List.foldlM_cons, countInput, Nat.not_lt.2 hx]
      rfl
    · have hl : l.find? ((deg.modify x (· + 1)).size ≤ ·) = some s := by
        simpa [List.find?_cons, hx, Array.size_modify] using h
      simp only [List.foldlM_cons, countInput, Nat.not_le.1 hx, if_true]
      exact ih hl

theorem inDegrees_eq_foldlM : g.inDegrees = g.inputs.foldlM countInput (Array.replicate g.size 0) := by
  rw [inputs, foldlM_flatMap]
  rfl

theorem inDegrees_of_find? {t s : Nat} (h : g.dependencies.find? (g.size ≤ ·.2) = some (t, s)) :
    g.inDegrees = .error (.unknownTask s) := by
  rw [inDegrees_eq_foldlM]
  apply foldlM_countInput_of_find?
  rw [inputs_eq_map, List.find?_map]
  simpa [Function.comp_def] using congrArg (Option.map Prod.snd) h

theorem lt_size_of_find?_eq_none (h : g.dependencies.find? (g.size ≤ ·.2) = none) {t s : Nat}
    (hts : g.Edge t s) : s < g.size := by
  have hmem : (t, s) ∈ g.dependencies :=
    List.mem_flatMap.2 ⟨t, List.mem_range.2 (lt_size_of_edge hts), List.mem_map_of_mem hts⟩
  simpa using List.find?_eq_none.1 h _ hmem

theorem inDegrees_of_find?_eq_none (h : g.dependencies.find? (g.size ≤ ·.2) = none) :
    ∃ deg, g.inDegrees = .ok deg ∧ deg.size = g.size ∧
      ∀ s < g.size, deg[s]?.getD 0 = g.inputs.count s := by
  have hl : ∀ s ∈ g.inputs, s < (Array.replicate g.size 0).size := by
    intro s hs
    obtain ⟨t, -, hts⟩ := List.mem_flatMap.1 hs
    simpa using lt_size_of_find?_eq_none h hts
  refine ⟨_, by rw [inDegrees_eq_foldlM]; exact foldlM_countInput_of_lt hl,
    by rw [size_foldl_modify]; simp, fun s hs => ?_⟩
  rw [getElem?_foldl_modify]
  simp [hs]

end TaskGraph

namespace Release

variable {g : TaskGraph} {r : Release} {s t : Nat} {rest pending : List Nat}

/-- The inputs still to be taken, by successor: the dependencies out of every task not placed,
then the successors of the task being placed that have not lost their degree yet. -/
def inputsLeft (g : TaskGraph) (placed pending : List Nat) : List Nat :=
  ((List.range g.size).filter (· ∉ placed)).flatMap g.successors ++ pending

/-- What the release loop keeps, while `pending` successors of the task it places have still to
lose a degree. -/
structure Inv (g : TaskGraph) (r : Release) (pending : List Nat) : Prop where
  size : r.degrees.size = g.size
  degree : ∀ s < g.size, r.degrees[s]?.getD 0 = (inputsLeft g r.order.toList pending).count s
  released : ∀ s < g.size,
    s ∈ r.order.toList ++ r.waiting ↔ s ∉ inputsLeft g r.order.toList pending
  nodup : (r.order.toList ++ r.waiting).Nodup
  lt_size : ∀ s ∈ r.order.toList ++ r.waiting, s < g.size
  pending_lt : ∀ s ∈ pending, s < g.size
  ready : ∀ s ∈ r.waiting, ∀ t, g.Edge t s → t ∈ r.order.toList
  before : ∀ s ∈ r.order.toList, ∀ t, g.Edge t s →
    t ∈ r.order.toList ∧ r.order.toList.idxOf t < r.order.toList.idxOf s

theorem mem_inputsLeft_of_edge {placed : List Nat} (hts : g.Edge t s) (ht : t ∉ placed) :
    s ∈ inputsLeft g placed pending :=
  List.mem_append_left _ (List.mem_flatMap.2
    ⟨t, List.mem_filter.2 ⟨List.mem_range.2 (TaskGraph.lt_size_of_edge hts), by simpa using ht⟩, hts⟩)

theorem exists_edge_of_mem_inputsLeft {placed : List Nat} (hs : s ∈ inputsLeft g placed []) :
    ∃ t, g.Edge t s ∧ t < g.size ∧ t ∉ placed := by
  simp only [inputsLeft, List.append_nil, List.mem_flatMap, List.mem_filter, List.mem_range,
    decide_eq_true_eq] at hs
  obtain ⟨t, ⟨htn, htp⟩, hts⟩ := hs
  exact ⟨t, hts, htn, htp⟩

theorem inputsLeft_place {placed : List Nat} (ht : t < g.size) (hp : t ∉ placed) :
    (inputsLeft g (placed ++ [t]) (g.successors t)).Perm (inputsLeft g placed []) := by
  set L := (List.range g.size).filter (· ∉ placed)
  have hmem : t ∈ L := List.mem_filter.2 ⟨List.mem_range.2 ht, by simpa using hp⟩
  have hnd : L.Nodup := List.nodup_range.filter _
  have hfilter : (List.range g.size).filter (· ∉ placed ++ [t]) = L.erase t := by
    rw [hnd.erase_eq_filter, List.filter_filter]
    congr 1
    funext x
    by_cases hx : x = t <;> simp [hx]
  unfold inputsLeft
  rw [hfilter, List.append_nil]
  calc List.Perm ((L.erase t).flatMap g.successors ++ g.successors t)
        (g.successors t ++ (L.erase t).flatMap g.successors) := List.perm_append_comm
    _ = (t :: L.erase t).flatMap g.successors := by simp
    List.Perm _ (L.flatMap g.successors) := ((List.perm_cons_erase hmem).flatMap_right _).symm

theorem count_inputsLeft_cons (placed : List Nat) (x : Nat) :
    (inputsLeft g placed (s :: rest)).count x =
      (inputsLeft g placed rest).count x + if x = s then 1 else 0 := by
  by_cases hx : x = s
  · subst hx; simp [inputsLeft, Nat.add_assoc]
  · simp [inputsLeft, hx, Ne.symm hx]

/-- Dropping a pending successor takes one input off its degree, which was not yet zero, and
releases it when no input is left. -/
theorem Inv.drop (h : Inv g r (s :: rest)) : Inv g (r.drop s) rest := by
  have hs : s < g.size := h.pending_lt s List.mem_cons_self
  have hdeg : r.degrees[s]?.getD 0 - 1 = (inputsLeft g r.order.toList rest).count s := by
    rw [h.degree s hs, count_inputsLeft_cons]
    simp
  -- the successor was not released, since an input into it was still to come
  have hnew : s ∉ r.order.toList ++ r.waiting := fun hm =>
    (h.released s hs).1 hm (List.mem_append_right _ List.mem_cons_self)
  have hmem : ∀ x, x ≠ s →
      (x ∈ inputsLeft g r.order.toList (s :: rest) ↔ x ∈ inputsLeft g r.order.toList rest) := by
    intro x hx
    simp [inputsLeft, hx]
  generalize hc : (inputsLeft g r.order.toList rest).count s = c at hdeg
  have hdrop : r.drop s =
      { r with degrees := r.degrees.setIfInBounds s c,
               waiting := if c = 0 then r.waiting ++ [s] else r.waiting } := by
    simp only [Release.drop, hdeg, Array.set!_eq_setIfInBounds]
  rw [hdrop]
  constructor
  · simp [h.size]
  · intro x hx
    simp only [Array.getElem?_setIfInBounds, h.size]
    by_cases hxs : s = x
    · subst hxs; simp [hx, hc]
    · rw [if_neg hxs, h.degree x hx, count_inputsLeft_cons, if_neg (Ne.symm hxs), Nat.add_zero]
  · intro x hx
    dsimp only
    by_cases hxs : x = s
    · subst hxs
      by_cases hc0 : c = 0
      · simp [hc0, List.count_eq_zero.1 (hc.trans hc0)]
      · have hin : x ∈ inputsLeft g r.order.toList rest :=
          List.count_pos_iff.1 (Nat.pos_of_ne_zero (hc ▸ hc0))
        simp only [hc0, if_false, hin, not_true_eq_false, iff_false]
        exact hnew
    · rw [← hmem x hxs, ← h.released x hx]
      split <;> simp [hxs]
  · dsimp only
    split
    · rw [← List.append_assoc]
      exact List.nodup_append.2 ⟨h.nodup, List.nodup_singleton s,
        fun a ha b hb => by rw [List.mem_singleton.1 hb]; exact fun has => hnew (has ▸ ha)⟩
    · exact h.nodup
  · intro x hx
    dsimp only at hx
    split at hx
    · rw [← List.append_assoc] at hx
      rcases List.mem_append.1 hx with hx | hx
      · exact h.lt_size x hx
      · rw [List.mem_singleton.1 hx]; exact hs
    · exact h.lt_size x hx
  · exact fun x hx => h.pending_lt x (List.mem_cons_of_mem _ hx)
  · intro x hx u hux
    dsimp only at hx ⊢
    split at hx
    · rcases List.mem_append.1 hx with hx | hx
      · exact h.ready x hx u hux
      · -- every input into the released successor has been taken, so its sources are placed
        rw [List.mem_singleton.1 hx] at hux
        by_contra hu
        exact List.count_eq_zero.1 (hc.trans (by simp_all)) (mem_inputsLeft_of_edge hux hu)
    · exact h.ready x hx u hux
  · exact h.before

theorem Inv.foldl_drop (h : Inv g r pending) : Inv g (pending.foldl Release.drop r) [] := by
  induction pending generalizing r with
  | nil => exact h
  | cons s rest ih => exact ih h.drop

theorem order_foldl_drop (l : List Nat) (r : Release) : (l.foldl Release.drop r).order = r.order := by
  induction l generalizing r with
  | nil => rfl
  | cons s l ih => rw [List.foldl_cons, ih]; rfl

/-- Placing the first waiting task keeps the invariant, with its successors pending: they are
tasks, and every task it depends on was placed before it. -/
theorem Inv.place (hg : ∀ t s, g.Edge t s → s < g.size) (h : Inv g r []) (hw : r.waiting = t :: rest) :
    Inv g { r with waiting := rest, order := r.order.push t } (g.successors t) := by
  have hsame : (r.order.push t).toList ++ rest = r.order.toList ++ r.waiting := by simp [hw]
  have ht : t < g.size := h.lt_size t (by simp [hw])
  have htP : t ∉ r.order.toList := by
    have := h.nodup
    rw [hw] at this
    exact fun hm => (List.nodup_append.1 this).2.2 t hm t List.mem_cons_self rfl
  have hperm := inputsLeft_place ht htP
  rw [Array.toList_push] at hsame
  constructor
  · exact h.size
  · intro x hx
    dsimp only
    rw [Array.toList_push, h.degree x hx, hperm.count_eq]
  · intro x hx
    dsimp only
    rw [Array.toList_push, hsame, hperm.mem_iff]
    exact h.released x hx
  · dsimp only
    rw [Array.toList_push, hsame]
    exact h.nodup
  · dsimp only
    rw [Array.toList_push, hsame]
    exact h.lt_size
  · exact fun x hx => hg t x hx
  · intro x hx u hux
    dsimp only
    rw [Array.toList_push]
    exact List.mem_append_left _ (h.ready x (by simp [hw, hx]) u hux)
  · intro x hx u hux
    dsimp only at hx ⊢
    rw [Array.toList_push] at hx ⊢
    rcases List.mem_append.1 hx with hx | hx
    · obtain ⟨hu, hlt⟩ := h.before x hx u hux
      refine ⟨List.mem_append_left _ hu, ?_⟩
      rw [List.idxOf_append_of_mem hu, List.idxOf_append_of_mem hx]
      exact hlt
    · rw [List.mem_singleton.1 hx] at hux ⊢
      have hu := h.ready t (by simp [hw]) u hux
      refine ⟨List.mem_append_left _ hu, ?_⟩
      rw [List.idxOf_append_of_mem hu, List.idxOf_append, if_neg htP]
      simpa using List.idxOf_lt_length_iff.2 hu

theorem Inv.step (hg : ∀ t s, g.Edge t s → s < g.size) (h : Inv g r []) :
    Inv g (Release.step g r) [] := by
  unfold Release.step
  split
  · exact h
  · rename_i t rest hw
    exact (h.place hg hw).foldl_drop

theorem order_step (h : r.waiting = t :: rest) : (Release.step g r).order = r.order.push t := by
  simp [Release.step, h, order_foldl_drop]

theorem step_of_waiting_nil (h : r.waiting = []) : Release.step g r = r := by
  simp [Release.step, h]

theorem Inv.length_le (h : Inv g r pending) : (r.order.toList ++ r.waiting).length ≤ g.size := by
  have hsub : (r.order.toList ++ r.waiting).Subperm (List.range g.size) :=
    h.nodup.subperm fun x hx => List.mem_range.2 (h.lt_size x hx)
  simpa using hsub.length_le

/-- After as many rounds as there are tasks, nothing waits: each round places a task until none
waits, and no more tasks than there are can be placed. -/
theorem Inv.rounds (hg : ∀ t s, g.Edge t s → s < g.size) {α : Type} (l : List α)
    (h : Inv g r []) :
    Inv g (l.foldl (fun r _ => Release.step g r) r) [] ∧
      ((l.foldl (fun r _ => Release.step g r) r).waiting = [] ∨
        r.order.size + l.length ≤ (l.foldl (fun r _ => Release.step g r) r).order.size) := by
  induction l generalizing r with
  | nil => exact ⟨h, .inr (by simp)⟩
  | cons a l ih =>
    obtain ⟨hI, hdone⟩ := ih (h.step hg)
    refine ⟨hI, ?_⟩
    rcases hw : r.waiting with _ | ⟨t, rest⟩
    · have hfix : ∀ l' : List α, l'.foldl (fun r _ => Release.step g r) r = r := by
        intro l'
        induction l' with
        | nil => rfl
        | cons _ l' ih' => rw [List.foldl_cons, step_of_waiting_nil hw, ih']
      exact .inl (by rw [hfix]; exact hw)
    · rcases hdone with hdone | hdone
      · exact .inl hdone
      · refine .inr ?_
        rw [List.foldl_cons]
        rw [order_step hw, Array.size_push] at hdone
        simp only [List.length_cons]
        omega

theorem inputsLeft_nil : inputsLeft g [] [] = g.inputs := by
  simp [inputsLeft, TaskGraph.inputs]

/-- The loop starts with the in-degrees and, in id order, the tasks that depend on none. -/
theorem Inv.initial {deg : Array Nat} (hsize : deg.size = g.size)
    (hcount : ∀ s < g.size, deg[s]?.getD 0 = g.inputs.count s) :
    Inv g ⟨deg, (List.range g.size).filter (deg[·]? == some 0), #[]⟩ [] := by
  have hzero : ∀ s < g.size, (deg[s]? == some 0) = true ↔ s ∉ g.inputs := by
    intro s hs
    have hget : deg[s]? = some (deg[s]?.getD 0) := by
      rw [Array.getElem?_eq_getElem (by omega)]; rfl
    rw [hget, hcount s hs, ← List.count_eq_zero]
    simp
  constructor
  · exact hsize
  · intro s hs; rw [inputsLeft_nil]; exact hcount s hs
  · intro s hs
    rw [inputsLeft_nil, ← hzero s hs]
    simp [hs]
  · exact List.nodup_range.filter _
  · intro s hs; simpa using (List.mem_filter.1 hs).1
  · simp
  · intro s hs t hts
    obtain ⟨hsn, hs0⟩ := List.mem_filter.1 hs
    have hin : s ∈ g.inputs := by
      rw [← inputsLeft_nil]; exact mem_inputsLeft_of_edge hts (List.not_mem_nil)
    exact absurd hin ((hzero s (List.mem_range.1 hsn)).1 hs0)
  · simp

/-- When nothing waits, every task is placed in a topological order, or the tasks left over lie on a
cycle. -/
theorem Inv.final (hg : ∀ t s, g.Edge t s → s < g.size) (h : Inv g r []) (hw : r.waiting = []) :
    (r.order.size = g.size → g.IsTopologicalOrder r.order.toList) ∧
      (r.order.size ≠ g.size → g.HasCycle) := by
  have hnd : r.order.toList.Nodup := by simpa [hw] using h.nodup
  have hsub : r.order.toList.Subperm (List.range g.size) :=
    hnd.subperm fun x hx => List.mem_range.2 (h.lt_size x (List.mem_append_left _ hx))
  constructor
  · intro hn
    have hperm := hsub.perm_of_length_le (by simp [hn])
    refine ⟨hperm, fun t s hts => ?_⟩
    have hs : s ∈ r.order.toList := hperm.mem_iff.2 (List.mem_range.2 (hg t s hts))
    exact (h.before s hs t hts).2
  · intro hn
    -- some task is not placed, since a duplicate-free list of all of them would be as long
    have hleft : ∃ s, s < g.size ∧ s ∉ r.order.toList := by
      by_contra hall
      simp only [not_exists, not_and, not_not] at hall
      have hsup := (List.nodup_range (n := g.size)).subperm fun x hx => hall x (List.mem_range.1 hx)
      have := hsub.length_le
      have := hsup.length_le
      simp at *
      omega
    refine TaskGraph.hasCycle_of_forall_exists_edge (U := fun s => s < g.size ∧ s ∉ r.order.toList)
      (fun s hs => hs.1) hleft fun s ⟨hs, hsP⟩ => ?_
    have hin : s ∈ inputsLeft g r.order.toList [] := by
      by_contra hnot
      exact hsP (by simpa [hw] using (h.released s hs).2 hnot)
    obtain ⟨t, hts, ht, htP⟩ := exists_edge_of_mem_inputsLeft hin
    exact ⟨t, ⟨ht, htP⟩, hts⟩

end Release

namespace TaskGraph

variable {g : TaskGraph}

theorem topologicalOrder_cases (h : g.dependencies.find? (g.size ≤ ·.2) = none) :
    (∃ order, g.topologicalOrder = .ok order ∧ g.IsTopologicalOrder order) ∨
      (g.topologicalOrder = .error .circularDependency ∧ g.HasCycle) := by
  obtain ⟨deg, hdeg, hsize, hcount⟩ := inDegrees_of_find?_eq_none h
  have hg : ∀ t s, g.Edge t s → s < g.size := fun _ _ hts => lt_size_of_find?_eq_none h hts
  obtain ⟨hF, hdone⟩ := (Release.Inv.initial hsize hcount).rounds hg (List.range g.size)
  generalize hfinal : (List.range g.size).foldl (fun r _ => Release.step g r)
    ⟨deg, (List.range g.size).filter (deg[·]? == some 0), #[]⟩ = final at hF hdone
  have hw : final.waiting = [] := by
    rcases hdone with hdone | hdone
    · exact hdone
    · have := hF.length_le
      simp at hdone this
      exact List.eq_nil_of_length_eq_zero (by omega)
  have htop : g.topologicalOrder =
      if final.order.size = g.size then .ok final.order.toList else .error .circularDependency := by
    rw [topologicalOrder, hdeg, ← hfinal]
    rfl
  by_cases hn : final.order.size = g.size
  · exact .inl ⟨_, by rw [htop, if_pos hn], (hF.final hg hw).1 hn⟩
  · exact .inr ⟨by rw [htop, if_neg hn], (hF.final hg hw).2 hn⟩

theorem topologicalOrder_of_find? {t s : Nat}
    (h : g.dependencies.find? (g.size ≤ ·.2) = some (t, s)) :
    g.topologicalOrder = .error (.unknownTask s) := by
  rw [topologicalOrder, inDegrees_of_find? h]
  rfl

theorem isTopologicalOrder_of_ok {order : List Nat} (h : g.topologicalOrder = .ok order) :
    g.IsTopologicalOrder order ∧ ∀ t s, g.Edge t s → s < g.size := by
  cases hfind : g.dependencies.find? (g.size ≤ ·.2) with
  | some e =>
    obtain ⟨t, s⟩ := e
    rw [topologicalOrder_of_find? hfind] at h
    cases h
  | none =>
    refine ⟨?_, fun _ _ hts => lt_size_of_find?_eq_none hfind hts⟩
    rcases topologicalOrder_cases hfind with ⟨o, ho, htop⟩ | ⟨herr, -⟩
    · rw [ho] at h
      cases h
      exact htop
    · rw [herr] at h
      cases h

theorem firstInvalidTime_eq :
    g.firstInvalidTime = (g.subtaskEntries.find? (!·.2.2.isValidTime)).map
      fun e => .invalidExecTime e.1 e.2.1 e.2.2 := by
  simp only [firstInvalidTime, subtaskEntries, List.find?_flatMap, List.map_findSome?, List.find?_map]
  congr 1
  funext t
  simp [Function.comp_def]

end TaskGraph

end ListScheduling
