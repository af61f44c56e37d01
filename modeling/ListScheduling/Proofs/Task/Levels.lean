import ListScheduling.Task.Levels
import ListScheduling.Proofs.Task.Order
import ListScheduling.Proofs.Scheduler.Timing
import ListScheduling.Proofs.Double.Monotone

/-!
What the bottom levels are.
-/
namespace ListScheduling

namespace Double

theorem isValidTime_zero : zero.isValidTime = true := by decide

theorem le_add_right_of_isValidTime {e x : Double} (he : e.isValidTime = true) (hx : zero.le x) :
    e.le (e + x) := by
  have heN : e.isNaN = false := not_isNaN_of_isFinite (isFinite_of_isValidTime he)
  have h₁ : e.le (zero + e) := le_add_of_nonneg isFinite_zero (by rw [units_zero]) heN
  have h₂ : (zero + e).le (x + e) := add_le_add_of_isFinite hx (isFinite_of_isValidTime he)
  rw [add_comm_of_isNaN (.inl heN)]
  exact le_trans h₁ h₂

end Double

open Double

namespace TaskGraph

variable {g : TaskGraph} {split : Split}

/-- The level a task takes from given levels: its weight plus the largest level among its
successors, from `0.0`. -/
def levelOf (g : TaskGraph) (split : Split) (L : Array Double) (t : Nat) : Double :=
  g.weight split t + ((g.successors t).map fun s => L.getD s Double.zero).foldl Double.maxNum Double.zero

/-- One level per task, each meeting its equation. -/
def IsLevels (g : TaskGraph) (split : Split) (L : Array Double) : Prop :=
  L.size = g.size ∧ ∀ t < g.size, L[t]? = some (g.levelOf split L t)

theorem fillLevel_eq (L : Array Double) (t : Nat) :
    g.fillLevel split L t = L.setIfInBounds t (g.levelOf split L t) := by
  simp [fillLevel, levelOf, List.foldl_map, Array.getD_eq_getD_getElem?, Array.set!_eq_setIfInBounds]

theorem levelOf_congr {L L' : Array Double} {t : Nat}
    (h : ∀ s ∈ g.successors t, L.getD s Double.zero = L'.getD s Double.zero) :
    g.levelOf split L t = g.levelOf split L' t := by
  rw [levelOf, levelOf, List.map_congr_left h]

theorem IsTopologicalOrder.mem_of_edge {order pre l : List Nat} (h : g.IsTopologicalOrder order)
    (hsplit : order = pre ++ l) {t s : Nat} (ht : t ∈ l) (hts : g.Edge t s) (hs : s < g.size) :
    s ∈ l := by
  have hnd : order.Nodup := h.perm.nodup_iff.2 List.nodup_range
  have htp : t ∉ pre := fun hp => List.disjoint_of_nodup_append (hsplit ▸ hnd) hp ht
  by_contra hsl
  have hsp : s ∈ pre := by
    have hmem : s ∈ order := h.perm.mem_iff.2 (List.mem_range.2 hs)
    rw [hsplit] at hmem
    exact (List.mem_append.1 hmem).resolve_right hsl
  have hlt := h.before t s hts
  rw [hsplit, List.idxOf_append_of_mem hsp, List.idxOf_append, if_neg htp] at hlt
  have := List.idxOf_lt_length_iff.2 hsp
  omega

theorem IsTopologicalOrder.ne_of_edge {order : List Nat} (h : g.IsTopologicalOrder order) {t s : Nat}
    (hts : g.Edge t s) : s ≠ t := by
  rintro rfl
  exact Nat.lt_irrefl _ (h.before s s hts)

section Fill

variable (split) {order : List Nat} (htop : g.IsTopologicalOrder order) (hg : ∀ t s, g.Edge t s → s < g.size)
include htop hg

theorem IsTopologicalOrder.succ_mem_tail {pre l : List Nat} {t u s : Nat}
    (hsplit : order = pre ++ t :: l) (hu : u ∈ t :: l) (hus : g.Edge u s) : s ∈ l ∧ s ≠ t := by
  have hnd : order.Nodup := htop.perm.nodup_iff.2 List.nodup_range
  have htl : t ∉ l := by
    rw [hsplit] at hnd
    exact (List.nodup_cons.1 (List.nodup_append.1 hnd).2.1).1
  rcases List.mem_cons.1 hu with rfl | hu
  · have hs := htop.mem_of_edge hsplit List.mem_cons_self hus (hg _ _ hus)
    have hne := htop.ne_of_edge hus
    exact ⟨(List.mem_cons.1 hs).resolve_left hne, hne⟩
  · have hs := htop.mem_of_edge (l := l) (by rw [hsplit, List.append_cons]) hu hus (hg _ _ hus)
    exact ⟨hs, fun hst => htl (hst ▸ hs)⟩

/-- Filling the tasks of a tail of the order, last first, gives each of them its level. -/
theorem fill_tail {pre l : List Nat} (hsplit : order = pre ++ l) :
    let A := l.reverse.foldl (g.fillLevel split) (Array.replicate g.size Double.zero)
    A.size = g.size ∧ ∀ t ∈ l, A[t]? = some (g.levelOf split A t) := by
  induction l generalizing pre with
  | nil => simp
  | cons t l ih =>
    obtain ⟨hsize, hlev⟩ := ih (show order = (pre ++ [t]) ++ l by rw [hsplit, List.append_cons])
    set A := l.reverse.foldl (g.fillLevel split) (Array.replicate g.size Double.zero)
    have ht : t < g.size := List.mem_range.1 (htop.perm.mem_iff.1 (by simp [hsplit]))
    have hsame : ∀ u ∈ t :: l, g.levelOf split (A.setIfInBounds t (g.levelOf split A t)) u =
        g.levelOf split A u := by
      intro u hu
      refine levelOf_congr fun s hs => ?_
      rw [Array.getD_eq_getD_getElem?, Array.getD_eq_getD_getElem?,
        Array.getElem?_setIfInBounds, if_neg (htop.succ_mem_tail hg hsplit hu hs).2.symm]
    simp only [List.reverse_cons, List.foldl_append, List.foldl_cons, List.foldl_nil]
    rw [fillLevel_eq]
    refine ⟨by rw [Array.size_setIfInBounds, hsize], fun u hu => ?_⟩
    rw [hsame u hu, Array.getElem?_setIfInBounds]
    by_cases htu : t = u
    · subst htu
      rw [if_pos rfl, if_pos (by rw [hsize]; exact ht)]
    · rw [if_neg htu]
      exact hlev u ((List.mem_cons.1 hu).resolve_left (Ne.symm htu))

/-- Any levels meeting the equations agree with the filled ones on a tail of the order. -/
theorem fill_tail_unique {L : Array Double} (hL : g.IsLevels split L) {pre l : List Nat}
    (hsplit : order = pre ++ l) :
    ∀ t ∈ l, (l.reverse.foldl (g.fillLevel split) (Array.replicate g.size Double.zero))[t]? = L[t]? := by
  induction l generalizing pre with
  | nil => simp
  | cons t l ih =>
    have hagree := ih (show order = (pre ++ [t]) ++ l by rw [hsplit, List.append_cons])
    set A := l.reverse.foldl (g.fillLevel split) (Array.replicate g.size Double.zero)
    have ht : t < g.size := List.mem_range.1 (htop.perm.mem_iff.1 (by simp [hsplit]))
    have hlevel : g.levelOf split A t = g.levelOf split L t := by
      refine levelOf_congr fun s hs => ?_
      have hsl := (htop.succ_mem_tail hg hsplit List.mem_cons_self hs).1
      rw [Array.getD_eq_getD_getElem?, Array.getD_eq_getD_getElem?, hagree s hsl]
    intro u hu
    simp only [List.reverse_cons, List.foldl_append, List.foldl_cons, List.foldl_nil]
    rw [fillLevel_eq, Array.getElem?_setIfInBounds]
    by_cases htu : t = u
    · subst htu
      have hsize : A.size = g.size :=
        (fill_tail split htop hg (show order = (pre ++ [t]) ++ l by rw [hsplit, List.append_cons])).1
      rw [if_pos rfl, if_pos (by rw [hsize]; exact ht), hlevel, hL.2 t ht]
    · rw [if_neg htu]
      exact hagree u ((List.mem_cons.1 hu).resolve_left (Ne.symm htu))

end Fill


theorem bottomLevels_of_ok {order : List Nat} (h : g.topologicalOrder = .ok order) :
    ∃ L, g.bottomLevels split = .ok L ∧ g.IsLevels split L ∧ ∀ L', g.IsLevels split L' → L' = L := by
  obtain ⟨htop, hg⟩ := isTopologicalOrder_of_ok h
  have hsplit : order = [] ++ order := rfl
  obtain ⟨hsize, hlev⟩ := fill_tail split htop hg hsplit
  have hmem : ∀ t < g.size, t ∈ order := fun t ht => htop.perm.mem_iff.2 (List.mem_range.2 ht)
  refine ⟨_, by rw [bottomLevels, h]; rfl, ⟨hsize, fun t ht => hlev t (hmem t ht)⟩, fun L' hL' => ?_⟩
  refine Array.ext_getElem? fun t => ?_
  by_cases ht : t < g.size
  · exact (fill_tail_unique split htop hg hL' hsplit t (hmem t ht)).symm
  · rw [Array.getElem?_eq_none (by rw [hL'.1]; omega), Array.getElem?_eq_none (by rw [hsize]; omega)]

theorem bottomLevels_eq_error {e : TaskError} :
    g.bottomLevels split = .error e ↔ g.topologicalOrder = .error e := by
  rw [bottomLevels]
  cases g.topologicalOrder with
  | error e' => simp only [bind, Except.bind, Except.error.injEq]
  | ok order => simp only [bind, Except.bind, pure, Except.pure, reduceCtorEq]

section Dominance

variable {t : Nat} {A : Array Double}

theorem weight_isValidTime (h : ∀ x ∈ g.unitTimes split t, x.isValidTime = true) :
    (g.weight split t).isValidTime = true := by
  unfold weight
  rcases foldl_maxNum_eq_or Double.zero (g.unitTimes split t) with hw | hw
  · rw [hw]
    exact isValidTime_zero
  · exact h _ hw

theorem le_weight (h : ∀ x ∈ g.unitTimes split t, x.isValidTime = true) {x : Double}
    (hx : x ∈ g.unitTimes split t) : x.le (g.weight split t) :=
  (le_foldl_maxNum (not_isNaN_of_isFinite isFinite_zero)
    fun y hy => not_isNaN_of_isFinite (isFinite_of_isValidTime (h y hy))).2 x hx

theorem le_tail (hA : ∀ i, zero.le (A.getD i zero)) :
    zero.le (((g.successors t).map fun s => A.getD s zero).foldl maxNum zero) ∧
      ∀ s ∈ g.successors t,
        (A.getD s zero).le (((g.successors t).map fun s => A.getD s zero).foldl maxNum zero) := by
  have hN : ∀ y ∈ (g.successors t).map fun s => A.getD s zero, y.isNaN = false := by
    intro y hy
    obtain ⟨s, -, rfl⟩ := List.mem_map.1 hy
    exact isNaN_eq_false_of_le_right (hA s)
  obtain ⟨h₀, hall⟩ := le_foldl_maxNum (not_isNaN_of_isFinite isFinite_zero) hN
  exact ⟨h₀, fun s hs => hall _ (List.mem_map_of_mem hs)⟩

theorem le_levelOf (h : ∀ x ∈ g.unitTimes split t, x.isValidTime = true)
    (hA : ∀ i, zero.le (A.getD i zero)) :
    zero.le (g.levelOf split A t) ∧ (g.weight split t).le (g.levelOf split A t) ∧
      ∀ s ∈ g.successors t, (A.getD s zero).le (g.levelOf split A t) := by
  obtain ⟨h₀, hsucc⟩ := le_tail (t := t) (g := g) hA
  have hw := weight_isValidTime h
  have htail := le_add_of_isValidTime hw (isNaN_eq_false_of_le_right h₀)
  exact ⟨le_trans h₀ htail, le_add_right_of_isValidTime hw h₀,
    fun s hs => le_trans (hsucc s hs) htail⟩

theorem zero_le_foldl_fill {l : List Nat} (h : ∀ t ∈ l, ∀ x ∈ g.unitTimes split t, x.isValidTime = true)
    (hA : ∀ i, zero.le (A.getD i zero)) (i : Nat) :
    zero.le ((l.foldl (g.fillLevel split) A).getD i zero) := by
  induction l generalizing A with
  | nil => exact hA i
  | cons t l ih =>
    refine ih (fun u hu => h u (List.mem_cons_of_mem _ hu)) fun j => ?_
    rw [fillLevel_eq, Array.getD_eq_getD_getElem?, Array.getElem?_setIfInBounds]
    split
    · split
      · exact (le_levelOf (h t List.mem_cons_self) hA).1
      · exact le_refl_of_not_isNaN (not_isNaN_of_isFinite isFinite_zero)
    · rw [← Array.getD_eq_getD_getElem?]
      exact hA j

/-- With valid unit times the levels that succeed are at least `0.0`, each at least the level of
each successor and each unit time of its task. -/
theorem bottomLevels_dominate (hv : ∀ t < g.size, ∀ x ∈ g.unitTimes split t, x.isValidTime = true)
    {L : Array Double} (hL : g.bottomLevels split = .ok L) :
    (∀ t s, g.Edge t s → (L.getD s zero).le (L.getD t zero)) ∧
      ∀ t < g.size, ∀ x ∈ g.unitTimes split t, x.le (L.getD t zero) := by
  cases horder : g.topologicalOrder with
  | error e =>
    have hb : g.bottomLevels split = .error e := bottomLevels_eq_error.2 horder
    rw [hL] at hb
    cases hb
  | ok order =>
    have hlev : g.IsLevels split L := by
      obtain ⟨L₀, hL₀, hlev, -⟩ := bottomLevels_of_ok (g := g) horder
      rw [hL] at hL₀
      cases hL₀
      exact hlev
    have htop := (isTopologicalOrder_of_ok horder).1
    have hpos : ∀ i, zero.le (L.getD i zero) := by
      have hfill : L = order.reverse.foldl (g.fillLevel split) (Array.replicate g.size zero) := by
        rw [bottomLevels, horder] at hL
        exact (Except.ok.inj hL).symm
      rw [hfill]
      refine zero_le_foldl_fill (fun t ht => hv t ?_) fun i => ?_
      · exact List.mem_range.1 (htop.perm.mem_iff.1 (List.mem_reverse.1 ht))
      · rw [Array.getD_eq_getD_getElem?, Array.getElem?_replicate]
        split <;> exact le_refl_of_not_isNaN (not_isNaN_of_isFinite isFinite_zero)
    have hat : ∀ t < g.size, L.getD t zero = g.levelOf split L t := fun t ht => by
      rw [Array.getD_eq_getD_getElem?, hlev.2 t ht]
      rfl
    refine ⟨fun t s hts => ?_, fun t ht x hx => ?_⟩
    · have ht := lt_size_of_edge hts
      rw [hat t ht]
      exact (le_levelOf (hv t ht) hpos).2.2 s hts
    · rw [hat t ht]
      exact le_trans (le_weight (hv t ht) hx) (le_levelOf (hv t ht) hpos).2.1

end Dominance

/-- The bottom levels fail exactly when the topological order does; otherwise they are the one
solution of the level equation. -/
theorem bottomLevels_outcome (g : TaskGraph) (split : Split) :
    (∀ e, g.bottomLevels split = .error e ↔ g.topologicalOrder = .error e) ∧
    (∀ order, g.topologicalOrder = .ok order →
      ∃ L, g.bottomLevels split = .ok L ∧ g.IsLevels split L ∧ ∀ L', g.IsLevels split L' → L' = L) ∧
    ((∀ t < g.size, ∀ x ∈ g.unitTimes split t, x.isValidTime = true) →
      ∀ L, g.bottomLevels split = .ok L →
        (∀ t s, g.Edge t s → (L.getD s Double.zero).le (L.getD t Double.zero) = true) ∧
        ∀ t < g.size, ∀ x ∈ g.unitTimes split t, x.le (L.getD t Double.zero) = true) :=
  ⟨fun _ => bottomLevels_eq_error, fun _ h => bottomLevels_of_ok h,
    fun hv _ hL => bottomLevels_dominate hv hL⟩

end TaskGraph

end ListScheduling
