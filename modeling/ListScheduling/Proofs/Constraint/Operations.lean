import ListScheduling.Proofs.Constraint.Store

/-!
A store under any sequence of the operations of its owner: adding a vertex, adding an edge between
vertices of given kinds, and writing a vertex through a borrow of its kind.
-/
namespace ListScheduling.Store

/-- An operation of the owner of a store. -/
inductive Op where
  /-- Adds a vertex. -/
  | pushVertex (n : Node)
  /-- Adds an edge from a vertex of kind `fk` to one of kind `tk`. -/
  | pushEdge (fk tk : NodeKind) (src dst : Nat)
  /-- Borrows vertex `i` as one of the kind of `n`, and writes `n` through the borrow. -/
  | vertexMut (i : Nat) (n : Node)
deriving Repr

/-- Writes a node over the vertex at an index, which must be of the node's kind; the edges of the
vertex stay. -/
def write (s : Store) (i : Nat) (n : Node) : Except StoreError Store := do
  let _ ← s.expect i n.kind
  pure (s.setNode i n)

namespace Op

/-- Runs an operation: the store it leaves, or the error that leaves the store as it was. -/
def apply (s : Store) : Op → Except StoreError Store
  | .pushVertex n => (·.2) <$> s.push n
  | .pushEdge fk tk src dst => s.pushEdge fk tk src dst
  | .vertexMut i n => s.write i n

/-- The vertices that a list of operations adds, in order. -/
def added (ops : List Op) : List Node :=
  ops.filterMap fun
    | .pushVertex n => some n
    | _ => none

/-- The destinations of the edges that a list of operations adds from `src`, in order. -/
def targets (src : Nat) (ops : List Op) : List Nat :=
  ops.filterMap fun
    | .pushEdge _ _ a b => if a = src then some b else none
    | _ => none

@[simp] theorem added_nil : added [] = [] := rfl

@[simp] theorem targets_nil (src : Nat) : targets src [] = [] := rfl

@[simp] theorem added_append (ops ops' : List Op) : added (ops ++ ops') = added ops ++ added ops' :=
  List.filterMap_append

@[simp] theorem targets_append (src : Nat) (ops ops' : List Op) :
    targets src (ops ++ ops') = targets src ops ++ targets src ops' :=
  List.filterMap_append

@[simp] theorem added_pushVertex (n : Node) : added [.pushVertex n] = [n] := rfl

@[simp] theorem added_pushEdge (fk tk : NodeKind) (src dst : Nat) :
    added [.pushEdge fk tk src dst] = [] := rfl

@[simp] theorem added_vertexMut (i : Nat) (n : Node) : added [.vertexMut i n] = [] := rfl

@[simp] theorem targets_pushVertex (src : Nat) (n : Node) : targets src [.pushVertex n] = [] := rfl

@[simp] theorem targets_vertexMut (src i : Nat) (n : Node) : targets src [.vertexMut i n] = [] :=
  rfl

theorem targets_pushEdge (fk tk : NodeKind) (src a b : Nat) :
    targets src [.pushEdge fk tk a b] = if a = src then [b] else [] := by
  by_cases h : a = src <;> simp [targets, h]

end Op

/-- The store after a sequence of operations, with the operations it accepted, in order; an
operation that fails is dropped and leaves the store as it was. -/
def replay (s : Store) : List Op → Store × List Op
  | [] => (s, [])
  | op :: ops =>
    match op.apply s with
    | .ok s' =>
      let r := replay s' ops
      (r.1, op :: r.2)
    | .error _ => replay s ops

/-! Changing one slot of a list of slots, seen through a measure of each slot. -/

section Modify

variable {α : Type} (g : α → Nat) (f : α → α)

theorem map_modify_of_eq {β : Type} (g : α → β) (l : List α) (i : Nat)
    (hf : ∀ h : i < l.length, g (f l[i]) = g l[i]) : (l.modify i f).map g = l.map g := by
  apply List.ext_getElem (by simp)
  intro j h₁ h₂
  simp only [List.getElem_map, List.getElem_modify]
  split
  · rename_i hij
    subst hij
    exact hf (by simpa using h₂)
  · rfl

theorem sum_map_modify_succ (hf : ∀ a, g (f a) = g a + 1) :
    ∀ (l : List α) (i : Nat), i < l.length → ((l.modify i f).map g).sum = (l.map g).sum + 1
  | a :: l, 0, _ => by
    simp only [List.modify_zero_cons, List.map_cons, List.sum_cons, hf]
    omega
  | a :: l, i + 1, h => by
    have ih := sum_map_modify_succ hf l i (by simpa using h)
    simp only [List.modify_succ_cons, List.map_cons, List.sum_cons, ih]
    omega

end Modify

/-! How each operation can go. -/

section Outcomes

variable {s : Store} {i src dst : Nat} {k fk tk : NodeKind} {n : Node}

theorem push_eq_ok (h : s.size < s.limit) : s.push n = .ok (s.size, s.append n) := by
  unfold push checkRoom
  rw [if_neg (Nat.not_le.2 h)]
  rfl

theorem push_eq_error (h : s.limit ≤ s.size) : s.push n = .error (.overflow s.limit) := by
  unfold push checkRoom
  rw [if_pos h]
  rfl

theorem push_eq_ok_iff {r : Nat × Store} :
    s.push n = .ok r ↔ s.size < s.limit ∧ r = (s.size, s.append n) := by
  by_cases h : s.size < s.limit
  · rw [push_eq_ok h]
    exact ⟨fun hr => ⟨h, (Except.ok.inj hr).symm⟩, fun ⟨_, hr⟩ => hr ▸ rfl⟩
  · rw [push_eq_error (Nat.not_lt.1 h)]
    exact ⟨fun hr => (nomatch hr), fun ⟨hr, _⟩ => absurd hr h⟩

theorem push_eq_error_iff {e : StoreError} :
    s.push n = .error e ↔ s.limit ≤ s.size ∧ e = .overflow s.limit := by
  by_cases h : s.limit ≤ s.size
  · rw [push_eq_error h]
    exact ⟨fun he => ⟨h, (Except.error.inj he).symm⟩, fun ⟨_, he⟩ => he ▸ rfl⟩
  · rw [push_eq_ok (Nat.not_le.1 h)]
    exact ⟨fun he => (nomatch he), fun ⟨he, _⟩ => absurd he h⟩

theorem kindAt_lt (h : s.kindAt i = .ok k) : i < s.size := by
  obtain ⟨slot, hs, -⟩ := slot_of_kindAt h
  exact (Array.getElem?_eq_some_iff.1 hs).1

theorem expect_eq_unknown (h : s.size ≤ i) : s.expect i k = .error (.unknownVertex i) := by
  have hs : s.slots[i]? = none := Array.getElem?_eq_none h
  simp only [expect, get_eq_error hs]
  rfl

theorem expect_eq_mismatch {k' : NodeKind} (h : s.kindAt i = .ok k') (hk : k' ≠ k) :
    s.expect i k = .error (.typeMismatch i k k') := by
  obtain ⟨slot, hs, rfl⟩ := slot_of_kindAt h
  simp only [expect, get_eq hs]
  show (if slot.node.kind = k then pure slot.node else throw _) = _
  rw [if_neg hk]
  rfl

theorem expect_eq_of_kindAt (h : s.kindAt i = .ok k) :
    ∃ slot, s.slots[i]? = some slot ∧ s.expect i k = .ok slot.node := by
  obtain ⟨slot, hs, hk⟩ := slot_of_kindAt h
  exact ⟨slot, hs, expect_eq hs hk⟩

theorem kindAt_cases (s : Store) (i : Nat) : s.size ≤ i ∨ ∃ k, s.kindAt i = .ok k := by
  cases hs : s.slots[i]? with
  | none => exact .inl (Array.getElem?_eq_none_iff.1 hs)
  | some slot => exact .inr ⟨_, kindAt_eq hs⟩

theorem pushEdge_eq_ok (hs : s.kindAt src = .ok fk) (hd : s.kindAt dst = .ok tk) :
    s.pushEdge fk tk src dst = .ok (s.appendEdge src dst) := by
  obtain ⟨a, ha, hak⟩ := slot_of_kindAt hs
  obtain ⟨b, hb, hbk⟩ := slot_of_kindAt hd
  simp only [pushEdge, checkEdge_eq ha hak hb hbk]
  rfl

theorem pushEdge_src_unknown (h : s.size ≤ src) :
    s.pushEdge fk tk src dst = .error (.unknownVertex src) := by
  simp only [pushEdge, checkEdge, expect_eq_unknown h]
  rfl

theorem pushEdge_src_mismatch (h : s.kindAt src = .ok k) (hk : k ≠ fk) :
    s.pushEdge fk tk src dst = .error (.typeMismatch src fk k) := by
  simp only [pushEdge, checkEdge, expect_eq_mismatch h hk]
  rfl

theorem pushEdge_dst_unknown (hs : s.kindAt src = .ok fk) (h : s.size ≤ dst) :
    s.pushEdge fk tk src dst = .error (.unknownVertex dst) := by
  obtain ⟨a, -, ha⟩ := expect_eq_of_kindAt hs
  simp only [pushEdge, checkEdge, ha, expect_eq_unknown h]
  rfl

theorem pushEdge_dst_mismatch (hs : s.kindAt src = .ok fk) (h : s.kindAt dst = .ok k)
    (hk : k ≠ tk) : s.pushEdge fk tk src dst = .error (.typeMismatch dst tk k) := by
  obtain ⟨a, -, ha⟩ := expect_eq_of_kindAt hs
  simp only [pushEdge, checkEdge, ha, expect_eq_mismatch h hk]
  rfl

/-- Adding an edge fails exactly when its source is missing or of another kind, or else its
destination is, with the error of the first check that fails. -/
theorem pushEdge_eq_error_iff {e : StoreError} :
    s.pushEdge fk tk src dst = .error e ↔
      (s.size ≤ src ∧ e = .unknownVertex src) ∨
      (∃ k, s.kindAt src = .ok k ∧ k ≠ fk ∧ e = .typeMismatch src fk k) ∨
      (s.kindAt src = .ok fk ∧ s.size ≤ dst ∧ e = .unknownVertex dst) ∨
      (∃ k, s.kindAt src = .ok fk ∧ s.kindAt dst = .ok k ∧ k ≠ tk ∧ e = .typeMismatch dst tk k) := by
  rcases kindAt_cases s src with hsrc | ⟨ks, hks⟩
  · have hne : ∀ k, s.kindAt src ≠ .ok k := fun k h => Nat.not_lt.2 hsrc (kindAt_lt h)
    rw [pushEdge_src_unknown hsrc]
    simp [hsrc, hne, eq_comm]
  · have hlt : ¬ s.size ≤ src := Nat.not_le.2 (kindAt_lt hks)
    by_cases hfk : ks = fk
    · subst hfk
      rcases kindAt_cases s dst with hdst | ⟨kd, hkd⟩
      · have hne : ∀ k, s.kindAt dst ≠ .ok k := fun k h => Nat.not_lt.2 hdst (kindAt_lt h)
        rw [pushEdge_dst_unknown hks hdst]
        simp [hlt, hks, hdst, hne, eq_comm]
      · have hdlt : ¬ s.size ≤ dst := Nat.not_le.2 (kindAt_lt hkd)
        by_cases htk : kd = tk
        · subst htk
          rw [pushEdge_eq_ok hks hkd]
          simp [hlt, hks, hkd, hdlt]
        · rw [pushEdge_dst_mismatch hks hkd htk]
          simp [hlt, hks, hkd, hdlt, Ne.symm htk, eq_comm]
    · rw [pushEdge_src_mismatch hks hfk]
      simp [hlt, hks, Ne.symm hfk, eq_comm]

/-- An operation that succeeds added a vertex to a store with room, or an edge between vertices
of the kinds it names, or wrote a vertex of the borrowed kind. -/
theorem apply_eq_ok {op : Op} {s' : Store} (h : op.apply s = .ok s') :
    (∃ n, op = .pushVertex n ∧ s.size < s.limit ∧ s' = s.append n) ∨
      (∃ fk tk src dst, op = .pushEdge fk tk src dst ∧ s.kindAt src = .ok fk ∧
        s.kindAt dst = .ok tk ∧ s' = s.appendEdge src dst) ∨
      (∃ i n, op = .vertexMut i n ∧ s.kindAt i = .ok n.kind ∧ s' = s.setNode i n) := by
  cases op with
  | pushVertex n =>
    cases hp : s.push n with
    | error e => simp only [Op.apply, hp] at h; cases h
    | ok r =>
      obtain ⟨hroom, rfl⟩ := push_eq_ok_iff.1 hp
      simp only [Op.apply, hp] at h
      cases h
      exact .inl ⟨n, rfl, hroom, rfl⟩
  | pushEdge fk tk src dst =>
    cases hc : s.checkEdge fk tk src dst with
    | error e => simp only [Op.apply, pushEdge, hc] at h; cases h
    | ok u =>
      obtain ⟨⟨a, ha, hak⟩, b, hb, hbk⟩ := slots_of_checkEdge hc
      simp only [Op.apply, pushEdge, hc] at h
      cases h
      exact .inr (.inl ⟨fk, tk, src, dst, rfl, hak ▸ kindAt_eq ha, hbk ▸ kindAt_eq hb, rfl⟩)
  | vertexMut i n =>
    cases hx : s.expect i n.kind with
    | error e => simp only [Op.apply, write, hx] at h; cases h
    | ok m =>
      obtain ⟨out, hs, hk⟩ := slot_of_expect hx
      simp only [Op.apply, write, hx] at h
      cases h
      exact .inr (.inr ⟨i, n, rfl, hk ▸ kindAt_eq hs, rfl⟩)

end Outcomes

theorem Keeps.kindAt {s s' : Store} (h : s.Keeps s') {i : Nat} {k : NodeKind}
    (hk : s.kindAt i = .ok k) : s'.kindAt i = .ok k := by
  obtain ⟨slot, hs, rfl⟩ := slot_of_kindAt hk
  obtain ⟨slot', hs', hk'⟩ := h i slot hs
  rw [kindAt_eq hs', hk']

/-! The invariant of a store built by its own operations. -/

/-- What a store satisfies once the operations `log` have been accepted, from an empty store. -/
structure Sound (s : Store) (log : List Op) : Prop where
  limit_le : s.limit ≤ maxVertices
  size_le : s.size ≤ s.limit
  numEdges_eq : s.numEdges = (s.slots.toList.map fun slot => slot.out.size).sum
  kinds_eq : s.slots.toList.map (·.node.kind) = (Op.added log).map Node.kind
  out_eq : ∀ src slot, s.slots[src]? = some slot → slot.out.toList = Op.targets src log
  edge_kinds : ∀ fk tk src dst, .pushEdge fk tk src dst ∈ log →
    s.kindAt src = .ok fk ∧ s.kindAt dst = .ok tk

namespace Sound

variable {s : Store} {log : List Op}

theorem withLimit (l : Nat) : Sound (Store.withLimit l) [] where
  limit_le := Nat.min_le_right l maxVertices
  size_le := Nat.zero_le _
  numEdges_eq := rfl
  kinds_eq := rfl
  out_eq _ _ h := by simp [Store.withLimit] at h
  edge_kinds _ _ _ _ h := nomatch h

theorem targets_eq_nil (h : Sound s log) {src : Nat} (hsrc : s.size ≤ src) :
    Op.targets src log = [] := by
  rw [Op.targets, List.filterMap_eq_nil_iff]
  intro op hop
  cases op with
  | pushEdge fk tk a b =>
    have ha : a < s.size := kindAt_lt (h.edge_kinds fk tk a b hop).1
    have hne : a ≠ src := by omega
    simp [hne]
  | pushVertex n | vertexMut i n => rfl

theorem append (h : Sound s log) (hroom : s.size < s.limit) (n : Node) :
    Sound (s.append n) (log ++ [.pushVertex n]) where
  limit_le := h.limit_le
  size_le := by rw [size_append]; exact hroom
  numEdges_eq := by simp [toList_append, h.numEdges_eq]
  kinds_eq := by simp [toList_append, h.kinds_eq]
  out_eq src slot hs := by
    rw [getElem?_append] at hs
    split at hs
    · rename_i hsrc
      cases hs
      simp [h.targets_eq_nil (Nat.le_of_eq hsrc.symm)]
    · simpa using h.out_eq src slot hs
  edge_kinds fk tk src dst hmem := by
    have hmem' : Op.pushEdge fk tk src dst ∈ log := by simpa using hmem
    have hk := h.edge_kinds fk tk src dst hmem'
    exact ⟨(Keeps.append n).kindAt hk.1, (Keeps.append n).kindAt hk.2⟩

theorem appendEdge (h : Sound s log) {fk tk : NodeKind} {src dst : Nat}
    (hs : s.kindAt src = .ok fk) (hd : s.kindAt dst = .ok tk) :
    Sound (s.appendEdge src dst) (log ++ [.pushEdge fk tk src dst]) where
  limit_le := h.limit_le
  size_le := by simpa using h.size_le
  numEdges_eq := by
    have hlt : src < s.slots.toList.length := by simpa [size] using kindAt_lt hs
    rw [numEdges_appendEdge, toList_appendEdge, sum_map_modify_succ _ _ (fun _ => by simp) _ _ hlt,
      h.numEdges_eq]
  kinds_eq := by
    rw [toList_appendEdge, map_modify_of_eq _ _ _ _ (fun _ => rfl), h.kinds_eq]
    simp
  out_eq j slot hj := by
    rw [getElem?_appendEdge] at hj
    split at hj
    · rename_i hsrc
      subst hsrc
      cases hslot : s.slots[src]? with
      | none => simp [hslot] at hj
      | some old =>
        simp only [hslot, Option.map_some, Option.some.injEq] at hj
        subst hj
        simp [h.out_eq src old hslot, Op.targets_pushEdge]
    · rename_i hsrc
      simp [h.out_eq j slot hj, Op.targets_pushEdge, hsrc]
  edge_kinds fk' tk' a b hmem := by
    rcases List.mem_append.1 hmem with hmem | hmem
    · have hk := h.edge_kinds fk' tk' a b hmem
      exact ⟨(Keeps.appendEdge src dst).kindAt hk.1, (Keeps.appendEdge src dst).kindAt hk.2⟩
    · simp only [List.mem_singleton, Op.pushEdge.injEq] at hmem
      obtain ⟨rfl, rfl, rfl, rfl⟩ := hmem
      exact ⟨(Keeps.appendEdge a b).kindAt hs, (Keeps.appendEdge a b).kindAt hd⟩

theorem setNode (h : Sound s log) {i : Nat} {n : Node} (hk : s.kindAt i = .ok n.kind) :
    Sound (s.setNode i n) (log ++ [.vertexMut i n]) where
  limit_le := h.limit_le
  size_le := by simpa using h.size_le
  numEdges_eq := by
    rw [numEdges_setNode, toList_setNode, map_modify_of_eq _ _ _ _ (fun _ => rfl), h.numEdges_eq]
  kinds_eq := by
    obtain ⟨slot, hs, hsk⟩ := slot_of_kindAt hk
    rw [toList_setNode, map_modify_of_eq _ _ _ _ (fun hi => ?_), h.kinds_eq]
    · simp
    · rw [← Array.getElem?_toList, List.getElem?_eq_getElem hi] at hs
      cases hs
      exact hsk.symm
  out_eq j slot hj := by
    rw [getElem?_setNode] at hj
    split at hj
    · rename_i hij
      subst hij
      cases hslot : s.slots[i]? with
      | none => simp [hslot] at hj
      | some old =>
        simp only [hslot, Option.map_some, Option.some.injEq] at hj
        subst hj
        simpa using h.out_eq i old hslot
    · simpa using h.out_eq j slot hj
  edge_kinds fk tk a b hmem := by
    have hmem' : Op.pushEdge fk tk a b ∈ log := by simpa using hmem
    have hkeeps : s.Keeps (s.setNode i n) := Keeps.setNode fun slot hs => by
      rw [kindAt_eq hs] at hk
      exact Except.ok.inj hk
    have hk' := h.edge_kinds fk tk a b hmem'
    exact ⟨hkeeps.kindAt hk'.1, hkeeps.kindAt hk'.2⟩

theorem apply (h : Sound s log) {op : Op} {s' : Store} (hop : op.apply s = .ok s') :
    Sound s' (log ++ [op]) := by
  rcases apply_eq_ok hop with ⟨n, rfl, hroom, rfl⟩ | ⟨fk, tk, src, dst, rfl, hs, hd, rfl⟩ |
    ⟨i, n, rfl, hk, rfl⟩
  · exact h.append hroom n
  · exact h.appendEdge hs hd
  · exact h.setNode hk

theorem replay (h : Sound s log) (ops : List Op) :
    Sound (s.replay ops).1 (log ++ (s.replay ops).2) := by
  induction ops generalizing s log with
  | nil => simpa [Store.replay] using h
  | cons op ops ih =>
    cases hop : op.apply s with
    | error e => simpa [Store.replay, hop] using ih h
    | ok s' => simpa [Store.replay, hop] using ih (h.apply hop)

end Sound

theorem limit_replay (s : Store) (ops : List Op) : (s.replay ops).1.limit = s.limit := by
  induction ops generalizing s with
  | nil => rfl
  | cons op ops ih =>
    cases hop : op.apply s with
    | error e => simpa [replay, hop] using ih s
    | ok s' =>
      have hlim : s'.limit = s.limit := by
        rcases apply_eq_ok hop with ⟨n, -, -, rfl⟩ | ⟨fk, tk, src, dst, -, -, -, rfl⟩ |
          ⟨i, n, -, -, rfl⟩ <;> rfl
      simpa [replay, hop, hlim] using ih s'

theorem outgoing_eq_error {s : Store} {i : Nat} (h : s.size ≤ i) :
    s.outgoing i = .error (.unknownVertex i) := by
  simp [outgoing, Array.getElem?_eq_none h]

/-- Whatever operations follow `withLimit l`, the store keeps its limit, its edge count and the
kinds of its vertices. -/
theorem replay_keeps_store_sound (l : Nat) (ops : List Op) :
    let s := (replay (withLimit l) ops).1
    let log := (replay (withLimit l) ops).2
    s.limit = min l maxVertices ∧ s.size ≤ s.limit ∧
      s.numEdges = (s.slots.toList.map fun slot => slot.out.size).sum ∧
      s.slots.toList.map (·.node.kind) = (Op.added log).map Node.kind ∧
      (∀ fk tk src dst, Op.pushEdge fk tk src dst ∈ log →
        src < s.size ∧ dst < s.size ∧ s.kindAt src = .ok fk ∧ s.kindAt dst = .ok tk) ∧
      (∀ src, s.outgoing src =
        if src < s.size then .ok (Op.targets src log).toArray else .error (.unknownVertex src)) ∧
      (∀ n r, s.push n = .ok r → r = (s.size, s.append n) ∧ s.size < maxVertices) ∧
      (∀ n e, s.push n = .error e ↔ s.limit ≤ s.size ∧ e = .overflow s.limit) ∧
      (∀ fk tk src dst, s.kindAt src = .ok fk → s.kindAt dst = .ok tk →
        s.pushEdge fk tk src dst = .ok (s.appendEdge src dst)) ∧
      (∀ fk tk src dst e, s.pushEdge fk tk src dst = .error e ↔
        (s.size ≤ src ∧ e = .unknownVertex src) ∨
        (∃ k, s.kindAt src = .ok k ∧ k ≠ fk ∧ e = .typeMismatch src fk k) ∨
        (s.kindAt src = .ok fk ∧ s.size ≤ dst ∧ e = .unknownVertex dst) ∨
        (∃ k, s.kindAt src = .ok fk ∧ s.kindAt dst = .ok k ∧ k ≠ tk ∧
          e = .typeMismatch dst tk k)) ∧
      (∀ op e, op.apply s = .error e → ∀ ops', replay s (op :: ops') = replay s ops') := by
  intro s log
  have h : Sound s log := by simpa using (Sound.withLimit l).replay ops
  have hlim : s.limit = min l maxVertices := limit_replay _ ops
  refine ⟨hlim, h.size_le, h.numEdges_eq, h.kinds_eq, ?_, ?_, ?_, fun _ _ => push_eq_error_iff,
    fun _ _ _ _ => pushEdge_eq_ok, fun _ _ _ _ _ => pushEdge_eq_error_iff, ?_⟩
  · intro fk tk src dst hmem
    obtain ⟨hs, hd⟩ := h.edge_kinds fk tk src dst hmem
    exact ⟨kindAt_lt hs, kindAt_lt hd, hs, hd⟩
  · intro src
    split
    · rename_i hsrc
      obtain ⟨slot, hslot⟩ : ∃ slot, s.slots[src]? = some slot :=
        ⟨_, Array.getElem?_eq_getElem hsrc⟩
      rw [outgoing_eq hslot, ← h.out_eq src slot hslot, Array.toArray_toList]
    · exact outgoing_eq_error (Nat.not_lt.1 ‹_›)
  · intro n r hr
    obtain ⟨hroom, rfl⟩ := push_eq_ok_iff.1 hr
    exact ⟨rfl, Nat.lt_of_lt_of_le hroom h.limit_le⟩
  · intro op e hop ops'
    simp [replay, hop]

end ListScheduling.Store
