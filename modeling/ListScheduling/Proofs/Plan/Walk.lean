import ListScheduling.Proofs.Plan.Lanes

/-!
The walk along the chain of a processor.
-/
namespace ListScheduling.Store

variable {st : Store} {F : Array Nat}

/-- The chain of processor nodes from `v` serves the units `us`, in order: a free node serves
none, and an occupied node serves its unit, then the chain from the node that unit leads to. -/
inductive Chain (st : Store) : Nat → List Nat → Prop
  | free {v : Nat} {p : ProcessorNode} : st.processorAt v = .ok p → p.occupied = false →
      Chain st v []
  | link {v u w : Nat} {us : List Nat} : st.Link v u w → Chain st w us → Chain st v (u :: us)

section Links

variable {v u w u' w' : Nat}

theorem Link.unique (h : st.Link v u w) (h' : st.Link v u' w') : u = u' ∧ w = w' := by
  have hu : u = u' := Option.some.inj (h.served.symm.trans h'.served)
  subst hu
  exact ⟨rfl, Option.some.inj (h.next.symm.trans h'.next)⟩

theorem Link.not_free (h : st.Link v u w) {p : ProcessorNode} (hp : st.processorAt v = .ok p)
    (hfree : p.occupied = false) : False := by
  obtain ⟨p', -, -, hp', hocc, -⟩ := h.nodes
  rw [hp] at hp'
  cases hp'
  rw [hfree] at hocc
  cases hocc

end Links

namespace Chain

variable {v : Nat} {us us' : List Nat}

theorem unique (h : st.Chain v us) (h' : st.Chain v us') : us = us' := by
  induction h generalizing us' with
  | free hp hfree =>
    cases h' with
    | free => rfl
    | link hl _ => exact (hl.not_free hp hfree).elim
  | link hl _ ih =>
    cases h' with
    | free hp hfree => exact (hl.not_free hp hfree).elim
    | link hl' hc' =>
      obtain ⟨rfl, rfl⟩ := hl.unique hl'
      rw [ih hc']

theorem walkFrom (h : st.Chain v us) {fuel : Nat} (hf : st.size - v < fuel) :
    st.walkFrom fuel v = .ok us := by
  induction h generalizing fuel with
  | free hp hfree =>
    obtain ⟨fuel, rfl⟩ : ∃ n, fuel = n + 1 := ⟨fuel - 1, by omega⟩
    rw [Store.walkFrom, hp]
    simp [bind, Except.bind, pure, Except.pure, hfree]
  | link hl hc ih =>
    obtain ⟨fuel, rfl⟩ : ∃ n, fuel = n + 1 := ⟨fuel - 1, by omega⟩
    obtain ⟨p, -, -, hp, hocc, -⟩ := hl.nodes
    have hv := lt_size_of_get (processorAt_eq_ok.1 hp)
    have hvw := hl.before
    have hw := @ih fuel (by omega)
    rw [Store.walkFrom, hp]
    simp [bind, Except.bind, pure, Except.pure, hocc, hl.served, hl.next, hw]

theorem placed (h : st.Chain v us) {p : ProcessorNode} (hp : st.processorAt v = .ok p) :
    ∀ u ∈ us, ∃ un, st.unitAt u = .ok un ∧ un.processor = some p.processor := by
  induction h generalizing p with
  | free => simp
  | link hl _ ih =>
    obtain ⟨p', un, q, hp', -, hun, hpu, -, hq, hqp, -⟩ := hl.nodes
    rw [hp] at hp'
    cases hp'
    intro x hx
    rcases List.mem_cons.1 hx with rfl | hx
    · exact ⟨un, hun, hpu⟩
    · obtain ⟨un', hun', hx'⟩ := ih hq x hx
      exact ⟨un', hun', hx'.trans (congrArg some hqp)⟩

theorem exists_link (h : st.Chain v us) {u : Nat} (hu : u ∈ us) :
    ∃ x y, v ≤ x ∧ st.Link x u y := by
  induction h with
  | free => cases hu
  | link hl _ ih =>
    rcases List.mem_cons.1 hu with rfl | hu
    · exact ⟨_, _, Nat.le_refl _, hl⟩
    · obtain ⟨x, y, hx, hxy⟩ := ih hu
      exact ⟨x, y, Nat.le_trans (Nat.le_of_lt hl.before) hx, hxy⟩

theorem nodup (h : st.Chain v us) : us.Nodup := by
  induction h with
  | free => exact List.nodup_nil
  | link hl hc ih =>
    refine List.nodup_cons.2 ⟨fun hu => ?_, ih⟩
    obtain ⟨x, y, hx, hxy⟩ := hc.exists_link hu
    -- the unit leads to one node, so the later link ends where this one does
    have hy := Option.some.inj (hxy.next.symm.trans hl.next)
    have hxy' := hxy.before
    omega

theorem finish_le_ready (h : st.Chain v us) :
    us.IsChain fun a b => ∃ ua ub, st.unitAt a = .ok ua ∧ st.unitAt b = .ok ub ∧
      ua.timing.finish.le ub.timing.ready = true := by
  induction h with
  | free => exact List.IsChain.nil
  | link hl hc ih =>
    cases hc with
    | free => exact List.IsChain.singleton _
    | link hl' hc' =>
      refine List.isChain_cons_cons.2 ⟨?_, ih⟩
      obtain ⟨-, un, q, -, -, hun, -, -, hq, -, hqr⟩ := hl.nodes
      obtain ⟨p', un', -, hp', -, hun', -, hle, -⟩ := hl'.nodes
      rw [hq] at hp'
      cases hp'
      exact ⟨un, un', hun, hun', hqr ▸ hle⟩

end Chain

theorem Lanes.exists_chain (hl : st.Lanes F) {v : Nat} {p : ProcessorNode}
    (hp : st.processorAt v = .ok p) : ∃ us, st.Chain v us := by
  cases hocc : p.occupied with
  | false => exact ⟨[], .free hp hocc⟩
  | true =>
    obtain ⟨u, w, hvuw⟩ := hl.served v p hp hocc
    obtain ⟨-, -, q, -, -, -, -, -, hq, -⟩ := hvuw.nodes
    have hvw := hvuw.before
    have hws := lt_size_of_get (processorAt_eq_ok.1 hq)
    obtain ⟨us, hus⟩ := hl.exists_chain hq
    exact ⟨u :: us, .link hvuw hus⟩
termination_by st.size - v

/-- The chain from a node of processor `k` is a tail of the chain from the first node of `k`. -/
theorem Lanes.chain_suffix (hl : st.Lanes F) {k : Nat} (hk : k < F.size) {us : List Nat}
    (hF : st.Chain F[k] us) {x : Nat} {q : ProcessorNode} (hq : st.processorAt x = .ok q)
    (hqk : q.processor = k) {xs : List Nat} (hx : st.Chain x xs) : xs <:+ us := by
  by_cases hxF : x ∈ F
  · obtain ⟨j, hj, rfl⟩ := Array.mem_iff_getElem.1 hxF
    obtain ⟨p, hp, hpj⟩ := hl.first j hj
    rw [hp] at hq
    cases hq
    subst hqk
    subst hpj
    rw [hx.unique hF]
  · obtain ⟨v, u, hvux, -⟩ := hl.made x q hq hxF
    obtain ⟨p, -, q', hp, -, -, -, -, hq', hqp, -⟩ := hvux.nodes
    rw [hq] at hq'
    cases hq'
    have hvx := hvux.before
    obtain ⟨vs, hvs⟩ := hl.exists_chain hp
    have ih := hl.chain_suffix hk hF hp (hqp.symm.trans hqk) hvs
    cases hvs with
    | free hp' hfree => exact (hvux.not_free hp' hfree).elim
    | link hl' hc' =>
      obtain ⟨rfl, rfl⟩ := hvux.unique hl'
      rw [hx.unique hc']
      exact (List.suffix_cons _ _).trans ih
termination_by x

theorem Lanes.mem_chain (hl : st.Lanes F) {k : Nat} (hk : k < F.size) {us : List Nat}
    (hF : st.Chain F[k] us) {u : Nat} {un : UnitNode} (hu : st.unitAt u = .ok un)
    (hun : un.processor = some k) : u ∈ us := by
  obtain ⟨v, w, hvuw⟩ := hl.placed u un hu (by simp [UnitNode.isScheduled, hun])
  obtain ⟨p, un', -, hp, -, hun', hpu, -⟩ := hvuw.nodes
  rw [hu] at hun'
  cases hun'
  obtain ⟨-, -, q, -, -, -, -, -, hq, -⟩ := hvuw.nodes
  obtain ⟨ws, hws⟩ := hl.exists_chain hq
  have hpk : p.processor = k := Option.some.inj (hpu.symm.trans hun)
  exact (hl.chain_suffix hk hF hp hpk (.link hvuw hws)).subset List.mem_cons_self

end ListScheduling.Store
