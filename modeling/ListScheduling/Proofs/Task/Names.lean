import Mathlib
import ListScheduling.Task.Names

/-!
Task names under any sequence of interning calls: the map from names to ids and the names in id
order stay inverse to each other, so the ids are dense and given in order of first call.
-/
namespace ListScheduling.TaskNames

/-- The map and the names agree: a name maps to an id exactly when it stands at that id, and
the map holds as many names as the array. -/
structure Inverse (n : TaskNames) : Prop where
  getElem?_eq_some : ∀ (name : String) (i : Nat), n.toId[name]? = some i ↔ n.names[i]? = some name
  size_eq : n.toId.size = n.names.size

theorem Inverse.empty : ({} : TaskNames).Inverse where
  getElem?_eq_some _ _ := by simp
  size_eq := Std.HashMap.size_empty

section Reads

variable {n : TaskNames} (hn : n.Inverse) {name : String} {i : Nat}
include hn

theorem Inverse.get?_eq_some_iff : n.get? name = some i ↔ n.names[i]? = some name :=
  hn.getElem?_eq_some name i

theorem Inverse.get?_eq_none_iff : n.get? name = none ↔ name ∉ n.names := by
  rw [Array.mem_iff_getElem?, not_exists, ← Option.not_isSome_iff_eq_none, Option.isSome_iff_exists]
  simp only [not_exists, hn.get?_eq_some_iff]

theorem Inverse.contains_iff : n.toId.contains name ↔ name ∈ n.names := by
  rw [Std.HashMap.contains_eq_isSome_getElem?, ← get?, Option.isSome_iff_ne_none, ne_eq,
    hn.get?_eq_none_iff, Classical.not_not]

theorem Inverse.nodup : n.names.toList.Nodup := by
  rw [List.nodup_iff_getElem?_ne_getElem?]
  intro i j hij hj heq
  have hi : i < n.names.size := by simp at hj; omega
  rw [Array.getElem?_toList, Array.getElem?_toList, Array.getElem?_eq_getElem hi] at heq
  have h₁ := (hn.get?_eq_some_iff (i := i)).2 (Array.getElem?_eq_getElem hi)
  have h₂ := (hn.get?_eq_some_iff (i := j)).2 heq.symm
  rw [h₁, Option.some.injEq] at h₂
  omega

end Reads

theorem Inverse.insert {n : TaskNames} (hn : n.Inverse) {name : String} (h : name ∉ n.names) :
    (⟨n.toId.insert name n.names.size, n.names.push name⟩ : TaskNames).Inverse where
  getElem?_eq_some name' i := by
    rw [Std.HashMap.getElem?_insert, Array.getElem?_push]
    by_cases he : name = name'
    · subst he
      have hi : i ≠ n.names.size → n.names[i]? ≠ some name := fun _ hi =>
        h (Array.mem_of_getElem? hi)
      by_cases hs : i = n.names.size
      · simp [hs]
      · simp [hs, Ne.symm hs, hi hs]
    · have hne : (name == name') = false := by simpa using he
      rw [hne, if_neg Bool.false_ne_true, hn.getElem?_eq_some]
      by_cases hs : i = n.names.size
      · simp [hs, he]
      · simp [hs]
  size_eq := by
    have hm : name ∉ n.toId := by
      rw [Std.HashMap.mem_iff_contains, hn.contains_iff]
      exact h
    rw [Std.HashMap.size_insert, if_neg hm, hn.size_eq, Array.size_push]

/-! The calls, one lemma for each way they can go. -/

section Calls

variable {n : TaskNames} {name : String} {i : Nat}

theorem intern_of_get? (h : n.get? name = some i) : n.intern name = (i, n) := by
  simp [intern, h]

theorem intern_of_not_mem (hn : n.Inverse) (h : name ∉ n.names) :
    n.intern name = (n.size, ⟨n.toId.insert name n.names.size, n.names.push name⟩) := by
  simp [intern, (hn.get?_eq_none_iff).2 h, size]

theorem internUnique_of_mem (hn : n.Inverse) (h : name ∈ n.names) :
    n.internUnique name = .error (.duplicateTask name) := by
  simp [internUnique, hn.contains_iff.2 h]

theorem internUnique_of_not_mem (hn : n.Inverse) (h : name ∉ n.names) :
    n.internUnique name = .ok (n.size, ⟨n.toId.insert name n.names.size, n.names.push name⟩) := by
  have hc : n.toId.contains name = false := by
    simpa only [Bool.not_eq_true] using mt hn.contains_iff.1 h
  simp [internUnique, hc, intern_of_not_mem hn h]

theorem internUnique_eq_error_iff (hn : n.Inverse) {e : TaskError} :
    n.internUnique name = .error e ↔ name ∈ n.names ∧ e = .duplicateTask name := by
  by_cases h : name ∈ n.names
  · rw [internUnique_of_mem hn h]
    exact ⟨fun he => ⟨h, (Except.error.inj he).symm⟩, fun ⟨_, he⟩ => he ▸ rfl⟩
  · rw [internUnique_of_not_mem hn h]
    exact ⟨fun he => (by cases he), fun ⟨hm, _⟩ => absurd hm h⟩

theorem lookup_eq_ok_iff : n.lookup name = .ok i ↔ n.get? name = some i := by
  unfold lookup
  split <;> rename_i hg <;> simp [hg]

end Calls

/-- A call on the interner. -/
inductive Call where
  | intern (name : String)
  | internUnique (name : String)
deriving DecidableEq, Repr

namespace Call

/-- The name a call is about. -/
def name : Call → String
  | .intern name | .internUnique name => name

/-- The interner after a call; a call that fails leaves it as it was. -/
def apply (n : TaskNames) : Call → TaskNames
  | .intern name => (n.intern name).2
  | .internUnique name =>
    match n.internUnique name with
    | .ok (_, n') => n'
    | .error _ => n

theorem apply_eq {n : TaskNames} (hn : n.Inverse) (c : Call) :
    apply n c = if c.name ∈ n.names then n
      else ⟨n.toId.insert c.name n.names.size, n.names.push c.name⟩ := by
  by_cases h : c.name ∈ n.names
  · rw [if_pos h]
    cases c with
    | intern name =>
      obtain ⟨j, hj⟩ := Array.getElem?_of_mem h
      have hg : n.get? name = some j := (hn.get?_eq_some_iff).2 hj
      simp [apply, intern_of_get? hg]
    | internUnique name =>
      have hm : name ∈ n.names := h
      simp [apply, internUnique_of_mem hn hm]
  · rw [if_neg h]
    cases c with
    | intern name =>
      have hm : name ∉ n.names := h
      simp [apply, Call.name, intern_of_not_mem hn hm]
    | internUnique name =>
      have hm : name ∉ n.names := h
      simp [apply, Call.name, internUnique_of_not_mem hn hm]

theorem Inverse.apply {n : TaskNames} (hn : n.Inverse) (c : Call) : (apply n c).Inverse := by
  rw [apply_eq hn]
  split
  · exact hn
  · exact hn.insert ‹_›

end Call

/-- The interner after a sequence of calls, from `n`. -/
def replay (n : TaskNames) (calls : List Call) : TaskNames := calls.foldl Call.apply n

theorem inverse_replay (calls : List Call) : (replay {} calls).Inverse := by
  induction calls using List.reverseRecOn with
  | nil => exact Inverse.empty
  | append_singleton calls c ih =>
    rw [replay, List.foldl_append, List.foldl_cons, List.foldl_nil]
    exact Call.Inverse.apply ih c

theorem names_replay (calls : List Call) :
    (replay {} calls).names.toList = (calls.map Call.name).eraseDups := by
  induction calls using List.reverseRecOn with
  | nil => rfl
  | append_singleton calls c ih =>
    have hmem : c.name ∈ (replay {} calls).names ↔ c.name ∈ calls.map Call.name := by
      rw [← Array.mem_toList_iff, ih, List.mem_eraseDups]
    rw [replay, List.foldl_append, List.foldl_cons, List.foldl_nil, ← replay,
      Call.apply_eq (inverse_replay calls), List.map_append, List.map_singleton,
      List.eraseDups_append, ← ih]
    by_cases h : c.name ∈ calls.map Call.name
    · have hr : [c.name].removeAll (calls.map Call.name) = [] := by
        simp only [List.removeAll, List.filter_cons, List.filter_nil, List.elem_eq_mem, h,
          decide_true, Bool.not_true, Bool.false_eq_true, if_false]
      rw [if_pos (hmem.2 h), hr, List.eraseDups_nil, List.append_nil]
    · have hr : [c.name].removeAll (calls.map Call.name) = [c.name] := by
        simp only [List.removeAll, List.filter_cons, List.filter_nil, List.elem_eq_mem, h,
          decide_false, Bool.not_false, if_true]
      rw [if_neg (mt hmem.1 h), hr, Array.toList_push]
      rfl

end ListScheduling.TaskNames
