import ListScheduling.Simulation
import ListScheduling.Proofs.Task.Names
import ListScheduling.Proofs.Task.Order

/-!
The graph a list of task specifications describes, and the checks of its construction.
-/

namespace ListScheduling

/-- The outcome `x` reports `o`: it fails with the error `o` names, and succeeds when `o` names
none. -/
def Reports {ε α : Type} (x : Except ε α) : Option ε → Prop
  | some e => x = .error e
  | none => ∃ a, x = .ok a

theorem Reports.bind {ε α β : Type} {x : Except ε α} {f : α → Except ε β} {o₁ o₂ : Option ε}
    (hx : Reports x o₁) (hf : ∀ a, x = .ok a → Reports (f a) o₂) :
    Reports (x >>= f) (o₁.or o₂) := by
  cases o₁ with
  | some e =>
    have he : x = .error e := hx
    rw [he]
    exact rfl
  | none =>
    obtain ⟨a, rfl⟩ := hx
    exact hf a rfl

theorem Reports.bind_of_ok {ε α β : Type} {x : Except ε α} {f : α → Except ε β} {o : Option ε}
    {a : α} (hx : x = .ok a) (hf : Reports (f a) o) : Reports (x >>= f) o := by
  rw [hx]
  exact hf

theorem Reports.mapError {ε ε' α : Type} (g : ε → ε') {x : Except ε α} {o : Option ε}
    (h : Reports x o) : Reports (x.mapError g) (o.map g) := by
  cases o with
  | some e =>
    have he : x = .error e := h
    rw [he]
    exact rfl
  | none =>
    obtain ⟨a, rfl⟩ := h
    exact ⟨a, rfl⟩

theorem findSome?_id_cons {ε : Type} (c : Option ε) (cs : List (Option ε)) :
    (c :: cs).findSome? id = c.or (cs.findSome? id) := by
  cases c <;> rfl

theorem findSome?_id_map {ε ε' : Type} (f : ε → ε') (cs : List (Option ε)) :
    (cs.map (Option.map f)).findSome? id = (cs.findSome? id).map f := by
  induction cs with
  | nil => rfl
  | cons c cs ih => cases c <;> simp [ih]

namespace TaskSpec

/-- The names of the specifications, in order. -/
def names (specs : List TaskSpec) : List String := specs.map (·.name)

/-- The tasks that name `name` among their dependencies, in task order, once per naming. -/
def dependents (specs : List TaskSpec) (name : String) : List Nat :=
  specs.zipIdx.flatMap fun x => (x.1.dependencies.filter (· == name)).map fun _ => x.2

/-- The graph the specifications describe: the `t`-th task has the subtask times of the `t`-th
specification and, as successors, the tasks that name it among their dependencies. -/
def graph (specs : List TaskSpec) : TaskGraph :=
  ⟨(specs.map fun spec => (⟨spec.subtaskTimes, dependents specs spec.name⟩ : Task)).toArray⟩

/-- Interns the name of one more specification and adds its task. -/
def internStep (acc : TaskNames × TaskGraph) (spec : TaskSpec) :
    Except TaskError (TaskNames × TaskGraph) := do
  let (_, names) ← acc.1.internUnique spec.name
  pure (names, acc.2.addTask spec.subtaskTimes)

/-- Records that task `t` depends on each named task, in order. -/
def dependOn (names : TaskNames) (t : Nat) (deps : List String) (g : TaskGraph) :
    Except TaskError TaskGraph :=
  deps.foldlM (fun g dep => do g.addDependency (← names.lookup dep) t) g

theorem buildTaskGraph_eq (specs : List TaskSpec) : buildTaskGraph specs = (do
    let (names, g) ← specs.foldlM internStep ({}, {})
    let g ← specs.zipIdx.foldlM (fun g x => dependOn names x.2 x.1.dependencies g) g
    let _ ← g.validate
    pure (g, names)) := rfl

section Names

/-- The interner after interning the names of the specifications in order, from `n`. -/
def internAll (n : TaskNames) (specs : List TaskSpec) : TaskNames :=
  specs.foldl (fun n spec => (n.intern spec.name).2) n

/-- The interner of the specifications' names. -/
def interner (specs : List TaskSpec) : TaskNames := internAll {} specs

variable {n : TaskNames} {g : TaskGraph} {spec : TaskSpec}

theorem internAll_cons (rest : List TaskSpec) :
    internAll n (spec :: rest) = internAll (n.intern spec.name).2 rest := rfl

theorem internStep_of_mem (hn : n.Inverse) (h : spec.name ∈ n.names) :
    internStep (n, g) spec = .error (.duplicateTask spec.name) := by
  simp [internStep, TaskNames.internUnique_of_mem hn h, bind, Except.bind]

theorem internStep_of_not_mem (hn : n.Inverse) (h : spec.name ∉ n.names) :
    internStep (n, g) spec = .ok ((n.intern spec.name).2, g.addTask spec.subtaskTimes) := by
  simp [internStep, TaskNames.internUnique_of_not_mem hn h, TaskNames.intern_of_not_mem hn h, bind,
    Except.bind, pure, Except.pure]

theorem internAll_of_nodup {specs : List TaskSpec} (hn : n.Inverse)
    (h : (n.names.toList ++ names specs).Nodup) :
    (internAll n specs).Inverse ∧ (internAll n specs).names = n.names ++ (names specs).toArray := by
  induction specs generalizing n with
  | nil => exact ⟨hn, by simp [internAll, names]⟩
  | cons spec rest ih =>
    simp only [names, List.map_cons] at h
    have hnot : spec.name ∉ n.names := fun hm =>
      (List.nodup_append.1 h).2.2 _ (Array.mem_toList_iff.2 hm) _ List.mem_cons_self rfl
    have hrest : ((n.names.push spec.name).toList ++ names rest).Nodup := by
      simpa [names] using h
    obtain ⟨hinv, hnames⟩ := ih (hn.insert hnot) hrest
    rw [internAll_cons, TaskNames.intern_of_not_mem hn hnot]
    exact ⟨hinv, by rw [hnames]; simp [names]⟩

theorem interner_of_nodup {specs : List TaskSpec} (hnd : (names specs).Nodup) :
    (interner specs).Inverse ∧ (interner specs).names = (names specs).toArray := by
  have h : (({} : TaskNames).names.toList ++ names specs).Nodup := by simpa using hnd
  obtain ⟨h₁, h₂⟩ := internAll_of_nodup TaskNames.Inverse.empty h
  exact ⟨h₁, by rw [interner, h₂]; simp⟩

theorem foldlM_internStep_of_nodup {specs : List TaskSpec} (hn : n.Inverse)
    (h : (n.names.toList ++ names specs).Nodup) :
    specs.foldlM internStep (n, g) = .ok (internAll n specs,
      specs.foldl (fun g spec => g.addTask spec.subtaskTimes) g) := by
  induction specs generalizing n g with
  | nil => rfl
  | cons spec rest ih =>
    simp only [names, List.map_cons] at h
    have hnot : spec.name ∉ n.names := fun hm =>
      (List.nodup_append.1 h).2.2 _ (Array.mem_toList_iff.2 hm) _ List.mem_cons_self rfl
    have hrest : ((n.names.push spec.name).toList ++ names rest).Nodup := by
      simpa [names] using h
    rw [List.foldlM_cons, internStep_of_not_mem hn hnot, internAll_cons,
      TaskNames.intern_of_not_mem hn hnot]
    exact ih (hn.insert hnot) hrest

theorem foldlM_internStep_of_dup {specs : List TaskSpec} {i : Nat} (hn : n.Inverse)
    (hi : i < specs.length) (hdup : specs[i].name ∈ n.names.toList ++ names (specs.take i))
    (hnd : (n.names.toList ++ names (specs.take i)).Nodup) :
    specs.foldlM internStep (n, g) = .error (.duplicateTask specs[i].name) := by
  induction specs generalizing n g i with
  | nil => cases hi
  | cons spec rest ih =>
    rw [List.foldlM_cons]
    cases i with
    | zero =>
      simp only [names, List.take_zero, List.map_nil, List.append_nil, List.getElem_cons_zero]
        at hdup
      rw [internStep_of_mem hn (Array.mem_toList_iff.1 hdup)]
      rfl
    | succ i =>
      simp only [names, List.take_succ_cons, List.map_cons] at hdup hnd
      have hnot : spec.name ∉ n.names := fun hm =>
        (List.nodup_append.1 hnd).2.2 _ (Array.mem_toList_iff.2 hm) _ List.mem_cons_self rfl
      rw [internStep_of_not_mem hn hnot, TaskNames.intern_of_not_mem hn hnot]
      simp only [bind, Except.bind, List.getElem_cons_succ]
      exact ih (hn.insert hnot) (Nat.lt_of_succ_lt_succ hi)
        (by simpa [names] using hdup) (by simpa [names] using hnd)

end Names

theorem tasks_foldl_addTask (specs : List TaskSpec) (g : TaskGraph) :
    (specs.foldl (fun g spec => g.addTask spec.subtaskTimes) g).tasks =
      g.tasks ++ (specs.map fun spec => (⟨spec.subtaskTimes, []⟩ : Task)).toArray := by
  induction specs generalizing g with
  | nil => simp
  | cons spec rest ih =>
    rw [List.foldl_cons, ih]
    simp [TaskGraph.addTask]

section Dependencies

variable {specs : List TaskSpec}

/-- The graph holds the tasks of the specifications, in order, with the successors that `succ`
gives each name. -/
def Shaped (specs : List TaskSpec) (succ : String → List Nat) (g : TaskGraph) : Prop :=
  g.tasks.toList = specs.map fun spec => ⟨spec.subtaskTimes, succ spec.name⟩

theorem Shaped.size {succ : String → List Nat} {g : TaskGraph} (h : Shaped specs succ g) :
    g.size = specs.length := by
  rw [TaskGraph.size, ← Array.length_toList, h, List.length_map]

theorem lookup_names (hnd : (names specs).Nodup) {j : Nat} (hj : j < specs.length) :
    (interner specs).lookup specs[j].name = .ok j := by
  obtain ⟨hinv, hnames⟩ := interner_of_nodup hnd
  rw [TaskNames.lookup_eq_ok_iff, hinv.get?_eq_some_iff, hnames]
  simp [names, hj]

/-- A dependency between two tasks of a shaped graph adds the dependent task to the successors
of the one named. -/
theorem Shaped.addDependency (hnd : (names specs).Nodup) {succ : String → List Nat}
    {g : TaskGraph} (h : Shaped specs succ g) {j t : Nat} (hj : j < specs.length)
    (ht : t < specs.length) :
    ∃ g', g.addDependency j t = .ok g' ∧
      Shaped specs (fun name => succ name ++ if specs[j].name == name then [t] else []) g' := by
  have hsize := h.size
  have hj' : j < g.tasks.size := by
    simp only [TaskGraph.size] at hsize
    omega
  have hdep : g.addDependency j t = .ok ⟨g.tasks.set j
      { g.tasks[j] with successors := g.tasks[j].successors ++ [t] } hj'⟩ := by
    rw [TaskGraph.addDependency, if_pos (hsize ▸ ht), dif_pos (show j < g.size from hj')]
    rfl
  refine ⟨_, hdep, ?_⟩
  unfold Shaped at h ⊢
  dsimp only
  rw [Array.toList_set, h]
  refine List.ext_getElem (by simp) fun i hi _ => ?_
  rw [List.getElem_set]
  by_cases hij : j = i
  · subst hij
    have hg : g.tasks[j] = ⟨specs[j].subtaskTimes, succ specs[j].name⟩ := by
      rw [← Array.getElem_toList, List.getElem_of_eq h]
      simp
    simp [hg]
  · have hi' : i < specs.length := by simpa using hi
    have hne : specs[j].name ≠ specs[i].name := by
      intro he
      have hjn : j < (names specs).length := by rw [names, List.length_map]; exact hj
      have hin : i < (names specs).length := by rw [names, List.length_map]; exact hi'
      have hnames : (names specs)[j] = (names specs)[i] := by simpa [names] using he
      exact hij ((List.Nodup.getElem_inj_iff hnd).1 hnames)
    simp [hij, hne]

theorem lookup_of_not_mem (hnd : (names specs).Nodup) {name : String} (h : name ∉ names specs) :
    (interner specs).lookup name = .error (.unknownTaskName name) := by
  obtain ⟨hinv, hnames⟩ := interner_of_nodup hnd
  have hnone : (interner specs).get? name = none :=
    hinv.get?_eq_none_iff.2 (by simpa [hnames] using h)
  simp [TaskNames.lookup, hnone]

theorem exists_of_mem_names {name : String} (h : name ∈ names specs) :
    ∃ j, ∃ hj : j < specs.length, specs[j].name = name := by
  obtain ⟨j, hj, he⟩ := List.getElem_of_mem h
  exact ⟨j, by simpa [names] using hj, by simpa [names] using he⟩

theorem dependOn_cons (names : TaskNames) (t : Nat) (d : String) (deps : List String)
    (g : TaskGraph) : dependOn names t (d :: deps) g =
      (names.lookup d >>= fun j => g.addDependency j t) >>= dependOn names t deps := rfl

variable (hnd : (names specs).Nodup) {t : Nat} (ht : t < specs.length)
include hnd ht

theorem Shaped.dependOn {deps : List String} (hk : ∀ d ∈ deps, d ∈ names specs)
    {succ : String → List Nat} {g : TaskGraph} (h : Shaped specs succ g) :
    ∃ g', TaskSpec.dependOn (interner specs) t deps g = .ok g' ∧
      Shaped specs (fun name => succ name ++ (deps.filter (· == name)).map fun _ => t) g' := by
  induction deps generalizing succ g with
  | nil => exact ⟨g, rfl, by simpa using h⟩
  | cons d deps ih =>
    obtain ⟨j, hj, rfl⟩ := exists_of_mem_names (hk d List.mem_cons_self)
    obtain ⟨g₁, hg₁, h₁⟩ := h.addDependency hnd hj ht
    obtain ⟨g₂, hg₂, h₂⟩ := ih (fun d hd => hk d (List.mem_cons_of_mem _ hd)) h₁
    refine ⟨g₂, ?_, ?_⟩
    · rw [dependOn_cons, lookup_names hnd hj]
      simpa only [bind, Except.bind, hg₁] using hg₂
    · convert h₂ using 2 with name
      rw [List.filter_cons]
      split <;> simp_all

theorem Shaped.dependOn_error {deps : List String} {d : String}
    (hd : deps.find? (· ∉ names specs) = some d) {succ : String → List Nat} {g : TaskGraph}
    (h : Shaped specs succ g) :
    TaskSpec.dependOn (interner specs) t deps g = .error (.unknownTaskName d) := by
  induction deps generalizing succ g with
  | nil => cases hd
  | cons d' deps ih =>
    rw [dependOn_cons]
    by_cases hm : d' ∈ names specs
    · rw [List.find?_cons_of_neg (by simpa using hm)] at hd
      obtain ⟨j, hj, rfl⟩ := exists_of_mem_names hm
      obtain ⟨g₁, hg₁, h₁⟩ := h.addDependency hnd hj ht
      rw [lookup_names hnd hj]
      simpa only [bind, Except.bind, hg₁] using ih hd h₁
    · rw [List.find?_cons_of_pos (by simpa using hm), Option.some.injEq] at hd
      subst hd
      rw [lookup_of_not_mem hnd hm]
      rfl

omit ht in
theorem Shaped.foldlM_dependOn {l : List (TaskSpec × Nat)} (hl : ∀ x ∈ l, x.2 < specs.length)
    (hk : ∀ x ∈ l, ∀ d ∈ x.1.dependencies, d ∈ names specs) {succ : String → List Nat}
    {g : TaskGraph} (h : Shaped specs succ g) :
    ∃ g', l.foldlM (fun g x => TaskSpec.dependOn (interner specs) x.2 x.1.dependencies g) g =
        .ok g' ∧ Shaped specs (fun name => succ name ++
          l.flatMap fun x => (x.1.dependencies.filter (· == name)).map fun _ => x.2) g' := by
  induction l generalizing succ g with
  | nil => exact ⟨g, rfl, by simpa using h⟩
  | cons x l ih =>
    obtain ⟨g₁, hg₁, h₁⟩ := h.dependOn hnd (hl x List.mem_cons_self) (hk x List.mem_cons_self)
    obtain ⟨g₂, hg₂, h₂⟩ := ih (fun y hy => hl y (List.mem_cons_of_mem _ hy))
      (fun y hy => hk y (List.mem_cons_of_mem _ hy)) h₁
    refine ⟨g₂, ?_, ?_⟩
    · rw [List.foldlM_cons]
      simpa only [bind, Except.bind, hg₁] using hg₂
    · convert h₂ using 2 with name
      simp [List.flatMap_cons, List.append_assoc]

omit ht in
/-- The first dependency, in task then dependency order, that names no task is refused. -/
theorem Shaped.foldlM_dependOn_error {l : List (TaskSpec × Nat)}
    (hl : ∀ x ∈ l, x.2 < specs.length) {d : String}
    (hd : (l.flatMap (·.1.dependencies)).find? (· ∉ names specs) = some d)
    {succ : String → List Nat} {g : TaskGraph} (h : Shaped specs succ g) :
    l.foldlM (fun g x => TaskSpec.dependOn (interner specs) x.2 x.1.dependencies g) g =
      .error (.unknownTaskName d) := by
  induction l generalizing succ g with
  | nil => cases hd
  | cons x l ih =>
    rw [List.flatMap_cons, List.find?_append] at hd
    rw [List.foldlM_cons]
    cases hx : x.1.dependencies.find? (· ∉ names specs) with
    | some d' =>
      rw [hx, Option.some_or, Option.some.injEq] at hd
      subst hd
      rw [h.dependOn_error hnd (hl x List.mem_cons_self) hx]
      rfl
    | none =>
      rw [hx, Option.none_or] at hd
      have hk : ∀ d ∈ x.1.dependencies, d ∈ names specs := by
        intro d hd
        simpa using List.find?_eq_none.1 hx d hd
      obtain ⟨g₁, hg₁, h₁⟩ := h.dependOn hnd (hl x List.mem_cons_self) hk
      simpa only [bind, Except.bind, hg₁] using
        ih (fun y hy => hl y (List.mem_cons_of_mem _ hy)) hd h₁

end Dependencies

section Build

variable {specs : List TaskSpec}

theorem shaped_foldl_addTask (specs : List TaskSpec) :
    Shaped specs (fun _ => []) (specs.foldl (fun g spec => g.addTask spec.subtaskTimes) {}) := by
  unfold Shaped
  rw [tasks_foldl_addTask]
  simp

theorem Shaped.eq_graph {g : TaskGraph} (h : Shaped specs (dependents specs) g) : g = graph specs := by
  obtain ⟨tasks⟩ := g
  unfold Shaped at h
  rw [graph, ← h]

theorem mem_zipIdx_lt {x : TaskSpec × Nat} (hx : x ∈ specs.zipIdx) : x.2 < specs.length :=
  (List.mem_zipIdx' hx).1

theorem buildTaskGraph_of_known (hnd : (names specs).Nodup)
    (hk : ∀ spec ∈ specs, ∀ d ∈ spec.dependencies, d ∈ names specs) :
    buildTaskGraph specs = (do
      let _ ← (graph specs).validate
      pure (graph specs, interner specs)) := by
  rw [buildTaskGraph_eq, foldlM_internStep_of_nodup TaskNames.Inverse.empty (by simpa using hnd),
    show internAll {} specs = interner specs from rfl]
  obtain ⟨g, hg, h⟩ := (shaped_foldl_addTask specs).foldlM_dependOn hnd (l := specs.zipIdx)
    (fun _ hx => mem_zipIdx_lt hx) (fun x hx => hk x.1 (List.fst_mem_of_mem_zipIdx hx))
  simp only [List.nil_append] at h
  have hgraph : g = graph specs := Shaped.eq_graph h
  subst hgraph
  simp only [bind, Except.bind, Array.empty_append]
  rw [hg]

theorem buildTaskGraph_of_dup {i : Nat} (hi : i < specs.length)
    (hdup : specs[i].name ∈ names (specs.take i)) (hnd : (names (specs.take i)).Nodup) :
    buildTaskGraph specs = .error (.duplicateTask specs[i].name) := by
  rw [buildTaskGraph_eq, foldlM_internStep_of_dup (n := {}) TaskNames.Inverse.empty hi (by simpa using hdup)
    (by simpa using hnd)]
  rfl

theorem buildTaskGraph_of_unknown (hnd : (names specs).Nodup) {d : String}
    (hd : (specs.flatMap (·.dependencies)).find? (· ∉ names specs) = some d) :
    buildTaskGraph specs = .error (.unknownTaskName d) := by
  rw [buildTaskGraph_eq, foldlM_internStep_of_nodup TaskNames.Inverse.empty (by simpa using hnd),
    show internAll {} specs = interner specs from rfl]
  have hd' : ((specs.zipIdx).flatMap (·.1.dependencies)).find? (· ∉ names specs) = some d := by
    rw [← List.flatMap_map (f := Prod.fst), List.zipIdx_map_fst]
    exact hd
  simp only [bind, Except.bind, Array.empty_append]
  rw [(shaped_foldl_addTask specs).foldlM_dependOn_error hnd (fun _ hx => mem_zipIdx_lt hx) hd']

end Build


section Views

variable {specs : List TaskSpec} {t s : Nat} {name : String}

@[simp] theorem size_graph (specs : List TaskSpec) : (graph specs).size = specs.length := by
  simp [graph, TaskGraph.size]

theorem getElem?_tasks_graph (specs : List TaskSpec) (t : Nat) :
    (graph specs).tasks[t]? =
      specs[t]?.map fun spec => (⟨spec.subtaskTimes, dependents specs spec.name⟩ : Task) := by
  simp [graph]

theorem subtaskTimes_graph (specs : List TaskSpec) (t : Nat) :
    (graph specs).subtaskTimes t = (specs[t]?.map (·.subtaskTimes)).getD [] := by
  simp [TaskGraph.subtaskTimes, getElem?_tasks_graph, Option.map_map, Function.comp_def]

theorem successors_graph (specs : List TaskSpec) (t : Nat) :
    (graph specs).successors t = (specs[t]?.map fun spec => dependents specs spec.name).getD [] := by
  simp [TaskGraph.successors, getElem?_tasks_graph, Option.map_map, Function.comp_def]

theorem mem_dependents : s ∈ dependents specs name ↔
    ∃ hs : s < specs.length, name ∈ specs[s].dependencies := by
  simp only [dependents, List.mem_flatMap, List.mem_map, List.mem_filter, beq_iff_eq,
    List.mem_zipIdx_iff_getElem?]
  constructor
  · rintro ⟨⟨spec, t⟩, hx, ⟨d, ⟨hd, rfl⟩, rfl⟩⟩
    obtain ⟨hs, hspec⟩ := List.getElem?_eq_some_iff.1 hx
    exact ⟨hs, hspec ▸ hd⟩
  · rintro ⟨hs, hd⟩
    exact ⟨(specs[s], s), List.getElem?_eq_getElem hs, name, ⟨hd, rfl⟩, rfl⟩

/-- Task `t` comes before task `s`: a dependency of `s` names `t`. -/
def Precedes (specs : List TaskSpec) (t s : Nat) : Prop :=
  ∃ (ht : t < specs.length) (hs : s < specs.length), specs[t].name ∈ specs[s].dependencies

/-- Some task comes before itself through one or more dependencies; a task that names itself
is one. -/
def HasCycle (specs : List TaskSpec) : Prop := ∃ t, Relation.TransGen (Precedes specs) t t

theorem edge_graph_iff : (graph specs).Edge t s ↔ Precedes specs t s := by
  unfold TaskGraph.Edge Precedes
  rw [successors_graph]
  cases ht : specs[t]? with
  | none =>
    rw [Option.map_none, Option.getD_none]
    simp only [List.not_mem_nil, false_iff]
    rintro ⟨htl, -⟩
    rw [List.getElem?_eq_getElem htl] at ht
    cases ht
  | some spec =>
    obtain ⟨htl, rfl⟩ := List.getElem?_eq_some_iff.1 ht
    simp [mem_dependents, htl]

theorem hasCycle_graph_iff : (graph specs).HasCycle ↔ HasCycle specs := by
  have h : (graph specs).Edge = Precedes specs := by
    funext t s
    exact propext edge_graph_iff
  unfold TaskGraph.HasCycle HasCycle
  rw [h]

theorem find?_dependencies_graph :
    (graph specs).dependencies.find? ((graph specs).size ≤ ·.2) = none := by
  rw [List.find?_eq_none]
  rintro ⟨t, s⟩ hx
  simp only [TaskGraph.dependencies, List.mem_flatMap, List.mem_map, Prod.mk.injEq] at hx
  obtain ⟨t', -, s', hs', rfl, rfl⟩ := hx
  obtain ⟨-, hs, -⟩ := edge_graph_iff.1 hs'
  simpa using hs

theorem hasCycle_iff_topologicalOrder :
    HasCycle specs ↔ (graph specs).topologicalOrder.isOk = false := by
  rw [← hasCycle_graph_iff]
  rcases TaskGraph.topologicalOrder_cases find?_dependencies_graph with
    ⟨o, ho, htop⟩ | ⟨herr, hcyc⟩
  · rw [ho]
    simp [Except.isOk, Except.toBool, htop.not_hasCycle]
  · rw [herr]
    simp [Except.isOk, Except.toBool, hcyc]

instance (specs : List TaskSpec) : Decidable (HasCycle specs) :=
  decidable_of_iff _ hasCycle_iff_topologicalOrder.symm

theorem count_flatMap_zipIdx (l : List TaskSpec) (i : Nat) :
    ((l.zipIdx i).flatMap fun x => (x.1.dependencies.filter (· == name)).map fun _ => x.2).count t =
      if i ≤ t then ((l[t - i]?).map fun spec => spec.dependencies.count name).getD 0 else 0 := by
  induction l generalizing i with
  | nil => simp
  | cons spec l ih =>
    have h₀ : ((spec.dependencies.filter (· == name)).map fun _ => i).count t =
        if i = t then spec.dependencies.count name else 0 := by
      rw [List.map_const', List.count_replicate, List.count_eq_length_filter]
      simp only [beq_iff_eq]
    rw [List.zipIdx_cons, List.flatMap_cons, List.count_append, ih, h₀]
    rcases Nat.lt_trichotomy i t with h | rfl | h
    · have hti : t - i = (t - (i + 1)) + 1 := by omega
      rw [if_neg (by omega), if_pos (by omega), if_pos (by omega), hti, List.getElem?_cons_succ,
        Nat.zero_add]
    · simp
    · rw [if_neg (by omega), if_neg (by omega), if_neg (by omega)]

theorem count_dependents (name : String) (t : Nat) :
    (dependents specs name).count t =
      ((specs[t]?).map fun spec => spec.dependencies.count name).getD 0 := by
  rw [dependents, count_flatMap_zipIdx, if_pos (Nat.zero_le t), Nat.sub_zero]

end Views

section Checks

theorem nodup_take_iff {α : Type} {xs : List α} {i : Nat} :
    (xs.take i).Nodup ↔ ∀ j (hj : j < xs.length), j < i → xs[j] ∉ xs.take j := by
  induction i with
  | zero => simp
  | succ i ih =>
    rw [List.take_add_one]
    by_cases hi : i < xs.length
    · rw [List.getElem?_eq_getElem hi, Option.toList_some, List.nodup_append, ih]
      constructor
      · rintro ⟨hpre, -, hdisj⟩ j hj hji
        rcases Nat.lt_succ_iff_lt_or_eq.1 hji with hji | rfl
        · exact hpre j hj hji
        · exact fun hm => hdisj _ hm _ List.mem_cons_self rfl
      · intro h
        refine ⟨fun j hj hji => h j hj (by omega), List.nodup_singleton _, ?_⟩
        rintro a ha b hb rfl
        rw [List.mem_singleton] at hb
        exact h i hi (Nat.lt_succ_self i) (hb ▸ ha)
    · rw [List.getElem?_eq_none (by omega), Option.toList_none, List.append_nil, ih]
      exact ⟨fun h j hj _ => h j hj (by omega), fun h j hj hji => h j hj (by omega)⟩

/-- The first name, in order, that equals an earlier one. -/
def firstRepeat (xs : List String) : Option String :=
  (xs.zipIdx.find? fun x => x.1 ∈ xs.take x.2).map (·.1)

variable {xs : List String} {n : String}

theorem firstRepeat_eq_none_iff : firstRepeat xs = none ↔ xs.Nodup := by
  rw [firstRepeat, Option.map_eq_none_iff, List.find?_eq_none, ← List.take_length (l := xs),
    nodup_take_iff, List.take_length]
  constructor
  · intro h j hj _ hm
    exact h (xs[j], j) (List.mem_zipIdx_iff_getElem?.2 (List.getElem?_eq_getElem hj))
      (by simpa using hm)
  · rintro h ⟨x, j⟩ hx hm
    obtain ⟨hj, hxj⟩ := List.getElem?_eq_some_iff.1 (List.mem_zipIdx_iff_getElem?.1 hx)
    exact h j hj hj (by simpa [hxj] using hm)

theorem firstRepeat_eq_some (h : firstRepeat xs = some n) :
    ∃ i, ∃ hi : i < xs.length, xs[i] = n ∧ n ∈ xs.take i ∧ (xs.take i).Nodup := by
  rw [firstRepeat, Option.map_eq_some_iff] at h
  obtain ⟨⟨m, i⟩, hf, rfl⟩ := h
  obtain ⟨hp, k, hk, hki, hbefore⟩ := List.find?_eq_some_iff_getElem.1 hf
  rw [List.getElem_zipIdx, Prod.mk.injEq] at hki
  obtain ⟨rfl, rfl⟩ := hki
  have hk' : k < xs.length := by simpa using hk
  refine ⟨_, hk', by simp, by simpa using hp, nodup_take_iff.2 fun j hj hjk hm => ?_⟩
  exact absurd hm (by simpa using hbefore j hjk)

variable {specs : List TaskSpec}

/-- The checks of the specifications themselves, in the order they are made. -/
def graphChecks (specs : List TaskSpec) : List (Option TaskError) :=
  [(firstRepeat (names specs)).map .duplicateTask,
   ((specs.flatMap (·.dependencies)).find? (· ∉ names specs)).map .unknownTaskName,
   ((graph specs).subtaskEntries.find? (!·.2.2.isValidTime)).map
     fun e => .invalidExecTime e.1 e.2.1 e.2.2,
   if HasCycle specs then some .circularDependency else none]

/-- Specifications that pass their own checks. -/
structure Accepted (specs : List TaskSpec) : Prop where
  distinct : (names specs).Nodup
  known : ∀ spec ∈ specs, ∀ d ∈ spec.dependencies, d ∈ names specs
  valid : ∀ t < specs.length, ∀ x ∈ (graph specs).subtaskTimes t, x.isValidTime = true
  acyclic : ¬ HasCycle specs

theorem known_of_find?_eq_none (h : (specs.flatMap (·.dependencies)).find? (· ∉ names specs) = none) :
    ∀ spec ∈ specs, ∀ d ∈ spec.dependencies, d ∈ names specs := by
  intro spec hspec d hd
  simpa using List.find?_eq_none.1 h d (List.mem_flatMap.2 ⟨spec, hspec, hd⟩)

theorem find?_subtaskEntries_eq_none_iff :
    (graph specs).subtaskEntries.find? (!·.2.2.isValidTime) = none ↔
      ∀ t < specs.length, ∀ x ∈ (graph specs).subtaskTimes t, x.isValidTime = true := by
  rw [List.find?_eq_none]
  constructor
  · intro h t ht x hx
    obtain ⟨k, hk⟩ := List.mem_iff_getElem?.1 hx
    have hmem : (t, k, x) ∈ (graph specs).subtaskEntries := by
      simp only [TaskGraph.subtaskEntries, List.mem_flatMap, List.mem_range, List.mem_map,
        size_graph]
      exact ⟨t, ht, (x, k), List.mem_zipIdx_iff_getElem?.2 hk, rfl⟩
    simpa using h _ hmem
  · rintro h ⟨t, k, v⟩ he
    simp only [TaskGraph.subtaskEntries, List.mem_flatMap, List.mem_range, List.mem_map,
      size_graph, Prod.mk.injEq] at he
    obtain ⟨t', ht', ⟨v', k'⟩, hmem, rfl, rfl, rfl⟩ := he
    simpa using h t' ht' v' (List.fst_mem_of_mem_zipIdx hmem)

theorem topologicalOrder_graph :
    (∃ o, (graph specs).topologicalOrder = .ok o ∧ ¬ HasCycle specs) ∨
      ((graph specs).topologicalOrder = .error .circularDependency ∧ HasCycle specs) := by
  rw [← hasCycle_graph_iff]
  rcases TaskGraph.topologicalOrder_cases find?_dependencies_graph with
    ⟨o, ho, htop⟩ | ⟨herr, hcyc⟩
  · exact .inl ⟨o, ho, htop.not_hasCycle⟩
  · exact .inr ⟨herr, hcyc⟩

theorem validate_graph_of_valid
    (h : (graph specs).subtaskEntries.find? (!·.2.2.isValidTime) = none) :
    (graph specs).validate = (graph specs).topologicalOrder := by
  simp [TaskGraph.validate, TaskGraph.firstInvalidTime_eq, h]

/-- Building the graph of the specifications reports the first of their checks that fails. -/
theorem buildTaskGraph_reports (specs : List TaskSpec) :
    Reports (buildTaskGraph specs) ((graphChecks specs).findSome? id) := by
  simp only [graphChecks, findSome?_id_cons, List.findSome?_nil, Option.or_none]
  cases h₁ : firstRepeat (names specs) with
  | some n =>
    obtain ⟨i, hi, rfl, hdup, hnd⟩ := firstRepeat_eq_some h₁
    have hi' : i < specs.length := by simpa [names] using hi
    have hname : (names specs)[i] = specs[i].name := by simp [names]
    rw [hname] at hdup ⊢
    have htake : (names specs).take i = names (specs.take i) := by simp [names, List.map_take]
    rw [htake] at hdup hnd
    exact buildTaskGraph_of_dup hi' hdup hnd
  | none =>
  have hnd := firstRepeat_eq_none_iff.1 h₁
  cases h₂ : (specs.flatMap (·.dependencies)).find? (· ∉ names specs) with
  | some d => exact buildTaskGraph_of_unknown hnd h₂
  | none =>
  rw [buildTaskGraph_of_known hnd (known_of_find?_eq_none h₂)]
  cases h₃ : (graph specs).subtaskEntries.find? (!·.2.2.isValidTime) with
  | some e =>
    obtain ⟨t, k, v⟩ := e
    have hval : (graph specs).validate = .error (.invalidExecTime t k v) := by
      simp [TaskGraph.validate, TaskGraph.firstInvalidTime_eq, h₃]
    simp only [Option.map_some, Option.some_or]
    rw [hval]
    rfl
  | none =>
  simp only [Option.map_none, Option.none_or]
  rw [validate_graph_of_valid h₃]
  rcases @topologicalOrder_graph specs with ⟨o, ho, hno⟩ | ⟨herr, hcyc⟩
  · rw [ho, if_neg hno]
    exact ⟨_, rfl⟩
  · rw [herr, if_pos hcyc]
    rfl

theorem accepted_of_graphChecks (h : (graphChecks specs).findSome? id = none) : Accepted specs := by
  simp only [graphChecks, findSome?_id_cons, List.findSome?_nil, Option.or_none,
    Option.or_eq_none_iff, Option.map_eq_none_iff, ite_eq_right_iff, reduceCtorEq, imp_false] at h
  obtain ⟨h₁, h₂, h₃, h₄⟩ := h
  exact ⟨firstRepeat_eq_none_iff.1 h₁, known_of_find?_eq_none h₂,
    find?_subtaskEntries_eq_none_iff.1 h₃, h₄⟩

theorem buildTaskGraph_of_accepted (h : Accepted specs) :
    buildTaskGraph specs = .ok (graph specs, interner specs) := by
  rw [buildTaskGraph_of_known h.distinct h.known,
    validate_graph_of_valid (find?_subtaskEntries_eq_none_iff.2 h.valid)]
  rcases @topologicalOrder_graph specs with ⟨o, ho, -⟩ | ⟨-, hcyc⟩
  · rw [ho]
    rfl
  · exact absurd hcyc h.acyclic

end Checks

end TaskSpec

end ListScheduling
