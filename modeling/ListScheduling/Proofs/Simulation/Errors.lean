import ListScheduling.Proofs.Simulation.Graph
import ListScheduling.Proofs.Refinement.Failures
import ListScheduling.Proofs.Refinement.Readout
import ListScheduling.Proofs.Task.Levels

/-!
Which error a simulation reports.
-/
namespace ListScheduling

namespace Double

theorem lt_zero_eq_false {x : Double} (h : zero.le x) : x.lt zero = false := by
  rw [← Bool.not_eq_true, lt_iff]
  rw [le_iff] at h
  rintro ⟨-, -, hz, hlt⟩
  rcases h.2.2 with ⟨h0, hx0⟩ | hle
  · exact hz ⟨hx0, h0⟩
  · omega

theorem zero_le_listSum {xs : List Double} (h : ∀ x ∈ xs, x.isValidTime = true) :
    zero.le (listSum xs) := by
  suffices ∀ acc : Double, zero.le acc → zero.le (xs.foldl (· + ·) acc) from
    this negZero (by decide)
  induction xs with
  | nil => exact fun _ hacc => hacc
  | cons x xs ih =>
    intro acc hacc
    have hnan := isNaN_eq_false_of_le_right hacc
    have hle : acc.le (acc + x) := by
      rw [add_comm_of_isNaN (.inl hnan)]
      exact le_add_of_isValidTime (h x List.mem_cons_self) hnan
    exact ih (fun y hy => h y (List.mem_cons_of_mem _ hy)) _ (le_trans hacc hle)

theorem listSum_eq_inf {xs : List Double} (h : ∀ x ∈ xs, x.isValidTime = true)
    (hs : (listSum xs).isValidTime = false) : listSum xs = inf := by
  have h0 := zero_le_listSum h
  have hnan := isNaN_eq_false_of_le_right h0
  have hfin : (listSum xs).isFinite = false := by
    simpa [isValidTime, lt_zero_eq_false h0] using hs
  have hinf : (listSum xs).isInf = true := by
    cases hi : (listSum xs).isInf
    · rw [isFinite_of_not hnan hi] at hfin
      cases hfin
    · rfl
  -- `-∞` is below `0.0`, so the infinity is `+∞`
  have hsign : (listSum xs).signBit = false := by
    cases hsb : (listSum xs).signBit
    · rfl
    · exact absurd hinf (by rw [← eq_of_le_isInf hinf hsb h0]; decide)
  exact eq_of_isInf hinf isInf_inf (by rw [hsign]; decide)

end Double

namespace SimulationConfig

/-- How a simulation cuts its tasks into units. -/
def split (config : SimulationConfig) : Split := if config.splitSubtasks then .subtasks else .whole

/-- The problem a simulation schedules under a priority: the graph of the specifications, cut as
configured, on the configured processors from the root's time. -/
def problem (config : SimulationConfig) (specs : List TaskSpec) (priority : UnitId → Double) :
    Direct.Problem :=
  ⟨TaskSpec.graph specs, (TaskSpec.graph specs).unitTimes config.split, priority,
    config.processors, config.rootTime⟩

/-- The vertices a simulation adds when every unit is placed: the root, the processors, two
barriers per task, and for each unit its vertex and the processor node its placement adds. -/
def vertexNeed (config : SimulationConfig) (specs : List TaskSpec) : Nat :=
  config.processors + 1 + 2 * specs.length +
    2 * (specs.map fun spec => if config.splitSubtasks then spec.subtaskTimes.length else 1).sum

/-- The run of a simulation: the construction, the start from the named source or from every
task that awaits nothing, and list scheduling. -/
def steps (config : SimulationConfig) (g : TaskGraph) (names : TaskNames) : Run Unit := do
  Run.build config.rootTime config.processors g config.split
  match config.sourceTask with
  | some name =>
    match names.lookup name with
    | .ok t => Run.start t
    | .error e => throw (.task e)
  | none => Run.startEntries
  Run.listSchedule

end SimulationConfig

namespace SimulationConfig

open TaskSpec

variable {config : SimulationConfig} {specs : List TaskSpec} {q : UnitId → Double}

@[simp] theorem size_problem : (config.problem specs q).size = specs.length := size_graph specs

theorem wellFormed_problem : (config.problem specs q).graph.WellFormed := by
  intro t _ s hs
  obtain ⟨-, hs', -⟩ := edge_graph_iff.1 hs
  show s < (graph specs).size
  rw [size_graph]
  exact hs'

theorem totalUnits_problem : (config.problem specs q).totalUnits =
    (specs.map fun spec => if config.splitSubtasks then spec.subtaskTimes.length else 1).sum := by
  simp only [Direct.Problem.totalUnits, size_problem]
  congr 1
  refine List.ext_getElem (by simp) fun t ht _ => ?_
  have ht' : t < specs.length := by simpa using ht
  rw [List.getElem_map, List.getElem_map, List.getElem_range]
  show ((graph specs).unitTimes config.split t).length = _
  unfold split
  rcases Bool.eq_false_or_eq_true config.splitSubtasks with hs | hs <;>
    simp [hs, TaskGraph.unitTimes, subtaskTimes_graph, List.getElem?_eq_getElem ht']

theorem withLimit_maxVertices : Store.withLimit maxVertices = {} := by
  simp [Store.withLimit]

theorem room_problem (hroom : config.vertexNeed specs ≤ maxVertices) :
    (config.problem specs q).nodeBase + (config.problem specs q).totalUnits ≤
      (Store.withLimit maxVertices).limit := by
  simp only [Direct.Problem.nodeBase, Direct.Problem.unitBase, totalUnits_problem, size_problem,
    Store.withLimit, Nat.min_self]
  exact Nat.le_trans (Nat.le_of_eq (by simp only [problem, vertexNeed]; omega)) hroom

/-- With distinct names whose dependencies name tasks, a task awaits one input per dependency. -/
theorem inDegree_problem (hacc : Accepted specs) {t : Nat} (ht : t < specs.length) :
    (config.problem specs q).inDegree t = specs[t].dependencies.length := by
  have hnames : ∀ s (hs : s < specs.length), (names specs).getD s "" = specs[s].name := by
    intro s hs
    simp [names, hs]
  unfold Direct.Problem.inDegree
  rw [size_problem]
  calc ∑ s ∈ Finset.range specs.length, ((graph specs).successors s).count t
      = ∑ s ∈ Finset.range specs.length, specs[t].dependencies.count ((names specs).getD s "") := by
        refine Finset.sum_congr rfl fun s hs => ?_
        have hs' : s < specs.length := Finset.mem_range.1 hs
        rw [successors_graph, List.getElem?_eq_getElem hs', Option.map_some, Option.getD_some,
          count_dependents, List.getElem?_eq_getElem ht, Option.map_some, Option.getD_some,
          hnames s hs']
    _ = ∑ n ∈ (Finset.range specs.length).image fun s => (names specs).getD s "",
          specs[t].dependencies.count n := by
        rw [Finset.sum_image]
        intro a ha b hb hab
        dsimp only at hab
        have ha' := Finset.mem_range.1 ha
        have hb' := Finset.mem_range.1 hb
        rw [hnames a ha', hnames b hb'] at hab
        have hal : a < (names specs).length := by simpa [names] using ha'
        have hbl : b < (names specs).length := by simpa [names] using hb'
        have hab' : (names specs)[a] = (names specs)[b] := by simpa [names] using hab
        exact (List.Nodup.getElem_inj_iff hacc.distinct).1 hab'
    _ = specs[t].dependencies.length := by
        have h := Multiset.sum_count_eq_card (s := (Finset.range specs.length).image
          fun s => (names specs).getD s "") (m := (specs[t].dependencies : Multiset String))
          fun d hd => ?_
        · simpa using h
        obtain ⟨j, hj, rfl⟩ := exists_of_mem_names (hacc.known _ (List.getElem_mem ht) d
          (by simpa using hd))
        exact Finset.mem_image.2 ⟨j, Finset.mem_range.2 hj, hnames j hj⟩

end SimulationConfig

theorem simulate_eq (specs : List TaskSpec) (config : SimulationConfig) :
    simulate specs config = (do
      let (g, names) ← (buildTaskGraph specs).mapError .task
      let strategy ← match Strategy.ofName? config.strategy with
        | some s => pure s
        | none => throw (.unknownStrategy config.strategy)
      let table ← (PriorityTable.build strategy g config.split (specs.map (·.priority))
        config.defaultPriority).mapError .task
      let (r, s) := ((config.steps g names).run).run (Scheduler.new table.priority {})
      let _ ← r
      let p ← s.plan
      pure (SimulationResult.ofPlan p names config strategy s.stats)) := rfl

namespace TaskSpec

/-- The first task, in order, whose subtask times add up to `+∞`. -/
def firstOverflow (specs : List TaskSpec) : Option Nat :=
  (specs.zipIdx.find? fun x => Double.listSum x.1.subtaskTimes = Double.inf).map (·.2)

end TaskSpec

namespace SimulationConfig

/-- The checks of the run of a simulation, in the order it makes them, each the error it reports
when it fails. -/
def runChecks (config : SimulationConfig) (specs : List TaskSpec) : List (Option RunError) :=
  [if config.rootTime.isFinite then none else some (.invalidRootTime config.rootTime),
   if config.processors = 0 then some .noProcessors else none,
   if config.splitSubtasks then none
   else (TaskSpec.firstOverflow specs).map fun t => .task (.invalidExecTime t 0 Double.inf),
   config.sourceTask.bind fun name =>
     if name ∈ TaskSpec.names specs then none else some (.task (.unknownTaskName name)),
   config.sourceTask.bind fun name =>
     let t := (TaskSpec.names specs).idxOf name
     let deps := ((specs[t]?).map (·.dependencies)).getD []
     if deps = [] then none
     else some (.rootBarrierNotReady (config.processors + 1 + 2 * t) deps.length),
   let P := config.problem specs fun _ => Double.zero
   let unfired := P.unfired (P.linked (config.sourceTask.map (TaskSpec.names specs).idxOf))
   if unfired = [] then none else some (.unscheduled unfired)]

/-- The checks of a simulation, in the order it makes them: those of the specifications, the
strategy's name, and those of the run. -/
def checks (config : SimulationConfig) (specs : List TaskSpec) : List (Option RunError) :=
  (TaskSpec.graphChecks specs).map (Option.map .task) ++
    (if config.strategy ∈ ["task_order", "bottom_level", "explicit", "longest_first"] then none
      else some (.unknownStrategy config.strategy)) :: config.runChecks specs

/-- The error of the first check of a simulation that fails, if any. -/
def firstFailure (config : SimulationConfig) (specs : List TaskSpec) : Option RunError :=
  (config.checks specs).findSome? id

end SimulationConfig

namespace Direct

open Run

variable {P : Problem} {split : Split} {limit : Nat}

/-- A whole run from tasks that await nothing succeeds when every task with units fires, and
otherwise reports the units of the other tasks; once it succeeds, its plan can be read. -/
theorem pipeline_reports (hsplit : P.graph.unitTimes split = P.unitTimes)
    (hr : P.release.isFinite = true) (hp : 0 < P.processors) (hg : P.graph.WellFormed)
    (hx : ∀ t < P.size, ∀ x ∈ P.unitTimes t, x.isValidTime = true)
    (hroom : P.nodeBase + P.totalUnits ≤ (Store.withLimit limit).limit)
    (hdeg : ∀ t < P.size, P.inDegree t < BarrierNode.inputLimit) {source : Option Nat}
    (hsrc : ∀ t ∈ source, t < P.size ∧ P.inDegree t = 0) :
    let out := (Run.pipeline P.release P.processors P.graph split source).run.run
      (Scheduler.new P.priority (Store.withLimit limit))
    Reports out.1 (if P.unfired (P.linked source) = [] then none
      else some (.unscheduled (P.unfired (P.linked source)))) ∧
      (out.1 = .ok () → ∃ p, out.2.plan = .ok p) := by
  intro out
  obtain ⟨s', h', hrun⟩ := run_pipeline_schedule hsplit hr hp hg hx hroom hdeg hsrc
  have hun := h'.unassigned_schedule hg hp (linked_awaits_nothing hsrc)
  have hout : out = if P.unfired (P.linked source) = [] then (.ok (), { s' with phase := .done })
      else (.error (.unscheduled (P.unfired (P.linked source))), { s' with phase := .poisoned }) := by
    rw [← hun]
    exact hrun.trans (by simp only [List.isEmpty_iff])
  by_cases hnil : P.unfired (P.linked source) = []
  · rw [if_pos hnil] at hout
    refine ⟨by rw [if_pos hnil, hout]; exact ⟨(), rfl⟩, fun _ => ?_⟩
    -- every unit is placed, so the plan of the finished run can be read
    have hplaced : ∀ u, P.Valid u → ((schedule P (P.linked source)).unit u).processor.isSome = true := by
      intro u hu
      have hnone := List.filter_eq_nil_iff.1 (h'.unassigned.symm.trans (hun.trans hnil)) u
        (P.mem_units.2 hu)
      simpa [Option.isSome_iff_ne_none] using hnone
    obtain ⟨p, hplan, -⟩ := (h'.withPhase .done).plan rfl hplaced
    exact ⟨p, by rw [hout]; exact hplan⟩
  · rw [if_neg hnil] at hout
    refine ⟨by rw [if_neg hnil, hout]; rfl, fun hok => ?_⟩
    rw [hout] at hok
    cases hok

end Direct

namespace Strategy

theorem ofName?_eq_none_iff {name : String} :
    ofName? name = none ↔ name ∉ ["task_order", "bottom_level", "explicit", "longest_first"] := by
  unfold ofName?
  split <;> simp_all

end Strategy

theorem PriorityTable.build_of_topologicalOrder {g : TaskGraph} {order : List Nat}
    (h : g.topologicalOrder = .ok order) (strategy : Strategy) (split : Split)
    (explicit : List (Option Double)) (default : Double) :
    ∃ table, PriorityTable.build strategy g split explicit default = .ok table := by
  cases strategy with
  | bottomLevel =>
    obtain ⟨L, hL, -⟩ : ∃ L, g.bottomLevels split = .ok L ∧ _ := TaskGraph.bottomLevels_of_ok h
    exact ⟨_, by rw [PriorityTable.build, hL]; rfl⟩
  | taskOrder | explicit | longestFirst => exact ⟨_, rfl⟩

namespace TaskSpec

variable {specs : List TaskSpec} {t : Nat}

theorem firstOverflow_eq_none_iff :
    firstOverflow specs = none ↔ ∀ t < specs.length, (graph specs).execTime t ≠ Double.inf := by
  simp only [firstOverflow, Option.map_eq_none_iff, List.find?_eq_none, decide_eq_true_eq]
  constructor
  · intro h t ht
    rw [TaskGraph.execTime, subtaskTimes_graph, List.getElem?_eq_getElem ht]
    exact h (specs[t], t) (List.mem_zipIdx_iff_getElem?.2 (List.getElem?_eq_getElem ht))
  · rintro h ⟨spec, t⟩ hx
    obtain ⟨ht, hspec⟩ := List.getElem?_eq_some_iff.1 (List.mem_zipIdx_iff_getElem?.1 hx)
    dsimp only at ht hspec
    have hne := h t ht
    rw [TaskGraph.execTime, subtaskTimes_graph, List.getElem?_eq_getElem ht] at hne
    simpa [hspec] using hne

theorem firstOverflow_eq_some (h : firstOverflow specs = some t) :
    t < specs.length ∧ (graph specs).execTime t = Double.inf ∧
      ∀ t' < t, (graph specs).execTime t' ≠ Double.inf := by
  obtain ⟨⟨spec, i⟩, hf, rfl⟩ := Option.map_eq_some_iff.1 h
  obtain ⟨hp, k, hk, hki, hbefore⟩ := List.find?_eq_some_iff_getElem.1 hf
  rw [List.getElem_zipIdx, Prod.mk.injEq, Nat.zero_add] at hki
  obtain ⟨rfl, rfl⟩ := hki
  have hk' : k < specs.length := by simpa using hk
  have hexec : ∀ j (hj : j < specs.length), (graph specs).execTime j =
      Double.listSum specs[j].subtaskTimes := fun j hj => by
    rw [TaskGraph.execTime, subtaskTimes_graph, List.getElem?_eq_getElem hj]
    rfl
  refine ⟨hk', by simpa [hexec k hk'] using hp, fun j hj => ?_⟩
  rw [hexec j (by omega)]
  simpa using hbefore j hj

theorem execTime_isValidTime (hacc : Accepted specs) (ht : t < specs.length)
    (hne : (graph specs).execTime t ≠ Double.inf) : ((graph specs).execTime t).isValidTime = true := by
  by_contra hv
  exact hne (Double.listSum_eq_inf (hacc.valid t ht) (by simpa [TaskGraph.execTime] using hv))

theorem unitTimes_valid (hacc : Accepted specs) {config : SimulationConfig}
    (hwhole : config.splitSubtasks = false → firstOverflow specs = none) :
    ∀ t < specs.length, ∀ x ∈ (graph specs).unitTimes config.split t, x.isValidTime = true := by
  intro t ht x hx
  cases hs : config.splitSubtasks with
  | true =>
    simp only [SimulationConfig.split, hs, if_true, TaskGraph.unitTimes] at hx
    exact hacc.valid t ht x hx
  | false =>
    simp only [SimulationConfig.split, hs, Bool.false_eq_true, if_false, TaskGraph.unitTimes,
      List.mem_singleton] at hx
    subst hx
    exact execTime_isValidTime hacc ht (firstOverflow_eq_none_iff.1 (hwhole hs) t ht)

end TaskSpec

namespace Direct.Problem

theorem decide_fires (P : Problem) (L : List Nat) (t : Nat) :
    decide (P.Fires L t) = P.firing L t :=
  Bool.eq_iff_iff.2 (by rw [decide_eq_true_iff, P.firing_iff L])

end Direct.Problem

namespace SimulationConfig

open TaskSpec Run

variable {config : SimulationConfig} {specs : List TaskSpec} {q : UnitId → Double}
  {g : TaskGraph} {ns : TaskNames}

theorem steps_of_source_none (h : config.sourceTask = none) :
    config.steps g ns = Run.pipeline config.rootTime config.processors g config.split none := by
  unfold steps Run.pipeline
  rw [h]

theorem steps_of_lookup {name : String} {t : Nat} (h : config.sourceTask = some name)
    (hl : ns.lookup name = .ok t) :
    config.steps g ns = Run.pipeline config.rootTime config.processors g config.split (some t) := by
  unfold steps Run.pipeline
  rw [h]
  simp only [hl]

theorem steps_of_lookup_error {name : String} {e : TaskError} {s s₁ : Scheduler}
    (h : config.sourceTask = some name) (hl : ns.lookup name = .error e)
    (hbuild : (Run.build config.rootTime config.processors g config.split).run.run s = (.ok (), s₁)) :
    ((config.steps g ns).run.run s).1 = .error (.task e) := by
  unfold steps
  rw [run_bind_ok hbuild, h]
  simp only [hl]
  rfl

theorem steps_of_not_isFinite (hr : config.rootTime.isFinite = false) (st : Store) :
    ((config.steps g ns).run.run (Scheduler.new q st)).1 =
      .error (.invalidRootTime config.rootTime) := by
  unfold steps
  exact run_bind_fst_error (Run.build_of_not_isFinite hr)

theorem steps_of_processors_eq_zero (hr : config.rootTime.isFinite = true)
    (hroom : config.vertexNeed specs ≤ maxVertices) (hp : config.processors = 0) :
    ((config.steps (graph specs) ns).run.run (Scheduler.new q {})).1 = .error .noProcessors := by
  unfold steps
  rw [← withLimit_maxVertices]
  exact run_bind_fst_error
    (Direct.build_of_processors_eq_zero (P := config.problem specs q) hr (room_problem hroom) hp)

theorem reports_plan {out : Except RunError Unit × Scheduler} {o : Option RunError}
    (h : Reports out.1 o) (hplan : out.1 = .ok () → ∃ p, out.2.plan = .ok p) :
    Reports (out.1 >>= fun _ => out.2.plan) o := by
  have hb : Reports (out.1 >>= fun _ => out.2.plan) (o.or none) :=
    Reports.bind h fun _ ha => hplan ha
  rwa [Option.or_none] at hb

section Checked

variable (hacc : Accepted specs) (hr : config.rootTime.isFinite = true)
  (hp : 0 < config.processors) (hroom : config.vertexNeed specs ≤ maxVertices)
  (hdeg : ∀ spec ∈ specs, spec.dependencies.length < BarrierNode.inputLimit)
include hacc hr hp hroom hdeg

omit hr hp hroom in
theorem inDegree_problem_lt :
    ∀ t < (config.problem specs q).size, (config.problem specs q).inDegree t < BarrierNode.inputLimit := by
  intro t ht
  rw [size_problem] at ht
  rw [inDegree_problem hacc ht]
  exact hdeg _ (List.getElem_mem ht)

theorem steps_of_firstOverflow (hs : config.splitSubtasks = false) {t : Nat}
    (ht : firstOverflow specs = some t) :
    ((config.steps (graph specs) ns).run.run (Scheduler.new q {})).1 =
      .error (.task (.invalidExecTime t 0 Double.inf)) := by
  obtain ⟨htl, hinf, hbefore⟩ := firstOverflow_eq_some ht
  have hsplit : config.split = .whole := by simp [split, hs]
  unfold steps
  rw [← withLimit_maxVertices]
  refine run_bind_fst_error (Direct.build_of_invalid (P := config.problem specs q) rfl hr hp
    wellFormed_problem (room_problem hroom) (inDegree_problem_lt hacc hdeg) (by simpa using htl)
    ?_ ?_)
  · intro t' ht' y hy
    simp only [problem, hsplit, TaskGraph.unitTimes, List.mem_singleton] at hy
    subst hy
    exact execTime_isValidTime hacc (by omega) (hbefore t' ht')
  · show ((graph specs).unitTimes config.split t).zipIdx.find? _ = _
    rw [hsplit, TaskGraph.unitTimes, hinf]
    rfl

variable (hwhole : config.splitSubtasks = false → firstOverflow specs = none)
include hwhole

theorem build_renders :
    ∃ s, (Run.build config.rootTime config.processors (graph specs) config.split).run.run
        (Scheduler.new q {}) = (.ok (), s) ∧
      Direct.Renders (config.problem specs q) s (Direct.initial (config.problem specs q)) ∧
        s.phase = .tasksInserted := by
  rw [← withLimit_maxVertices]
  exact Direct.Renders.build (P := config.problem specs q) rfl hr hp wellFormed_problem
    (fun t ht => unitTimes_valid hacc hwhole t (by simpa using ht)) (room_problem hroom)
    (inDegree_problem_lt hacc hdeg)

theorem steps_of_unknown_source {name : String} (hsrc : config.sourceTask = some name)
    (hname : name ∉ names specs) :
    ((config.steps (graph specs) (interner specs)).run.run (Scheduler.new q {})).1 =
      .error (.task (.unknownTaskName name)) := by
  obtain ⟨s₁, hbuild, -, -⟩ := build_renders (q := q) hacc hr hp hroom hdeg hwhole
  exact steps_of_lookup_error hsrc (lookup_of_not_mem hacc.distinct hname) hbuild

theorem steps_of_waiting {j : Nat} (hj : j < specs.length)
    (hsrc : config.sourceTask = some specs[j].name) (hd : specs[j].dependencies ≠ []) :
    ((config.steps (graph specs) (interner specs)).run.run (Scheduler.new q {})).1 =
      .error (.rootBarrierNotReady (config.processors + 1 + 2 * j)
        specs[j].dependencies.length) := by
  obtain ⟨s₁, hbuild, h₁, hph₁⟩ := build_renders (q := q) hacc hr hp hroom hdeg hwhole
  have hin : (config.problem specs q).inDegree j = specs[j].dependencies.length :=
    inDegree_problem hacc hj
  rw [steps_of_lookup hsrc (lookup_names hacc.distinct hj)]
  unfold Run.pipeline
  rw [run_bind_ok hbuild]
  have h := h₁.start_waiting hph₁ (by simpa using hj) (by rw [hin]; simpa using hd)
  rw [hin] at h
  exact run_bind_fst_error h

theorem steps_reports_unfired {source : Option Nat}
    (hsrc : ∀ t ∈ source,
      t < (config.problem specs q).size ∧ (config.problem specs q).inDegree t = 0)
    (hsteps : config.steps (graph specs) ns =
      Run.pipeline config.rootTime config.processors (graph specs) config.split source) :
    let out := (config.steps (graph specs) ns).run.run (Scheduler.new q {})
    let unfired := (config.problem specs q).unfired ((config.problem specs q).linked source)
    Reports (out.1 >>= fun _ => out.2.plan)
      (if unfired = [] then none else some (.unscheduled unfired)) := by
  intro out unfired
  obtain ⟨hrep, hplan⟩ := Direct.pipeline_reports (P := config.problem specs q) rfl hr hp
    wellFormed_problem (fun t ht => unitTimes_valid hacc hwhole t (by simpa using ht))
    (room_problem hroom) (inDegree_problem_lt hacc hdeg) hsrc
  have hout : out = (Run.pipeline config.rootTime config.processors (graph specs) config.split
      source).run.run (Scheduler.new q (Store.withLimit maxVertices)) := by
    simp only [out, hsteps, withLimit_maxVertices]
  rw [hout]
  exact reports_plan hrep hplan

end Checked

theorem unfired_problem (q' : UnitId → Double) (source : Option Nat) :
    (config.problem specs q).unfired ((config.problem specs q).linked source) =
      (config.problem specs q').unfired ((config.problem specs q').linked source) := by
  unfold Direct.Problem.unfired
  congr 1
  funext u
  rw [Direct.Problem.decide_fires, Direct.Problem.decide_fires]
  rfl

/-- The run of a simulation over accepted specifications reports the first of the run's checks that
fails. -/
theorem run_reports (hacc : Accepted specs) (hroom : config.vertexNeed specs ≤ maxVertices)
    (hdeg : ∀ spec ∈ specs, spec.dependencies.length < BarrierNode.inputLimit)
    (q : UnitId → Double) :
    let out := (config.steps (graph specs) (interner specs)).run.run (Scheduler.new q {})
    Reports (out.1 >>= fun _ => out.2.plan) ((config.runChecks specs).findSome? id) := by
  intro out
  have hout : (config.steps (graph specs) (interner specs)).run.run (Scheduler.new q {}) =
      out := rfl
  clear_value out
  have hnew : Scheduler.new q {} =
      Scheduler.new (config.problem specs q).priority (Store.withLimit maxVertices) := by
    simp [Store.withLimit, problem]
  have hroom' := room_problem (q := q) hroom
  have hg : (config.problem specs q).graph.WellFormed := wellFormed_problem
  have hdeg' : ∀ t < (config.problem specs q).size,
      (config.problem specs q).inDegree t < BarrierNode.inputLimit := by
    intro t ht
    rw [size_problem] at ht
    rw [inDegree_problem hacc ht]
    exact hdeg _ (List.getElem_mem ht)
  have herror : ∀ e, out.1 = .error e → Reports (out.1 >>= fun _ => out.2.plan) (some e) := by
    intro e he
    rw [he]
    exact rfl
  cases hr : config.rootTime.isFinite with
  | false =>
    have hc : (config.runChecks specs).findSome? id = some (.invalidRootTime config.rootTime) := by
      simp [runChecks, hr]
    rw [hc]
    exact herror _ (hout ▸ steps_of_not_isFinite hr {})
  | true =>
  by_cases hp : config.processors = 0
  · have hc : (config.runChecks specs).findSome? id = some .noProcessors := by
      simp [runChecks, hr, hp]
    rw [hc]
    exact herror _ (hout ▸ steps_of_processors_eq_zero hr hroom hp)
  have hp' : 0 < config.processors := Nat.pos_of_ne_zero hp
  by_cases hover : config.splitSubtasks = false ∧ (firstOverflow specs).isSome
  · obtain ⟨hs, hsome⟩ := hover
    obtain ⟨t, ht⟩ := Option.isSome_iff_exists.1 hsome
    have hc : (config.runChecks specs).findSome? id =
        some (.task (.invalidExecTime t 0 Double.inf)) := by
      simp [runChecks, hr, hp, hs, ht]
    rw [hc]
    exact herror _ (hout ▸ steps_of_firstOverflow hacc hr hp' hroom hdeg hs ht)
  have hwhole : config.splitSubtasks = false → firstOverflow specs = none := by
    intro hs
    simpa [hs] using hover
  have h3 : config.splitSubtasks = true ∨ firstOverflow specs = none := by
    cases hs : config.splitSubtasks
    · exact .inr (hwhole hs)
    · exact .inl rfl
  cases hsrc : config.sourceTask with
  | none =>
    have hc : (config.runChecks specs).findSome? id =
        let unfired := (config.problem specs q).unfired ((config.problem specs q).linked none)
        if unfired = [] then none else some (.unscheduled unfired) := by
      rcases h3 with h3 | h3 <;>
        simp [runChecks, hr, hp, hsrc, h3, unfired_problem (q := fun _ => Double.zero) q none]
    rw [hc, ← hout]
    exact steps_reports_unfired hacc hr hp' hroom hdeg hwhole (by simp)
      (steps_of_source_none hsrc)
  | some name =>
    by_cases hname : name ∈ names specs
    · obtain ⟨j, hj, rfl⟩ := exists_of_mem_names hname
      have hidx : (names specs).idxOf specs[j].name = j := by
        simpa [names] using hacc.distinct.idxOf_getElem j (by simpa [names] using hj)
      have hin : (config.problem specs q).inDegree j = specs[j].dependencies.length :=
        inDegree_problem hacc hj
      by_cases hd : specs[j].dependencies = []
      · have hc : (config.runChecks specs).findSome? id =
            let unfired := (config.problem specs q).unfired ((config.problem specs q).linked (some j))
            if unfired = [] then none else some (.unscheduled unfired) := by
          rcases h3 with h3 | h3 <;>
            simp [runChecks, hr, hp, hsrc, h3, hname, hidx, hd, List.getElem?_eq_getElem hj,
              unfired_problem (q := fun _ => Double.zero) q (some j)]
        rw [hc, ← hout]
        refine steps_reports_unfired hacc hr hp' hroom hdeg hwhole ?_
          (steps_of_lookup hsrc (lookup_names hacc.distinct hj))
        intro t ht
        cases ht
        exact ⟨by simpa using hj, by rw [hin, hd]; rfl⟩
      · have hc : (config.runChecks specs).findSome? id = some (.rootBarrierNotReady
            (config.processors + 1 + 2 * j) specs[j].dependencies.length) := by
          rcases h3 with h3 | h3 <;>
            simp [runChecks, hr, hp, hsrc, h3, hname, hidx, hd, List.getElem?_eq_getElem hj]
        rw [hc]
        exact herror _ (hout ▸ steps_of_waiting hacc hr hp' hroom hdeg hwhole hj hsrc hd)
    · have hc : (config.runChecks specs).findSome? id = some (.task (.unknownTaskName name)) := by
        rcases h3 with h3 | h3 <;> simp [runChecks, hr, hp, hsrc, h3, hname]
      rw [hc]
      exact herror _ (hout ▸ steps_of_unknown_source hacc hr hp' hroom hdeg hwhole hsrc hname)

end SimulationConfig

/-- A simulation over accepted specifications reports a strategy it does not know, and past that
what its run reports with its plan, when the run does so whatever priority it schedules by. -/
theorem simulate_reports_of_accepted {specs : List TaskSpec} {config : SimulationConfig}
    (hacc : TaskSpec.Accepted specs) {o : Option RunError}
    (hrun : ∀ q : UnitId → Double,
      let out := (config.steps (TaskSpec.graph specs) (TaskSpec.interner specs)).run.run
        (Scheduler.new q {})
      Reports (out.1 >>= fun _ => out.2.plan) o) :
    Reports (simulate specs config)
      ((if config.strategy ∈ ["task_order", "bottom_level", "explicit", "longest_first"] then none
        else some (.unknownStrategy config.strategy)).or o) := by
  rw [simulate_eq, TaskSpec.buildTaskGraph_of_accepted hacc]
  refine Reports.bind_of_ok rfl ?_
  dsimp only
  cases hs : Strategy.ofName? config.strategy with
  | none =>
    rw [if_neg (Strategy.ofName?_eq_none_iff.1 hs)]
    exact rfl
  | some strategy =>
    have hname : config.strategy ∈ ["task_order", "bottom_level", "explicit", "longest_first"] := by
      by_contra h
      rw [Strategy.ofName?_eq_none_iff.2 h] at hs
      cases hs
    rw [if_pos hname, Option.none_or]
    refine Reports.bind_of_ok rfl ?_
    -- the graph has an order, so every strategy ranks its units
    obtain ⟨order, hord, -⟩ | ⟨-, hcyc⟩ := @TaskSpec.topologicalOrder_graph specs
    swap
    · exact absurd hcyc hacc.acyclic
    obtain ⟨table, htable⟩ := PriorityTable.build_of_topologicalOrder hord strategy config.split
      (specs.map (·.priority)) config.defaultPriority
    refine Reports.bind_of_ok (a := table) (by rw [htable]; rfl) ?_
    have hout := hrun table.priority
    generalize (config.steps (TaskSpec.graph specs) (TaskSpec.interner specs)).run.run
      (Scheduler.new table.priority {}) = out at hout ⊢
    obtain ⟨r, s⟩ := out
    dsimp only at hout ⊢
    rw [← @Option.or_none _ o, ← bind_assoc]
    exact Reports.bind hout fun p _ => ⟨_, rfl⟩

end ListScheduling
