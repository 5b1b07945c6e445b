import Rewind.Proofs.Controller.Apart
import Rewind.Proofs.Controller.Reach

/-! Many rounds at once, or some now and the others later.

A call for `a + b` rounds, forward or back, comes to the same as one for `a` followed by one for `b`
(`Controller.step_add`, `Controller.stepBack_add`). Going back ends early once no unit has anything
to go back to; the rollback that finds this out has then cleared what was left on record, and to
repeat it changes nothing (`Controller.stepBackOnto_of_nothing`). In this the order of tasks makes a
difference to the order of reports alone, and there only within a round
(`Controller.HaltsByRound`). -/

namespace Rewind

/-! ### Reports and answers that follow one another -/

namespace StepReport

def append (r r' : StepReport) : StepReport :=
  { rounds := r.rounds + r'.rounds
    halted := r.halted ++ r'.halted
    interrupted := r.interrupted || r'.interrupted
    restored := r.restored ++ r'.restored }

instance : Append StepReport := ⟨append⟩

variable (r r' r'' : StepReport)

theorem append_eq : r ++ r' =
    { rounds := r.rounds + r'.rounds
      halted := r.halted ++ r'.halted
      interrupted := r.interrupted || r'.interrupted
      restored := r.restored ++ r'.restored } := rfl

theorem append_assoc : r ++ r' ++ r'' = r ++ (r' ++ r'') := by
  simp only [append_eq, Nat.add_assoc, List.append_assoc, Bool.or_assoc]

@[simp] theorem empty_append : empty ++ r = r := by
  simp [append_eq, empty]

@[simp] theorem append_empty : r ++ empty = r := by
  simp [append_eq, empty]

end StepReport

namespace Answer

/-- The answer when a report and failures from before come first. -/
def onto (report : StepReport) (failures : List (TaskFailure UnitId)) (x : Answer StepReport) :
    Answer StepReport :=
  ⟨x.controller, failures ++ x.failures, x.result.map (report ++ ·)⟩

/-- One call after another, which is not made if the first fails. -/
def andThen (x : Answer StepReport) (next : Controller → Answer StepReport) : Answer StepReport :=
  match x.result with
  | .ok r => (next x.controller).onto r x.failures
  | .error _ => x

theorem onto_onto (report report' : StepReport) (failures failures' : List (TaskFailure UnitId))
    (x : Answer StepReport) :
    (x.onto report' failures').onto report failures =
      x.onto (report ++ report') (failures ++ failures') := by
  obtain ⟨c, more, e | r⟩ := x
  · simp [onto, Except.map]
  · simp [onto, Except.map, StepReport.append_assoc]

@[simp] theorem onto_empty (x : Answer StepReport) : x.onto .empty [] = x := by
  obtain ⟨c, more, e | r⟩ := x <;> simp [onto, Except.map]

theorem onto_andThen (report : StepReport) (failures : List (TaskFailure UnitId))
    (x : Answer StepReport) (next : Controller → Answer StepReport) :
    (x.onto report failures).andThen next = (x.andThen next).onto report failures := by
  obtain ⟨c, more, e | r⟩ := x
  · rfl
  · exact (onto_onto report r failures more (next c)).symm

theorem andThen_of_ok {x : Answer StepReport} {next : Controller → Answer StepReport}
    {r : StepReport} (h : x.result = .ok r) :
    x.andThen next = (next x.controller).onto r x.failures := by
  rw [andThen, h]

theorem andThen_assoc (x : Answer StepReport) (next next' : Controller → Answer StepReport) :
    (x.andThen next).andThen next' = x.andThen fun c => (next c).andThen next' := by
  obtain ⟨c, more, e | r⟩ := x
  · rfl
  · exact onto_andThen r more (next c) next'

theorem andThen_congr {x : Answer StepReport} {next next' : Controller → Answer StepReport}
    (h : next x.controller = next' x.controller) : x.andThen next = x.andThen next' := by
  rw [andThen, andThen, h]

theorem andThen_of_error {x : Answer StepReport} {next : Controller → Answer StepReport}
    {e : ControllerError} (h : x.result = .error e) : x.andThen next = x := by
  rw [andThen, h]

/-- Two calls, one after the other, succeed exactly if both do. -/
theorem ok_of_andThen {x : Answer StepReport} {next : Controller → Answer StepReport}
    {r : StepReport} (h : (x.andThen next).result = .ok r) :
    (∃ r', x.result = .ok r') ∧ ∃ r', (next x.controller).result = .ok r' := by
  cases hx : x.result with
  | error e =>
    rw [andThen_of_error hx, hx] at h
    cases h
  | ok r₁ =>
    rw [andThen_of_ok hx, onto] at h
    cases hnext : (next x.controller).result with
    | error e => rw [hnext] at h; cases h
    | ok r₂ => exact ⟨⟨r₁, rfl⟩, r₂, rfl⟩

/-- Where both calls succeed, so do they one after the other. -/
theorem result_andThen {x : Answer StepReport} {next : Controller → Answer StepReport}
    {r r' : StepReport} (h : x.result = .ok r) (h' : (next x.controller).result = .ok r') :
    (x.andThen next).result = .ok (r ++ r') := by
  rw [andThen_of_ok h, onto, h']
  rfl

theorem controller_andThen {x : Answer StepReport} {next : Controller → Answer StepReport}
    {r : StepReport} (h : x.result = .ok r) :
    (x.andThen next).controller = (next x.controller).controller := by
  rw [andThen_of_ok h, onto]

end Answer

namespace Answer.Agrees
variable {x y : Answer StepReport}

theorem symm (h : x.Agrees y) : y.Agrees x := by
  refine ⟨h.controller.symm, h.failures.symm, ?_⟩
  rcases h.result with ⟨e, hx, hy⟩ | ⟨r, r', hx, hy, hrounds, hhalted⟩
  · exact .inl ⟨e, hy, hx⟩
  · exact .inr ⟨r', r, hy, hx, hrounds.symm, hhalted.symm⟩

theorem exists_ok {r : StepReport} (h : x.Agrees y) (hok : x.result = .ok r) :
    ∃ r', y.result = .ok r' := by
  rcases h.result with ⟨e, hx, -⟩ | ⟨_, r', -, hy, -⟩
  · rw [hok] at hx
    cases hx
  · exact ⟨r', hy⟩

end Answer.Agrees

namespace Controller

/-! ### Forward -/

section
variable (c : Controller)

/-- Rounds only add to what has been reported before. -/
theorem stepOnto_eq (report : StepReport) (failures : List (TaskFailure UnitId)) (n : Nat) :
    c.stepOnto report failures n = (c.step n).onto report failures := by
  induction n generalizing c report failures with
  | zero => simp [step, stepOnto, Answer.onto, Except.map]
  | succ n ih =>
    rw [step, stepOnto_succ, stepOnto_succ]
    rcases c.step 1 with ⟨c', more, e | r⟩
    · rfl
    · simp only [ih c', Answer.onto_onto]
      simp [StepReport.append_eq, StepReport.empty]

/-- The report of a single round. -/
theorem step_one_report {r : StepReport} (h : (c.step 1).result = .ok r) :
    r = { StepReport.empty with rounds := 1, halted := r.halted } := by
  rw [step, stepOnto] at h
  cases hround : c.scheduler.runRound Simulation.step c.units with
  | error e => rw [hround] at h; cases h
  | ok q =>
    rw [hround] at h
    simp only at h
    split at h
    · split at h
      · rw [stepOnto] at h
        exact Except.ok.inj h ▸ rfl
      · cases h
    · rw [stepOnto] at h
      exact Except.ok.inj h ▸ rfl

theorem step_succ (n : Nat) : c.step (n + 1) = (c.step 1).andThen (·.step n) := by
  rw [step, stepOnto_succ]
  rcases hstep : c.step 1 with ⟨c', more, e | r⟩
  · rfl
  · have hr := c.step_one_report (r := r) (by rw [hstep])
    simp only [stepOnto_eq c']
    rw [hr]
    rfl

/-- **Rounds add up**, whatever comes of them. -/
theorem step_add (a b : Nat) : c.step (a + b) = (c.step a).andThen (·.step b) := by
  induction a generalizing c with
  | zero =>
    rw [Nat.zero_add]
    exact (Answer.onto_empty _).symm
  | succ a ih =>
    rw [Nat.succ_add, step_succ, step_succ c a, Answer.andThen_assoc]
    simp only [ih]

end

/-! ### Back -/

section
variable {c : Controller}

theorem stepBackOnto_eq (h : c.units.keys.Nodup) (report : StepReport) (n : Nat) :
    c.stepBackOnto report n = (c.stepBack n).onto report [] := by
  induction n generalizing c report with
  | zero => simp [stepBack, stepBackOnto, Answer.onto, Except.map]
  | succ n ih =>
    rw [stepBack, stepBackOnto_succ h, stepBackOnto_succ h]
    rcases c.rollback.failure with _ | ⟨unit, e⟩
    · by_cases hnothing : goals c.rollback.answers = []
      · simp [hnothing, Answer.onto, Except.map]
      · have hrest := ih (c := c.rolledBack) (keys_rolledBack c ▸ h)
        simp only [if_neg hnothing, hrest, Answer.onto_onto]
        simp [StepReport.append_eq, StepReport.empty]
    · rfl

/-- A rollback of all units finds nothing exactly if it finds nothing for any of them. -/
theorem finds_nothing_iff :
    c.rollback.failure = none ∧ goals c.rollback.answers = [] ↔
      ∀ u ∈ c.units.entries, ∃ t, u.2.restore c.recorder = .ok (t, .nothing) := by
  constructor
  · rintro ⟨hfailure, hnothing⟩ u hu
    have hall := Team.failure_sweep_eq_none.mp hfailure
    obtain ⟨⟨t, a⟩, ht⟩ := hall u hu
    change u.2.restore c.recorder = .ok (t, a) at ht
    cases a with
    | nothing => exact ⟨t, ht⟩
    | _ cycle =>
      have hanswer : (u.1, Restored.to cycle) ∈ c.rollback.answers := by
        rw [rollback, Team.restore, Team.sweep_of_ok hall]
        exact List.mem_filterMap.mpr ⟨u, hu, by rw [Simulation.answer?_eq_some.mpr ⟨t, ht⟩]; rfl⟩
      have hgoal : u.1 ∈ (goals c.rollback.answers).map Prod.fst :=
        mem_goals.mpr ⟨cycle, mem_said.mpr hanswer⟩
      rw [hnothing] at hgoal
      cases hgoal
  · intro h
    have hall : ∀ u ∈ c.units.entries, ∃ p, (Simulation.restore · c.recorder) u.2 = .ok p :=
      fun u hu => (h u hu).elim fun t ht => ⟨_, ht⟩
    refine ⟨Team.failure_sweep_eq_none.mpr hall, List.filterMap_eq_nil_iff.mpr fun a ha => ?_⟩
    rw [rollback, Team.restore, Team.sweep_of_ok hall] at ha
    obtain ⟨u, hu, ha⟩ := List.mem_filterMap.mp ha
    obtain ⟨t, ht⟩ := h u hu
    rw [Simulation.answer?_eq_some.mpr ⟨t, ht⟩] at ha
    rw [← Option.some.inj ha]

/-- What a rollback leaves that finds nothing, more rollbacks leave as it is. -/
theorem rolledBack_of_nothing
    (h : ∀ u ∈ c.units.entries, ∃ t, u.2.restore c.recorder = .ok (t, .nothing)) :
    (∀ u ∈ c.rolledBack.units.entries, u.2.restore c.recorder = .ok (u.2, .nothing)) ∧
      c.rolledBack.rolledBack = c.rolledBack := by
  have hunits : c.rolledBack.units.entries =
      c.units.entries.map fun u => (u.1, u.2.moved (Simulation.restore · c.recorder)) := by
    show c.rollback.team = _
    rw [rollback, Team.restore, Team.sweep_of_ok fun u hu => (h u hu).elim fun t ht => ⟨_, ht⟩]
  have hsame : ∀ u ∈ c.rolledBack.units.entries,
      u.2.restore c.recorder = .ok (u.2, .nothing) := by
    intro v hv
    rw [hunits] at hv
    obtain ⟨u, hu, rfl⟩ := List.mem_map.mp hv
    obtain ⟨t, ht⟩ := h u hu
    have hmoved : u.2.moved (Simulation.restore · c.recorder) = t := Simulation.moved_of_ok ht
    simp only [hmoved, Simulation.restore_of_nothing ht]
  refine ⟨hsame, ?_⟩
  have hteam : c.rolledBack.rollback.team = c.rolledBack.units.entries := by
    rw [rollback, Team.restore, Team.sweep_of_ok fun u hu => ⟨_, hsame u hu⟩]
    refine (List.map_congr_left fun u hu => ?_).trans (List.map_id' _)
    have hmoved : u.2.moved (Simulation.restore · c.recorder) = u.2 :=
      Simulation.moved_of_ok (hsame u hu)
    exact congrArg (Prod.mk u.1) hmoved
  have hgoals : goals c.rolledBack.rollback.answers = [] :=
    (finds_nothing_iff (c := c.rolledBack).mpr fun u hu => ⟨u.2, hsame u hu⟩).2
  rw [rolledBack, hteam, hgoals]
  rfl

theorem stepBackOnto_of_nothing (hnodup : c.units.keys.Nodup)
    (h : ∀ u ∈ c.units.entries, ∃ t, u.2.restore c.recorder = .ok (t, .nothing))
    (report : StepReport) (n : Nat) :
    c.rolledBack.stepBackOnto report n = ⟨c.rolledBack, [], .ok report⟩ := by
  obtain ⟨hsame, hagain⟩ := rolledBack_of_nothing h
  obtain ⟨hfailure, hnothing⟩ := (finds_nothing_iff (c := c.rolledBack)).mpr
    fun u hu => ⟨u.2, hsame u hu⟩
  cases n with
  | zero => rfl
  | succ n =>
    rw [stepBackOnto_succ (keys_rolledBack c ▸ hnodup), hfailure, hagain]
    exact if_pos hnothing

theorem stepBack_succ (h : c.units.keys.Nodup) (n : Nat) :
    c.stepBack (n + 1) = (c.stepBack 1).andThen (·.stepBack n) := by
  rw [stepBack, stepBack, stepBackOnto_succ h, stepBackOnto_succ h]
  rcases hfailure : c.rollback.failure with _ | ⟨unit, e⟩
  · by_cases hnothing : goals c.rollback.answers = []
    · have hrest := stepBackOnto_of_nothing h (finds_nothing_iff.mp ⟨hfailure, hnothing⟩) .empty n
      simp only [if_pos hnothing, Answer.andThen, stepBack, hrest, Answer.onto_empty]
    · simp only [if_neg hnothing]
      exact stepBackOnto_eq (keys_rolledBack c ▸ h) _ n
  · rfl

theorem keys_stepBack (h : c.units.keys.Nodup) (n : Nat) :
    (c.stepBack n).controller.units.keys = c.units.keys := by
  have hwound {turns : UnitId → Nat} {c' : Controller} (hw : c.WoundBack turns c') :
      c'.units.keys = c.units.keys := by
    rw [hw.units, Table.keys, List.map_map]
    rfl
  rcases stepBackOnto_cases h .empty n with ⟨_, -, hw⟩ | ⟨_, _, _, _, _, _, _, _, _, _, _, _, hw⟩
  · exact hwound hw
  · exact hwound hw

/-- **Rollbacks add up**, whatever comes of them and whenever the histories run out. -/
theorem stepBack_add (h : c.units.keys.Nodup) (a b : Nat) :
    c.stepBack (a + b) = (c.stepBack a).andThen (·.stepBack b) := by
  induction a generalizing c with
  | zero =>
    rw [Nat.zero_add]
    exact (Answer.onto_empty _).symm
  | succ a ih =>
    rw [Nat.succ_add, stepBack_succ h (a + b), stepBack_succ h a, Answer.andThen_assoc]
    refine Answer.andThen_congr ?_
    exact ih ((keys_stepBack h 1).symm ▸ h)

end

/-! ### In any order -/

/-- Runs so many rounds along a plan. -/
def stepAlong (plan : Plan) (c : Controller) (n : Nat) : Answer StepReport :=
  c.stepOntoAlong plan .empty [] n

/-- The units that halt in each of the next rounds. -/
def haltingIn (c : Controller) (n : Nat) : List (List UnitId) :=
  (List.range n).map fun i => (c.step i).controller.halting

/-- Round after round the list has the units that halt in it, those of one round in any order. -/
def HaltsByRound (c : Controller) (n : Nat) (units : List UnitId) : Prop :=
  ∃ rounds : List (List UnitId), units = rounds.flatten ∧
    List.Forall₂ List.Perm rounds (c.haltingIn n)

section
variable {c : Controller} {r r' : StepReport}

theorem haltingIn_add {a : Nat} (h : (c.step a).result = .ok r) (b : Nat) :
    c.haltingIn (a + b) = c.haltingIn a ++ (c.step a).controller.haltingIn b := by
  rw [haltingIn, List.range_add, List.map_append, List.map_map]
  refine congrArg (_ ++ ·) (List.map_congr_left fun i _ => ?_)
  show (c.step (a + i)).controller.halting = _
  rw [step_add, Answer.controller_andThen h]

theorem HaltsByRound.append {a b : Nat} {units units' : List UnitId}
    (hok : (c.step a).result = .ok r) (h : c.HaltsByRound a units)
    (h' : (c.step a).controller.HaltsByRound b units') :
    c.HaltsByRound (a + b) (units ++ units') := by
  obtain ⟨rounds, rfl, hrounds⟩ := h
  obtain ⟨rounds', rfl, hrounds'⟩ := h'
  refine ⟨rounds ++ rounds', List.flatten_append.symm, ?_⟩
  rw [haltingIn_add hok]
  exact List.rel_append hrounds hrounds'

theorem HaltsByRound.one {units : List UnitId} (h : units.Perm c.halting) :
    c.HaltsByRound 1 units :=
  ⟨[units], (List.append_nil units).symm, .cons h .nil⟩

namespace InService

/-- The first round along a plan comes to what it comes to without, and reports it in some order. -/
theorem stepOntoAlong_succ (h : c.InService) (hworkers : 0 < c.scheduler.mode.workers)
    (plan : Plan) (report : StepReport) (failures : List (TaskFailure UnitId)) (n : Nat) :
    let p := (c.scheduler.along Simulation.step (plan.turns c.scheduler c.units) c.units).progress
    p.halted.Perm c.halting ∧ c.stepOntoAlong plan report failures (n + 1) =
      match (c.step 1).result with
      | .ok _ => (c.step 1).controller.stepOntoAlong plan
        { report with rounds := report.rounds + 1, halted := report.halted ++ p.halted }
        (failures ++ p.failures) n
      | .error e => ⟨(c.step 1).controller, failures ++ p.failures, .error e⟩ := by
  intro p
  obtain ⟨q, _, hround, hadvanced, hhalted, -⟩ := h.runRoundAlong_plan hworkers plan
  obtain ⟨-, -, rfl, -⟩ := Scheduler.done_of_runRoundAlong hround
  refine ⟨hhalted, ?_⟩
  rw [stepOntoAlong, hround, h.step_one, ← h.recording_advanced]
  simp only [hadvanced]
  split
  · rw [recordEach_keys h.advanced.nodup]
    cases c.advanced.recordPass.result <;> rfl
  · rfl

theorem halts_stepOntoAlong (h : c.InService) (hworkers : 0 < c.scheduler.mode.workers)
    (plan : Plan) {report : StepReport} {failures : List (TaskFailure UnitId)} {n : Nat}
    (hok : (c.stepOntoAlong plan report failures n).result = .ok r) :
    ∃ units, c.HaltsByRound n units ∧
      r = { report with rounds := report.rounds + n, halted := report.halted ++ units } := by
  induction n generalizing c report failures with
  | zero =>
    obtain rfl := Except.ok.inj hok
    exact ⟨[], ⟨[], rfl, .nil⟩, by rw [List.append_nil]; rfl⟩
  | succ n ih =>
    obtain ⟨hunits, hstep⟩ := h.stepOntoAlong_succ hworkers plan report failures n
    rw [hstep] at hok
    cases hone : (c.step 1).result with
    | error e => rw [hone] at hok; cases hok
    | ok r₁ =>
      rw [hone] at hok
      have hmode : (c.step 1).controller.scheduler.mode = c.scheduler.mode :=
        (h.seatWise_step 1).mode
      obtain ⟨later, hlater, rfl⟩ := ih (h.lives_step _ _ 1).inService (hmode ▸ hworkers) hok
      refine ⟨_, Nat.add_comm 1 n ▸ (HaltsByRound.one hunits).append hone hlater, ?_⟩
      simp only [List.append_assoc, Nat.add_assoc, Nat.add_comm 1 n]

theorem agrees_stepAlong (h : c.InService) (hworkers : 0 < c.scheduler.mode.workers) (plan : Plan)
    (n : Nat) : (c.stepAlong plan n).Agrees (c.step n) :=
  h.agrees_stepOntoAlong hworkers plan rfl (.refl _) (.refl _) n

theorem halts_stepAlong (h : c.InService) (hworkers : 0 < c.scheduler.mode.workers) (plan : Plan)
    {n : Nat} (hok : (c.stepAlong plan n).result = .ok r) :
    c.HaltsByRound n r.halted ∧ r = { StepReport.empty with rounds := n, halted := r.halted } := by
  obtain ⟨units, hunits, rfl⟩ := h.halts_stepOntoAlong hworkers plan hok
  exact ⟨hunits, by rw [StepReport.empty, Nat.zero_add]⟩

/-- Rounds add up along any plans. -/
theorem stepAlong_add (h : c.InService) (hworkers : 0 < c.scheduler.mode.workers)
    (plan plan' plan'' : Plan) {a b : Nat} (hfirst : (c.stepAlong plan a).result = .ok r)
    (hsecond : ((c.stepAlong plan a).controller.stepAlong plan' b).result = .ok r') :
    ∃ r'', (c.stepAlong plan'' (a + b)).result = .ok r'' ∧
      (c.stepAlong plan'' (a + b)).controller =
        ((c.stepAlong plan a).controller.stepAlong plan' b).controller ∧
      r''.rounds = r.rounds + r'.rounds ∧
      c.HaltsByRound (a + b) (r.halted ++ r'.halted) ∧ c.HaltsByRound (a + b) r''.halted := by
  have hstep : (c.stepAlong plan a).Agrees (c.step a) := h.agrees_stepAlong hworkers plan a
  obtain ⟨hhalts, hr⟩ := h.halts_stepAlong hworkers plan hfirst
  rw [hstep.controller] at hsecond ⊢
  have hnext : (c.step a).controller.InService := (h.lives_step _ _ a).inService
  have hworkers' : 0 < (c.step a).controller.scheduler.mode.workers :=
    (h.seatWise_step a).mode ▸ hworkers
  have hstep' := hnext.agrees_stepAlong hworkers' plan' b
  obtain ⟨hhalts', hr'⟩ := hnext.halts_stepAlong hworkers' plan' hsecond
  have hwhole : (c.stepAlong plan'' (a + b)).Agrees (c.step (a + b)) :=
    h.agrees_stepAlong hworkers plan'' (a + b)
  obtain ⟨r₁, hr₁⟩ := hstep.exists_ok hfirst
  obtain ⟨r₂, hr₂⟩ := hstep'.exists_ok hsecond
  have hok : (c.step (a + b)).result = .ok (r₁ ++ r₂) := by
    rw [step_add]
    exact Answer.result_andThen hr₁ hr₂
  obtain ⟨r'', hok''⟩ := hwhole.symm.exists_ok hok
  obtain ⟨hhalts'', hr''⟩ := h.halts_stepAlong hworkers plan'' hok''
  refine ⟨r'', hok'', ?_, ?_, hhalts.append hr₁ hhalts', hhalts''⟩
  · rw [hwhole.controller, hstep'.controller, step_add, Answer.controller_andThen hr₁]
  · rw [hr'', hr, hr']

end InService

theorem stepAlong_of_disposed (h : c.scheduler.disposed = true) (plan : Plan) {n : Nat}
    (hok : (c.stepAlong plan n).result = .ok r) : n = 0 := by
  cases n with
  | zero => rfl
  | succ n =>
    rw [stepAlong, stepOntoAlong, Scheduler.runRoundAlong_of_disposed h] at hok
    cases hok

end

/-- **Steps and rollbacks add up.** Take any state that a controller can get into. Where neither of
two calls for `a` rounds and then for `b` rounds reports an error, along whatever plans, one call
for `a + b` rounds along whatever plan leaves the controller in the same state; its rounds are the
rounds of both, and it reports the same halted units for every round. In the same way two calls to
go back leave the controller as one call does, which reports the rounds of both and the units
restored by the first and then those restored by the second. -/
theorem additive {settings : Settings} {formats : FormatTable} {c : Controller}
    (h : Reachable settings formats c) (a b : Nat) :
    (∀ (plan plan' plan'' : Plan) (r r' : StepReport),
      let first := c.stepAlong plan a
      let second := first.controller.stepAlong plan' b
      let whole := c.stepAlong plan'' (a + b)
      first.result = .ok r → second.result = .ok r' →
        ∃ r'', whole.result = .ok r'' ∧ whole.controller = second.controller ∧
          r''.rounds = r.rounds + r'.rounds ∧
          c.HaltsByRound (a + b) (r.halted ++ r'.halted) ∧ c.HaltsByRound (a + b) r''.halted) ∧
    ∀ r r' : StepReport,
      let first := c.stepBack a
      let second := first.controller.stepBack b
      let whole := c.stepBack (a + b)
      first.result = .ok r → second.result = .ok r' →
        ∃ r'', whole.result = .ok r'' ∧ whole.controller = second.controller ∧
          r''.rounds = r.rounds + r'.rounds ∧ r''.restored = r.restored ++ r'.restored := by
  have hsound := h.sound
  constructor
  · intro plan plan' plan'' r r' first second whole hfirst hsecond
    cases hdisposed : c.scheduler.disposed with
    | false =>
      exact (hsound.inService hdisposed).stepAlong_add hsound.workers plan plan' plan'' hfirst
        hsecond
    | true =>
      -- No round can be run.
      obtain rfl := stepAlong_of_disposed hdisposed plan hfirst
      obtain rfl := stepAlong_of_disposed hdisposed plan' hsecond
      obtain rfl := Except.ok.inj hfirst
      obtain rfl := Except.ok.inj hsecond
      exact ⟨.empty, rfl, rfl, rfl, ⟨[], rfl, .nil⟩, ⟨[], rfl, .nil⟩⟩
  · intro r r' first second whole hfirst hsecond
    have hwhole : whole = first.andThen (·.stepBack b) := stepBack_add hsound.nodup a b
    refine ⟨r ++ r', ?_, ?_, rfl, rfl⟩
    · rw [hwhole]
      exact Answer.result_andThen hfirst hsecond
    · rw [hwhole]
      exact Answer.controller_andThen hfirst

end Controller

/-- Two units of different age, of which the younger halts next. -/
def Sample.staggered : Controller :=
  (Controller.ofSettings paired .standard).run [.add idle, .step 2, .add (halting 1), .step 1]

/-- The younger halts in the first of three rounds. It has nothing to go back to in the second
rollback and none of the two has in the fourth. -/
theorem Controller.additive_staggered :
    Reachable Sample.paired .standard Sample.staggered ∧
    (∃ (plan : Plan) (r r' r'' : StepReport),
      (Sample.staggered.stepAlong plan 2).result = .ok r ∧
      ((Sample.staggered.stepAlong plan 2).controller.stepAlong plan 2).result = .ok r' ∧
      (Sample.staggered.stepAlong plan 4).result = .ok r'' ∧ r''.rounds = r.rounds + r'.rounds ∧
      Sample.staggered.HaltsByRound 4 r''.halted ∧
      Sample.staggered.haltingIn 4 = [[⟨2⟩], [], [], []]) ∧
    ∃ r r' r'' : StepReport,
      (Sample.staggered.stepBack 2).result = .ok r ∧
      ((Sample.staggered.stepBack 2).controller.stepBack 2).result = .ok r' ∧
      (Sample.staggered.stepBack 4).result = .ok r'' ∧ r''.rounds = r.rounds + r'.rounds ∧
      r''.rounds = 3 ∧ r''.restored = r.restored ++ r'.restored ∧
      r.restored = [(⟨1⟩, 2), (⟨2⟩, 0), (⟨1⟩, 1)] ∧ r'.restored = [(⟨1⟩, 0)] := by
  obtain ⟨plan⟩ := (inferInstance : Nonempty Plan)
  have hreach : Reachable Sample.paired .standard Sample.staggered := reachable_run _ _ _
  have hservice := hreach.sound.inService (by decide +kernel)
  obtain ⟨hforward, hback⟩ := additive hreach 2 2
  refine ⟨hreach, ?_, ?_⟩
  · have hfirst : (Sample.staggered.step 2).result =
        .ok { StepReport.empty with rounds := 2, halted := [⟨2⟩] } := by decide +kernel
    have hsecond : ((Sample.staggered.step 2).controller.step 2).result =
        .ok { StepReport.empty with rounds := 2 } := by decide +kernel
    have hagrees := hservice.agrees_stepAlong hreach.sound.workers plan 2
    have hnext : (Sample.staggered.step 2).controller.InService :=
      (hservice.lives_call (.step 2)).inService
    have hworkers : 0 < (Sample.staggered.step 2).controller.scheduler.mode.workers :=
      (hservice.seatWise_step 2).mode ▸ hreach.sound.workers
    obtain ⟨r, hr⟩ := hagrees.symm.exists_ok hfirst
    obtain ⟨r', hr'⟩ := (hnext.agrees_stepAlong hworkers plan 2).symm.exists_ok hsecond
    rw [← hagrees.controller] at hr'
    obtain ⟨r'', hr'', -, hrounds, -, hhalts⟩ := hforward plan plan plan r r' hr hr'
    exact ⟨plan, r, r', r'', hr, hr', hr'', hrounds, hhalts, by decide +kernel⟩
  · have hfirst : (Sample.staggered.stepBack 2).result =
        .ok { StepReport.empty with rounds := 2, restored := [(⟨1⟩, 2), (⟨2⟩, 0), (⟨1⟩, 1)] } := by
      decide +kernel
    have hsecond : ((Sample.staggered.stepBack 2).controller.stepBack 2).result =
        .ok { StepReport.empty with rounds := 1, restored := [(⟨1⟩, 0)] } := by decide +kernel
    obtain ⟨r'', hr'', -, hrounds, hrestored⟩ := hback _ _ hfirst hsecond
    exact ⟨_, _, r'', hfirst, hsecond, hr'', hrounds, hrounds, hrestored, rfl, rfl⟩

end Rewind
