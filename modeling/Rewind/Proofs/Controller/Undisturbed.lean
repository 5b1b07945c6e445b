import Rewind.Proofs.Controller.Additive
import Rewind.Proofs.Scheduler.View

/-! Recording does not disturb the simulation.

What is on record of a unit is not looked at when it is stepped (`Simulation.step_bare`). So two
controllers that hold the same units but for that (`Likewise`) stay like that, call after call, as
long as no call takes a unit back; whether, how and how deep they record makes no difference
(`Likewise.run`). They report the same of every round (`Likewise.haltingIn`,
`Likewise.stepAlong`). -/

namespace Rewind

namespace Simulation

/-- A unit with nothing on record. -/
def bare (s : Simulation) : Simulation := { s with history := none }

theorem step_bare (s : Simulation) : s.bare.step = (s.step.1.bare, s.step.2) := by
  simp only [step, bare]
  rcases runBehaviors s.context s.cycle s.behaviors s.root with ⟨behaviors, root, o⟩
  cases o <;> rfl

theorem bare_record {r : Recorder} {s t : Simulation} (h : s.record r = .ok t) :
    t.bare = s.bare := by
  obtain ⟨bs, -, rfl⟩ := record_eq_ok h
  rfl

end Simulation

namespace Controller

theorem bare_recorded (c : Controller) :
    c.recorded.units.map Simulation.bare = c.units.map Simulation.bare := by
  obtain ⟨gone, rest, hentries, hgone, hteam, -⟩ :=
    Team.sweep_split (Simulation.recordTo c.recorder) c.units.entries
  refine congrArg Table.mk ?_
  show c.recordPass.team.map _ = _
  rw [recordPass, Team.record, hteam, hentries, List.map_append, List.map_append, List.map_map]
  refine congrArg (· ++ _) (List.map_congr_left fun u hu => ?_)
  obtain ⟨⟨t, _⟩, ht⟩ := hgone u hu
  have hmoved : u.2.moved (Simulation.recordTo c.recorder) = t := Simulation.moved_of_ok ht
  show (u.1, (u.2.moved _).bare) = (u.1, u.2.bare)
  rw [hmoved, Simulation.bare_record (Simulation.record_of_recordTo ht)]

end Controller

/-- Two controllers hold the same units, but for what is on record of them, and have the same
schedule. -/
structure Likewise (c c' : Controller) : Prop where
  here : c.InService
  there : c'.InService
  scheduler : c'.scheduler = c.scheduler
  units : c'.units.map Simulation.bare = c.units.map Simulation.bare
  nextId : c'.nextId = c.nextId

namespace Likewise
variable {c c' : Controller}

theorem ofSettings (settings settings' : Settings) (formats formats' : FormatTable)
    (h : settings'.concurrency = settings.concurrency) :
    Likewise (.ofSettings settings formats) (.ofSettings settings' formats') := by
  refine ⟨Controller.inService_ofSettings _ _, Controller.inService_ofSettings _ _, ?_, rfl, rfl⟩
  simp only [Controller.ofSettings, h]

theorem keys (h : Likewise c c') : c'.units.keys = c.units.keys := by
  rw [← Table.keys_map (g := Simulation.bare), h.units, Table.keys_map]

theorem get? (h : Likewise c c') (u : UnitId) :
    (c'.units.get? u).map Simulation.bare = (c.units.get? u).map Simulation.bare := by
  rw [← Table.get?_map, h.units, Table.get?_map]

theorem scheduled (h : Likewise c c') : c'.scheduled = c.scheduled :=
  congrArg Scheduler.units h.scheduler

theorem outcomeIn (h : Likewise c c') (u : UnitId) :
    outcomeIn c'.units u = outcomeIn c.units u := by
  have hbare (o : Option Simulation) :
      o.map (fun s => s.step.2) = (o.map Simulation.bare).map fun s => s.step.2 := by
    cases o with
    | none => rfl
    | some s => simp only [Option.map_some, Simulation.step_bare]
  rw [Rewind.outcomeIn, Rewind.outcomeIn, hbare, h.get?, ← hbare]

theorem halting (h : Likewise c c') : c'.halting = c.halting := by
  rw [Controller.halting, Controller.halting, h.scheduled]
  simp only [h.outcomeIn]

/-! ### One round -/

theorem advanced (h : Likewise c c') : Likewise c.advanced c'.advanced := by
  obtain ⟨p, hp, hphalted, -, hadvanced⟩ := h.here.advanced_eq
  obtain ⟨q, hq, hqhalted, -, hadvanced'⟩ := h.there.advanced_eq
  refine ⟨h.here.advanced, h.there.advanced, ?_, ?_, ?_⟩
  · rw [hadvanced, hadvanced', Controller.afterRound, Controller.afterRound, hphalted, hqhalted,
      h.halting, h.scheduler]
  · have hkeys : c.advanced.units.keys = c.units.keys := by rw [hadvanced]; exact hp.keys
    have hkeys' : c'.advanced.units.keys = c'.units.keys := by rw [hadvanced']; exact hq.keys
    refine Table.eq_of_get? ?_ ?_ fun u => ?_
    · rw [Table.keys_map, Table.keys_map, hkeys, hkeys', h.keys]
    · rw [Table.keys_map, hkeys']
      exact h.there.nodup
    · -- What is seen of a unit after the round depends on what was seen of it before.
      have hbare (b : Prop) [Decidable b] (o : Option Simulation) :
          (o.map fun s => if b then s.step.1 else s).map Simulation.bare =
            (o.map Simulation.bare).map fun s => if b then s.step.1 else s := by
        cases o with
        | none => rfl
        | some s => by_cases hb : b <;> simp [hb, Simulation.step_bare]
      rw [Table.get?_map, Table.get?_map, h.here.get?_advanced, h.there.get?_advanced, hbare, hbare,
        h.get?, h.scheduled]
  · rw [hadvanced, hadvanced']
    exact h.nextId

/-- Either of the two may be recorded. -/
theorem recorded_left (h : Likewise c c') : Likewise c.recorded c' :=
  ⟨h.here.recorded, h.there, h.scheduler, h.units.trans c.bare_recorded.symm, h.nextId⟩

theorem recorded_right (h : Likewise c c') : Likewise c c'.recorded :=
  ⟨h.here, h.there.recorded, h.scheduler, c'.bare_recorded.trans h.units, h.nextId⟩

theorem step_one (h : Likewise c c') : Likewise (c.step 1).controller (c'.step 1).controller := by
  rw [h.here.step_one, h.there.step_one]
  cases c.recording <;> cases c'.recording
  · exact h.advanced
  · exact h.advanced.recorded_right
  · exact h.advanced.recorded_left
  · exact h.advanced.recorded_left.recorded_right

/-! ### Calls -/

section
variable {r r' : StepReport}

theorem step {n : Nat} (h : Likewise c c') (hok : (c.step n).result = .ok r)
    (hok' : (c'.step n).result = .ok r') :
    Likewise (c.step n).controller (c'.step n).controller := by
  induction n generalizing c c' r r' with
  | zero => exact h
  | succ n ih =>
    rw [Controller.step_succ] at hok hok' ⊢
    rw [Controller.step_succ c']
    obtain ⟨⟨_, hone⟩, _, hrest⟩ := Answer.ok_of_andThen hok
    obtain ⟨⟨_, hone'⟩, _, hrest'⟩ := Answer.ok_of_andThen hok'
    rw [Answer.controller_andThen hone, Answer.controller_andThen hone']
    exact ih h.step_one hrest hrest'

/-- In each of the next rounds the same units halt. -/
theorem haltingIn {n : Nat} (h : Likewise c c') (hok : (c.step n).result = .ok r)
    (hok' : (c'.step n).result = .ok r') : c'.haltingIn n = c.haltingIn n := by
  refine List.map_congr_left fun i hi => ?_
  obtain ⟨j, rfl⟩ := Nat.exists_eq_add_of_le (List.mem_range.mp hi).le
  rw [Controller.step_add] at hok hok'
  obtain ⟨⟨_, hfirst⟩, -⟩ := Answer.ok_of_andThen hok
  obtain ⟨⟨_, hfirst'⟩, -⟩ := Answer.ok_of_andThen hok'
  exact (h.step hfirst hfirst').halting

end

theorem joinedBy (h : Likewise c c') {s t : Simulation} (hst : t.bare = s.bare) :
    Likewise (c.joinedBy s) (c'.joinedBy t) := by
  refine ⟨h.here.joinedBy s, h.there.joinedBy t, ?_, ?_, ?_⟩
  · show c'.scheduler.register _ = c.scheduler.register _
    rw [h.scheduler, h.nextId]
  · show (c'.units.set _ t).map _ = (c.units.set _ s).map _
    rw [Table.map_set, Table.map_set, h.units, h.nextId, hst]
  · exact congrArg (· + 1) h.nextId

theorem remove (h : Likewise c c') (unit : UnitId) :
    Likewise (c.remove unit).1 (c'.remove unit).1 := by
  refine ⟨h.here.remove unit, h.there.remove unit, ?_, ?_, h.nextId⟩
  · show c'.scheduler.unregister _ = c.scheduler.unregister _
    rw [h.scheduler]
  · show (c'.units.erase _).map _ = (c.units.erase _).map _
    rw [Table.map_erase, Table.map_erase, h.units]

theorem recordNow (h : Likewise c c') :
    Likewise c.recordNow.controller c'.recordNow.controller := by
  rw [Controller.recordNow, Controller.recordNow, Controller.recordEach_keys h.here.nodup,
    Controller.recordEach_keys h.there.nodup]
  cases c.recordPass.result <;> cases c'.recordPass.result <;>
    exact h.recorded_left.recorded_right

theorem add (h : Likewise c c') {s : Simulation} (hok : c.succeeds (.add s) = true)
    (hok' : c'.succeeds (.add s) = true) : Likewise (c.call (.add s)) (c'.call (.add s)) := by
  obtain ⟨t, ht⟩ := Controller.succeeds_add.mp hok
  obtain ⟨t', ht'⟩ := Controller.succeeds_add.mp hok'
  have hbare {c : Controller} {t : Simulation}
      (ht : (if c.recording then s.record c.recorder else .ok s) = .ok t) : t.bare = s.bare := by
    split at ht
    · exact Simulation.bare_record ht
    · rw [Except.ok.inj ht]
  rw [Controller.call_add ht, Controller.call_add ht']
  exact h.joinedBy ((hbare ht').trans (hbare ht).symm)

end Likewise

theorem exists_of_isOk {ε α : Type} {x : Except ε α} (h : x.isOk = true) : ∃ a, x = .ok a := by
  cases x with
  | ok a => exact ⟨a, rfl⟩
  | error e => cases h

/-- Whether a call brings the past of units back. -/
def Call.takesBack : Call → Bool
  | stepBack _ | restoreNow => true
  | _ => false

namespace Likewise
variable {c c' : Controller}

theorem call (h : Likewise c c') {call : Call} (hcall : call.takesBack = false)
    (hok : c.succeeds call = true) (hok' : c'.succeeds call = true) :
    Likewise (c.call call) (c'.call call) := by
  cases call with
  | add s => exact h.add hok hok'
  | remove unit => exact h.remove unit
  | step n =>
    obtain ⟨r, hr⟩ := exists_of_isOk hok
    obtain ⟨r', hr'⟩ := exists_of_isOk hok'
    exact h.step hr hr'
  | recordNow => exact h.recordNow
  | stepBack | restoreNow => cases hcall

end Likewise

/-! ### What is reported -/

/-- A call to step. -/
structure Stride where
  /-- The controller that was called. -/
  controller : Controller
  rounds : Nat
  answer : Answer StepReport

namespace Controller

/-- The calls to step among others, with what they answer along a plan. -/
def stridesAlong (plan : Plan) (c : Controller) : List Call → List Stride
  | [] => []
  | .step n :: calls =>
    ⟨c, n, c.stepAlong plan n⟩ :: (c.callAlong plan (.step n)).stridesAlong plan calls
  | call :: calls => (c.callAlong plan call).stridesAlong plan calls

end Controller

/-- Both report the same rounds. The units that halt in one round are the same, and the failures
are, in whatever order. -/
structure Stride.Agrees (x y : Stride) : Prop where
  rounds : x.rounds = y.rounds
  failures : x.answer.failures.Perm y.answer.failures
  result : ∃ r r', x.answer.result = .ok r ∧ y.answer.result = .ok r' ∧
    { r with halted := [] } = { r' with halted := [] } ∧
    x.controller.HaltsByRound x.rounds r.halted ∧ x.controller.HaltsByRound x.rounds r'.halted

/-- The tasks take the same turns wherever the units are the same but for what is on record. -/
def Plan.SameTurns (plan plan' : Plan) : Prop :=
  ∀ (s : Scheduler UnitId) (store store' : Table UnitId Simulation),
    store'.map Simulation.bare = store.map Simulation.bare →
      plan'.turns s store' = plan.turns s store

/-- A plan that does not look at what is on record. -/
def Plan.blind (plan : Plan) : Plan where
  turns s store := plan.turns s (store.map Simulation.bare)
  done s store hworkers hnodup := by
    have hdone := plan.done s (store.map Simulation.bare) hworkers hnodup
    rw [Scheduler.along_map Simulation.step_bare] at hdone
    exact hdone

theorem Plan.sameTurns_blind (plan : Plan) : plan.blind.SameTurns plan.blind :=
  fun s _ _ h => congrArg (plan.turns s) h

namespace Likewise
variable {c c' : Controller} {r r' : StepReport}

theorem failing (h : Likewise c c') : c'.failing = c.failing := by
  rw [Controller.failing, Controller.failing, h.scheduled]
  simp only [h.outcomeIn]

theorem failures_step_one (h : Likewise c c') : (c'.step 1).failures = (c.step 1).failures := by
  have hfailures {c : Controller} (h : c.InService) : (c.step 1).failures = c.failing := by
    rw [h.step_one]
    split <;> rfl
  rw [hfailures h.here, hfailures h.there, h.failing]

theorem failures_step {n : Nat} (h : Likewise c c') (hok : (c.step n).result = .ok r)
    (hok' : (c'.step n).result = .ok r') : (c'.step n).failures = (c.step n).failures := by
  induction n generalizing c c' r r' with
  | zero => rfl
  | succ n ih =>
    rw [Controller.step_succ] at hok hok' ⊢
    rw [Controller.step_succ c]
    obtain ⟨⟨_, hone⟩, _, hrest⟩ := Answer.ok_of_andThen hok
    obtain ⟨⟨_, hone'⟩, _, hrest'⟩ := Answer.ok_of_andThen hok'
    rw [Answer.andThen_of_ok hone, Answer.andThen_of_ok hone']
    show _ ++ _ = _ ++ _
    rw [h.failures_step_one, ih h.step_one hrest hrest']

/-- Along any plans. -/
theorem stepAlong (h : Likewise c c') (hworkers : 0 < c.scheduler.mode.workers) {plan plan' : Plan}
    {n : Nat} (hok : (c.stepAlong plan n).result = .ok r)
    (hok' : (c'.stepAlong plan' n).result = .ok r') :
    Stride.Agrees ⟨c, n, c.stepAlong plan n⟩ ⟨c', n, c'.stepAlong plan' n⟩ := by
  have hworkers' : 0 < c'.scheduler.mode.workers := h.scheduler ▸ hworkers
  have hagrees := h.here.agrees_stepAlong hworkers plan n
  have hagrees' := h.there.agrees_stepAlong hworkers' plan' n
  obtain ⟨r₀, hr₀⟩ := hagrees.exists_ok hok
  obtain ⟨r₀', hr₀'⟩ := hagrees'.exists_ok hok'
  obtain ⟨hhalts, hr⟩ := h.here.halts_stepAlong hworkers plan hok
  obtain ⟨hhalts', hr'⟩ := h.there.halts_stepAlong hworkers' plan' hok'
  refine ⟨rfl, ?_, r, r', hok, hok', ?_, hhalts, ?_⟩
  · refine hagrees.failures.trans (.trans ?_ hagrees'.failures.symm)
    exact .of_eq (h.failures_step hr₀ hr₀').symm
  · rw [hr, hr']
  · rw [Controller.HaltsByRound, ← h.haltingIn hr₀ hr₀']
    exact hhalts'

/-- Where the tasks of a round take the same turns, they tell the same in the same order. -/
theorem along (h : Likewise c c') {plan plan' : Plan} (hturns : plan.SameTurns plan') :
    let p := (c.scheduler.along Simulation.step (plan.turns c.scheduler c.units) c.units).progress
    let p' :=
      (c'.scheduler.along Simulation.step (plan'.turns c'.scheduler c'.units) c'.units).progress
    p'.halted = p.halted ∧ p'.failures = p.failures := by
  intro p p'
  have hmap :
      (c'.scheduler.along Simulation.step (plan'.turns c'.scheduler c'.units) c'.units).map
          Simulation.bare =
        (c.scheduler.along Simulation.step (plan.turns c.scheduler c.units) c.units).map
          Simulation.bare := by
    rw [← Scheduler.along_map Simulation.step_bare, ← Scheduler.along_map Simulation.step_bare,
      h.scheduler, h.units, hturns _ _ _ h.units]
  have hhalted := congrArg (Progress.halted ∘ Floor.progress) hmap
  have hfailures := congrArg (Progress.failures ∘ Floor.progress) hmap
  exact ⟨hhalted, hfailures⟩

theorem stepOntoAlong_eq (h : Likewise c c') (hworkers : 0 < c.scheduler.mode.workers)
    {plan plan' : Plan} (hturns : plan.SameTurns plan') {report : StepReport}
    {failures : List (TaskFailure UnitId)} {n : Nat}
    (hok : (c.stepOntoAlong plan report failures n).result = .ok r)
    (hok' : (c'.stepOntoAlong plan' report failures n).result = .ok r') :
    r' = r ∧ (c'.stepOntoAlong plan' report failures n).failures =
      (c.stepOntoAlong plan report failures n).failures := by
  induction n generalizing c c' report failures with
  | zero => exact ⟨(Except.ok.inj hok').symm.trans (Except.ok.inj hok), rfl⟩
  | succ n ih =>
    have hworkers' : 0 < c'.scheduler.mode.workers := h.scheduler ▸ hworkers
    obtain ⟨hhalted, hfailures⟩ := h.along hturns
    obtain ⟨-, hstep⟩ := h.here.stepOntoAlong_succ hworkers plan report failures n
    obtain ⟨-, hstep'⟩ := h.there.stepOntoAlong_succ hworkers' plan' report failures n
    rw [hhalted, hfailures] at hstep'
    rw [hstep] at hok ⊢
    rw [hstep'] at hok' ⊢
    cases hone : (c.step 1).result with
    | error e => rw [hone] at hok; cases hok
    | ok =>
      cases hone' : (c'.step 1).result with
      | error e => rw [hone'] at hok'; cases hok'
      | ok =>
        rw [hone] at hok
        rw [hone'] at hok'
        have hmode : (c.step 1).controller.scheduler.mode = c.scheduler.mode :=
          (h.here.seatWise_step 1).mode
        exact ih h.step_one (hmode ▸ hworkers) hok hok'

/-- Two runs of the same calls along any plans, none of which fails. -/
theorem run (h : Likewise c c') (hworkers : 0 < c.scheduler.mode.workers) (plan plan' : Plan)
    {calls : List Call} (hcalls : ∀ call ∈ calls, call.takesBack = false)
    (hok : c.UnfailingAlong plan calls) (hok' : c'.UnfailingAlong plan' calls) :
    Likewise (c.runAlong plan calls) (c'.runAlong plan' calls) ∧
      List.Forall₂ Stride.Agrees (c.stridesAlong plan calls) (c'.stridesAlong plan' calls) ∧
      (plan.SameTurns plan' →
        (c.stridesAlong plan calls).map (fun x => (x.answer.result, x.answer.failures)) =
          (c'.stridesAlong plan' calls).map fun x => (x.answer.result, x.answer.failures)) := by
  induction calls generalizing c c' with
  | nil => exact ⟨h, .nil, fun _ => rfl⟩
  | cons call calls ih =>
    have hworkers' : 0 < c'.scheduler.mode.workers := h.scheduler ▸ hworkers
    obtain ⟨hcall, hcalls⟩ := List.forall_mem_cons.mp hcalls
    obtain ⟨hfirst, hok⟩ := hok
    obtain ⟨hfirst', hok'⟩ := hok'
    obtain ⟨hcallAlong, hsucceeds⟩ := h.here.callAlong_eq hworkers plan call
    obtain ⟨hcallAlong', hsucceeds'⟩ := h.there.callAlong_eq hworkers' plan' call
    have hnext : Likewise (c.callAlong plan call) (c'.callAlong plan' call) := by
      rw [hcallAlong, hcallAlong']
      exact h.call hcall (hsucceeds ▸ hfirst) (hsucceeds' ▸ hfirst')
    have hmode : 0 < (c.callAlong plan call).scheduler.mode.workers := by
      rw [hcallAlong, h.here.mode_call]
      exact hworkers
    obtain ⟨hrun, hstrides, hsame⟩ := ih hnext hmode hcalls hok hok'
    cases call with
    | step n =>
      obtain ⟨r, hr⟩ := exists_of_isOk hfirst
      obtain ⟨r', hr'⟩ := exists_of_isOk hfirst'
      refine ⟨hrun, .cons (h.stepAlong hworkers hr hr') hstrides, fun hturns => ?_⟩
      obtain ⟨rfl, hfailures⟩ := h.stepOntoAlong_eq hworkers hturns hr hr'
      refine congrArg₂ List.cons (Prod.ext ?_ hfailures.symm) (hsame hturns)
      exact hr.trans hr'.symm
    | _ => exact ⟨hrun, hstrides, hsame⟩

end Likewise

/-- **Recording does not disturb the simulation.** Take two settings that differ in whether, in what
format, how compressed and how deep units are recorded, and any calls none of which takes a unit
back. Where none of the calls fails under either, tasks taking turns in any way, the units are the
same in the end but for what is on record of them, and so is the schedule. Every call to step
reports as many rounds, with the same units that halt in each, and the same failures. If the tasks
take the same turns it also reports them in the same order. -/
theorem Controller.undisturbed (settings settings' : Settings) (formats formats' : FormatTable)
    (hconcurrency : settings'.concurrency = settings.concurrency) (plan plan' : Plan)
    (calls : List Call) (hcalls : ∀ call ∈ calls, call.takesBack = false)
    (hok : (ofSettings settings formats).UnfailingAlong plan calls)
    (hok' : (ofSettings settings' formats').UnfailingAlong plan' calls) :
    let start := ofSettings settings formats
    let start' := ofSettings settings' formats'
    let last := start.runAlong plan calls
    let last' := start'.runAlong plan' calls
    last'.units.map Simulation.bare = last.units.map Simulation.bare ∧
      last'.scheduler = last.scheduler ∧
      List.Forall₂ Stride.Agrees (start.stridesAlong plan calls) (start'.stridesAlong plan' calls) ∧
      (plan.SameTurns plan' →
        (start.stridesAlong plan calls).map (fun x => (x.answer.result, x.answer.failures)) =
          (start'.stridesAlong plan' calls).map fun x => (x.answer.result, x.answer.failures)) := by
  intro start start' last last'
  have h := Likewise.ofSettings settings settings' formats formats' hconcurrency
  have hworkers : 0 < start.scheduler.mode.workers := ExecutionMode.workers_pos settings.concurrency
  obtain ⟨hlast, hstrides, hsame⟩ := h.run hworkers plan plan' hcalls hok hok'
  exact ⟨hlast.units, hlast.scheduler, hstrides, hsame⟩

namespace Sample

/-- Calls with a unit that fails, one that halts and one that is taken out. -/
def onward : List Call :=
  [.add (failing 1), .add (halting 2), .add idle, .step 2, .remove ⟨3⟩, .recordNow, .step 2]

/-- Nothing is recorded after a round, and there is room for one state. -/
def shallow : Settings :=
  { uncompressed with
    concurrency := 2
    history := { enabled := false, compress := false, level := 0, maxDepth := some 1 } }

end Sample

/-- The first unit fails in three of the four rounds, and the second halts in the third. They come
to the same whether every state is kept or the one that is recorded by a call, and the calls say the
same along a plan that does not look at what is on record. -/
theorem Controller.undisturbed_shallow :
    let start := ofSettings Sample.paired .standard
    let start' := ofSettings Sample.shallow .standard
    let last := start.run Sample.onward
    let last' := start'.run Sample.onward
    last'.units.map Simulation.bare = last.units.map Simulation.bare ∧
      last'.scheduled = [⟨1⟩] ∧ last.scheduled = [⟨1⟩] ∧
      last.units.values.map (fun s => s.history.map fun h => h.nodes.map (·.cycle)) =
        [some [1, 0], some [3, 2, 1, 0]] ∧
      last'.units.values.map (fun s => s.history.map fun h => h.nodes.map (·.cycle)) =
        [some [1], some [2]] ∧
      ∃ plan : Plan,
        (start.stridesAlong plan Sample.onward).map
            (fun x => (x.answer.result, x.answer.failures)) =
          (start'.stridesAlong plan Sample.onward).map
            fun x => (x.answer.result, x.answer.failures) := by
  obtain ⟨plan⟩ := (inferInstance : Nonempty Plan)
  obtain ⟨hrun, hunfailing⟩ := (inService_ofSettings Sample.paired .standard).runAlong_eq
    (ExecutionMode.workers_pos Sample.paired.concurrency) plan.blind Sample.onward
  obtain ⟨hrun', hunfailing'⟩ := (inService_ofSettings Sample.shallow .standard).runAlong_eq
    (ExecutionMode.workers_pos Sample.shallow.concurrency) plan.blind Sample.onward
  obtain ⟨hunits, -, -, hsame⟩ := undisturbed Sample.paired Sample.shallow .standard .standard rfl
    plan.blind plan.blind Sample.onward (by decide) (hunfailing.mpr (by decide +kernel))
    (hunfailing'.mpr (by decide +kernel))
  rw [hrun, hrun'] at hunits
  exact ⟨hunits, by decide +kernel, by decide +kernel, by decide +kernel, by decide +kernel,
    plan.blind, hsame plan.sameTurns_blind⟩

end Rewind
