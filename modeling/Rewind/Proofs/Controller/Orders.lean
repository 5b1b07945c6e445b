import Rewind.Proofs.Controller.Seats
import Rewind.Proofs.Scheduler.Rounds

/-! Rounds in any order.

A plan says whose turn it is in the rounds of a controller, move by move. The units that a round
has come to when it is over do not depend on that, and so a controller ends up in the same state
along every plan (`Controller.InService.runAlong_eq`). What depends on it is the order in which
halted units and failures are reported (`Controller.InService.agrees_stepOntoAlong`). -/

namespace Rewind

/-- Whose turn it is in each round, up to its end. -/
structure Plan where
  turns : Scheduler UnitId → Table UnitId Simulation → List UnitId
  done : ∀ (s : Scheduler UnitId) (store : Table UnitId Simulation), 0 < s.mode.workers →
    s.units.Nodup → (s.along Simulation.step (turns s store) store).Done

instance : Nonempty Plan := by
  have h (q : Scheduler UnitId × Table UnitId Simulation) : ∃ turns, 0 < q.1.mode.workers →
      q.1.units.Nodup → (q.1.along Simulation.step turns q.2).Done := by
    by_cases hq : 0 < q.1.mode.workers ∧ q.1.units.Nodup
    · have hstart : ∃ turns, (q.1.along Simulation.step turns q.2).Done :=
        q.1.exists_along_done hq.1 hq.2 []
      obtain ⟨turns, hdone⟩ := hstart
      exact ⟨turns, fun _ _ => hdone⟩
    · exact ⟨[], fun hworkers hnodup => absurd ⟨hworkers, hnodup⟩ hq⟩
  obtain ⟨turns, hturns⟩ := Classical.axiomOfChoice h
  exact ⟨⟨fun s store => turns (s, store), fun s store => hturns (s, store)⟩⟩

/-- Whatever turns bring a round to its end, there is a plan with them. -/
theorem Plan.exists_turns_eq {s : Scheduler UnitId} {store : Table UnitId Simulation}
    {turns : List UnitId} (h : (s.along Simulation.step turns store).Done) :
    ∃ plan : Plan, plan.turns s store = turns := by
  classical
  obtain ⟨plan⟩ := (inferInstance : Nonempty Plan)
  refine ⟨⟨fun s' store' => if s' = s ∧ store' = store then turns else plan.turns s' store',
    fun s' store' hworkers hnodup => ?_⟩, if_pos ⟨rfl, rfl⟩⟩
  split
  · next hsame =>
    obtain ⟨rfl, rfl⟩ := hsame
    exact h
  · exact plan.done s' store' hworkers hnodup

/-! ### Calls along a plan -/

namespace Controller
variable (plan : Plan)

/-- Rounds as in `stepOnto`, each along the plan. -/
def stepOntoAlong (c : Controller) (report : StepReport) (failures : List (TaskFailure UnitId)) :
    Nat → Answer StepReport
  | 0 => ⟨c, failures, .ok report⟩
  | n + 1 =>
    match c.scheduler.runRoundAlong Simulation.step (plan.turns c.scheduler c.units) c.units with
    | .error e => ⟨c, failures, .error (.scheduler e)⟩
    -- A plan comes to the end of every round.
    | .ok none => ⟨c, failures, .ok report⟩
    | .ok (some (s, p, _)) =>
      let c := c.afterRound s p
      let failures := failures ++ p.failures
      let report := { report with rounds := report.rounds + 1, halted := report.halted ++ p.halted }
      if c.recording then
        match c.recordEach c.units.keys with
        | (c, .ok ()) => c.stepOntoAlong report failures n
        | (c, .error e) => ⟨c, failures, .error e⟩
      else c.stepOntoAlong report failures n

def callAlong (c : Controller) : Call → Controller
  | .step n => (c.stepOntoAlong plan .empty [] n).controller
  | call => c.call call

def runAlong (c : Controller) (calls : List Call) : Controller := calls.foldl (callAlong plan) c

/-- No error ends the call. In service it could only be one of the history. -/
def succeeds (c : Controller) : Call → Bool
  | .add s => (c.add s).isOk
  | .remove _ => true
  | .step n => (c.step n).result.isOk
  | .stepBack n => (c.stepBack n).result.isOk
  | .recordNow => c.recordNow.result.isOk
  | .restoreNow => c.restoreNow.result.isOk

def succeedsAlong (c : Controller) : Call → Bool
  | .step n => (c.stepOntoAlong plan .empty [] n).result.isOk
  | call => c.succeeds call

/-- No error ends any of the calls. -/
def Unfailing (c : Controller) : List Call → Prop
  | [] => True
  | call :: calls => c.succeeds call = true ∧ (c.call call).Unfailing calls

def UnfailingAlong (c : Controller) : List Call → Prop
  | [] => True
  | call :: calls =>
    c.succeedsAlong plan call = true ∧ (c.callAlong plan call).UnfailingAlong calls

end Controller

/-! ### What does not depend on the order -/

/-- The answers differ in the order of reports alone. -/
structure Answer.Agrees (a b : Answer StepReport) : Prop where
  controller : a.controller = b.controller
  failures : a.failures.Perm b.failures
  result : (∃ e, a.result = .error e ∧ b.result = .error e) ∨
    ∃ r r', a.result = .ok r ∧ b.result = .ok r' ∧ r.rounds = r'.rounds ∧ r.halted.Perm r'.halted

theorem Answer.Agrees.isOk {a b : Answer StepReport} (h : a.Agrees b) :
    a.result.isOk = b.result.isOk := by
  rcases h.result with ⟨e, ha, hb⟩ | ⟨r, r', ha, hb, -⟩
  · rw [ha, hb]
  · rw [ha, hb]
    rfl

namespace Controller
namespace InService
variable {c : Controller}

theorem own (h : c.InService) : c.scheduler.Own :=
  ⟨fun e he => by rw [h.schedule.tasks e he]; rfl, h.schedule.nodup⟩

theorem result_eq (h : c.InService) (u : UnitId) :
    c.scheduler.result Simulation.step c.units u =
      if u ∈ c.scheduled then advanceHeld Simulation.step (c.units.get? u)
      else (c.units.get? u, .running) := by
  rw [Scheduler.result]
  by_cases hu : u ∈ c.scheduled
  · obtain ⟨t, ht⟩ := Table.mem_keys_iff.mp hu
    have htask : t = .advance u := h.schedule.tasks _ (Table.mem_of_get? ht)
    rw [ht, if_pos hu, htask]
    show repeated _ 1 _ _ = _
    simp [repeated]
  · have hnone : c.scheduler.table.get? u = none := Table.get?_eq_none_iff.mpr hu
    rw [hnone, if_neg hu]

/-- Where the tasks of a round have taken turns in any order, the controller is the same. -/
theorem afterRound_eq (h : c.InService) {p : Progress UnitId Simulation}
    (hran : c.scheduler.Ran Simulation.step c.units p) :
    c.afterRound c.scheduler.complete p = c.advanced ∧ p.halted.Perm c.halting ∧
      p.failures.Perm c.failing := by
  obtain ⟨q, hq, hhalted, -, hadvanced⟩ := h.advanced_eq
  have hresult : ∀ u ∈ c.scheduled, c.scheduler.result Simulation.step c.units u =
      advanceHeld Simulation.step (c.units.get? u) := by
    intro u hu
    rw [h.result_eq, if_pos hu]
  have hhalting : p.halted.Perm c.halting := by
    refine hran.halted.trans (List.Perm.of_eq (List.filter_congr fun u hu => ?_))
    refine decide_eq_decide.mpr ?_
    rw [hresult u hu, outcomeIn]
    cases c.units.get? u <;> simp [advanceHeld]
  have hstore : p.store = q.store := by
    refine Table.eq_of_get? (hran.keys.trans hq.keys.symm) (hran.keys ▸ h.nodup) fun u => ?_
    rw [hran.get?, hq.store, h.result_eq]
    by_cases hu : u ∈ c.scheduled
    · rw [if_pos hu]
      show _ = (c.units.get? u).map _
      cases c.units.get? u <;> simp [advanceHeld, hu]
    · rw [if_neg hu]
      show _ = (c.units.get? u).map _
      cases c.units.get? u <;> simp [hu]
  refine ⟨?_, hhalting, ?_⟩
  · have hsame (u : UnitId) : u ∈ p.halted ↔ u ∈ q.halted := by
      rw [hhalting.mem_iff, hhalted]
    rw [hadvanced, afterRound, afterRound, hstore,
      Scheduler.foldl_unregister _ h.schedule.complete.nodup,
      Scheduler.foldl_unregister _ h.schedule.complete.nodup]
    simp only [hsame]
  · refine hran.failures.trans (List.Perm.of_eq (List.filterMap_congr fun u hu => ?_))
    rw [hresult u hu, outcomeIn]
    cases hget : c.units.get? u with
    | none => rfl
    | some s =>
      show s.step.2.cause?.map (TaskFailure.mk u) = s.step.2.failure? u
      cases s.step.2 <;> rfl

theorem runRoundAlong_plan (h : c.InService) (hworkers : 0 < c.scheduler.mode.workers)
    (plan : Plan) :
    ∃ p report, c.scheduler.runRoundAlong Simulation.step (plan.turns c.scheduler c.units) c.units =
        .ok (some (c.scheduler.complete, p, report)) ∧
      c.afterRound c.scheduler.complete p = c.advanced ∧ p.halted.Perm c.halting ∧
      p.failures.Perm c.failing := by
  have hdone := plan.done c.scheduler c.units hworkers h.schedule.nodup
  exact ⟨_, _, Scheduler.runRoundAlong_of_done h.live hdone,
    h.afterRound_eq (h.own.ran_along hdone)⟩

/-- Along a plan or in the order of registration, rounds come to the same. -/
theorem agrees_stepOntoAlong (h : c.InService) (hworkers : 0 < c.scheduler.mode.workers)
    (plan : Plan) {report report' : StepReport} {failures failures' : List (TaskFailure UnitId)}
    (hrounds : report.rounds = report'.rounds) (hhalted : report.halted.Perm report'.halted)
    (hfailures : failures.Perm failures') (n : Nat) :
    (c.stepOntoAlong plan report failures n).Agrees (c.stepOnto report' failures' n) := by
  induction n generalizing c report report' failures failures' with
  | zero => exact ⟨rfl, hfailures, .inr ⟨report, report', rfl, rfl, hrounds, hhalted⟩⟩
  | succ n ih =>
    obtain ⟨p, _, hround, hadvanced, hphalted, hpfailures⟩ := h.runRoundAlong_plan hworkers plan
    obtain ⟨q, _, hround', hq⟩ := h.runRound
    have hadvanced' : c.afterRound c.scheduler.complete q = c.advanced := by
      rw [Controller.advanced, hround']
    have hqhalted : p.halted.Perm q.halted := by
      rw [show q.halted = c.halting from hq.halted]
      exact hphalted
    have hqfailures : p.failures.Perm q.failures := by
      rw [show q.failures = c.failing from hq.failures]
      exact hpfailures
    have hrounds : report.rounds + 1 = report'.rounds + 1 := congrArg (· + 1) hrounds
    have hhalted := hhalted.append hqhalted
    have hfailures := hfailures.append hqfailures
    have hmode : c.advanced.scheduler.mode = c.scheduler.mode := h.seatWise_advanced.mode
    rw [stepOntoAlong, stepOnto, hround, hround']
    simp only [hadvanced, hadvanced']
    split
    · rw [recordEach_keys h.advanced.nodup]
      cases c.advanced.recordPass.result with
      | ok => exact ih h.advanced.recorded (hmode ▸ hworkers) hrounds hhalted hfailures
      | error e => exact ⟨rfl, hfailures, .inl ⟨e, rfl, rfl⟩⟩
    · exact ih h.advanced (hmode ▸ hworkers) hrounds hhalted hfailures

/-- No call changes the workers. -/
theorem mode_call (h : c.InService) (call : Call) :
    (c.call call).scheduler.mode = c.scheduler.mode := by
  cases call with
  | add s =>
    rw [Controller.call]
    cases hadd : c.add s with
    | error e => rfl
    | ok p =>
      obtain ⟨t, -, rfl⟩ := add_eq_ok hadd
      rfl
  | remove unit => rfl
  | step n => exact (h.seatWise_step n).mode
  | stepBack n => exact (h.seatWise_stepBack n).mode
  | recordNow => exact h.seatWise_recordNow.mode
  | restoreNow => exact h.seatWise_restoreNow.mode

theorem callAlong_eq (h : c.InService) (hworkers : 0 < c.scheduler.mode.workers) (plan : Plan)
    (call : Call) : c.callAlong plan call = c.call call ∧
      c.succeedsAlong plan call = c.succeeds call := by
  cases call with
  | step n =>
    have hagrees : (c.stepOntoAlong plan .empty [] n).Agrees (c.step n) :=
      h.agrees_stepOntoAlong hworkers plan rfl (.refl _) (.refl _) n
    exact ⟨hagrees.controller, hagrees.isOk⟩
  | _ => exact ⟨rfl, rfl⟩

/-- **No plan makes a difference**: along any of them a controller comes to the same, and the same
calls succeed. -/
theorem runAlong_eq (h : c.InService) (hworkers : 0 < c.scheduler.mode.workers) (plan : Plan)
    (calls : List Call) :
    c.runAlong plan calls = c.run calls ∧ (c.UnfailingAlong plan calls ↔ c.Unfailing calls) := by
  induction calls generalizing c with
  | nil => exact ⟨rfl, .rfl⟩
  | cons call calls ih =>
    obtain ⟨hcall, hsucceeds⟩ := h.callAlong_eq hworkers plan call
    obtain ⟨hrun, hunfailing⟩ := ih (h.lives_call call).inService (h.mode_call call ▸ hworkers)
    refine ⟨?_, ?_⟩
    · show (c.callAlong plan call).runAlong plan calls = _
      rw [hcall]
      exact hrun
    · rw [UnfailingAlong, Unfailing, hcall, hsucceeds, hunfailing]

end InService
end Controller
end Rewind
