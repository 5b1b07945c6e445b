import Rewind.Proofs.Controller.Orders

/-! Units do not influence one another.

A unit that shares a controller with others is compared with one that has a controller to itself
and sees of the calls only what concerns it (`alone`). Every call that does not fail keeps the two
alike (`Alike.call`), whatever becomes of the others, and neither the order of tasks nor the number
of workers makes a difference, so at the end they are the same (`Controller.run_alone`), and so is
what their behaviors have kept for themselves. -/

namespace Rewind

/-- What is left of a call for the one unit, when `next` is the number to be given out next. On
its own the unit gets the number one. -/
def Call.alone (unit : UnitId) (next : Nat) : Call → List Call
  | add s => if next = unit.number then [add s] else []
  | remove v => if v = unit then [remove ⟨1⟩] else []
  | call => [call]

/-- How many numbers a call gives out. -/
def Call.numbers : Call → Nat
  | add _ => 1
  | _ => 0

/-- The calls as they are made of the one unit. -/
def alone (unit : UnitId) : Nat → List Call → List Call
  | _, [] => []
  | next, call :: calls => call.alone unit next ++ alone unit (next + call.numbers) calls

namespace Controller

theorem run_append (c : Controller) (calls calls' : List Call) :
    c.run (calls ++ calls') = (c.run calls).run calls' :=
  List.foldl_append

theorem unfailing_append {c : Controller} {calls calls' : List Call} :
    c.Unfailing (calls ++ calls') ↔ c.Unfailing calls ∧ (c.run calls).Unfailing calls' := by
  induction calls generalizing c with
  | nil => exact (iff_of_eq (true_and _)).symm
  | cons call calls ih =>
    show _ ∧ (c.call call).Unfailing (calls ++ calls') ↔ (_ ∧ _) ∧ _
    rw [ih, and_assoc]
    rfl

/-! ### Units that come and go -/

theorem succeeds_add {c : Controller} {s : Simulation} :
    c.succeeds (.add s) = true ↔
      ∃ t, (if c.recording then s.record c.recorder else .ok s) = .ok t := by
  rw [succeeds, add]
  cases (if c.recording then s.record c.recorder else .ok s) with
  | error e => simp [Except.isOk, Except.toBool]
  | ok t => simp [Except.isOk, Except.toBool]

theorem call_add {c : Controller} {s t : Simulation}
    (h : (if c.recording then s.record c.recorder else .ok s) = .ok t) :
    c.call (.add s) = c.joinedBy t := by
  rw [call, add]
  simp only [h]
  rfl

end Controller

/-! ### Together and apart -/

/-- The unit is in the one controller as it is in the other, which holds nothing else. -/
structure Alike (unit : UnitId) (c c' : Controller) : Prop where
  together : c.InService
  apart : c'.InService
  recorder : c'.recorder = c.recorder
  recording : c'.recording = c.recording
  seat : c'.seat ⟨1⟩ = c.seat unit
  single : ∀ u x, c'.seat u = some x → u = ⟨1⟩
  /-- Until it is added the other controller has not given out a number. -/
  next : c.nextId ≤ unit.number → c'.nextId = 1

namespace Alike
variable {unit : UnitId} {c c' : Controller}

theorem ofSettings (settings : Settings) (formats : FormatTable) (concurrency : Int)
    {unit : UnitId} :
    Alike unit (.ofSettings settings formats)
      (.ofSettings { settings with concurrency } formats) :=
  ⟨Controller.inService_ofSettings _ _, Controller.inService_ofSettings _ _, rfl, rfl, rfl, nofun,
    fun _ => rfl⟩

/-- What changes each unit by itself keeps the two alike, and where it can be done to all units
it can be done to the one. -/
theorem of_seatWise (h : Alike unit c c') {change : Seat → Option Seat} {d d' : Controller}
    {ok ok' : Bool} (hd : Controller.SeatWise change c d ok)
    (hd' : Controller.SeatWise change c' d' ok') (hok : ok = true) :
    ok' = true ∧ Alike unit d d' := by
  have hok' : ok' = true := by
    refine hd'.ok_iff.mpr fun u x hx => ?_
    obtain rfl := h.single u x hx
    exact hd.ok_iff.mp hok unit x (h.seat ▸ hx)
  refine ⟨hok', hd.inService, hd'.inService, ?_, ?_, ?_, fun u y hy => ?_, fun hnext => ?_⟩
  · rw [hd'.recorder, hd.recorder, h.recorder]
  · rw [hd'.recording, hd.recording, h.recording]
  · rw [hd'.seat hok', hd.seat hok, h.seat]
  · rw [hd'.seat hok'] at hy
    obtain ⟨x, hx, -⟩ := Option.bind_eq_some_iff.mp hy
    exact h.single u x hx
  · rw [hd'.nextId]
    exact h.next (hd.nextId ▸ hnext)

theorem add (h : Alike unit c c') {s : Simulation} (hok : c.succeeds (.add s) = true) :
    c'.Unfailing (Call.alone unit c.nextId (.add s)) ∧
      Alike unit (c.call (.add s)) (c'.run (Call.alone unit c.nextId (.add s))) ∧
      (c.call (.add s)).nextId = c.nextId + 1 := by
  obtain ⟨t, ht⟩ := Controller.succeeds_add.mp hok
  have ht' : (if c'.recording then s.record c'.recorder else .ok s) = .ok t := by
    rw [h.recording, h.recorder]
    exact ht
  rw [Controller.call_add ht, Call.alone]
  by_cases hunit : c.nextId = unit.number
  · have hnext : c'.nextId = 1 := h.next (Nat.le_of_eq hunit)
    rw [if_pos hunit]
    refine ⟨⟨Controller.succeeds_add.mpr ⟨t, ht'⟩, trivial⟩, ?_, rfl⟩
    show Alike unit (c.joinedBy t) (c'.call (.add s))
    rw [Controller.call_add ht']
    refine ⟨h.together.joinedBy t, h.apart.joinedBy t, h.recorder, h.recording, ?_,
      fun u x hx => ?_, fun hle => absurd hle (by simp [Controller.joinedBy, hunit])⟩
    · rw [Controller.InService.seat_joinedBy, Controller.InService.seat_joinedBy, hnext, hunit,
        if_pos rfl, if_pos rfl]
    · rw [Controller.InService.seat_joinedBy, hnext] at hx
      split at hx
      · next hu => exact hu.symm
      · exact h.single u x hx
  · rw [if_neg hunit]
    refine ⟨trivial, ?_, rfl⟩
    refine ⟨h.together.joinedBy t, h.apart, h.recorder, h.recording, ?_, h.single,
      fun hle => h.next (Nat.le_of_succ_le hle)⟩
    rw [Controller.InService.seat_joinedBy, if_neg fun heq => hunit (congrArg UnitId.number heq)]
    exact h.seat

theorem remove (h : Alike unit c c') (v : UnitId) :
    c'.Unfailing (Call.alone unit c.nextId (.remove v)) ∧
      Alike unit (c.remove v).1 (c'.run (Call.alone unit c.nextId (.remove v))) := by
  rw [Call.alone]
  by_cases hv : v = unit
  · rw [if_pos hv]
    refine ⟨⟨rfl, trivial⟩, ?_⟩
    show Alike unit (c.remove v).1 (c'.remove ⟨1⟩).1
    refine ⟨h.together.remove v, h.apart.remove ⟨1⟩, h.recorder, h.recording, ?_, fun u x hx => ?_,
      h.next⟩
    · rw [h.apart.seat_remove, h.together.seat_remove, if_pos rfl, if_pos hv]
    · rw [h.apart.seat_remove] at hx
      split at hx
      · cases hx
      · exact h.single u x hx
  · rw [if_neg hv]
    refine ⟨trivial, h.together.remove v, h.apart, h.recorder, h.recording, ?_, h.single, h.next⟩
    rw [h.together.seat_remove, if_neg hv]
    exact h.seat

/-- A call keeps the two alike if it does not fail, and then it does not fail for the one. -/
theorem call (h : Alike unit c c') {call : Call} (hok : c.succeeds call = true) :
    c'.Unfailing (call.alone unit c.nextId) ∧
      Alike unit (c.call call) (c'.run (call.alone unit c.nextId)) ∧
      (c.call call).nextId = c.nextId + call.numbers := by
  -- Calls that concern all units alike.
  have hall {change : Seat → Option Seat} {d d' : Controller} {ok ok' : Bool}
      (hd : Controller.SeatWise change c d ok) (hd' : Controller.SeatWise change c' d' ok')
      (hok : ok = true) :
      (ok' = true ∧ True) ∧ Alike unit d d' ∧ d.nextId = c.nextId + 0 := by
    obtain ⟨hok', halike⟩ := h.of_seatWise hd hd' hok
    exact ⟨⟨hok', trivial⟩, halike, hd.nextId⟩
  cases call with
  | add s => exact h.add hok
  | remove v =>
    obtain ⟨hunfailing, halike⟩ := h.remove v
    exact ⟨hunfailing, halike, rfl⟩
  | step n =>
    have hd' := h.apart.seatWise_step n
    rw [h.recorder, h.recording] at hd'
    exact hall (h.together.seatWise_step n) hd' hok
  | stepBack n =>
    have hd' := h.apart.seatWise_stepBack n
    rw [h.recorder] at hd'
    exact hall (h.together.seatWise_stepBack n) hd' hok
  | recordNow =>
    have hd' := h.apart.seatWise_recordNow
    rw [h.recorder] at hd'
    exact hall h.together.seatWise_recordNow hd' hok
  | restoreNow =>
    have hd' := h.apart.seatWise_restoreNow
    rw [h.recorder] at hd'
    exact hall h.together.seatWise_restoreNow hd' hok

theorem run (h : Alike unit c c') {calls : List Call} (hok : c.Unfailing calls) :
    c'.Unfailing (alone unit c.nextId calls) ∧
      Alike unit (c.run calls) (c'.run (alone unit c.nextId calls)) := by
  induction calls generalizing c c' with
  | nil => exact ⟨trivial, h⟩
  | cons call calls ih =>
    obtain ⟨hfirst, hrest⟩ := hok
    obtain ⟨hfirst', halike, hnext⟩ := h.call hfirst
    obtain ⟨hrest', hrun⟩ := ih halike hrest
    rw [hnext] at hrest' hrun
    rw [alone, Controller.run_append]
    exact ⟨Controller.unfailing_append.mpr ⟨hfirst', hrest'⟩, hrun⟩

end Alike

namespace Controller

/-- **Every unit is as if it were alone.** Take any calls of which none fails, with tasks that
take turns in any way. If only what concerns the one unit is called instead, with any number of
workers and the turns taken in any other way, then none of these calls fails either, and they lead
to the same state, cycle, history and place on the schedule. -/
theorem run_alone (settings : Settings) (formats : FormatTable) (concurrency : Int)
    (plan plan' : Plan) (unit : UnitId) (calls : List Call)
    (h : (ofSettings settings formats).UnfailingAlong plan calls) :
    let together := (ofSettings settings formats).runAlong plan calls
    let start := ofSettings { settings with concurrency } formats
    let apart := start.runAlong plan' (alone unit 1 calls)
    start.UnfailingAlong plan' (alone unit 1 calls) ∧ apart.seat ⟨1⟩ = together.seat unit ∧
      ∀ u ≠ ⟨1⟩, apart.seat u = none := by
  intro together start apart
  obtain ⟨hrun, hunfailing⟩ := (inService_ofSettings settings formats).runAlong_eq
    (ExecutionMode.workers_pos settings.concurrency) plan calls
  obtain ⟨hrun', hunfailing'⟩ :=
    (inService_ofSettings { settings with concurrency } formats).runAlong_eq
      (ExecutionMode.workers_pos concurrency) plan' (alone unit 1 calls)
  obtain ⟨hok, halike⟩ := (Alike.ofSettings settings formats concurrency).run (hunfailing.mp h)
  refine ⟨hunfailing'.mpr hok, ?_, fun u hu => ?_⟩
  · show (runAlong _ _ _).seat _ = (runAlong _ _ _).seat _
    rw [hrun, hrun']
    exact halike.seat
  · refine Option.eq_none_iff_forall_ne_some.mpr fun x hx => hu ?_
    change (runAlong _ _ _).seat _ = _ at hx
    rw [hrun'] at hx
    exact halike.single u x hx

instance decidableUnfailing (c : Controller) : (calls : List Call) → Decidable (c.Unfailing calls)
  | [] => inferInstanceAs (Decidable True)
  | call :: calls =>
    have := decidableUnfailing (c.call call) calls
    inferInstanceAs (Decidable (_ ∧ _))

end Controller

/-- A machine does what its state says, and has the state that it came to the next time. -/
theorem Behavior.onCycle_machine {κ : Type} (name : String) (start : κ)
    (step : κ → CycleContext → κ × Entity × Outcome) (handed : List CycleContext)
    (now : CycleContext) :
    let state := stateAfter start step handed
    { machine name start step with handed }.onCycle now =
        ({ machine name start step with handed := now :: handed }, (step state now).2) ∧
      stateAfter start step (now :: handed) = (step state now).1 :=
  ⟨rfl, rfl⟩

namespace Sample

/-- A simulation that has enough after so many steps, whatever cycle they were for. -/
def tiring (steps : Nat) : Simulation :=
  let tire (taken : Nat) (now : CycleContext) : Nat × Entity × Outcome :=
    (taken + 1, now.root, if taken < steps then .running else .halted)
  { Simulation.new "unit" context with root := pair, behaviors := [.machine "tire" 0 tire] }

/-- Calls with a unit that fails, one that tires and one that comes later, and two are removed. -/
def company : List Call :=
  [.add (failing 1), .add (tiring 3), .step 1, .add idle, .step 2, .stepBack 9, .recordNow,
    .step 4, .restoreNow, .remove ⟨3⟩, .remove ⟨1⟩, .step 1]

/-- Turns of the first two units in which their tasks overlap. -/
def overlap : List UnitId := [⟨2⟩, ⟨1⟩, ⟨1⟩, ⟨2⟩, ⟨1⟩, ⟨2⟩, ⟨2⟩, ⟨1⟩, ⟨1⟩, ⟨2⟩]

/-- Two tasks can run at a time. -/
def paired : Settings := { uncompressed with concurrency := 2 }

end Sample

/-- The second of them halts at its fourth step, goes back to the start and halts at the next. It
does so if it is alone and there is one worker. -/
theorem Controller.run_alone_tiring :
    let start := ofSettings Sample.paired .standard
    let first := start.run (Sample.company.take 2)
    ∃ plan plan' : Plan, plan.turns first.scheduler first.units = Sample.overlap ∧
      start.UnfailingAlong plan Sample.company ∧ (alone ⟨2⟩ 1 Sample.company).length = 8 ∧
      ∃ x, (start.runAlong plan Sample.company).seat ⟨2⟩ = some x ∧
        ((ofSettings { Sample.paired with concurrency := 0 } .standard).runAlong plan'
          (alone ⟨2⟩ 1 Sample.company)).seat ⟨1⟩ = some x ∧
        x.sim.cycle = 1 ∧ x.sim.behaviors.map (fun b => b.handed.length) = [5] ∧
        x.scheduled = false := by
  intro start first
  have hdone : (first.scheduler.along Simulation.step Sample.overlap first.units).Done := by
    decide +kernel
  obtain ⟨plan, hturns⟩ := Plan.exists_turns_eq hdone
  obtain ⟨hrun, hunfailing⟩ := (inService_ofSettings Sample.paired .standard).runAlong_eq
    (ExecutionMode.workers_pos Sample.paired.concurrency) plan Sample.company
  have hok : start.UnfailingAlong plan Sample.company := hunfailing.mpr (by decide +kernel)
  obtain ⟨-, hseat, -⟩ := run_alone Sample.paired .standard 0 plan plan ⟨2⟩ Sample.company hok
  obtain ⟨x, hx, hend⟩ : ∃ x ∈ (start.run Sample.company).seat ⟨2⟩, x.sim.cycle = 1 ∧
      x.sim.behaviors.map (fun b => b.handed.length) = [5] ∧ x.scheduled = false := by
    decide +kernel
  rw [← hrun] at hx
  exact ⟨plan, plan, hturns, hok, by decide, x, hx, hseat.trans hx, hend⟩

end Rewind
