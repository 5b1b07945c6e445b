import Rewind.Proofs.Controller.Life

/-! What a call makes of one unit.

As long as nothing fails, a call changes every unit by itself: what becomes of it depends on its
own state and on whether it is on the schedule, and on no other unit (`Controller.SeatWise`). And
a call does not fail exactly if it fails for none of the units. This holds of a round, of a
recording and of a rollback, and is handed on from each of these to the next, so it holds of many
rounds (`Controller.InService.seatWise_step`) and of many rollbacks
(`Controller.InService.seatWise_stepBack`). The latter end early when no unit has anything to go
back to, at a point from where on they would change nothing. -/

namespace Rewind

/-! ### Changes of one unit -/

namespace Seat

/-- After a round. Only units on the schedule are stepped, and those that halt leave it. -/
def stepped (x : Seat) : Seat :=
  if x.scheduled then ⟨x.sim.step.1, x.sim.step.2 ≠ .halted⟩ else x

def recorded (r : Recorder) (x : Seat) : Option Seat :=
  match x.sim.record r with
  | .ok t => some { x with sim := t }
  | .error _ => none

/-- A unit that went back is on the schedule again. -/
def restored (r : Recorder) (x : Seat) : Option Seat :=
  match x.sim.restore r with
  | .ok (t, .to _) => some ⟨t, true⟩
  | .ok (t, .nothing) => some { x with sim := t }
  | .error _ => none

def round (r : Recorder) (recording : Bool) (x : Seat) : Option Seat :=
  if recording then x.stepped.recorded r else some x.stepped

/-- A change so many times, up to the first that fails. -/
def again (change : Seat → Option Seat) : Nat → Seat → Option Seat
  | 0, x => some x
  | n + 1, x => (change x).bind (again change n)

variable {r : Recorder} {x : Seat}

theorem isSome_recorded : (x.recorded r).isSome ↔ ∃ p, Simulation.recordTo r x.sim = .ok p := by
  rw [recorded, Simulation.recordTo]
  cases x.sim.record r with
  | error e => simp [Except.map]
  | ok t => simp [Except.map]

theorem isSome_restored : (x.restored r).isSome ↔ ∃ p, x.sim.restore r = .ok p := by
  rw [restored]
  rcases x.sim.restore r with e | ⟨t, cycle | _⟩ <;> simp

/-- A unit that has nothing to go back to stays as it is from then on. -/
theorem again_restored_of_nothing {t : Simulation} (h : x.sim.restore r = .ok (t, .nothing))
    (n : Nat) : again (restored r) n { x with sim := t } = some { x with sim := t } := by
  have hstays : restored r { x with sim := t } = some { x with sim := t } := by
    rw [restored, Simulation.restore_of_nothing h]
  induction n with
  | zero => rfl
  | succ n ih => rw [again, hstays, Option.bind_some, ih]

end Seat

namespace Team
variable {α : Type} {f : Simulation → Except HistoryError (Simulation × α)} {team : Team}

theorem failure_sweep_eq_none : (sweep f team).failure = none ↔ ∀ u ∈ team, ∃ p, f u.2 = .ok p := by
  constructor
  · intro h
    obtain ⟨gone, rest, hteam, hgone, -, -, hend⟩ := sweep_split f team
    rcases hend with ⟨-, hrest⟩ | ⟨_, _, _, _, -, -, hfailure⟩
    · rw [hteam, hrest, List.append_nil]
      exact hgone
    · rw [h] at hfailure
      cases hfailure
  · intro h
    rw [sweep_of_ok h]

theorem find_sweep (h : (sweep f team).failure = none) (v : UnitId) :
    Table.find v (sweep f team).team = (Table.find v team).map (·.moved f) := by
  rw [sweep_of_ok (failure_sweep_eq_none.mp h)]
  exact Table.find_map (fun _ s => s.moved f) team

theorem said_sweep (h : (sweep f team).failure = none) (hnodup : (team.map Prod.fst).Nodup)
    (v : UnitId) :
    said v (sweep f team).answers = ((Table.find v team).bind (·.answer? f)).toList := by
  rw [sweep_of_ok (failure_sweep_eq_none.mp h)]
  exact said_team hnodup (·.answer? f)

end Team

/-! ### Changes of all units -/

theorem Scheduler.mode_registerAll (s : Scheduler UnitId) (units : List UnitId) :
    (s.registerAll units).mode = s.mode := by
  induction units generalizing s with
  | nil => rfl
  | cons unit units ih => exact ih (s.register unit)

namespace Controller

/-- From one controller to the other each unit has changed by itself, unless one of them could
not. -/
structure SeatWise (change : Seat → Option Seat) (c c' : Controller) (ok : Bool) : Prop where
  inService : c'.InService
  recorder : c'.recorder = c.recorder
  recording : c'.recording = c.recording
  nextId : c'.nextId = c.nextId
  mode : c'.scheduler.mode = c.scheduler.mode
  ok_iff : ok = true ↔ ∀ u x, c.seat u = some x → (change x).isSome
  seat : ok = true → ∀ u, c'.seat u = (c.seat u).bind change

namespace SeatWise
variable {f g : Seat → Option Seat} {c c' c'' : Controller} {ok : Bool}

theorem refl (h : c.InService) : SeatWise some c c true :=
  ⟨h, rfl, rfl, rfl, rfl, ⟨fun _ _ _ _ => rfl, fun _ => rfl⟩,
    fun _ u => (Option.bind_fun_some (c.seat u)).symm⟩

/-- One change after the other. -/
theorem trans (h : SeatWise f c c' true) (h' : SeatWise g c' c'' ok) :
    SeatWise (fun x => (f x).bind g) c c'' ok := by
  refine ⟨h'.inService, h'.recorder.trans h.recorder, h'.recording.trans h.recording,
    h'.nextId.trans h.nextId, h'.mode.trans h.mode, h'.ok_iff.trans ⟨?_, ?_⟩, fun hok u => ?_⟩
  · intro hg u x hx
    obtain ⟨y, hy⟩ := Option.isSome_iff_exists.mp (h.ok_iff.mp rfl u x hx)
    rw [hy]
    refine hg u y ?_
    rw [h.seat rfl, hx]
    exact hy
  · intro hfg u y hy
    rw [h.seat rfl] at hy
    obtain ⟨x, hx, hfx⟩ := Option.bind_eq_some_iff.mp hy
    have hfgx := hfg u x hx
    rwa [hfx] at hfgx
  · rw [h'.seat hok, h.seat rfl, Option.bind_assoc]

/-- What could not be done cannot be done together with more. -/
theorem bind_of_failed (h : SeatWise f c c' false) :
    SeatWise (fun x => (f x).bind g) c c' false := by
  refine ⟨h.inService, h.recorder, h.recording, h.nextId, h.mode, ?_, nofun⟩
  refine ⟨nofun, fun hfg => h.ok_iff.mpr fun u x hx => ?_⟩
  obtain ⟨z, hz⟩ := Option.isSome_iff_exists.mp (hfg u x hx)
  obtain ⟨y, hy, -⟩ := Option.bind_eq_some_iff.mp hz
  rw [hy]
  rfl

theorem congr (h : SeatWise f c c' ok) (hfg : ∀ u x, c.seat u = some x → f x = g x) :
    SeatWise g c c' ok := by
  refine ⟨h.inService, h.recorder, h.recording, h.nextId, h.mode, h.ok_iff.trans ?_,
    fun hok u => ?_⟩
  · refine forall_congr' fun u => forall_congr' fun x => forall_congr' fun hx => ?_
    rw [hfg u x hx]
  · rw [h.seat hok]
    cases hx : c.seat u with
    | none => rfl
    | some x => exact hfg u x hx

end SeatWise

section
variable {c : Controller} {u : UnitId}

theorem seat_eq_some {x : Seat} :
    c.seat u = some x ↔ c.units.get? u = some x.sim ∧ x.scheduled = decide (u ∈ c.scheduled) := by
  obtain ⟨s, b⟩ := x
  rw [seat, Option.map_eq_some_iff]
  constructor
  · rintro ⟨s', hs, heq⟩
    obtain ⟨rfl, rfl⟩ := Seat.mk.inj heq
    exact ⟨hs, rfl⟩
  · rintro ⟨hs, hb⟩
    change b = _ at hb
    exact ⟨s, hs, by rw [hb]⟩

/-- The seat of a unit changes as the unit does, where none is added or removed. -/
theorem seat_eq_bind {c' : Controller} {change : Seat → Option Seat} {g : Simulation → Simulation}
    (hget : c'.units.get? u = (c.units.get? u).map g)
    (hchange : ∀ s, c.units.get? u = some s →
      change ⟨s, u ∈ c.scheduled⟩ = some ⟨g s, u ∈ c'.scheduled⟩) :
    c'.seat u = (c.seat u).bind change := by
  cases hs : c.units.get? u with
  | none =>
    rw [hs] at hget
    rw [seat, seat, hs, hget]
    rfl
  | some s =>
    rw [hs] at hget
    rw [seat_of_get? hs, seat_of_get? hget, Option.bind_some, hchange s hs]

/-- A pass fails for none of the units exactly if it does not end before all had their turn. -/
theorem isNone_failure_iff {α : Type} {f : Simulation → Except HistoryError (Simulation × α)}
    {change : Seat → Option Seat} (hnodup : c.units.keys.Nodup)
    (hchange : ∀ x : Seat, (change x).isSome ↔ ∃ p, f x.sim = .ok p) :
    (Team.sweep f c.units.entries).failure.isNone = true ↔
      ∀ u x, c.seat u = some x → (change x).isSome := by
  rw [Option.isNone_iff_eq_none, Team.failure_sweep_eq_none]
  constructor
  · intro h u x hx
    exact (hchange x).mpr (h _ (Table.mem_of_get? (seat_eq_some.mp hx).1))
  · intro h e he
    have hseat := seat_of_get? (c := c) (Table.get?_of_mem hnodup he)
    exact (hchange _).mp (h e.1 _ hseat)

end

namespace InService
variable {c : Controller}

theorem seatWise_advanced (h : c.InService) :
    SeatWise (fun x => some x.stepped) c c.advanced true := by
  obtain ⟨p, -, -, -, hadvanced⟩ := h.advanced_eq
  refine ⟨h.advanced, h.recorder_advanced, h.recording_advanced, ?_, ?_,
    ⟨fun _ _ _ _ => rfl, fun _ => rfl⟩, fun _ u => ?_⟩
  · rw [hadvanced]
    rfl
  · rw [hadvanced, afterRound, Scheduler.foldl_unregister _ h.schedule.complete.nodup]
    rfl
  · refine seat_eq_bind (h.get?_advanced u) fun s hs => ?_
    have hout : outcomeIn c.units u = some s.step.2 := by rw [outcomeIn, hs]; rfl
    rw [h.scheduled_advanced]
    by_cases hu : u ∈ c.scheduled <;> simp [hu, hout, Seat.stepped]

theorem seatWise_recorded (h : c.InService) :
    SeatWise (Seat.recorded c.recorder) c c.recorded c.recordPass.failure.isNone := by
  refine ⟨h.recorded, rfl, rfl, rfl, rfl, isNone_failure_iff h.nodup fun _ => Seat.isSome_recorded,
    fun hok u => ?_⟩
  have hnone := Option.isNone_iff_eq_none.mp hok
  refine seat_eq_bind (Team.find_sweep hnone u) fun s hs => ?_
  obtain ⟨⟨t, _⟩, ht⟩ := Team.failure_sweep_eq_none.mp hnone _ (Table.mem_of_get? hs)
  change Simulation.recordTo c.recorder s = .ok (t, _) at ht
  rw [Simulation.moved_of_ok ht, Seat.recorded, Simulation.record_of_recordTo ht]
  rfl

theorem said_rollback (h : c.InService) (hnone : c.rollback.failure = none) {u : UnitId}
    {s t : Simulation} {a : Restored} (hs : c.units.get? u = some s)
    (ht : s.restore c.recorder = .ok (t, a)) : said u c.rollback.answers = [a] := by
  have hsaid := Team.said_sweep hnone h.nodup u
  change said u c.rollback.answers = ((c.units.get? u).bind _).toList at hsaid
  rw [hsaid, hs, Option.bind_some, Simulation.answer?_eq_some.mpr ⟨t, ht⟩]
  rfl

theorem seatWise_rolledBack (h : c.InService) :
    SeatWise (Seat.restored c.recorder) c c.rolledBack c.rollback.failure.isNone := by
  refine ⟨h.rolledBack, rfl, rfl, rfl, Scheduler.mode_registerAll _ _,
    isNone_failure_iff h.nodup fun _ => Seat.isSome_restored, fun hok u => ?_⟩
  have hnone := Option.isNone_iff_eq_none.mp hok
  refine seat_eq_bind (Team.find_sweep hnone u) fun s hs => ?_
  obtain ⟨⟨t, a⟩, ht⟩ := Team.failure_sweep_eq_none.mp hnone _ (Table.mem_of_get? hs)
  change s.restore c.recorder = .ok (t, a) at ht
  -- What the pass answered for the unit is what decides about the schedule.
  have hscheduled := mem_scheduled_rolledBack (c := c) (v := u)
  rw [h.said_rollback hnone hs ht] at hscheduled
  have hmoved : s.moved (Simulation.restore · c.recorder) = t := Simulation.moved_of_ok ht
  rw [hmoved, Seat.restored, ht]
  cases a with
  | nothing => simp [hscheduled]
  | _ cycle => simp [hscheduled]

/-! ### Many rounds and many rollbacks -/

theorem seatWise_step_one (h : c.InService) :
    SeatWise (Seat.round c.recorder c.recording) c (c.step 1).controller
      (c.step 1).result.isOk := by
  rw [h.step_one]
  cases hrecording : c.recording with
  | false => exact h.seatWise_advanced
  | true =>
    have hround := h.seatWise_advanced.trans h.advanced.seatWise_recorded
    have hok : (c.advanced.recordPass.result.map fun _ =>
        { StepReport.empty with rounds := 1, halted := c.halting }).isOk =
          c.advanced.recordPass.failure.isNone := by
      rw [Sweep.result]
      cases c.advanced.recordPass.failure <;> rfl
    rw [h.recorder_advanced] at hround
    simp only [if_true, hok]
    exact hround

theorem seatWise_stepOnto (h : c.InService) (report : StepReport)
    (failures : List (TaskFailure UnitId)) (n : Nat) :
    SeatWise (Seat.again (Seat.round c.recorder c.recording) n) c
      (c.stepOnto report failures n).controller (c.stepOnto report failures n).result.isOk := by
  induction n generalizing c report failures with
  | zero => exact .refl h
  | succ n ih =>
    have hround := h.seatWise_step_one
    rw [stepOnto_succ]
    rcases hstep : c.step 1 with ⟨c', more, e | r⟩
    · rw [hstep] at hround
      exact hround.bind_of_failed
    · rw [hstep] at hround
      have hrest := ih hround.inService
        { report with rounds := report.rounds + 1, halted := report.halted ++ r.halted }
        (failures ++ more)
      rw [hround.recorder, hround.recording] at hrest
      exact hround.trans hrest

theorem seatWise_step (h : c.InService) (n : Nat) :
    SeatWise (Seat.again (Seat.round c.recorder c.recording) n) c (c.step n).controller
      (c.step n).result.isOk :=
  h.seatWise_stepOnto .empty [] n

theorem seatWise_stepBackOnto (h : c.InService) (report : StepReport) (n : Nat) :
    SeatWise (Seat.again (Seat.restored c.recorder) n) c (c.stepBackOnto report n).controller
      (c.stepBackOnto report n).result.isOk := by
  induction n generalizing c report with
  | zero => exact .refl h
  | succ n ih =>
    have hback := h.seatWise_rolledBack
    rw [stepBackOnto_succ h.nodup]
    cases hfailure : c.rollback.failure with
    | some p =>
      rw [hfailure] at hback
      exact hback.bind_of_failed
    | none =>
      rw [hfailure] at hback
      by_cases hnothing : goals c.rollback.answers = []
      · -- No unit went back, so none would if it went on.
        simp only [if_pos hnothing]
        refine hback.congr fun u x hx => ?_
        obtain ⟨hs, -⟩ := seat_eq_some.mp hx
        obtain ⟨⟨t, a⟩, ht⟩ := Team.failure_sweep_eq_none.mp hfailure _ (Table.mem_of_get? hs)
        change x.sim.restore c.recorder = .ok (t, a) at ht
        cases a with
        | nothing =>
          have hx' : x.restored c.recorder = some { x with sim := t } := by rw [Seat.restored, ht]
          rw [Seat.again, hx', Option.bind_some, Seat.again_restored_of_nothing ht]
        | _ cycle =>
          have hsaid := h.said_rollback hfailure hs ht
          have hgoal := mem_goals.mpr ⟨cycle, hsaid.symm ▸ List.mem_cons_self⟩
          rw [hnothing] at hgoal
          cases hgoal
      · simp only [if_neg hnothing]
        have hrest := ih h.rolledBack
          { report with
            rounds := report.rounds + 1
            restored := report.restored ++ goals c.rollback.answers }
        exact hback.trans hrest

theorem seatWise_stepBack (h : c.InService) (n : Nat) :
    SeatWise (Seat.again (Seat.restored c.recorder) n) c (c.stepBack n).controller
      (c.stepBack n).result.isOk :=
  h.seatWise_stepBackOnto .empty n

theorem seatWise_recordNow (h : c.InService) :
    SeatWise (Seat.recorded c.recorder) c c.recordNow.controller c.recordNow.result.isOk := by
  have hrecorded := h.seatWise_recorded
  rw [recordNow, recordEach_keys h.nodup, Sweep.result]
  cases hfailure : c.recordPass.failure <;> rw [hfailure] at hrecorded <;> exact hrecorded

theorem seatWise_restoreNow (h : c.InService) :
    SeatWise (Seat.restored c.recorder) c c.restoreNow.controller c.restoreNow.result.isOk := by
  have hrolledBack := h.seatWise_rolledBack
  rw [restoreNow_eq h.nodup, Sweep.result]
  cases hfailure : c.rollback.failure <;> rw [hfailure] at hrolledBack <;> exact hrolledBack

end InService
end Controller
end Rewind
