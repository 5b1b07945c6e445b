import Rewind.Proofs.Controller.Retreat

/-! What units live through in a sequence of calls.

A log has what happened to which unit: it was added or removed, one of its steps came out in
some way, it was recorded, it was rolled back. Each event says what it makes of the unit
(`Event.Leads`), and the controller's work on many units comes apart into the lives of the
single ones: whatever is called and whatever comes of it, each unit is led from where it
was to where it is by its own events (`Controller.InService.lives_run`). What holds of units at all
times is then shown event by event. -/

namespace Rewind

/-! ### Events -/

inductive Event where
  | added (s : Simulation)
  | removed
  /-- A step at a cycle. -/
  | stepped (cycle : UInt64) (outcome : Outcome)
  | recorded
  /-- A rollback that did not fail. -/
  | restored (what : Restored)

/-- A unit that a controller holds. -/
structure Seat where
  sim : Simulation
  /-- Whether it is on the schedule. -/
  scheduled : Bool

/-- What an event makes of a unit. Only units on the schedule are stepped. -/
inductive Event.Leads (r : Recorder) : Option Seat → Event → Option Seat → Prop
  | added (s : Simulation) : Leads r none (.added s) (some ⟨s, true⟩)
  | removed (seat : Option Seat) : Leads r seat .removed none
  | stepped (s : Simulation) :
    Leads r (some ⟨s, true⟩) (.stepped s.cycle s.step.2) (some ⟨s.step.1, s.step.2 ≠ .halted⟩)
  | recorded {s t : Simulation} {scheduled : Bool} (h : s.record r = .ok t) :
    Leads r (some ⟨s, scheduled⟩) .recorded (some ⟨t, scheduled⟩)
  | wentBack {s t : Simulation} {scheduled : Bool} {cycle : UInt64}
    (h : s.restore r = .ok (t, .to cycle)) :
    Leads r (some ⟨s, scheduled⟩) (.restored (.to cycle)) (some ⟨t, true⟩)
  | foundNothing {s t : Simulation} {scheduled : Bool} (h : s.restore r = .ok (t, .nothing)) :
    Leads r (some ⟨s, scheduled⟩) (.restored .nothing) (some ⟨t, scheduled⟩)

/-- The events lead from one seat to the other. -/
inductive Life (r : Recorder) : Option Seat → List Event → Option Seat → Prop
  | nil (seat : Option Seat) : Life r seat [] seat
  | cons {seat seat' seat'' : Option Seat} {e : Event} {es : List Event}
    (he : e.Leads r seat seat') (hes : Life r seat' es seat'') : Life r seat (e :: es) seat''

namespace Life
variable {r : Recorder} {seat seat' seat'' : Option Seat} {e : Event} {es es' : List Event}

theorem single (h : e.Leads r seat seat') : Life r seat [e] seat' := .cons h (.nil _)

theorem append (h : Life r seat es seat') (h' : Life r seat' es' seat'') :
    Life r seat (es ++ es') seat'' := by
  induction h with
  | nil => exact h'
  | cons he _ ih => exact .cons he (ih h')

/-- What every event keeps is kept. -/
theorem keeps {P : Option Seat → Prop} (hstep : ∀ e ∈ es, ∀ seat seat',
    e.Leads r seat seat' → P seat → P seat') (h : Life r seat es seat') (hseat : P seat) :
    P seat' := by
  induction h with
  | nil => exact hseat
  | cons he _ ih =>
    obtain ⟨hfirst, hrest⟩ := List.forall_mem_cons.mp hstep
    exact ih hrest (hfirst _ _ he hseat)

end Life

/-! ### Calls -/

/-- A call of the controller. -/
inductive Call where
  | add (s : Simulation)
  | remove (unit : UnitId)
  | step (n : Nat)
  | stepBack (n : Nat)
  | recordNow
  | restoreNow

namespace Controller

/-- The controller after a call, which may have failed. -/
def call (c : Controller) : Call → Controller
  | .add s =>
    match c.add s with
    | .ok (c, _) => c
    | .error _ => c
  | .remove unit => (c.remove unit).1
  | .step n => (c.step n).controller
  | .stepBack n => (c.stepBack n).controller
  | .recordNow => c.recordNow.controller
  | .restoreNow => c.restoreNow.controller

def run (c : Controller) (calls : List Call) : Controller := calls.foldl call c

def seat (c : Controller) (unit : UnitId) : Option Seat :=
  (c.units.get? unit).map fun s => ⟨s, unit ∈ c.scheduled⟩

/-- How the steps of the next round come out. -/
def roundLog (c : Controller) : List (UnitId × Event) :=
  c.scheduled.filterMap fun u => (c.units.get? u).map fun s => (u, .stepped s.cycle s.step.2)

/-- The recordings that succeed when all units are recorded. -/
def recordLog (c : Controller) : List (UnitId × Event) :=
  c.recordPass.answers.map fun a => (a.1, .recorded)

/-- The rollbacks that succeed when all units are rolled back. -/
def rollbackLog (c : Controller) : List (UnitId × Event) :=
  c.rollback.answers.map fun a => (a.1, .restored a.2)

def addLog (c : Controller) (s : Simulation) : List (UnitId × Event) :=
  match c.add s with
  | .ok (_, unit) => (unit, .added s) :: if c.recording then [(unit, .recorded)] else []
  | .error _ => []

/-- Round after round, up to the one that fails. -/
def stepLog : Nat → Controller → List (UnitId × Event)
  | 0, _ => []
  | n + 1, c =>
    c.roundLog ++ (if c.recording then c.advanced.recordLog else []) ++
      match (c.step 1).result with
      | .ok _ => stepLog n (c.step 1).controller
      | .error _ => []

/-- Rollback after rollback, up to the one that fails or finds nothing. -/
def backLog : Nat → Controller → List (UnitId × Event)
  | 0, _ => []
  | n + 1, c =>
    c.rollbackLog ++
      match c.rollback.failure with
      | some _ => []
      | none => if goals c.rollback.answers = [] then [] else backLog n c.rolledBack

def callLog (c : Controller) : Call → List (UnitId × Event)
  | .add s => c.addLog s
  | .remove unit => [(unit, .removed)]
  | .step n => c.stepLog n
  | .stepBack n => c.backLog n
  | .recordNow => c.recordLog
  | .restoreNow => c.rollbackLog

/-- What happens in a sequence of calls. -/
def log (c : Controller) : List Call → List (UnitId × Event)
  | [] => []
  | call :: calls => c.callLog call ++ (c.call call).log calls

theorem seat_of_get? {c : Controller} {u : UnitId} {s : Simulation}
    (hs : c.units.get? u = some s) : c.seat u = some ⟨s, u ∈ c.scheduled⟩ := by
  rw [seat, hs, Option.map_some]

/-- The controller with one unit more. -/
def joinedBy (c : Controller) (s : Simulation) : Controller :=
  { c with
    scheduler := c.scheduler.register ⟨c.nextId⟩
    units := c.units.set ⟨c.nextId⟩ s
    nextId := c.nextId + 1 }

theorem add_eq_ok {c : Controller} {s : Simulation} {p : Controller × UnitId}
    (h : c.add s = .ok p) :
    ∃ t, (if c.recording then s.record c.recorder else .ok s) = .ok t ∧
      p = (c.joinedBy t, ⟨c.nextId⟩) := by
  rw [add] at h
  cases hfirst : (if c.recording then s.record c.recorder else .ok s) with
  | error e => simp only [hfirst] at h; cases h
  | ok t =>
    simp only [hfirst] at h
    exact ⟨t, rfl, (Except.ok.inj h).symm⟩

/-! ### The lives of all units -/

/-- The log leads from one controller to the other, unit by unit. -/
structure Lives (c : Controller) (log : List (UnitId × Event)) (c' : Controller) : Prop where
  inService : c'.InService
  recorder : c'.recorder = c.recorder
  recording : c'.recording = c.recording
  lives : ∀ u, Life c.recorder (c.seat u) (said u log) (c'.seat u)

namespace Lives
variable {c c' c'' : Controller} {log log' : List (UnitId × Event)}

theorem refl (h : c.InService) : Lives c [] c := ⟨h, rfl, rfl, fun _ => .nil _⟩

theorem trans (h : Lives c log c') (h' : Lives c' log' c'') : Lives c (log ++ log') c'' := by
  refine ⟨h'.inService, h'.recorder.trans h.recorder, h'.recording.trans h.recording, fun u => ?_⟩
  rw [said_append]
  exact (h.lives u).append (h.recorder ▸ h'.lives u)

end Lives

namespace InService
variable {c : Controller}

theorem recorded (h : c.InService) : c.recorded.InService := by
  have hkeys : c.recorded.units.keys = c.units.keys := Team.keys_sweep _ _
  exact ⟨h.live, h.schedule, hkeys ▸ h.nodup, hkeys ▸ h.held, hkeys ▸ h.numbered⟩

theorem lives_advanced (h : c.InService) : Lives c c.roundLog c.advanced := by
  refine ⟨h.advanced, h.recorder_advanced, h.recording_advanced, fun u => ?_⟩
  have hlog : said u c.roundLog =
      if u ∈ c.scheduled then
        ((c.units.get? u).map fun s => Event.stepped s.cycle s.step.2).toList
      else [] := by
    have hnodup : c.scheduled.Nodup := h.schedule.nodup
    rw [← said_filterMap hnodup fun u =>
      (c.units.get? u).map fun s => Event.stepped s.cycle s.step.2]
    simp only [roundLog, Option.map_map]
    rfl
  have hget := h.get?_advanced u
  rw [hlog]
  cases hs : c.units.get? u with
  | none =>
    rw [hs] at hget
    rw [seat, seat, hs, hget]
    split <;> exact .nil _
  | some s =>
    rw [hs, Option.map_some] at hget
    rw [seat_of_get? hs, seat_of_get? hget, h.scheduled_advanced]
    by_cases hu : u ∈ c.scheduled
    · have hout : outcomeIn c.units u = some s.step.2 := by rw [outcomeIn, hs]; rfl
      simp only [hu, if_true, List.mem_filter, hout, true_and, decide_true]
      refine .single ?_
      have hstep := Event.Leads.stepped (r := c.recorder) s
      simpa using hstep
    · simp only [hu, if_false, List.mem_filter, false_and, decide_false]
      exact .nil _

theorem lives_recorded (h : c.InService) : Lives c c.recordLog c.recorded := by
  refine ⟨h.recorded, rfl, rfl, fun u => ?_⟩
  have hlog : said u c.recordLog = (said u c.recordPass.answers).map fun _ => .recorded :=
    said_map (fun _ => Event.recorded) _
  rw [hlog]
  rcases Team.sweep_turn (Simulation.recordTo c.recorder) h.nodup u with
    ⟨hsame, hnone⟩ | ⟨s, t, a, hs, hrecord, ht, hsaid⟩
  · have hseat : c.recorded.seat u = c.seat u := congrArg (Option.map _) hsame
    rw [hseat, recordPass, Team.record, hnone]
    exact .nil _
  · rw [seat_of_get? hs, seat_of_get? (c := c.recorded) ht, recordPass, Team.record, hsaid]
    exact .single (.recorded (Simulation.record_of_recordTo hrecord))

theorem lives_rolledBack (h : c.InService) : Lives c c.rollbackLog c.rolledBack := by
  refine ⟨h.rolledBack, rfl, rfl, fun u => ?_⟩
  have hlog : said u c.rollbackLog = (said u c.rollback.answers).map .restored := said_map _ _
  have hscheduled := mem_scheduled_rolledBack (c := c) (v := u)
  rw [hlog]
  rcases Team.sweep_turn (Simulation.restore · c.recorder) h.nodup u with
    ⟨hsame, hnone⟩ | ⟨s, t, a, hs, hrestore, ht, hsaid⟩
  · change said u c.rollback.answers = [] at hnone
    have hget : c.rolledBack.units.get? u = c.units.get? u := hsame
    simp only [hnone, List.not_mem_nil, exists_false, or_false] at hscheduled
    have hseat : c.rolledBack.seat u = c.seat u := by simp only [seat, hget, hscheduled]
    rw [hseat, hnone]
    exact .nil _
  · change said u c.rollback.answers = [a] at hsaid
    rw [hsaid] at hscheduled ⊢
    rw [seat_of_get? hs, seat_of_get? (c := c.rolledBack) ht]
    rcases a with cycle | _
    · have hmem : u ∈ c.rolledBack.scheduled := hscheduled.mpr (.inr ⟨cycle, List.mem_cons_self⟩)
      simp only [hmem, decide_true]
      exact .single (.wentBack hrestore)
    · have hsame : (u ∈ c.rolledBack.scheduled) = (u ∈ c.scheduled) := by simpa using hscheduled
      simp only [hsame]
      exact .single (.foundNothing hrestore)

/-! ### The life of each call -/

/-- Where rounds can be run, a round runs and the next follows, unless it cannot be recorded. -/
theorem lives_step (h : c.InService) (report : StepReport) (failures : List (TaskFailure UnitId))
    (n : Nat) : Lives c (c.stepLog n) (c.stepOnto report failures n).controller := by
  induction n generalizing c report failures with
  | zero => exact .refl h
  | succ n ih =>
    have hround : Lives c (c.roundLog ++ if c.recording then c.advanced.recordLog else [])
        (c.step 1).controller := by
      rw [h.step_one]
      split
      · exact h.lives_advanced.trans h.advanced.lives_recorded
      · rw [List.append_nil]
        exact h.lives_advanced
    rw [stepOnto_succ, stepLog]
    rcases hstep : c.step 1 with ⟨c', more, e | r⟩
    · rw [hstep] at hround
      rw [List.append_nil]
      exact hround
    · rw [hstep] at hround
      exact hround.trans (ih hround.inService _ _)

theorem lives_stepBack (h : c.InService) (report : StepReport) (n : Nat) :
    Lives c (c.backLog n) (c.stepBackOnto report n).controller := by
  induction n generalizing c report with
  | zero => exact .refl h
  | succ n ih =>
    rw [stepBackOnto_succ h.nodup, backLog]
    cases c.rollback.failure with
    | some p =>
      rw [List.append_nil]
      exact h.lives_rolledBack
    | none =>
      by_cases hnothing : goals c.rollback.answers = []
      · simp only [if_pos hnothing, List.append_nil]
        exact h.lives_rolledBack
      · simp only [if_neg hnothing]
        exact h.lives_rolledBack.trans (ih h.rolledBack _)

end InService

namespace InService
variable {c : Controller} {unit : UnitId}

theorem remove (h : c.InService) (unit : UnitId) : (c.remove unit).1.InService := by
  have hget (u : UnitId) :
      (c.units.erase unit).get? u = if unit = u then none else c.units.get? u :=
    Table.get?_erase h.nodup u
  have hmem {u : UnitId} (hu : u ∈ (c.units.erase unit).keys) : u ≠ unit ∧ u ∈ c.units.keys := by
    obtain ⟨s, hs⟩ := Table.mem_keys_iff.mp hu
    rw [hget] at hs
    split at hs
    · cases hs
    · next hne => exact ⟨Ne.symm hne, Table.mem_keys_iff.mpr ⟨s, hs⟩⟩
  refine ⟨h.live, h.schedule.unregister unit, Table.nodup_keys_erase h.nodup, fun u hu => ?_,
    fun u hu => h.numbered u (hmem hu).2⟩
  rw [scheduled, Controller.remove, h.schedule.units_unregister, List.mem_filter] at hu
  obtain ⟨s, hs⟩ := Table.mem_keys_iff.mp (h.held u hu.1)
  refine Table.mem_keys_iff.mpr ⟨s, ?_⟩
  rw [Controller.remove, hget, if_neg (Ne.symm (of_decide_eq_true hu.2)), hs]

theorem seat_remove (h : c.InService) (unit u : UnitId) :
    (c.remove unit).1.seat u = if unit = u then none else c.seat u := by
  have hget : (c.remove unit).1.units.get? u = if unit = u then none else c.units.get? u :=
    Table.get?_erase h.nodup u
  by_cases hu : unit = u
  · rw [if_pos hu] at hget ⊢
    rw [seat, hget]
    rfl
  · have hscheduled : (u ∈ (c.remove unit).1.scheduled) = (u ∈ c.scheduled) := by
      rw [scheduled, Controller.remove, h.schedule.units_unregister, List.mem_filter]
      simp [Ne.symm hu, scheduled]
    rw [if_neg hu] at hget ⊢
    simp only [seat, hget, hscheduled]

theorem lives_remove (h : c.InService) (unit : UnitId) :
    Lives c [(unit, .removed)] (c.remove unit).1 := by
  refine ⟨h.remove unit, rfl, rfl, fun u => ?_⟩
  rw [h.seat_remove]
  by_cases hu : unit = u
  · rw [if_pos hu, hu, said_cons_self]
    exact .single (.removed _)
  · rw [if_neg hu, said_eq_nil (by simpa using hu)]
    exact .nil _

theorem get?_joinedBy (c : Controller) (s : Simulation) (u : UnitId) :
    (c.joinedBy s).units.get? u = if ⟨c.nextId⟩ = u then some s else c.units.get? u :=
  Table.get?_set u

theorem mem_scheduled_joinedBy {s : Simulation} {u : UnitId} :
    u ∈ (c.joinedBy s).scheduled ↔ u = ⟨c.nextId⟩ ∨ u ∈ c.scheduled :=
  Scheduler.mem_units_register

theorem joinedBy (h : c.InService) (s : Simulation) : (c.joinedBy s).InService := by
  refine ⟨h.live, h.schedule.register _, Table.nodup_keys_set h.nodup, fun u hu => ?_,
    fun u hu => ?_⟩
  · rw [Table.mem_keys_iff, get?_joinedBy]
    split
    · exact ⟨s, rfl⟩
    · next hne =>
      exact Table.mem_keys_iff.mp (h.held u ((mem_scheduled_joinedBy.mp hu).resolve_left
        (Ne.symm hne)))
  · obtain ⟨t, ht⟩ := Table.mem_keys_iff.mp hu
    rw [get?_joinedBy] at ht
    split at ht
    · next heq => exact heq ▸ Nat.lt_succ_self _
    · exact Nat.lt_succ_of_lt (h.numbered u (Table.mem_keys_iff.mpr ⟨t, ht⟩))

/-- The number that is given out next is free. -/
theorem get?_nextId (h : c.InService) : c.units.get? ⟨c.nextId⟩ = none :=
  Table.get?_eq_none_iff.mpr fun hmem => Nat.lt_irrefl _ (h.numbered _ hmem)

theorem seat_nextId (h : c.InService) : c.seat ⟨c.nextId⟩ = none := by
  rw [seat, h.get?_nextId]
  rfl

theorem seat_joinedBy (c : Controller) (s : Simulation) (u : UnitId) :
    (c.joinedBy s).seat u = if ⟨c.nextId⟩ = u then some ⟨s, true⟩ else c.seat u := by
  have hget := get?_joinedBy c s u
  by_cases hu : (⟨c.nextId⟩ : UnitId) = u
  · rw [if_pos hu] at hget ⊢
    rw [seat_of_get? hget, decide_eq_true (mem_scheduled_joinedBy.mpr (.inl hu.symm))]
  · rw [if_neg hu] at hget ⊢
    simp only [seat, hget, mem_scheduled_joinedBy, Ne.symm hu, false_or]

theorem lives_add (h : c.InService) (s : Simulation) :
    Lives c (c.addLog s) (c.call (.add s)) := by
  rw [addLog, Controller.call]
  cases hadd : c.add s with
  | error e => exact .refl h
  | ok p =>
    obtain ⟨t, hfirst, rfl⟩ := add_eq_ok hadd
    show Lives c ((⟨c.nextId⟩, .added s) :: if c.recording then [(⟨c.nextId⟩, .recorded)] else [])
      (c.joinedBy t)
    refine ⟨h.joinedBy t, rfl, rfl, fun u => ?_⟩
    rw [seat_joinedBy]
    by_cases hu : (⟨c.nextId⟩ : UnitId) = u
    · subst hu
      rw [if_pos rfl, said_cons_self, h.seat_nextId]
      by_cases hrecording : c.recording = true
      · rw [if_pos hrecording] at hfirst ⊢
        rw [said_cons_self]
        exact .cons (.added s) (.single (.recorded hfirst))
      · rw [if_neg hrecording] at hfirst ⊢
        rw [← Except.ok.inj hfirst]
        exact .single (.added s)
    · have hsaid : said u (if c.recording then [(⟨c.nextId⟩, Event.recorded)] else []) = [] := by
        split
        · exact said_cons_of_ne hu _ _
        · rfl
      rw [if_neg hu, said_cons_of_ne hu, hsaid]
      exact .nil _

theorem lives_call (h : c.InService) (call : Call) : Lives c (c.callLog call) (c.call call) := by
  cases call with
  | add s => exact h.lives_add s
  | remove unit => exact h.lives_remove unit
  | step n => exact h.lives_step _ _ n
  | stepBack n => exact h.lives_stepBack _ n
  | recordNow =>
    rw [Controller.call, recordNow, recordEach_keys h.nodup]
    cases c.recordPass.result <;> exact h.lives_recorded
  | restoreNow =>
    rw [Controller.call, restoreNow_eq h.nodup]
    exact h.lives_rolledBack

theorem lives_run (h : c.InService) (calls : List Call) : Lives c (c.log calls) (c.run calls) := by
  induction calls generalizing c with
  | nil => exact .refl h
  | cons call calls ih =>
    have hcall := h.lives_call call
    exact hcall.trans (ih hcall.inService)

end InService

theorem inService_ofSettings (settings : Settings) (formats : FormatTable) :
    (ofSettings settings formats).InService :=
  ⟨rfl, ⟨List.forall_mem_nil _, List.nodup_nil⟩, List.nodup_nil, List.forall_mem_nil _,
    List.forall_mem_nil _⟩

end Controller

/-! ### What calls can do -/

/-- The events that a call can bring about. -/
inductive Call.Causes : Call → Event → Prop
  | joined (s : Simulation) : Causes (.add s) (.added s)
  | joinedRecorded (s : Simulation) : Causes (.add s) .recorded
  | removed (unit : UnitId) : Causes (.remove unit) .removed
  | stepped (n : Nat) (cycle : UInt64) (outcome : Outcome) :
    Causes (.step n) (.stepped cycle outcome)
  | steppedRecorded (n : Nat) : Causes (.step n) .recorded
  | steppedBack (n : Nat) (what : Restored) : Causes (.stepBack n) (.restored what)
  | recorded : Causes .recordNow .recorded
  | restored (what : Restored) : Causes .restoreNow (.restored what)

namespace Controller

theorem causes_recordLog {call : Call} (h : call.Causes .recorded) (c : Controller) :
    ∀ e ∈ c.recordLog, call.Causes e.2 := by
  intro e he
  obtain ⟨a, -, rfl⟩ := List.mem_map.mp he
  exact h

theorem causes_rollbackLog {call : Call} (h : ∀ what, call.Causes (.restored what))
    (c : Controller) : ∀ e ∈ c.rollbackLog, call.Causes e.2 := by
  intro e he
  obtain ⟨a, -, rfl⟩ := List.mem_map.mp he
  exact h a.2

theorem causes_stepLog (m n : Nat) (c : Controller) :
    ∀ e ∈ c.stepLog n, (Call.step m).Causes e.2 := by
  induction n generalizing c with
  | zero => exact List.forall_mem_nil _
  | succ n ih =>
    intro e he
    rw [stepLog, List.mem_append, List.mem_append] at he
    rcases he with (he | he) | he
    · obtain ⟨u, -, hu⟩ := List.mem_filterMap.mp he
      obtain ⟨s, -, rfl⟩ := Option.map_eq_some_iff.mp hu
      exact .stepped m s.cycle s.step.2
    · split at he
      · exact causes_recordLog (.steppedRecorded m) _ e he
      · cases he
    · split at he
      · exact ih _ e he
      · cases he

theorem causes_backLog (m n : Nat) (c : Controller) :
    ∀ e ∈ c.backLog n, (Call.stepBack m).Causes e.2 := by
  induction n generalizing c with
  | zero => exact List.forall_mem_nil _
  | succ n ih =>
    intro e he
    rw [backLog, List.mem_append] at he
    rcases he with he | he
    · exact causes_rollbackLog (.steppedBack m) _ e he
    · split at he
      · cases he
      · split at he
        · cases he
        · exact ih _ e he

theorem causes_callLog (c : Controller) (call : Call) : ∀ e ∈ c.callLog call, call.Causes e.2 := by
  cases call with
  | add s =>
    intro e he
    rw [callLog, addLog] at he
    split at he
    · rcases List.mem_cons.mp he with rfl | he
      · exact .joined s
      · split at he
        · rw [List.mem_singleton.mp he]
          exact .joinedRecorded s
        · cases he
    · cases he
  | remove unit => exact List.forall_mem_singleton.mpr (.removed unit)
  | step n => exact causes_stepLog n n c
  | stepBack n => exact causes_backLog n n c
  | recordNow => exact causes_recordLog .recorded c
  | restoreNow => exact causes_rollbackLog .restored c

/-- Nothing happens without a call that brings it about. -/
theorem causes_log (c : Controller) (calls : List Call) :
    ∀ e ∈ c.log calls, ∃ call ∈ calls, call.Causes e.2 := by
  induction calls generalizing c with
  | nil => exact List.forall_mem_nil _
  | cons call calls ih =>
    intro e he
    rcases List.mem_append.mp he with he | he
    · exact ⟨call, List.mem_cons_self, causes_callLog c call e he⟩
    · obtain ⟨call', hmem, hcause⟩ := ih _ e he
      exact ⟨call', List.mem_cons_of_mem _ hmem, hcause⟩

end Controller
end Rewind
