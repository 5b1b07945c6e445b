import Rewind.Proofs.Controller.Lock
import Rewind.Proofs.Scheduler.Halts

/-! Many threads that call to step.

A call to step takes the lock for one round after the other, and reports in the end how many there
were and which units halted in them. Many threads call, and others interrupt, record and roll back
in between (`Office`). A call that is left alone comes to what the controller does along the same
schedule (`Office.run_call`), and so does one whose wait is interrupted while tasks are held up
(`Office.exists_run_interruptedCall`). -/

namespace Rewind

/-- A call to step. -/
inductive StepCall where
  /-- It has so many rounds to begin, and this to report so far. -/
  | pending (left : Nat) (report : StepReport)
  /-- It has come back. -/
  | back (answer : Except ControllerError StepReport)

/-- The units that a call has to report. -/
def StepCall.halted : StepCall → List UnitId
  | pending _ report | back (.ok report) => report.halted
  | back (.error _) => []

namespace Desk

/-- The unit is the next to be rolled back, and there is something for it to go back to. -/
def Restores (d : Desk) (unit : UnitId) : Prop :=
  ∃ e todo, e ≠ .record ∧ d.holder = some (.over e (unit :: todo)) ∧
    ∃ s t cycle, d.hall.store.get? unit = some s ∧ s.restore d.recorder = .ok (t, .to cycle)

/-- Why the next unit cannot be recorded or rolled back, if it cannot. -/
def obstacle? (d : Desk) : Option ControllerError :=
  match d.holder with
  | some (.over e (unit :: _)) =>
    match d.hall.store.get? unit with
    | none => none
    | some s =>
      match e.apply d.recorder s with
      | .error err => some (.ofHistory unit err)
      | .ok _ => none
  | _ => none

end Desk

/-- A controller that many threads call to step. -/
structure Office where
  desk : Desk
  /-- All calls so far, the first one first. -/
  calls : List StepCall
  /-- The call that has the lock, if one of them has it. -/
  serving : Option Nat

inductive Deed where
  /-- Someone calls for so many rounds. -/
  | call (n : Nat)
  /-- A call begins its next round, or comes back if there is none. -/
  | turn (call : Nat)
  | act (a : Act)
deriving DecidableEq

namespace Office

def start (c : Controller) : Office := { desk := .start c, calls := [], serving := none }

/-- What an act comes to for the call that has the lock. -/
def answer (d : Desk) (a : Act) : StepCall → StepCall
  | .back answer => .back answer
  | .pending left report =>
    match a with
    | .leave =>
      match d.hall.ringing, d.hall.watch with
      | false, some (k, .leaving .done) =>
        .pending left
          { report with
            rounds := report.rounds + 1
            halted := report.halted ++ d.hall.haltedIn k }
      | false, some (_, .leaving (.interrupted _)) =>
        .back (.ok { report with interrupted := true })
      | _, _ => .pending left report
    | .handle =>
      match d.obstacle? with
      | some e => .back (.error e)
      | none => .pending left report
    | _ => .pending left report

/-- What an act comes to. Only a call begins a round. -/
def act (o : Office) (a : Act) : Office :=
  if a = .round then o
  else
    { desk := o.desk.step a
      calls := o.serving.elim o.calls fun i => o.calls.modify i (answer o.desk a)
      serving := if (o.desk.step a).holder.isSome then o.serving else none }

/-- The call takes the lock for a round. A round without tasks is over when it begins. -/
def begin (o : Office) (i left : Nat) (report : StepReport) : Office :=
  { desk := o.desk.step .round
    calls := o.calls.set i (.pending left
      { report with
        rounds := report.rounds + if o.desk.hall.scheduler.table.isEmpty then 1 else 0 })
    serving := if (o.desk.step .round).holder.isSome then some i else none }

/-- Unless it is still at its last round, the call turns to the next or comes back. -/
def turn (o : Office) (i : Nat) : Office :=
  if o.serving = some i then o
  else
    match o.calls[i]? with
    | some (.pending 0 report) => { o with calls := o.calls.set i (.back (.ok report)) }
    | some (.pending (left + 1) report) =>
      if o.desk.holder.isSome then o
      else if o.desk.hall.scheduler.disposed then
        { o with calls := o.calls.set i (.back (.error (.scheduler .disposed))) }
      else o.begin i left report
    | _ => o

def step (o : Office) : Deed → Office
  | .call n => { o with calls := o.calls ++ [.pending n .empty] }
  | .turn i => o.turn i
  | .act a => o.act a

def run (o : Office) (deeds : List Deed) : Office := deeds.foldl step o

theorem run_append (o : Office) (deeds later : List Deed) :
    o.run (deeds ++ later) = (o.run deeds).run later :=
  List.foldl_append

end Office

/-! ### A call by itself -/

/-- Records every unit, if units are recorded after a round. -/
def Controller.recordAfterRound (c : Controller) : Controller × Except ControllerError Unit :=
  if c.recording then c.recordEach c.units.keys else (c, .ok ())

/-- One round along a plan. -/
theorem Controller.stepOntoAlong_one {c : Controller} (hlive : c.scheduler.disposed = false)
    (plan : Plan)
    (hdone : (c.scheduler.along Simulation.step (plan.turns c.scheduler c.units) c.units).Done) :
    let p := (c.scheduler.along Simulation.step (plan.turns c.scheduler c.units) c.units).progress
    let recorded := (c.afterRound c.scheduler.complete p).recordAfterRound
    c.stepOntoAlong plan .empty [] 1 =
      ⟨recorded.1, p.failures,
        recorded.2.map fun _ => { StepReport.empty with rounds := 1, halted := p.halted }⟩ := by
  intro p recorded
  let c' := c.afterRound c.scheduler.complete p
  have hround : c.scheduler.runRoundAlong Simulation.step (plan.turns c.scheduler c.units) c.units =
      _ :=
    Scheduler.runRoundAlong_of_done hlive hdone
  have hrecorded : recorded =
      if c.recording then c'.recordEach c'.units.keys else (c', .ok ()) := rfl
  rw [stepOntoAlong, hround, hrecorded]
  by_cases hrecording : c.recording = true
  · rw [if_pos hrecording]
    refine (if_pos hrecording).trans ?_
    rcases (c.afterRound c.scheduler.complete p).recordEach c'.units.keys with ⟨c'', e | ⟨⟩⟩ <;>
      rfl
  · rw [if_neg hrecording]
    exact if_neg hrecording

/-- The next unit is recorded as in the controller, unless there is an obstacle. -/
theorem Desk.step_record {d : Desk} {c : Controller} {unit : UnitId} {todo : List UnitId}
    (hd : d.Shows c) (hholder : d.holder = some (.over .record (unit :: todo))) :
    (∃ e, d.obstacle? = some e ∧ (d.step .handle).holder = none ∧
        (c.recordEach (unit :: todo)).2 = .error e) ∨
      ∃ c', d.obstacle? = none ∧ (d.step .handle).holder = some (.over .record todo) ∧
        (d.step .handle).Shows c' ∧ c.recordEach (unit :: todo) = c'.recordEach todo := by
  have hobstacle : d.obstacle? = match c.units.get? unit with
      | none => none
      | some s =>
        match Errand.record.apply c.recorder s with
        | .error err => some (.ofHistory unit err)
        | .ok _ => none := by
    rw [obstacle?, hholder, ← hd.units, ← hd.recorder]
  rw [hobstacle, Controller.recordEach]
  have hstep := step_handle hd hholder
  rw [Errand.turn] at hstep
  cases hget : c.units.get? unit with
  | none =>
    simp only [hget] at hstep
    obtain ⟨hfalse, -⟩ | ⟨c', hc', hheld, hshows⟩ := hstep
    · cases hfalse
    · obtain rfl := Option.some.inj hc'
      exact .inr ⟨c, rfl, hheld, hshows, rfl⟩
  | some s =>
    cases hrecord : s.record c.recorder with
    | error err =>
      have happly : Errand.record.apply c.recorder s = .error err := by
        rw [Errand.apply, hrecord]
        rfl
      simp only [hget, happly, hrecord] at hstep ⊢
      obtain ⟨-, hfree, -⟩ | ⟨c', hc', -⟩ := hstep
      · exact .inl ⟨_, rfl, hfree, rfl⟩
      · cases hc'
    | ok t =>
      have happly : Errand.record.apply c.recorder s = .ok (t, .nothing) := by
        rw [Errand.apply, hrecord]
        rfl
      simp only [hget, happly, hrecord] at hstep ⊢
      obtain ⟨hfalse, -⟩ | ⟨c', hc', hheld, hshows⟩ := hstep
      · cases hfalse
      · obtain rfl := Option.some.inj hc'
        exact .inr ⟨_, trivial, hheld, hshows, rfl⟩

/-- A round without units is over when it begins, and the units are recorded if they are to be. -/
theorem Desk.step_round_of_isEmpty {c : Controller} (hlive : c.scheduler.disposed = false)
    (hempty : c.scheduler.table.isEmpty = true) :
    (Desk.start c).step .round =
      { hall := .start c.scheduler.complete c.units
        recorder := c.recorder
        recording := c.recording
        holder := if c.recording then some (.over .record c.units.keys) else none } := by
  have hdoes : (Desk.start c).does .round =
      ([.begin], if c.recording then some (.over .record c.units.keys) else none) := by
    simp only [does, start, Hall.start, hlive, hempty]
    rfl
  have hbegin : (Hall.start c.scheduler c.units).begin = .start c.scheduler.complete c.units := by
    show (if (false || c.scheduler.disposed) = true then _
      else if c.scheduler.table.isEmpty = true then _ else _) = _
    rw [hlive, hempty]
    rfl
  rw [Desk.step, hdoes]
  exact congrArg (Desk.mk · c.recorder c.recording _) hbegin

/-- Whoever began a round that is interrupted finds how the wait for it comes out. -/
theorem Desk.run_interrupt {c : Controller} (hlive : c.scheduler.disposed = false)
    (hunits : c.scheduler.table.isEmpty = false) {schedule : List UnitId}
    {f : Floor UnitId Simulation} {w : Wait}
    (hrun : (Hall.start c.scheduler c.units).run Simulation.step
        (.begin :: (schedule.map (.work 0) ++ [.interrupt, .ring])) =
      .ofFloor c.scheduler f (some (0, .awake)))
    (hfound : f.progress.latch.wait? = some w) :
    (start c).run (.round :: (schedule.map (.work 0) ++ [.interrupt, .ring, .look])) =
      { hall := .ofFloor c.scheduler f (some (0, .leaving w))
        recorder := c.recorder
        recording := c.recording
        holder := some .round } := by
  have hhall : (Hall.ofFloor c.scheduler (c.scheduler.floor c.units) (some (0, .awake))).run
      Simulation.step (schedule.map (.work 0) ++ [.interrupt, .ring]) =
      .ofFloor c.scheduler f (some (0, .awake)) := by
    rw [← Hall.begin_start hlive hunits]
    exact hrun
  rw [Hall.run_append] at hhall
  show ((start c).step .round).run _ = _
  rw [step_round hlive hunits, run_append, run_work]
  refine congrArg (Desk.mk · c.recorder c.recording (some .round)) ?_
  show (Hall.run Simulation.step (Hall.run Simulation.step _ (schedule.map (.work 0)))
    [.interrupt, .ring]).look = _
  rw [hhall]
  exact Hall.look_ofFloor hfound

/-- Neither who has the lock does it nor who wants to have it. -/
def Act.quiet : Act → Bool
  | work _ _ | interrupt | ring | look | stir => true
  | round | send _ | handle | leave => false

theorem Act.quiet_turns (k : Nat) (schedule : List UnitId) :
    ∀ a ∈ schedule.map (Act.work k), a.quiet = true := by
  intro a ha
  obtain ⟨unit, -, rfl⟩ := List.mem_map.mp ha
  rfl

namespace Office
variable {o : Office} {c : Controller} {left : Nat} {report : StepReport}

/-- Unless a round begins, what is done at the desk is the same whoever calls. -/
theorem desk_run_act {acts : List Act} (h : .round ∉ acts) :
    (o.run (acts.map .act)).desk = o.desk.run acts := by
  induction acts generalizing o with
  | nil => rfl
  | cons a acts ih =>
    rw [List.mem_cons, not_or] at h
    show ((o.act a).run (acts.map .act)).desk = _
    rw [ih h.2, act, if_neg (Ne.symm h.1)]
    rfl

/-- What happens while rounds are under way changes neither who has the lock nor the calls. -/
theorem step_quiet {a : Act} (ha : a.quiet = true)
    (hserving : o.desk.holder = none → o.serving = none) :
    (o.desk.step a).holder = o.desk.holder ∧
      o.step (.act a) = { o with desk := o.desk.step a } := by
  have hsame : a ≠ .round ∧ answer o.desk a = id ∧ (o.desk.step a).holder = o.desk.holder := by
    cases a with
    | work | interrupt | ring | look | stir =>
      exact ⟨by simp, funext fun x => by cases x <;> rfl, rfl⟩
    | round | send | handle | leave => cases ha
  obtain ⟨hround, hanswer, hholder⟩ := hsame
  refine ⟨hholder, ?_⟩
  obtain ⟨desk, calls, serving⟩ := o
  rw [step, act, if_neg hround, hholder, hanswer]
  cases hfree : desk.holder with
  | none =>
    obtain rfl : serving = none := hserving hfree
    rfl
  | some _ => cases serving <;> simp

theorem run_quiet {acts : List Act} (hquiet : ∀ a ∈ acts, a.quiet = true)
    (hserving : o.desk.holder = none → o.serving = none) :
    o.run (acts.map .act) = { o with desk := o.desk.run acts } := by
  induction acts generalizing o with
  | nil => rfl
  | cons a acts ih =>
    obtain ⟨ha, hquiet⟩ := List.forall_mem_cons.mp hquiet
    obtain ⟨hholder, hstep⟩ := step_quiet ha hserving
    show (o.step (.act a)).run (acts.map .act) = _
    rw [hstep]
    exact ih hquiet (hholder ▸ hserving)

theorem step_handle (hserving : o.serving = some 0) (hcalls : o.calls = [.pending left report]) :
    o.step (.act .handle) =
      { desk := o.desk.step .handle
        calls := [match o.desk.obstacle? with
          | some e => .back (.error e)
          | none => .pending left report]
        serving := if (o.desk.step .handle).holder.isSome then some 0 else none } := by
  rw [step, act, if_neg nofun, hserving, hcalls]
  rfl

theorem run_handle_of_free (hfree : o.desk.holder = none) (hserving : o.serving = none) (n : Nat) :
    o.run (List.replicate n (.act .handle)) = o := by
  induction n with
  | zero => rfl
  | succ n ih =>
    have hdesk : o.desk.step .handle = o.desk := Desk.run_handle_of_free hfree 1
    have hstep : o.step (.act .handle) = o := by
      obtain ⟨desk, calls, serving⟩ := o
      obtain rfl : serving = none := hserving
      rw [step, act, if_neg nofun, hdesk, hfree]
      rfl
    show (o.step (.act .handle)).run (List.replicate n (.act .handle)) = o
    rw [hstep, ih]

/-- Whoever records the units after a round comes back if one of them cannot be recorded. -/
theorem run_handle {todo : List UnitId} (hd : o.desk.Shows c)
    (hholder : o.desk.holder = some (.over .record todo)) (hserving : o.serving = some 0)
    (hcalls : o.calls = [.pending left report]) :
    let o' := o.run (List.replicate (todo.length + 1) (.act .handle))
    o'.serving = none ∧ o'.calls =
      [match (c.recordEach todo).2 with
        | .ok () => .pending left report
        | .error e => .back (.error e)] := by
  induction todo generalizing o c with
  | nil =>
    have hdoes : o.desk.does .handle = ([], none) := by rw [Desk.does, hholder]
    have hobstacle : o.desk.obstacle? = none := by rw [Desk.obstacle?, hholder]
    show (o.step (.act .handle)).serving = none ∧ (o.step (.act .handle)).calls = _
    rw [step_handle hserving hcalls, Desk.step, hdoes, hobstacle]
    exact ⟨rfl, rfl⟩
  | cons unit todo ih =>
    let rest : List Deed := List.replicate (todo.length + 1) (.act .handle)
    show ((o.step (.act .handle)).run rest).serving = _ ∧
      ((o.step (.act .handle)).run rest).calls = _
    rw [step_handle hserving hcalls]
    rcases Desk.step_record hd hholder with
      ⟨e, hobstacle, hfree, herror⟩ | ⟨c', hobstacle, hheld, hshows, hrest⟩
    · rw [run_handle_of_free hfree (if_neg (by rw [hfree]; exact Bool.false_ne_true)), hobstacle,
        herror]
      exact ⟨if_neg (by rw [hfree]; exact Bool.false_ne_true), rfl⟩
    · rw [hobstacle, hrest]
      exact ih hshows hheld (if_pos (by rw [hheld]; rfl)) rfl

/-- Nothing keeps a call from its next round but the lock. -/
theorem turn_of_free {i : Nat} (hserving : o.serving ≠ some i)
    (hcall : o.calls[i]? = some (.pending (left + 1) report)) (hfree : o.desk.holder = none)
    (hlive : o.desk.hall.scheduler.disposed = false) : o.turn i = o.begin i left report := by
  rw [turn, if_neg hserving, hcall]
  simp only [hfree, hlive]
  rfl

/-- A call that has no round left comes back, if it has not yet. -/
theorem turn_back (hserving : o.serving = none) {answer : Except ControllerError StepReport}
    (hcalls : o.calls = [.back answer] ∨
      ∃ report, answer = .ok report ∧ o.calls = [.pending 0 report]) :
    o.step (.turn 0) = { o with calls := [.back answer] } := by
  obtain ⟨desk, calls, serving⟩ := o
  obtain rfl : serving = none := hserving
  rcases hcalls with hcalls | ⟨report, rfl, hcalls⟩ <;>
    · obtain rfl : calls = _ := hcalls
      rfl

/-- What is left of a call after its last round: the units are recorded, if that is to be. -/
theorem run_rest (hd : o.desk.Shows c)
    (hholder : o.desk.holder = if c.recording then some (.over .record c.units.keys) else none)
    (hserving : o.serving = if c.recording then some 0 else none)
    (hcalls : o.calls = [.pending 0 report]) :
    let handles := List.replicate (c.units.keys.length + 1) (.act .handle)
    let o' := (o.run handles).step (.turn 0)
    o'.calls = [.back (c.recordAfterRound.2.map fun _ => report)] ∧
      o'.desk.Shows c.recordAfterRound.1 := by
  intro handles o'
  have ho' : o' = (o.run handles).step (.turn 0) := rfl
  rw [ho', Controller.recordAfterRound]
  cases hrecording : c.recording with
  | false =>
    rw [hrecording] at hholder hserving
    rw [show o.run handles = o from run_handle_of_free hholder hserving _,
      turn_back hserving (.inr ⟨report, rfl, hcalls⟩)]
    exact ⟨rfl, hd⟩
  | true =>
    rw [hrecording] at hholder hserving
    obtain ⟨hfree, hback⟩ := run_handle hd hholder hserving hcalls
    obtain ⟨-, hshows⟩ := Desk.run_handle hd hholder
    have hdesk : (o.run handles).desk =
        o.desk.run (List.replicate (c.units.keys.length + 1) .handle) := by
      show (o.run (List.replicate _ (.act .handle))).desk = _
      rw [← List.map_replicate]
      exact desk_run_act (by simp)
    rw [Errand.carry_record, ← hdesk] at hshows
    rcases hrecord : c.recordEach c.units.keys with ⟨c', e | ⟨⟩⟩ <;>
      rw [hrecord] at hback hshows
    · rw [turn_back hfree (.inl hback)]
      exact ⟨rfl, hshows⟩
    · rw [turn_back hfree (.inr ⟨report, rfl, hback⟩)]
      exact ⟨rfl, hshows⟩

/-- A call for one round takes the lock for it. -/
theorem run_begin (hlive : c.scheduler.disposed = false) :
    let begun := (Desk.start c).step .round
    (start c).run [.call 1, .turn 0] =
      { desk := begun
        calls := [.pending 0
          { StepReport.empty with rounds := if c.scheduler.table.isEmpty then 1 else 0 }]
        serving := if begun.holder.isSome then some 0 else none } := by
  intro begun
  let called : Office := { desk := .start c, calls := [.pending 1 .empty], serving := none }
  show called.turn 0 = _
  rw [turn_of_free (o := called) nofun rfl rfl hlive, begin]
  show Office.mk begun [.pending 0 { StepReport.empty with rounds := 0 + _ }] _ = _
  rw [Nat.zero_add]
  rfl

section
variable (hlive : c.scheduler.disposed = false) (hunits : c.scheduler.table.isEmpty = false)
include hlive hunits

/-- Then it waits for the round. -/
theorem run_wait {acts : List Act} (hquiet : ∀ a ∈ acts, a.quiet = true) :
    (start c).run (.call 1 :: .turn 0 :: acts.map .act) =
      { desk := (Desk.start c).run (.round :: acts)
        calls := [.pending 0 .empty]
        serving := some 0 } := by
  have hbegun : (start c).run [.call 1, .turn 0] =
      { desk := (Desk.start c).step .round, calls := [.pending 0 .empty], serving := some 0 } := by
    rw [run_begin hlive, Desk.step_round hlive hunits, hunits]
    rfl
  show ((start c).run [.call 1, .turn 0]).run (acts.map .act) = _
  rw [hbegun]
  refine run_quiet hquiet fun hfree => ?_
  rw [show ((Desk.start c).step .round).holder = some .round by
    rw [Desk.step_round hlive hunits]] at hfree
  cases hfree

/-- It leaves when the round is done, and has the halts of it to report. -/
theorem run_leave (hnodup : c.scheduler.units.Nodup) {schedule : List UnitId}
    (hdone : (c.scheduler.along Simulation.step schedule c.units).Done) :
    let p := (c.scheduler.along Simulation.step schedule c.units).progress
    let acts : List Act := schedule.map (.work 0) ++ [.look, .leave]
    let o := (start c).run (.call 1 :: .turn 0 :: acts.map .act)
    o.desk.Shows (c.afterRound c.scheduler.complete p) ∧
      (o.desk.holder = if c.recording then some (.over .record p.store.keys) else none) ∧
      o.serving = (if c.recording then some 0 else none) ∧
      o.calls = [.pending 0 { StepReport.empty with rounds := 1, halted := p.halted }] := by
  intro p acts o
  let watching : List Act := schedule.map (.work 0) ++ [.look]
  let waited := (Desk.start c).run (.round :: watching)
  have hquiet : ∀ a ∈ watching, a.quiet = true :=
    List.forall_mem_append.mpr ⟨Act.quiet_turns 0 schedule, by decide⟩
  have hacts : acts = watching ++ [.leave] := by simp [acts, watching]
  have ho : o = (Office.mk waited [.pending 0 .empty] (some 0)).step (.act .leave) := by
    show (start c).run _ = _
    rw [hacts, List.map_append, ← List.cons_append, ← List.cons_append, run_append,
      run_wait hlive hunits hquiet]
    rfl
  have hdesk : (Desk.start c).run (.round :: acts) = waited.step .leave := by
    rw [hacts, ← List.cons_append, Desk.run_append]
    rfl
  obtain ⟨hshows, hholder⟩ := Desk.run_round hlive hunits hnodup hdone
  change ((Desk.start c).run (.round :: acts)).Shows _ at hshows
  change ((Desk.start c).run (.round :: acts)).holder = _ at hholder
  rw [hdesk] at hshows hholder
  have hserving : ((waited.step .leave).holder.isSome : Prop) ↔ c.recording := by
    rw [hholder]
    cases c.recording <;> simp
  have hlook : waited = _ := Desk.run_look hlive hunits hdone
  rw [ho, step, act, if_neg nofun]
  refine ⟨hshows, hholder, ?_, ?_⟩
  · show (if (waited.step .leave).holder.isSome then some 0 else none) = _
    simp only [hserving]
  · show [answer waited .leave (.pending 0 .empty)] = _
    rw [hlook]
    rfl

/-- **A call for one round** that is left alone comes to what the controller does along the same
schedule. -/
theorem run_call (hnodup : c.scheduler.units.Nodup) (hworkers : 0 < c.scheduler.mode.workers)
    (plan : Plan) :
    let acts : List Act := (plan.turns c.scheduler c.units).map (.work 0) ++ [.look, .leave]
    let handles := List.replicate (c.units.keys.length + 1) (.act .handle)
    let o := (start c).run (.call 1 :: .turn 0 :: acts.map .act ++ handles ++ [.turn 0])
    let whole := c.stepOntoAlong plan .empty [] 1
    o.calls = [.back whole.result] ∧ o.desk.Shows whole.controller := by
  intro acts handles o whole
  let f := c.scheduler.along Simulation.step (plan.turns c.scheduler c.units) c.units
  have hdone : f.Done := plan.done c.scheduler c.units hworkers hnodup
  let c' := c.afterRound c.scheduler.complete f.progress
  let o' := (start c).run (.call 1 :: .turn 0 :: acts.map .act)
  have ho : o = (o'.run handles).step (.turn 0) := by
    show (start c).run _ = _
    rw [run_append, run_append]
    rfl
  have hkeys : c'.units.keys = c.units.keys :=
    c.scheduler.keys_store_along Simulation.step _ c.units
  obtain ⟨hshows, hholder, hserving, hcalls⟩ := run_leave hlive hunits hnodup hdone
  obtain ⟨hback, hshows'⟩ := run_rest hshows hholder hserving hcalls
  rw [hkeys] at hback hshows'
  rw [ho, show whole = c.stepOntoAlong plan .empty [] 1 from rfl,
    Controller.stepOntoAlong_one hlive plan hdone]
  exact ⟨hback, hshows'⟩

/-- **A call whose wait is interrupted** at a standstill comes to what the controller does then. The
units are stepped, and it comes back with nothing to report. -/
theorem exists_run_interruptedCall (hnodup : c.scheduler.units.Nodup)
    (hworkers : 0 < c.scheduler.mode.workers) {gates : List UnitId}
    {i : Scheduler.Interrupted UnitId Simulation}
    (hi : c.scheduler.interruptRound Simulation.step gates false c.units = .ok i) {pending : Nat}
    (hwait : i.wait = some (.interrupted pending)) :
    ∃ turns later : List UnitId,
      let acts : List Act :=
        turns.map (.work 0) ++ [.interrupt, .ring, .look, .leave] ++ later.map (.work 0)
      let o := (start c).run (.call 1 :: .turn 0 :: acts.map .act)
      let whole := c.interruptedStep gates
      o.calls = [.back whole.result] ∧ o.desk.holder = none ∧
        o.desk.hall.store = whole.controller.units ∧
        o.desk.hall.scheduler.units = whole.controller.scheduled ∧
        o.desk.hall.rounds.map Round.halted = [i.progress.halted] := by
  obtain ⟨-, turns, later, w, f, hw, hbefore, hfound, hsame⟩ :=
    Hall.exists_turns_interruptRound hi hunits hworkers hnodup
  obtain rfl : w = .interrupted pending := Option.some.inj (hw.symm.trans hwait)
  refine ⟨turns, later, ?_⟩
  intro acts o whole
  let watching : List Act := turns.map (.work 0) ++ [.interrupt, .ring, .look]
  have hquiet : ∀ a ∈ watching, a.quiet = true :=
    List.forall_mem_append.mpr ⟨Act.quiet_turns 0 turns, by decide⟩
  let waited : Desk :=
    { hall := .ofFloor c.scheduler f (some (0, .leaving (.interrupted pending)))
      recorder := c.recorder
      recording := c.recording
      holder := some .round }
  have hwaited : (Desk.start c).run (.round :: watching) = waited :=
    Desk.run_interrupt hlive hunits hbefore hfound
  let gone : Office :=
    { desk := { waited with hall := .ofFloor c.scheduler f none, holder := none }
      calls := [.back (.ok { StepReport.empty with interrupted := true })]
      serving := none }
  have hgone : (Office.mk waited [.pending 0 .empty] (some 0)).step (.act .leave) = gone := by
    rw [step, act, if_neg nofun]
    rfl
  have ho : o = gone.run ((later.map (.work 0)).map .act) := by
    have hacts : acts = watching ++ .leave :: later.map (.work 0) := by simp [acts, watching]
    show (start c).run _ = _
    rw [hacts, List.map_append, ← List.cons_append, ← List.cons_append, run_append,
      run_wait hlive hunits hquiet, hwaited, ← hgone]
    rfl
  let last := f.run Simulation.step c.scheduler.mode.workers later
  have hlater : o =
      { gone with desk := { gone.desk with hall := .ofFloor c.scheduler last none } } := by
    rw [ho, run_quiet (Act.quiet_turns 0 later) fun _ => rfl, Desk.run_work]
    show Office.mk { gone.desk with hall := Hall.run _ (.ofFloor c.scheduler f none) _ } _ _ = _
    rw [Hall.run_ofFloor (by simp)]
  have hresult : whole = c.interruptedStep gates := rfl
  rw [Controller.interruptedStep, hi] at hresult
  have hscheduled : i.scheduler.units = c.scheduler.units := by
    rw [Scheduler.interruptRound, if_neg (hlive ▸ Bool.false_ne_true)] at hi
    rw [← Except.ok.inj hi]
    rfl
  rw [hlater, hresult]
  exact ⟨rfl, rfl, hsame.1, hscheduled.symm, congrArg (fun l => [l]) hsame.2.1⟩

end

/-- A call for one round while no unit is on the schedule. -/
theorem run_call_of_isEmpty (hlive : c.scheduler.disposed = false)
    (hempty : c.scheduler.table.isEmpty = true) (hworkers : 0 < c.scheduler.mode.workers)
    (plan : Plan) :
    let handles := List.replicate (c.units.keys.length + 1) (.act .handle)
    let o := (start c).run (.call 1 :: .turn 0 :: handles ++ [.turn 0])
    let whole := c.stepOntoAlong plan .empty [] 1
    o.calls = [.back whole.result] ∧ o.desk.Shows whole.controller := by
  intro handles o whole
  have hentries : c.scheduler.table.entries = [] := List.isEmpty_iff.mp hempty
  have hnodup : c.scheduler.units.Nodup := by
    rw [Scheduler.units, Table.keys, hentries]
    exact .nil
  have hdone := plan.done c.scheduler c.units hworkers hnodup
  -- There are no tasks to move.
  have hfloor : c.scheduler.along Simulation.step (plan.turns c.scheduler c.units) c.units =
      c.scheduler.floor c.units := by
    refine Scheduler.along_keeps (P := (· = c.scheduler.floor c.units)) (fun f unit hf => ?_) rfl _
    have hnone : (c.scheduler.floor c.units).stages.get? unit = none := by
      rw [Scheduler.floor, hentries]
      rfl
    rw [hf, Floor.move, hnone]
  let o' := (start c).run [.call 1, .turn 0]
  have ho : o = (o'.run handles).step (.turn 0) := by
    show (start c).run _ = _
    rw [run_append]
    rfl
  have ho' : o' = _ := run_begin hlive
  rw [Desk.step_round_of_isEmpty hlive hempty, hempty] at ho'
  have hshows : o'.desk.Shows (c.afterRound c.scheduler.complete (c.scheduler.begin c.units)) := by
    rw [ho']
    exact ⟨rfl, rfl, rfl, rfl⟩
  have hserving : o'.serving = if c.recording then some 0 else none := by
    rw [ho']
    show (if (if c.recording = true then some _ else none : Option Section).isSome then some 0
      else none) = _
    by_cases hrecording : c.recording = true <;> simp [hrecording]
  obtain ⟨hback, hshows'⟩ := run_rest hshows (by rw [ho']; rfl) hserving (by rw [ho'])
  rw [ho, show whole = c.stepOntoAlong plan .empty [] 1 from rfl,
    Controller.stepOntoAlong_one hlive plan hdone, hfloor]
  exact ⟨hback, hshows'⟩

end Office
end Rewind
