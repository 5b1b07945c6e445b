import Rewind.Proofs.Controller.OfficeRuns

/-! What becomes of a halt.

A unit that halts in a round which is waited for to the end is taken off the schedule, gets back
there only when it is restored, and is in the report of the call that waited, unless that call comes
back with an error and no report at all (`Office.halt`). After a wait that was interrupted nobody
looks at what the round knows of halts: the unit stays on the schedule and is in no report
(`Office.not_halt_unnoticed`). -/

namespace Rewind.Office
variable {o : Office} {k i : Nat} {unit : UnitId}

/-- The turn begins a round with a task to step the unit. -/
def Begins (o : Office) (i : Nat) (unit : UnitId) : Prop :=
  ∃ r, (o.step (.turn i)).desk.hall.rounds = o.desk.hall.rounds ++ [r] ∧
    ∃ e ∈ r.stages.entries, ∃ t, e.2 = .queued t ∧ t.target = unit

theorem Begins.idle (ho : o.Sound) (h : o.Begins i unit) :
    o.desk.hall.watch = none ∧ unit ∈ o.desk.hall.scheduler.units := by
  obtain ⟨r, hr, e, he, t, ht, rfl⟩ := h
  have hne : (o.step (.turn i)).desk ≠ o.desk := fun heq => by
    rw [heq] at hr
    simp at hr
  obtain ⟨a, hdesk, hx⟩ := (o.desk_step (.turn i)).resolve_left hne
  rcases hx with ⟨rfl, -⟩ | ⟨-, hx⟩
  · rw [hdesk] at hr
    obtain ⟨hidle, rfl⟩ := Desk.begins hr
    obtain ⟨entry, hentry, rfl⟩ := List.mem_map.mp he
    obtain rfl : entry.2 = t := Stage.queued.inj ht
    rw [ho.schedule.tasks entry hentry]
    exact ⟨hidle, List.mem_map_of_mem hentry⟩
  · cases hx

/-- A call that has a round left begins it if nobody has the lock. -/
theorem Sound.begins {left : Nat} {report : StepReport} (ho : o.Sound)
    (hserving : o.serving ≠ some i)
    (hcall : o.calls[i]? = some (.pending (left + 1) report)) (hfree : o.desk.holder = none)
    (hlive : o.desk.hall.scheduler.disposed = false)
    (hunit : unit ∈ o.desk.hall.scheduler.units) : o.Begins i unit := by
  refine ⟨(o.desk.hall.scheduler.floor o.desk.hall.store).round, ?_, ?_⟩
  · have hidle : o.desk.hall.watch = none := by
      cases hw : o.desk.hall.watch with
      | none => rfl
      | some w =>
        have hround := ho.desk.locked w.1 (by rw [Hall.inProgress, hw]; rfl)
        rw [hfree] at hround
        cases hround
    have hunits : o.desk.hall.scheduler.table.isEmpty = false := by
      cases hempty : o.desk.hall.scheduler.table.isEmpty with
      | false => rfl
      | true =>
        rw [Scheduler.units, Table.keys, List.isEmpty_iff.mp hempty] at hunit
        cases hunit
    have hdoes : (o.desk.does .round).1 = [.begin] := by
      simp only [Desk.does, hfree, hlive]
      rfl
    rw [Office.step, turn_of_free hserving hcall hfree hlive]
    show (o.desk.hall.run Simulation.step (o.desk.does .round).1).rounds = _
    rw [hdoes]
    show o.desk.hall.begin.rounds = _
    unfold Hall.begin
    rw [hidle, hlive, hunits]
    rfl
  · obtain ⟨entry, hentry, rfl⟩ := List.mem_map.mp hunit
    refine ⟨_, List.mem_map_of_mem hentry, entry.2, rfl, ?_⟩
    rw [ho.schedule.tasks entry hentry]
    rfl

/-- After a round that is done the call has all its halts to report, and the units are off the
schedule. -/
theorem Sound.leave_done (ho : o.Sound) (hleaves : o.desk.hall.Leaves k .done) :
    (∃ i c, o.serving = some i ∧ (o.step (.act .leave)).calls[i]? = some c ∧
      ∀ unit ∈ o.desk.hall.haltedIn k, c.Reports unit) ∧
    ∀ unit ∈ o.desk.hall.haltedIn k,
      unit ∉ (o.step (.act .leave)).desk.hall.scheduler.units := by
  refine ⟨?_, fun unit hunit => Desk.units_leave ho.schedule.nodup hleaves hunit⟩
  have hround : o.desk.holder = some .round :=
    ho.desk.locked k (by rw [Hall.inProgress, hleaves.2]; rfl)
  obtain ⟨i, hi⟩ := Option.isSome_iff_exists.mp (ho.waits hround)
  obtain ⟨left, report, hcall⟩ := ho.serves i hi
  let after : StepReport :=
    { report with
      rounds := report.rounds + 1
      halted := report.halted ++ o.desk.hall.haltedIn k }
  refine ⟨i, .pending left after, hi, ?_, fun unit hunit => List.mem_append_right _ hunit⟩
  rw [Office.step, getElem?_calls_act o (a := .leave) (by decide), hcall, Option.map_some,
    if_pos hi]
  simp only [answer, hleaves.1, hleaves.2]
  rfl

/-- After a wait that was interrupted the schedule is what it was, and so is what the calls have to
report. -/
theorem leave_interrupted {pending : Nat} (hleaves : o.desk.hall.Leaves k (.interrupted pending)) :
    (o.step (.act .leave)).desk.hall.scheduler = o.desk.hall.scheduler ∧
      (o.step (.act .leave)).calls.map StepCall.halted = o.calls.map StepCall.halted := by
  have hanswer (c : StepCall) : (answer o.desk .leave c).halted = c.halted := by
    cases c with
    | back => rfl
    | pending left report => simp only [answer, hleaves.1, hleaves.2, StepCall.halted]
  refine ⟨?_, List.ext_getElem? fun i => ?_⟩
  · have hdoes : (o.desk.does .leave).1 = [.leave] := by
      simp only [Desk.does, hleaves.1, hleaves.2]
    show (o.desk.hall.run Simulation.step (o.desk.does .leave).1).scheduler = _
    rw [hdoes]
    show (o.desk.hall.step Simulation.step .leave).scheduler = _
    simp only [Hall.step, hleaves.1, Hall.leave, hleaves.2]
    rfl
  · rw [step, List.getElem?_map, List.getElem?_map, getElem?_calls_act o (a := .leave) (by decide),
      Option.map_map]
    refine congrArg (Option.map · _) (funext fun c => ?_)
    show (if o.serving = some i then answer o.desk .leave c else c).halted = c.halted
    split
    · exact hanswer c
    · rfl

/-- A round that is done is over. -/
theorem Sound.over (ho : o.Sound) (hleaves : o.desk.hall.Leaves k .done) : o.desk.hall.Over k := by
  obtain ⟨r, hr, hfits⟩ := ho.desk.hall.watched k _ hleaves.2
  exact ⟨r, hr, hfits⟩

/-- The wait for the round comes out interrupted somewhere in a run. -/
def CutShort (o : Office) (deeds : List Deed) (k : Nat) : Prop :=
  ∃ before later pending, deeds = before ++ .act .leave :: later ∧
    (o.run before).desk.hall.Leaves k (.interrupted pending)

/-- Someone interrupts the wait for the round somewhere in a run. -/
def Interrupts (o : Office) (deeds : List Deed) (k : Nat) : Prop :=
  ∃ before later, deeds = before ++ .act .interrupt :: later ∧
    (o.run before).desk.hall.inProgress = some k

/-- The round has been waited for to the end in a run, and this is what has become of the call that
did so. -/
def WaitedFor (o : Office) (deeds : List Deed) (k : Nat) (x : StepCall) : Prop :=
  ∃ before later i, deeds = before ++ .act .leave :: later ∧
    (o.run before).desk.hall.Leaves k .done ∧ (o.run before).serving = some i ∧
    (o.run deeds).calls[i]? = some x

/-- The call that has waited for the round to the end has the unit to report. -/
def Reported (o : Office) (deeds : List Deed) (k : Nat) (unit : UnitId) : Prop :=
  ∃ x, o.WaitedFor deeds k x ∧ x.Reports unit

/-- The call that has waited for the round to the end has come back with an error. -/
def Erred (o : Office) (deeds : List Deed) (k : Nat) : Prop := ∃ x, o.WaitedFor deeds k x ∧ x.Errs

/-- Every round that is begun in a run with a task for the unit is begun after the unit was
restored. -/
def Reinstated (o : Office) (deeds : List Deed) (unit : UnitId) : Prop :=
  ∀ before i later, deeds = before ++ .turn i :: later → (o.run before).Begins i unit →
    ∃ first rest, before = first ++ .act .handle :: rest ∧ (o.run first).desk.Restores unit

section
variable (ho : o.Sound) (hprogress : o.desk.hall.inProgress = some k)
  (houtcome : o.desk.hall.outcome? k unit = some .halted)
include ho hprogress houtcome

/-- The thread that waits for the round leaves when the round is done or the wait was
interrupted. -/
theorem left_of_waits {deeds : List Deed} (hcut : ¬ o.CutShort deeds k)
    (hl : (o.run deeds).desk.hall.inProgress ≠ some k) :
    ∃ before later, deeds = before ++ .act .leave :: later ∧
      (o.run before).desk.hall.Leaves k .done ∧ unit ∈ (o.run before).desk.hall.haltedIn k := by
  obtain ⟨r, hr, -⟩ := Hall.outcome?_eq_some.mp houtcome
  obtain ⟨r', hr', -⟩ := hall_run (P := fun h => ∃ r, h.rounds[k]? = some r ∧ True)
    (fun h e hs hP => Hall.round_step hs e (fun _ _ _ => id) (fun _ => id) hP) ho ⟨r, hr, trivial⟩
    deeds
  have hleft : (o.run deeds).desk.hall.Left k := ⟨(List.getElem?_eq_some_iff.mp hr').1, hl⟩
  obtain ⟨before, later, hdeeds, w, hleaves⟩ :=
    (left_run ho hleft).resolve_left fun hno => hno.2 hprogress
  cases w with
  | interrupted pending => exact absurd ⟨before, later, pending, hdeeds, hleaves⟩ hcut
  | done =>
    have hb := ho.run before
    have hhalted := hall_run (fun _ e hs ho => Hall.outcome?_step hs e ho) ho houtcome before
    exact ⟨before, later, hdeeds, hleaves,
      Hall.Over.mem_haltedIn hb.desk.hall hb.tells (hb.over hleaves) hhalted⟩

theorem reported {deeds : List Deed} (hcut : ¬ o.CutShort deeds k) :
    (o.run deeds).desk.hall.inProgress = some k ∨ o.Reported deeds k unit ∨ o.Erred deeds k := by
  by_cases hl : (o.run deeds).desk.hall.inProgress = some k
  · exact .inl hl
  obtain ⟨before, later, hdeeds, hleaves, hunit⟩ := left_of_waits ho hprogress houtcome hcut hl
  obtain ⟨⟨i, c, hi, hc, hreports⟩, -⟩ := (ho.run before).leave_done hleaves
  obtain ⟨x, hx, hdone⟩ := reports_run hc (.inl (hreports unit hunit)) later
  have hwaited : o.WaitedFor deeds k x := by
    refine ⟨before, later, i, hdeeds, hleaves, hi, ?_⟩
    rw [hdeeds, run_append]
    exact hx
  exact .inr (hdone.imp (⟨x, hwaited, ·⟩) (⟨x, hwaited, ·⟩))

theorem reinstated {deeds : List Deed} (hcut : ¬ o.CutShort deeds k) : o.Reinstated deeds unit := by
  intro before i later hdeeds hbegins
  obtain ⟨hidle, hscheduled⟩ := hbegins.idle (ho.run before)
  have hcut' : ¬ o.CutShort before k := by
    rintro ⟨first, rest, pending, hbefore, hleaves⟩
    exact hcut ⟨first, rest ++ .turn i :: later, pending, by rw [hdeeds, hbefore]; simp, hleaves⟩
  have hl : (o.run before).desk.hall.inProgress ≠ some k := by
    rw [Hall.inProgress, hidle]
    exact (Option.some_ne_none k).symm
  obtain ⟨first, rest, hbefore, hleaves, hunit⟩ := left_of_waits ho hprogress houtcome hcut' hl
  have hoff := ((ho.run first).leave_done hleaves).2 unit hunit
  have hrun : o.run before = ((o.run first).step (.act .leave)).run rest := by
    rw [hbefore, run_append]
    rfl
  rw [hrun] at hscheduled
  obtain ⟨first', rest', hrest, hrestores⟩ :=
    (scheduled_run ((ho.run first).step _) hscheduled).resolve_left hoff
  refine ⟨first ++ .act .leave :: first', rest', by rw [hbefore, hrest]; simp, ?_⟩
  rw [run_append]
  exact hrestores

end

theorem interrupts_of_leaves {c : Controller} (hc : c.scheduler.Advances) {deeds : List Deed}
    {pending : Nat} (hleaves : ((start c).run deeds).desk.hall.Leaves k (.interrupted pending)) :
    (start c).Interrupts deeds k := by
  have ho := (Sound.start hc).run deeds
  obtain ⟨r, hr, hfits⟩ := ho.desk.hall.watched k _ hleaves.2
  refine (interrupted_run (Sound.start hc) hr hfits).resolve_left ?_
  rintro ⟨_, hnone, -⟩
  cases hnone

/-- **What becomes of a halt.** Whatever many threads do: a move of its task shows that a unit has
halted in a round. Then

* the wait for that round comes out interrupted, and someone has interrupted it before; or
* the round is still waited for, or it has been waited for to the end and the call that did so has
  the unit to report, or that call has come back with an error, and then it reports nothing, this
  unit no more than any other; and no round after this has a task to step the unit before it is
  restored.

Where a wait was interrupted, the schedule stays what it is, and so does what the calls have to
report. -/
theorem halt (c : Controller) (hc : c.scheduler.Advances) :
    let after := (start c).run
    (∀ before later k unit,
      let o := (after before).step (.act (.work k unit))
      (after before).desk.hall.outcome? k unit ≠ some .halted →
      o.desk.hall.outcome? k unit = some .halted →
      ((start c).CutShort (before ++ .act (.work k unit) :: later) k ∧
        (start c).Interrupts (before ++ .act (.work k unit) :: later) k) ∨
      ((o.run later).desk.hall.inProgress = some k ∨ o.Reported later k unit ∨ o.Erred later k) ∧
        o.Reinstated later unit) ∧
    ∀ deeds k pending, (after deeds).desk.hall.Leaves k (.interrupted pending) →
      ((after deeds).step (.act .leave)).desk.hall.scheduler = (after deeds).desk.hall.scheduler ∧
      ((after deeds).step (.act .leave)).calls.map StepCall.halted =
        (after deeds).calls.map StepCall.halted := by
  intro after
  refine ⟨?_, fun deeds k pending hleaves => leave_interrupted hleaves⟩
  intro before later k unit o hbefore hhalted
  have hstart : (start c).Sound := .start hc
  have ho₀ : (after before).Sound := hstart.run before
  have ho : o.Sound := ho₀.step _
  have hwork : o.desk.hall = (after before).desk.hall.step Simulation.step (.work k unit) := rfl
  by_cases hcut : (start c).CutShort (before ++ .act (.work k unit) :: later) k
  · obtain ⟨first, rest, pending, hdeeds, hleaves⟩ := hcut
    refine .inl ⟨⟨first, rest, pending, hdeeds, hleaves⟩, ?_⟩
    obtain ⟨first', rest', hfirst, hprogress⟩ := interrupts_of_leaves hc hleaves
    exact ⟨first', rest' ++ .act .leave :: rest, by rw [hdeeds, hfirst]; simp, hprogress⟩
  -- The unit's task is not over yet, so nobody has waited for the round to its end.
  have hopen : ¬ (after before).desk.hall.Over k := fun hover => by
    rw [hwork, hover.outcome?_work ho₀.desk.hall] at hhalted
    exact hbefore hhalted
  have hwaits : ¬ (after before).desk.hall.Left k := fun hl => by
    obtain ⟨first, rest, hfirst, w, hleaves⟩ :=
      (left_run hstart hl).resolve_left fun hno => Nat.not_lt_zero k hno.1
    cases w with
    | interrupted pending =>
      exact hcut ⟨first, rest ++ .act (.work k unit) :: later, pending, by simp [hfirst], hleaves⟩
    | done =>
      have hover := hall_run (fun _ e hs => Hall.Over.step hs e) (hstart.run first)
        ((hstart.run first).over hleaves) (.act .leave :: rest)
      rw [← run_append, ← hfirst] at hover
      exact hopen hover
  have hwaits' : ¬ o.desk.hall.Left k := fun hl =>
    ((Desk.left_step (a := .work k unit) ho₀.desk hl).elim hwaits) fun ⟨ha, _⟩ => nomatch ha
  obtain ⟨r, hr, -⟩ := Hall.outcome?_eq_some.mp hhalted
  have hprogress : o.desk.hall.inProgress = some k := Classical.not_not.mp fun hl =>
    hwaits' ⟨(List.getElem?_eq_some_iff.mp hr).1, hl⟩
  have hcut' : ¬ o.CutShort later k := by
    rintro ⟨first, rest, pending, hlater, hleaves⟩
    refine hcut ⟨before ++ .act (.work k unit) :: first, rest, pending, by simp [hlater], ?_⟩
    rw [run_append]
    exact hleaves
  exact .inr ⟨reported ho hprogress hhalted hcut', reinstated ho hprogress hhalted hcut'⟩

end Rewind.Office

namespace Rewind

namespace StepCall

instance (x : StepCall) (unit : UnitId) : Decidable (x.Reports unit) :=
  inferInstanceAs (Decidable (unit ∈ x.halted))

instance (x : StepCall) : Decidable x.Errs :=
  match x with
  | back (.error e) => .isTrue ⟨e, rfl⟩
  | pending _ _ | back (.ok _) => .isFalse nofun

/-- How many rounds the call has to begin, if it has not come back. -/
def left? : StepCall → Option Nat
  | pending left _ => some left
  | back _ => none

end StepCall

namespace Sample

/-- A simulation that halts in its first step. -/
def pausing : Simulation :=
  { Simulation.new "unit" context with behaviors := [.once "pause" 0 .halted] }

/-- It shares a controller with another unit, and there is a worker for each. -/
def unequal : Controller := (Controller.ofSettings paired .standard).run [.add pausing, .add idle]

theorem unequal_schedule : unequal.scheduler.Advances := ⟨by decide +kernel, by decide +kernel⟩

/-- Someone calls for a round, and a worker has started the task of the first unit. -/
def started : List Deed := [.call 1, .turn 0, .act (.work 0 ⟨1⟩)]

/-- The rest of that task. -/
def finish : List Deed := List.replicate 3 (.act (.work 0 ⟨1⟩))

/-- The other task, and the call comes back after the round is done and the units are recorded. -/
def wait : List Deed :=
  finish ++ List.replicate 5 (Deed.act (.work 0 ⟨2⟩)) ++ [Deed.act .look, .act .leave] ++
    List.replicate 3 (Deed.act .handle) ++ [Deed.turn 0, .call 1, .turn 1]

/-- The wait is interrupted before the other task starts, and when that is over someone calls for
another round. -/
def cutOff : List Deed :=
  finish ++ [Deed.act .interrupt, .act .ring, .act .look, .act .leave] ++
    List.replicate 5 (Deed.act (.work 0 ⟨2⟩)) ++ [Deed.call 1]

/-- This call is left alone. -/
def unnoticed : List Deed :=
  cutOff ++ Deed.turn 1 :: (List.replicate 5 (Deed.act (.work 1 ⟨1⟩)) ++
    List.replicate 5 (Deed.act (.work 1 ⟨2⟩)) ++ [Deed.act .look, .act .leave] ++
    List.replicate 3 (Deed.act .handle) ++ [Deed.turn 1])

end Sample

namespace Office

/-- No call comes back with an error: the unit is reported and off the schedule when the next call
begins its round. Had the wait been interrupted, it would still have been on it. -/
theorem halt_waited :
    let o := ((start Sample.unequal).run Sample.started).step (.act (.work 0 ⟨1⟩))
    let left := (start Sample.unequal).run
      (Sample.started ++ .act (.work 0 ⟨1⟩) :: Sample.finish ++
        [.act .interrupt, .act .ring, .act .look])
    (o.Reported Sample.wait 0 ⟨1⟩ ∧ o.Reinstated Sample.wait ⟨1⟩ ∧
      (o.run Sample.wait).desk.hall.scheduler.units = [⟨2⟩]) ∧
    (left.step (.act .leave)).desk.hall.scheduler = left.desk.hall.scheduler ∧
      left.desk.hall.scheduler.units = [⟨1⟩, ⟨2⟩] := by
  intro o left
  obtain ⟨hhalts, hleaves⟩ := halt Sample.unequal Sample.unequal_schedule
  refine ⟨?_, (hleaves _ 0 1 ⟨by decide +kernel, by decide +kernel⟩).1, by decide +kernel⟩
  rcases hhalts Sample.started Sample.wait 0 ⟨1⟩ (by decide +kernel) (by decide +kernel) with
    ⟨-, first, rest, hdeeds, -⟩ | ⟨hreported, hback⟩
  · have hinterrupt : .act .interrupt ∈ Sample.started ++ .act (.work 0 ⟨1⟩) :: Sample.wait := by
      rw [hdeeds]
      exact List.mem_append_right _ List.mem_cons_self
    exact absurd hinterrupt (by decide)
  · refine ⟨(hreported.resolve_left (by decide +kernel)).resolve_right ?_, hback,
      by decide +kernel⟩
    rintro ⟨x, ⟨-, -, i, -, -, -, hx⟩, herrs⟩
    have hnone : ∀ x ∈ (o.run Sample.wait).calls, ¬ x.Errs := by decide +kernel
    exact hnone x (List.mem_of_getElem? hx) herrs

/-- Where the wait was interrupted, the unit is in no report when all calls have come back, none of
them with an error, and the second round has a task for it although it was not restored. -/
theorem not_halt_unnoticed :
    let before := (start Sample.unequal).run Sample.started
    let o := before.step (.act (.work 0 ⟨1⟩))
    let last := o.run Sample.unnoticed
    (before.desk.hall.outcome? 0 ⟨1⟩ ≠ some .halted ∧
      o.desk.hall.outcome? 0 ⟨1⟩ = some .halted) ∧
    (∀ x ∈ last.calls, x.left? = none ∧ ¬ x.Errs ∧ ¬ x.Reports ⟨1⟩) ∧
    ¬ o.Reinstated Sample.unnoticed ⟨1⟩ := by
  intro before o last
  refine ⟨by decide +kernel, by decide +kernel, fun hback => ?_⟩
  have ho : o.Sound := ((Sound.start Sample.unequal_schedule).run _).step _
  -- The second call has a round to begin, nobody has the lock, and the unit is on the schedule.
  have hleft : (o.run Sample.cutOff).calls[1]?.bind StepCall.left? = some 1 := by decide +kernel
  obtain ⟨call, hcall, hleft⟩ := Option.bind_eq_some_iff.mp hleft
  have hbegins : (o.run Sample.cutOff).Begins 1 ⟨1⟩ := by
    cases call with
    | back => cases hleft
    | pending left report =>
      obtain rfl : left = 0 + 1 := Option.some.inj hleft
      exact (ho.run _).begins (by decide +kernel) hcall (by decide +kernel) (by decide +kernel)
        (by decide +kernel)
  obtain ⟨first, rest, hfirst, -⟩ := hback Sample.cutOff 1 _ rfl hbegins
  have hhandle : .act .handle ∈ Sample.cutOff := by
    rw [hfirst]
    exact List.mem_append_right _ List.mem_cons_self
  exact absurd hhandle (by decide)

end Office
end Rewind
