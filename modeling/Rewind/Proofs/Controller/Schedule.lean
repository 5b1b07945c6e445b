import Rewind.Proofs.Controller.Life

/-! Who takes part in rounds.

A unit joins the rounds when it is added, leaves them when a step of it halts and comes back
when it goes back in time; nothing else that happens to it has a say (`Event.turn?`). So the
schedule can be read off the log (`Life.scheduled_eq`), a unit that is off the schedule stays
as it is until it goes back (`Life.stays`), and a report names each unit that halts during
the call once (`Controller.InService.halted_stepOnto`). -/

namespace Rewind

/-- What decides whether a unit takes part in rounds. -/
inductive Turn where
  | joined
  | halted
  | wentBack
deriving DecidableEq

def Event.turn? : Event → Option Turn
  | added _ => some .joined
  | stepped _ .halted => some .halted
  | restored (.to _) => some .wentBack
  | _ => none

/-- What decided last. -/
def latest? (es : List Event) : Option Turn := (es.filterMap Event.turn?).getLast?

theorem latest?_cons (e : Event) (es : List Event) :
    latest? (e :: es) = (latest? es).or e.turn? := by
  rw [latest?, latest?, List.filterMap_cons]
  cases e.turn? with
  | none => exact (Option.or_none).symm
  | some turn =>
    simp only [List.getLast?_cons]
    cases (es.filterMap Event.turn?).getLast? <;> rfl

namespace Life
variable {r : Recorder} {seat : Option Seat} {es : List Event} {s t : Simulation} {b : Bool}

/-- A unit is scheduled unless it was a halt that decided last. If nothing did, it is as it
was. -/
theorem scheduled_eq (h : Life r seat es (some ⟨t, b⟩)) :
    match latest? es with
    | some turn => b = decide (turn ≠ .halted)
    | none => ∃ s, seat = some ⟨s, b⟩ := by
  generalize hend : some (⟨t, b⟩ : Seat) = after at h
  induction h with
  | nil seat => exact ⟨t, hend.symm⟩
  | @cons seat seat' _ e es he _ ih =>
    have ih := ih hend
    rw [latest?_cons]
    cases hlast : latest? es with
    | some turn =>
      rw [hlast] at ih
      exact ih
    | none =>
      rw [hlast] at ih
      obtain ⟨s, rfl⟩ := ih
      rw [Option.none_or]
      cases he with
      | added => rfl
      | stepped s' =>
        by_cases hhalt : s'.step.2 = .halted
        · simp [hhalt, Event.turn?]
        · have hturn : (Event.stepped s'.cycle s'.step.2).turn? = none := by
            cases hout : s'.step.2 <;> first | rfl | exact absurd hout hhalt
          rw [hturn]
          exact ⟨s', by simp [hhalt]⟩
      | recorded hrecord => exact ⟨_, rfl⟩
      | wentBack hrestore => rfl
      | foundNothing hrestore => exact ⟨_, rfl⟩

/-- A unit off the schedule keeps its tree and its cycle until it goes back or is removed. -/
theorem stays (h : Life r (some ⟨s, false⟩) es seat)
    (hes : ∀ e ∈ es, e ≠ .removed ∧ ∀ cycle, e ≠ .restored (.to cycle)) :
    ∃ t, seat = some ⟨t, false⟩ ∧ t.root = s.root ∧ t.cycle = s.cycle := by
  refine h.keeps (P := fun seat => ∃ t, seat = some ⟨t, false⟩ ∧ t.root = s.root ∧
    t.cycle = s.cycle) (fun e hmem seat seat' he => ?_) ⟨s, rfl, rfl, rfl⟩
  rintro ⟨t, rfl, hroot, hcycle⟩
  obtain ⟨hremoved, hback⟩ := hes e hmem
  cases he with
  | removed => exact absurd rfl hremoved
  | recorded hrecord =>
    obtain ⟨bs, -, rfl⟩ := Simulation.record_eq_ok hrecord
    exact ⟨_, rfl, hroot, hcycle⟩
  | wentBack => exact absurd rfl (hback _)
  | foundNothing hrestore =>
    obtain ⟨-, rfl⟩ := Simulation.restore_eq_nothing hrestore
    exact ⟨_, rfl, hroot, hcycle⟩

end Life

/-! ### Reports -/

/-- The units of a log that halted, in the order in which they did. -/
def halts (log : List (UnitId × Event)) : List UnitId :=
  log.filterMap fun e => if e.2.turn? = some .halted then some e.1 else none

theorem halts_append (log log' : List (UnitId × Event)) :
    halts (log ++ log') = halts log ++ halts log' :=
  List.filterMap_append

namespace Controller
variable {c : Controller}

theorem halts_roundLog (c : Controller) : halts c.roundLog = c.halting := by
  rw [halts, roundLog, List.filterMap_filterMap, halting, ← List.filterMap_eq_filter]
  refine List.filterMap_congr fun u _ => ?_
  unfold outcomeIn
  cases hs : c.units.get? u with
  | none => simp [Option.guard, hs]
  | some s => cases hout : s.step.2 <;> simp [Option.guard, hs, hout, Event.turn?]

theorem halts_recordLog (c : Controller) : halts c.recordLog = [] := by
  rw [halts, recordLog, List.filterMap_map]
  exact List.filterMap_eq_nil_iff.mpr fun _ _ => rfl

theorem halts_stepLog_succ (c : Controller) (n : Nat) :
    halts (c.stepLog (n + 1)) = c.halting ++
      match (c.step 1).result with
      | .ok _ => halts ((c.step 1).controller.stepLog n)
      | .error _ => [] := by
  have hrecords : halts (if c.recording then c.advanced.recordLog else []) = [] := by
    split
    · exact halts_recordLog _
    · rfl
  rw [stepLog, halts_append, halts_append, halts_roundLog, hrecords, List.append_nil]
  cases (c.step 1).result <;> rfl

namespace InService

theorem scheduled_step_one (h : c.InService) :
    (c.step 1).controller.scheduled = c.scheduled.filter fun u => u ∉ c.halting := by
  have hscheduled : (c.step 1).controller.scheduled = c.advanced.scheduled := by
    rw [h.step_one]
    split <;> rfl
  rw [hscheduled, h.scheduled_advanced]
  refine List.filter_congr fun u hu => ?_
  simp [halting, hu]

/-- A unit that halted leaves the rounds to come, so it does not halt again. -/
theorem nodup_halts (h : c.InService) (n : Nat) :
    (halts (c.stepLog n)).Nodup ∧ ∀ u ∈ halts (c.stepLog n), u ∈ c.scheduled := by
  induction n generalizing c with
  | zero => exact ⟨List.nodup_nil, List.forall_mem_nil _⟩
  | succ n ih =>
    have hhalting : c.halting.Nodup := List.Nodup.filter _ h.schedule.nodup
    rw [halts_stepLog_succ]
    cases hresult : (c.step 1).result with
    | error e =>
      rw [List.append_nil]
      exact ⟨hhalting, fun u hu => List.mem_of_mem_filter hu⟩
    | ok report =>
      have hone : (c.step 1).controller.InService := (h.lives_step _ _ 1).inService
      obtain ⟨hnodup, hlater⟩ := ih hone
      simp only [h.scheduled_step_one, List.mem_filter, decide_eq_true_eq] at hlater
      refine ⟨List.nodup_append.mpr ⟨hhalting, hnodup, fun u hu v hv he => ?_⟩, fun u hu => ?_⟩
      · exact (hlater v hv).2 (he ▸ hu)
      · rcases List.mem_append.mp hu with hu | hu
        · exact List.mem_of_mem_filter hu
        · exact (hlater u hu).1

theorem halted_stepOnto (h : c.InService) {report report' : StepReport}
    {failures : List (TaskFailure UnitId)} {n : Nat}
    (hok : (c.stepOnto report failures n).result = .ok report') :
    report'.rounds = report.rounds + n ∧
      report'.halted = report.halted ++ halts (c.stepLog n) := by
  induction n generalizing c report failures with
  | zero =>
    obtain rfl := Except.ok.inj hok
    exact ⟨rfl, (List.append_nil _).symm⟩
  | succ n ih =>
    have hone : (c.step 1).controller.InService := (h.lives_step _ _ 1).inService
    have hhalted : ∀ r, (c.step 1).result = .ok r → r.halted = c.halting := by
      intro r hr
      rw [h.step_one] at hr
      split at hr
      · cases hrecord : c.advanced.recordPass.result with
        | error e => rw [hrecord] at hr; cases hr
        | ok _ =>
          rw [hrecord] at hr
          exact congrArg StepReport.halted (Except.ok.inj hr).symm
      · exact congrArg StepReport.halted (Except.ok.inj hr).symm
    rw [stepOnto_succ] at hok
    rw [halts_stepLog_succ]
    rcases hstep : c.step 1 with ⟨c', more, e | r⟩
    · rw [hstep] at hok
      cases hok
    · rw [hstep] at hok hone hhalted
      obtain ⟨hrounds, hrest⟩ := ih hone hok
      refine ⟨hrounds.trans (Nat.succ_add_eq_add_succ _ _), ?_⟩
      rw [hrest, hhalted r rfl, List.append_assoc]

end InService

/-! ### The schedule -/

/-- From a controller without units, what decided last tells who is on the schedule. -/
theorem Lives.mem_scheduled_iff {start : Controller} {log : List (UnitId × Event)}
    (h : Lives start log c) (hstart : start.units.entries = []) (u : UnitId) :
    u ∈ c.scheduled ↔ u ∈ c.units.keys ∧ latest? (said u log) ≠ some .halted := by
  have hnone : start.seat u = none := by
    rw [seat, Table.get?, hstart]
    rfl
  cases hget : c.units.get? u with
  | none =>
    have hkeys : u ∉ c.units.keys := Table.get?_eq_none_iff.mp hget
    simp [hkeys, mt (h.inService.held u) hkeys]
  | some s =>
    have hkeys : u ∈ c.units.keys := Table.mem_keys_iff.mpr ⟨s, hget⟩
    have hturn := (seat_of_get? hget ▸ h.lives u).scheduled_eq
    rw [hnone] at hturn
    cases hlast : latest? (said u log) with
    | none =>
      rw [hlast] at hturn
      obtain ⟨s, hs⟩ := hturn
      cases hs
    | some turn =>
      rw [hlast] at hturn
      simp only [hkeys, true_and, ne_eq, Option.some.injEq]
      exact decide_eq_decide.mp hturn

/-- **The schedule after any calls.** Each unit has lived by what the log says of it, and it is
on the schedule, once, exactly if it is held and its latest turn is not a halt. The next round
steps the units on the schedule and no others, and of these only the ones that halt leave it.
A unit off the schedule stays as it is until it goes back, and the report of a call names every
unit that halts in its rounds, once. -/
theorem schedule_run (settings : Settings) (formats : FormatTable) (calls : List Call) :
    let start := ofSettings settings formats
    let c := start.run calls
    (∀ u, Life start.recorder none (said u (start.log calls)) (c.seat u)) ∧
    c.scheduled.Nodup ∧
    (∀ u, u ∈ c.scheduled ↔
      u ∈ c.units.keys ∧ latest? (said u (start.log calls)) ≠ some .halted) ∧
    (∃ p report,
      c.scheduler.runRound Simulation.step c.units = .ok (c.scheduler.complete, p, report) ∧
      (∀ u, p.store.get? u =
        (c.units.get? u).map fun s => if u ∈ c.scheduled then s.step.1 else s) ∧
      (c.afterRound c.scheduler.complete p).scheduled =
        c.scheduled.filter fun u => outcomeIn c.units u ≠ some .halted) ∧
    (∀ u s, c.units.get? u = some s → u ∉ c.scheduled → ∀ calls',
      (∀ e ∈ said u (c.log calls'), e ≠ .removed ∧ ∀ cycle, e ≠ .restored (.to cycle)) →
      ∃ t, (c.run calls').units.get? u = some t ∧ u ∉ (c.run calls').scheduled ∧
        t.root = s.root ∧ t.cycle = s.cycle) ∧
    ∀ n report, (c.step n).result = .ok report →
      report.rounds = n ∧ report.halted = halts (c.stepLog n) ∧ report.halted.Nodup := by
  intro start c
  have hstart : start.InService := inService_ofSettings settings formats
  have hrun : Lives start (start.log calls) c := hstart.lives_run calls
  have hc : c.InService := hrun.inService
  refine ⟨hrun.lives, hc.schedule.nodup, hrun.mem_scheduled_iff rfl, ?_,
    fun u s hs hu calls' hes => ?_, fun n report hok => ?_⟩
  · obtain ⟨p, report, hround, hp⟩ := hc.runRound
    refine ⟨p, report, hround, hp.store, ?_⟩
    have hadvanced : c.advanced = c.afterRound c.scheduler.complete p := by
      rw [advanced, hround]
    rw [← hadvanced, hc.scheduled_advanced]
  · have hlater := (hc.lives_run calls').lives u
    rw [seat_of_get? hs, decide_eq_false hu] at hlater
    obtain ⟨t, ht, hroot, hcycle⟩ := hlater.stays hes
    obtain ⟨t', ht', hseat⟩ := Option.map_eq_some_iff.mp ht
    obtain ⟨rfl, hscheduled⟩ := Seat.mk.inj hseat
    exact ⟨t', ht', of_decide_eq_false hscheduled, hroot, hcycle⟩
  · obtain ⟨hrounds, hhalted⟩ := hc.halted_stepOnto hok
    refine ⟨hrounds.trans (Nat.zero_add n), hhalted, ?_⟩
    rw [hhalted]
    exact (hc.nodup_halts n).1

end Controller

namespace Sample

/-- Nothing is recorded unless it is asked for. -/
def unrecorded : Settings :=
  { settings with history := { settings.history with enabled := false } }

end Sample

/-- The first unit halts and then stays as it is, the second fails and stays on the schedule. -/
theorem Controller.schedule_run_halting :
    let c := (ofSettings Sample.unrecorded .standard).run
      [.add (Sample.halting 0), .add (Sample.failing 0), .step 2]
    c.scheduled.Nodup ∧ ⟨1⟩ ∉ c.scheduled ∧ ⟨2⟩ ∈ c.scheduled ∧
    (∃ s t, c.units.get? ⟨1⟩ = some s ∧ (c.run [.step 3]).units.get? ⟨1⟩ = some t ∧
      t.root = s.root ∧ t.cycle = s.cycle) ∧
    ∃ report, (c.step 2).result = .ok report ∧ report.rounds = 2 ∧ report.halted.Nodup := by
  intro c
  obtain ⟨-, hnodup, hscheduled, -, hstays, hreport⟩ := schedule_run Sample.unrecorded .standard
    [.add (Sample.halting 0), .add (Sample.failing 0), .step 2]
  have hheld : ∀ u ∈ [(⟨1⟩ : UnitId), ⟨2⟩], u ∈ c.units.keys := by decide +kernel
  have hone : ⟨1⟩ ∉ c.scheduled := by
    rw [hscheduled]
    decide +kernel
  have htwo : ⟨2⟩ ∈ c.scheduled := by
    rw [hscheduled]
    decide +kernel
  refine ⟨hnodup, hone, htwo, ?_, ?_⟩
  · obtain ⟨s, hs⟩ := Table.mem_keys_iff.mp (hheld ⟨1⟩ List.mem_cons_self)
    have hquiet : ∀ e ∈ said ⟨1⟩ (c.log [.step 3]),
        e ≠ .removed ∧ ∀ cycle, e ≠ .restored (.to cycle) := by
      have hnone : said ⟨1⟩ (c.log [.step 3]) = [] :=
        List.length_eq_zero_iff.mp (by decide +kernel)
      rw [hnone]
      exact List.forall_mem_nil _
    obtain ⟨t, ht, -, hroot, hcycle⟩ := hstays ⟨1⟩ s hs hone [.step 3] hquiet
    exact ⟨s, t, hs, ht, hroot, hcycle⟩
  · obtain ⟨report, hok⟩ : ∃ report, (c.step 2).result = .ok report := by
      have hok : (c.step 2).result.toOption.isSome = true := by decide +kernel
      cases hresult : (c.step 2).result with
      | error e => rw [hresult] at hok; cases hok
      | ok report => exact ⟨report, rfl⟩
    obtain ⟨hrounds, -, hdistinct⟩ := hreport 2 report hok
    exact ⟨report, hok, hrounds, hdistinct⟩

end Rewind
