import Rewind.Proofs.Scheduler.Rounds

/-! The scheduler as a service.

Whoever uses a scheduler registers tasks, runs rounds, and disposes of it in the end. What the
next round does can be read off the requests made so far: which units are on the list and since
when (`enrolled?`), what is to be done to each (`job?`), and how many rounds there have been
(`roundsOf`). These readings are kept by every request (`Service.Follows.serve`), so they hold
after any history, for any number of workers, and however the tasks of each round took turns
(`Service.round_of_history`).

A task is a closure, and one that touches its own unit alone does something to it and says how
that came out. Here it is kept with the unit it touches. -/

namespace Rewind

/-! ### Requests -/

/-- A unit, with what its task does to it each time. -/
structure Tasked (σ : Type) where
  state : σ
  act : σ → σ × Outcome

def Tasked.advance {σ : Type} (u : Tasked σ) : Tasked σ × Outcome :=
  ({ u with state := (u.act u.state).1 }, (u.act u.state).2)

/-- What a task does to its unit, and how many times. -/
structure Job (σ : Type) where
  times : Nat
  act : σ → σ × Outcome

/-- Where the task takes its unit, and how it comes out. -/
def Job.perform {σ : Type} (j : Job σ) (s : σ) : σ × Outcome := repeated j.act j.times s .running

inductive Request (ι σ : Type) where
  /-- With the task to take one step. -/
  | register (unit : ι)
  | registerTask (unit : ι) (job : Job σ)
  | unregister (unit : ι)
  /-- The tasks take turns as the schedule says. -/
  | runRound (schedule : List ι)
  | dispose

/-- A scheduler and the units that its tasks touch. -/
structure Service (ι σ : Type) where
  scheduler : Scheduler ι
  units : Table ι (Tasked σ)

section
variable {ι σ : Type} [DecidableEq ι]

namespace Service

def new (concurrency : Int) (units : Table ι (Tasked σ)) : Service ι σ :=
  { scheduler := .new concurrency, units }

/-- Gives a unit something else to do. -/
def equip (x : Service ι σ) (unit : ι) (act : σ → σ × Outcome) : Table ι (Tasked σ) :=
  x.units.update unit fun u => { u with act }

/-- The service after a request, or nothing while a round is under way. -/
def serve (step : σ → σ × Outcome) (x : Service ι σ) : Request ι σ → Option (Service ι σ)
  | .register unit =>
    some { scheduler := x.scheduler.register unit, units := x.equip unit step }
  | .registerTask unit job =>
    some
      { scheduler := x.scheduler.registerTask unit { target := unit, times := job.times }
        units := x.equip unit job.act }
  | .unregister unit => some { x with scheduler := x.scheduler.unregister unit }
  | .runRound schedule =>
    match x.scheduler.runRoundAlong Tasked.advance schedule x.units with
    | .error _ => some x
    | .ok none => none
    | .ok (some (scheduler, p, _)) => some { scheduler, units := p.store }
  | .dispose => some { x with scheduler := x.scheduler.dispose }

/-- The service after a history of requests, the newest first. -/
def after (step : σ → σ × Outcome) (x : Service ι σ) : List (Request ι σ) → Option (Service ι σ)
  | [] => some x
  | r :: earlier => (x.after step earlier).bind fun y => y.serve step r

end Service

/-! ### Reading a history -/

/-- What is to be done to a unit that is on the list. -/
def job? (step : σ → σ × Outcome) : List (Request ι σ) → ι → Option (Job σ)
  | [], _ => none
  | .register v :: earlier, unit => if v = unit then some ⟨1, step⟩ else job? step earlier unit
  | .registerTask v job :: earlier, unit => if v = unit then some job else job? step earlier unit
  | .unregister v :: earlier, unit => if v = unit then none else job? step earlier unit
  | .runRound _ :: earlier, unit => job? step earlier unit
  | .dispose :: _, _ => none

/-- How many requests came before the one that put a unit on the list. -/
def enrolled? : List (Request ι σ) → ι → Option Nat
  | [], _ => none
  | .register v :: earlier, unit | .registerTask v _ :: earlier, unit =>
    if v = unit then some ((enrolled? earlier unit).getD earlier.length)
    else enrolled? earlier unit
  | .unregister v :: earlier, unit => if v = unit then none else enrolled? earlier unit
  | .runRound _ :: earlier, unit => enrolled? earlier unit
  | .dispose :: _, _ => none

/-- The unit has been on the list for longer than the other. -/
def EnrolledBefore (history : List (Request ι σ)) (unit v : ι) : Prop :=
  ∃ i j, enrolled? history unit = some i ∧ enrolled? history v = some j ∧ i < j

def isDisposed (history : List (Request ι σ)) : Bool :=
  history.any fun
    | .dispose => true
    | _ => false

/-- How many rounds have been completed. -/
def roundsOf : List (Request ι σ) → Nat
  | [] => 0
  | .runRound _ :: earlier => if isDisposed earlier then roundsOf earlier else roundsOf earlier + 1
  | _ :: earlier => roundsOf earlier

theorem isSome_enrolled? (step : σ → σ × Outcome) (history : List (Request ι σ)) (unit : ι) :
    (enrolled? history unit).isSome = (job? step history unit).isSome := by
  induction history with
  | nil => rfl
  | cons r earlier ih =>
    cases r with
    | register v | registerTask v | unregister v =>
      rw [enrolled?, job?]
      split
      · rfl
      · exact ih
    | runRound => exact ih
    | dispose => rfl

theorem lt_of_enrolled? {history : List (Request ι σ)} {unit : ι} {i : Nat}
    (h : enrolled? history unit = some i) : i < history.length := by
  induction history generalizing i with
  | nil => cases h
  | cons r earlier ih =>
    cases r with
    | register v | registerTask v =>
      rw [enrolled?] at h
      split at h
      · cases hearlier : enrolled? earlier unit with
        | none =>
          rw [hearlier] at h
          exact Option.some.inj h ▸ Nat.lt_succ_self _
        | some j =>
          rw [hearlier] at h
          exact Option.some.inj h ▸ Nat.lt_succ_of_lt (ih hearlier)
      · exact Nat.lt_succ_of_lt (ih h)
    | unregister v =>
      rw [enrolled?] at h
      split at h
      · cases h
      · exact Nat.lt_succ_of_lt (ih h)
    | runRound => exact Nat.lt_succ_of_lt (ih h)
    | dispose => cases h

/-! ### What requests keep -/

namespace Service
variable {step : σ → σ × Outcome} {history : List (Request ι σ)} {x y : Service ι σ}

/-- The service is as its history says. -/
structure Follows (step : σ → σ × Outcome) (concurrency : Int) (history : List (Request ι σ))
    (x : Service ι σ) : Prop where
  mode : x.scheduler.mode = .ofConcurrency concurrency
  disposed : x.scheduler.disposed = isDisposed history
  rounds : x.scheduler.rounds = roundsOf history
  nodup : x.scheduler.units.Nodup
  tasks : ∀ u, x.scheduler.table.get? u =
    (job? step history u).map fun job => { target := u, times := job.times }
  acts : ∀ u z job, job? step history u = some job → x.units.get? u = some z → z.act = job.act
  order : x.scheduler.units.Pairwise (EnrolledBefore history)

theorem get?_equip (unit : ι) (act : σ → σ × Outcome) (v : ι) :
    (x.equip unit act).get? v =
      (x.units.get? v).map fun u => if unit = v then { u with act } else u := by
  rw [equip, Table.update]
  by_cases hv : unit = v
  · subst hv
    cases hunit : x.units.get? unit with
    | none => simp [hunit]
    | some u => simp [Table.get?_set]
  · cases x.units.get? unit with
    | none => simp [hv]
    | some u => simp [Table.get?_set, hv]

namespace Follows
variable {concurrency : Int}

theorem new (units : Table ι (Tasked σ)) :
    Follows step concurrency [] (.new concurrency units) := by
  refine ⟨rfl, rfl, rfl, .nil, fun u => rfl, fun u z job h => ?_, .nil⟩
  cases h

/-- A unit that has a task is on the list. -/
theorem mem_units_iff (h : Follows step concurrency history x) (u : ι) :
    u ∈ x.scheduler.units ↔ (job? step history u).isSome := by
  rw [Scheduler.units, Table.mem_keys_iff, ← Option.isSome_iff_exists, h.tasks, Option.isSome_map]

theorem mem_units_iff_enrolled (h : Follows step concurrency history x) (u : ι) :
    u ∈ x.scheduler.units ↔ ∃ i, enrolled? history u = some i := by
  rw [h.mem_units_iff, ← isSome_enrolled?, Option.isSome_iff_exists]

/-- A task is put in the place of the one before it, or at the end of the list. -/
theorem registerTask (h : Follows step concurrency history x) (unit : ι) (job : Job σ) :
    Follows step concurrency (.registerTask unit job :: history)
      { scheduler := x.scheduler.registerTask unit { target := unit, times := job.times }
        units := x.equip unit job.act } := by
  -- Those who were on the list stay where they are.
  have hstays : ∀ u ∈ x.scheduler.units,
      enrolled? (.registerTask unit job :: history) u = enrolled? history u := by
    intro u hu
    obtain ⟨i, hi⟩ := (h.mem_units_iff_enrolled u).mp hu
    rw [enrolled?, hi]
    split <;> rfl
  have horder : x.scheduler.units.Pairwise
      (EnrolledBefore (.registerTask unit job :: history)) := by
    refine h.order.imp_of_mem fun {u v} hu hv huv => ?_
    rw [EnrolledBefore, hstays u hu, hstays v hv]
    exact huv
  refine ⟨h.mode, h.disposed, h.rounds, Table.nodup_keys_set h.nodup, fun u => ?_,
    fun u z job' hjob hz => ?_, ?_⟩
  · show (x.scheduler.table.set unit _).get? u = Option.map _ (if unit = u then some job else _)
    rw [Table.get?_set]
    split
    · next hu => rw [← hu]; rfl
    · exact h.tasks u
  · change (if unit = u then some job else _) = _ at hjob
    rw [get?_equip] at hz
    obtain ⟨z', hz', rfl⟩ := Option.map_eq_some_iff.mp hz
    by_cases hu : unit = u
    · rw [if_pos hu] at hjob ⊢
      exact congrArg Job.act (Option.some.inj hjob)
    · rw [if_neg hu] at hjob ⊢
      exact h.acts u z' job' hjob hz'
  · show (x.scheduler.table.set unit _).keys.Pairwise _
    rw [Table.keys_set]
    split
    · exact horder
    · next hnew =>
      have hunit : enrolled? history unit = none := by
        rw [Option.eq_none_iff_forall_ne_some]
        exact fun i hi => hnew ((h.mem_units_iff_enrolled unit).mpr ⟨i, hi⟩)
      refine List.pairwise_append.mpr ⟨horder, List.pairwise_singleton _ _, fun u hu v hv => ?_⟩
      obtain ⟨i, hi⟩ := (h.mem_units_iff_enrolled u).mp hu
      rw [List.mem_singleton.mp hv]
      refine ⟨i, history.length, (hstays u hu).trans hi, ?_, lt_of_enrolled? hi⟩
      rw [enrolled?, if_pos rfl, hunit, Option.getD_none]

/-- The others on the list close up. -/
theorem unregister (h : Follows step concurrency history x) (unit : ι) :
    Follows step concurrency (.unregister unit :: history)
      { x with scheduler := x.scheduler.unregister unit } := by
  have hget (u : ι) : (x.scheduler.table.erase unit).get? u =
      if unit = u then none else x.scheduler.table.get? u :=
    Table.get?_erase h.nodup u
  refine ⟨h.mode, h.disposed, h.rounds, Table.nodup_keys_erase h.nodup, fun u => ?_,
    fun u z job hjob hz => ?_, ?_⟩
  · refine (hget u).trans ?_
    rw [job?]
    split
    · rfl
    · exact h.tasks u
  · rw [job?] at hjob
    split at hjob
    · cases hjob
    · exact h.acts u z job hjob hz
  · have hstays : ∀ u ∈ (x.scheduler.unregister unit).units,
        enrolled? (.unregister unit :: history) u = enrolled? history u := by
      intro u hu
      obtain ⟨t, ht⟩ := Table.mem_keys_iff.mp hu
      rw [enrolled?]
      split
      · next hunit =>
        rw [hunit] at hget
        rw [Scheduler.unregister, hunit, hget, if_pos rfl] at ht
        cases ht
      · rfl
    refine (h.order.sublist (Table.drop_sublist.map Prod.fst)).imp_of_mem
      fun {u v} hu hv huv => ?_
    rw [EnrolledBefore, hstays u hu, hstays v hv]
    exact huv

theorem dispose (h : Follows step concurrency history x) :
    Follows step concurrency (.dispose :: history)
      { x with scheduler := x.scheduler.dispose } := by
  refine ⟨h.mode, rfl, h.rounds, .nil, fun u => rfl, fun u z job hjob => ?_, .nil⟩
  cases hjob

/-- The tasks on the list touch their own units. -/
theorem own (h : Follows step concurrency history x) : x.scheduler.Own := by
  refine ⟨fun e he => ?_, h.nodup⟩
  have htask := Table.get?_of_mem h.nodup he
  rw [h.tasks] at htask
  obtain ⟨job, -, hjob⟩ := Option.map_eq_some_iff.mp htask
  rw [← hjob]

theorem workers_pos (h : Follows step concurrency history x) : 0 < x.scheduler.mode.workers :=
  h.mode ▸ ExecutionMode.workers_pos concurrency

end Follows
end Service

/-! ### Rounds -/

theorem Tasked.repeated_advance (n : Nat) (u : Tasked σ) (last : Outcome) :
    repeated Tasked.advance n u last =
      ({ u with state := (repeated u.act n u.state last).1 },
        (repeated u.act n u.state last).2) :=
  @repeated_map _ _ u.act Tasked.advance (fun state => ⟨state, u.act⟩) (fun _ => rfl) n u.state last

namespace Service
variable {step : σ → σ × Outcome} {history : List (Request ι σ)} {x y : Service ι σ}

/-- Where the next round takes a unit. -/
def next (step : σ → σ × Outcome) (history : List (Request ι σ)) (x : Service ι σ) (unit : ι) :
    Option (Tasked σ) :=
  (x.units.get? unit).map fun u =>
    match job? step history unit with
    | some job => { u with state := (job.perform u.state).1 }
    | none => u

/-- How the task of a unit comes out in the next round. -/
def outcome? (step : σ → σ × Outcome) (history : List (Request ι σ)) (x : Service ι σ)
    (unit : ι) : Option Outcome :=
  (job? step history unit).bind fun job =>
    (x.units.get? unit).map fun u => (job.perform u.state).2

theorem Follows.result_eq {concurrency : Int} (h : Follows step concurrency history x) (u : ι) :
    x.scheduler.result Tasked.advance x.units u =
      (x.next step history u, (x.outcome? step history u).getD .running) := by
  have htask := h.tasks u
  rw [Scheduler.result, next, outcome?]
  cases hjob : job? step history u with
  | none =>
    rw [hjob, Option.map_none] at htask
    simp [htask]
  | some job =>
    rw [hjob, Option.map_some] at htask
    cases hu : x.units.get? u with
    | none => simp [htask, repeated_advanceHeld_none]
    | some z =>
      have hact := h.acts u z job hjob hu
      simp [htask, repeated_advanceHeld_some, Tasked.repeated_advance, hact, Job.perform]

/-- A completed round, as the history and the units before it lay it down. -/
structure Completed (step : σ → σ × Outcome) (history : List (Request ι σ)) (x : Service ι σ)
    (s : Scheduler ι) (p : Progress ι (Tasked σ)) (report : RoundReport ι) : Prop where
  scheduler : s = x.scheduler.complete
  round : report.round = roundsOf history + 1
  submitted : report.submitted = x.scheduler.units.length
  units : ∀ u, p.store.get? u = x.next step history u
  keys : p.store.keys = x.units.keys
  halted : report.halted.Perm
    (x.scheduler.units.filter fun u => x.outcome? step history u = some .halted)
  failures : p.failures.Perm (x.scheduler.units.filterMap fun u =>
    ((x.outcome? step history u).bind Outcome.cause?).map (TaskFailure.mk u))

namespace Follows
variable {concurrency : Int}

theorem completed (h : Follows step concurrency history x) {schedule : List ι} {s : Scheduler ι}
    {p : Progress ι (Tasked σ)} {report : RoundReport ι}
    (hround : x.scheduler.runRoundAlong Tasked.advance schedule x.units =
      .ok (some (s, p, report))) :
    Completed step history x s p report := by
  obtain ⟨hdone, hs, rfl, rfl⟩ := Scheduler.done_of_runRoundAlong hround
  obtain ⟨hget, hkeys, hhalted, hfailures⟩ := h.own.ran_along hdone
  refine ⟨hs, congrArg (· + 1) h.rounds, rfl, fun u => ?_, hkeys, ?_, ?_⟩
  · rw [hget, h.result_eq]
  · refine hhalted.trans (List.Perm.of_eq (List.filter_congr fun u _ => ?_))
    rw [h.result_eq]
    cases x.outcome? step history u <;> simp
  · refine hfailures.trans (List.Perm.of_eq (List.filterMap_congr fun u _ => ?_))
    rw [h.result_eq]
    cases x.outcome? step history u <;> simp [Outcome.cause?]

theorem runRound (h : Follows step concurrency history x) {schedule : List ι} {s : Scheduler ι}
    {p : Progress ι (Tasked σ)} {report : RoundReport ι} (hlive : isDisposed history = false)
    (hround : x.scheduler.runRoundAlong Tasked.advance schedule x.units =
      .ok (some (s, p, report))) :
    Follows step concurrency (.runRound schedule :: history)
      { scheduler := s, units := p.store } := by
  have hc := h.completed hround
  obtain rfl := hc.scheduler
  refine ⟨h.mode, h.disposed, ?_, h.nodup, h.tasks, fun u z job hjob hz => ?_, h.order⟩
  · rw [roundsOf, hlive, ← h.rounds]
    rfl
  · have hz : p.store.get? u = some z := hz
    rw [hc.units, next] at hz
    obtain ⟨z', hz', rfl⟩ := Option.map_eq_some_iff.mp hz
    have hact := h.acts u z' job hjob hz'
    split <;> exact hact

/-- **Every request keeps the service as its history says.** -/
theorem serve (h : Follows step concurrency history x) {r : Request ι σ}
    (hserve : x.serve step r = some y) : Follows step concurrency (r :: history) y := by
  cases r with
  | register unit =>
    cases hserve
    have hr := h.registerTask unit ⟨1, step⟩
    exact ⟨hr.mode, hr.disposed, hr.rounds, hr.nodup, hr.tasks, hr.acts, hr.order⟩
  | registerTask unit job =>
    cases hserve
    exact h.registerTask unit job
  | unregister unit =>
    cases hserve
    exact h.unregister unit
  | dispose =>
    cases hserve
    exact h.dispose
  | runRound schedule =>
    rw [Service.serve] at hserve
    split at hserve
    · next hround =>
      cases hserve
      have hlive : isDisposed history = true :=
        h.disposed.symm.trans (Scheduler.disposed_of_runRoundAlong hround)
      refine ⟨h.mode, h.disposed, ?_, h.nodup, h.tasks, h.acts, h.order⟩
      rw [roundsOf, if_pos hlive]
      exact h.rounds
    · cases hserve
    · next hround =>
      cases hserve
      refine h.runRound ?_ hround
      cases hlive : isDisposed history with
      | false => rfl
      | true =>
        rw [Scheduler.runRoundAlong_of_disposed (h.disposed.trans hlive)] at hround
        cases hround

theorem after {units : Table ι (Tasked σ)}
    (h : (Service.new concurrency units).after step history = some x) :
    Follows step concurrency history x := by
  induction history generalizing x with
  | nil =>
    cases h
    exact .new units
  | cons r earlier ih =>
    rw [Service.after] at h
    obtain ⟨y, hy, hserve⟩ := Option.bind_eq_some_iff.mp h
    exact (ih hy).serve hserve

end Follows
/-- **What a round does can be read off the history**, for any number of workers. The units on
the list are those with a task, the longest enrolled first. Until the scheduler is disposed of a
round can be completed from wherever its tasks are, and however they took turns it is the
`Completed` one; after that rounds are refused and change nothing. To run the tasks one by one,
in any order, is one way to take turns. -/
theorem round_of_history (step : σ → σ × Outcome) (concurrency : Int) (units : Table ι (Tasked σ))
    {history : List (Request ι σ)} {x : Service ι σ}
    (h : (Service.new concurrency units).after step history = some x) :
    x.scheduler.rounds = roundsOf history ∧
    (∀ u, u ∈ x.scheduler.units ↔ (job? step history u).isSome) ∧
    x.scheduler.units.Pairwise (EnrolledBefore history) ∧
    (isDisposed history = false → ∀ schedule,
      (∃ more q, x.scheduler.runRoundAlong Tasked.advance (schedule ++ more) x.units =
        .ok (some q)) ∧
      ∀ s p report, x.scheduler.runRoundAlong Tasked.advance schedule x.units =
        .ok (some (s, p, report)) → Completed step history x s p report) ∧
    (isDisposed history = true → ∀ schedule,
      x.scheduler.runRoundAlong Tasked.advance schedule x.units = .error .disposed ∧
      x.serve step (.runRound schedule) = some x) ∧
    ∀ order, order.Perm x.scheduler.table.entries → ∃ schedule,
      x.scheduler.runRoundAlong Tasked.advance schedule x.units =
        (x.scheduler.runRoundIn Tasked.advance order x.units).map some := by
  have hx := Follows.after h
  refine ⟨hx.rounds, hx.mem_units_iff, hx.order, fun hlive schedule => ⟨?_, ?_⟩,
    fun hdisposed schedule => ?_, fun order horder => ?_⟩
  · obtain ⟨more, hdone⟩ := Scheduler.exists_along_done hx.workers_pos hx.nodup schedule
    exact ⟨more, _, Scheduler.runRoundAlong_of_done (hx.disposed.trans hlive) hdone⟩
  · exact fun s p report hround => hx.completed hround
  · have hrefused : x.scheduler.runRoundAlong Tasked.advance schedule x.units = .error .disposed :=
      Scheduler.runRoundAlong_of_disposed (hx.disposed.trans hdisposed) schedule
    refine ⟨hrefused, ?_⟩
    rw [serve, hrefused]
  · exact Scheduler.exists_schedule hx.workers_pos hx.nodup x.units horder

end Service
end

namespace Sample

def count (n : Nat) : Nat × Outcome := (n + 1, .running)

/-- Three units that count. -/
def counters : Table Nat (Tasked Nat) := ⟨[(1, ⟨0, count⟩), (2, ⟨0, count⟩), (3, ⟨0, count⟩)]⟩

/-- The turns of a round in which two tasks overlap. -/
def turns : List Nat := [2, 1, 1, 2, 1, 2, 2, 1, 1, 1]

/-- The first unit is registered again, for two times of something else. -/
def requests : List (Request Nat Nat) :=
  [.runRound turns, .registerTask 1 ⟨2, fun n => (n + 10, .halted)⟩,
    .registerTask 2 ⟨1, fun n => (n + 100, .failed (.message "stuck"))⟩, .register 1]

end Sample

/-- The second of two rounds. -/
theorem Service.round_of_history_counters :
    ∃ x s p report, (Service.new 2 Sample.counters).after Sample.count Sample.requests = some x ∧
      x.scheduler.units = [1, 2] ∧
      x.scheduler.runRoundAlong Tasked.advance Sample.turns x.units = .ok (some (s, p, report)) ∧
      report.round = 2 ∧ report.submitted = 2 ∧ report.halted.Perm [1] ∧
      p.failures.Perm [⟨2, .error (.message "stuck")⟩] ∧
      (p.store.get? 1).map Tasked.state = some 40 ∧ (p.store.get? 3).map Tasked.state = some 0 := by
  obtain ⟨x, hx⟩ :
      ∃ x, (Service.new 2 Sample.counters).after Sample.count Sample.requests = some x := ⟨_, rfl⟩
  obtain ⟨-, -, -, hround, -, -⟩ := round_of_history Sample.count 2 Sample.counters hx
  cases hx
  obtain ⟨-, hcompleted⟩ := hround rfl Sample.turns
  have hc := hcompleted _ _ _ rfl
  refine ⟨_, _, _, _, rfl, rfl, rfl, hc.round, hc.submitted, hc.halted, hc.failures, ?_, ?_⟩
  · rw [hc.units]
    rfl
  · rw [hc.units]
    rfl

end Rewind
