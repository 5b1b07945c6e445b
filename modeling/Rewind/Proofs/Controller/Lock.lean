import Rewind.Proofs.Controller.Apart
import Rewind.Proofs.Scheduler.Overlap

/-! What the lock of the scheduler keeps apart.

A call to step holds the lock while it waits for a round and records the units after it, and so does
whoever records all units or rolls them back (`Desk`). As long as no wait is interrupted, a unit is
recorded or rolled back only when the tasks of all rounds are over. A wait that is interrupted lets
go of the lock with tasks still under way, and then they are not (`Desk.apart`). -/

namespace Rewind

/-! ### Units handled one after the other -/

/-- What is done to the units one after the other. -/
inductive Errand where
  | record
  | restore
  /-- Only units with a history are restored. -/
  | back
deriving DecidableEq

namespace Errand

def apply (e : Errand) (r : Recorder) (s : Simulation) :
    Except HistoryError (Simulation × Restored) :=
  match e with
  | record => (s.record r).map (·, .nothing)
  | restore => s.restore r
  | back => if s.canStepBack then s.restore r else .ok (s, .nothing)

/-- The controller after one unit, unless that failed. -/
def turn (e : Errand) (c : Controller) (unit : UnitId) : Option Controller :=
  match c.units.get? unit with
  | none => some c
  | some s =>
    match e.apply c.recorder s with
    | .error _ => none
    | .ok (t, .nothing) => some { c with units := c.units.set unit t }
    | .ok (t, .to _) =>
      some { c with
        units := c.units.set unit t
        scheduler := c.scheduler.register unit }

/-- The controller after the errand, which ends with the first unit that fails. -/
def carry (e : Errand) (c : Controller) : List UnitId → Controller
  | [] => c
  | unit :: todo =>
    match e.turn c unit with
    | none => c
    | some c => e.carry c todo

theorem carry_record (c : Controller) (units : List UnitId) :
    record.carry c units = (c.recordEach units).1 := by
  induction units generalizing c with
  | nil => rfl
  | cons unit todo ih =>
    rw [carry, turn, Controller.recordEach]
    cases c.units.get? unit with
    | none => exact ih c
    | some s =>
      simp only [apply]
      cases s.record c.recorder with
      | error => rfl
      | ok t => exact ih _

theorem carry_restore (c : Controller) (done : List (UnitId × Restored)) (units : List UnitId) :
    restore.carry c units = (c.restoreEach done units).controller := by
  induction units generalizing c done with
  | nil => rfl
  | cons unit todo ih =>
    rw [carry, turn, Controller.restoreEach]
    cases c.units.get? unit with
    | none => exact ih c done
    | some s =>
      simp only [apply, Controller.restoreUnit]
      rcases s.restore c.recorder with e | ⟨t, cycle | -⟩
      · rfl
      · exact ih _ _
      · exact ih _ _

theorem carry_back (c : Controller) (done : List (UnitId × UInt64)) (units : List UnitId) :
    back.carry c units = (c.backEach done units).controller := by
  induction units generalizing c done with
  | nil => rfl
  | cons unit todo ih =>
    rw [carry, turn, Controller.backEach]
    cases hs : c.units.get? unit with
    | none => exact ih c done
    | some s =>
      by_cases hback : s.canStepBack
      · simp only [apply, if_pos hback, Controller.restoreUnit]
        rcases s.restore c.recorder with e | ⟨t, cycle | -⟩
        · rfl
        · exact ih _ _
        · exact ih _ _
      · simp only [apply, if_neg hback, Table.set_of_get? hs]
        exact ih c done

end Errand

/-! ### Many threads -/

/-- What the thread is at that holds the lock. -/
inductive Section where
  /-- It waits for a round. -/
  | round
  /-- It goes through the units, and has these ahead. -/
  | over (e : Errand) (todo : List UnitId)
deriving DecidableEq

/-- A controller that many threads call. -/
structure Desk where
  hall : Hall UnitId Simulation
  recorder : Recorder
  /-- Whether units are recorded after every round. -/
  recording : Bool
  holder : Option Section

/-- What can happen. -/
inductive Act where
  /-- A call to step takes the lock for its next round. -/
  | round
  /-- A call takes the lock to go through the units. -/
  | send (e : Errand)
  /-- Who goes through the units turns to the next, or lets go of the lock. -/
  | handle
  | work (round : Nat) (unit : UnitId)
  | interrupt
  | ring
  | look
  | stir
  /-- Who has waited for a round leaves. After a round that is done the units are recorded. -/
  | leave
deriving DecidableEq

namespace Desk

def start (c : Controller) : Desk :=
  { hall := .start c.scheduler c.units
    recorder := c.recorder
    recording := c.recording
    holder := none }

/-- What follows a round that is done, under the same lock. -/
def afterRound (d : Desk) : Option Section :=
  if d.recording then some (.over .record d.hall.store.keys) else none

/-- The unit that is recorded or rolled back next. -/
def handles (d : Desk) : Option UnitId :=
  match d.holder with
  | some (.over _ todo) => todo.head?
  | _ => none

/-- What an act makes happen in the hall, and who holds the lock after it. -/
def does (d : Desk) : Act → List (Happening UnitId Simulation) × Option Section
  | .round =>
    if d.holder.isSome || d.hall.scheduler.disposed then ([], d.holder)
    else ([.begin], if d.hall.scheduler.table.isEmpty then d.afterRound else some .round)
  | .send e => ([], d.holder.or (some (.over e d.hall.store.keys)))
  | .handle =>
    match d.holder with
    | some (.over _ []) => ([], none)
    | some (.over e (unit :: todo)) =>
      match d.hall.store.get? unit with
      | none => ([], some (.over e todo))
      | some s =>
        match e.apply d.recorder s with
        | .error _ => ([], none)
        | .ok (t, .nothing) => ([.touch (·.set unit t)], some (.over e todo))
        | .ok (t, .to _) =>
          ([.touch (·.set unit t), .arrange (d.hall.scheduler.register unit).table],
            some (.over e todo))
    | _ => ([], d.holder)
  | .leave =>
    match d.hall.ringing, d.hall.watch with
    | false, some (k, .leaving .done) =>
      let halted := (d.hall.rounds[k]?.map Round.halted).getD []
      ([.leave, .arrange (halted.foldl Scheduler.unregister d.hall.scheduler).table], d.afterRound)
    | false, some (_, .leaving (.interrupted _)) => ([.leave], none)
    | _, _ => ([], d.holder)
  | .work k unit => ([.work k unit], d.holder)
  | .interrupt => ([.interrupt], d.holder)
  | .ring => ([.ring], d.holder)
  | .look => ([.look], d.holder)
  | .stir => ([.stir], d.holder)

def step (d : Desk) (a : Act) : Desk :=
  { d with hall := d.hall.run Simulation.step (d.does a).1, holder := (d.does a).2 }

def run (d : Desk) (acts : List Act) : Desk := acts.foldl step d

theorem run_append (d : Desk) (acts later : List Act) :
    d.run (acts ++ later) = (d.run acts).run later :=
  List.foldl_append

/-! ### An errand by itself -/

/-- No round is waited for, and the units and the schedule are those of the controller. -/
structure Shows (d : Desk) (c : Controller) : Prop where
  idle : d.hall.watch = none
  scheduler : d.hall.scheduler = c.scheduler
  units : d.hall.store = c.units
  recorder : d.recorder = c.recorder

variable {d : Desk} {a : Act} {c : Controller} {e : Errand}

theorem run_handle_of_free (hfree : d.holder = none) (n : Nat) :
    d.run (List.replicate n .handle) = d := by
  induction n with
  | zero => rfl
  | succ n ih =>
    have hstep : d.step .handle = d := by
      obtain ⟨hall, recorder, recording, holder⟩ := d
      obtain rfl : holder = none := hfree
      rfl
    show (d.step .handle).run (List.replicate n .handle) = d
    rw [hstep, ih]

/-- The next unit is handled as in the controller, and the lock is let go of where that fails. -/
theorem step_handle {unit : UnitId} {todo : List UnitId} (hd : d.Shows c)
    (hholder : d.holder = some (.over e (unit :: todo))) :
    (e.turn c unit = none ∧ (d.step .handle).holder = none ∧ (d.step .handle).Shows c) ∨
      ∃ c', e.turn c unit = some c' ∧ (d.step .handle).holder = some (.over e todo) ∧
        (d.step .handle).Shows c' := by
  rw [Desk.step]
  cases hget : c.units.get? unit with
  | none =>
    have hturn : e.turn c unit = some c := by simp only [Errand.turn, hget]
    have hdoes : d.does .handle = ([], some (.over e todo)) := by
      simp only [does, hholder, hd.units, hget]
    rw [hdoes]
    exact .inr ⟨c, hturn, rfl, hd.idle, hd.scheduler, hd.units, hd.recorder⟩
  | some s =>
    rcases happly : e.apply c.recorder s with err | ⟨t, cycle | -⟩
    · have hturn : e.turn c unit = none := by simp only [Errand.turn, hget, happly]
      have hdoes : d.does .handle = ([], none) := by
        simp only [does, hholder, hd.units, hget, hd.recorder, happly]
      rw [hdoes]
      exact .inl ⟨hturn, rfl, hd.idle, hd.scheduler, hd.units, hd.recorder⟩
    · have hturn : e.turn c unit = some { c with
          units := c.units.set unit t
          scheduler := c.scheduler.register unit } := by
        simp only [Errand.turn, hget, happly]
      have hdoes : d.does .handle = ([.touch (·.set unit t),
          .arrange (c.scheduler.register unit).table], some (.over e todo)) := by
        simp only [does, hholder, hd.units, hget, hd.recorder, happly, hd.scheduler]
      -- Nobody waits, so the unit goes on the schedule.
      have hidle : ¬ (d.hall.step Simulation.step (.touch (·.set unit t))).watch.isSome := by
        show ¬ d.hall.watch.isSome
        rw [hd.idle]
        exact Bool.false_ne_true
      have hhall : d.hall.run Simulation.step (d.does .handle).1 =
          { d.hall with
            store := c.units.set unit t
            scheduler := c.scheduler.register unit } := by
        rw [hdoes, ← hd.scheduler, ← hd.units]
        exact if_neg hidle
      rw [hhall, hdoes]
      exact .inr ⟨_, hturn, rfl, hd.idle, rfl, rfl, hd.recorder⟩
    · have hturn : e.turn c unit = some { c with units := c.units.set unit t } := by
        simp only [Errand.turn, hget, happly]
      have hdoes : d.does .handle = ([.touch (·.set unit t)], some (.over e todo)) := by
        simp only [does, hholder, hd.units, hget, hd.recorder, happly]
      rw [hdoes]
      exact .inr
        ⟨_, hturn, rfl, hd.idle, hd.scheduler, congrArg (·.set unit t) hd.units, hd.recorder⟩

/-- **A thread that goes through the units** and is left alone comes to what the controller does. -/
theorem run_handle {todo : List UnitId} (hd : d.Shows c)
    (hholder : d.holder = some (.over e todo)) :
    let d' := d.run (List.replicate (todo.length + 1) .handle)
    d'.holder = none ∧ d'.Shows (e.carry c todo) := by
  induction todo generalizing d c with
  | nil =>
    show (d.step .handle).holder = none ∧ (d.step .handle).Shows c
    have hdoes : d.does .handle = ([], none) := by rw [does, hholder]
    rw [Desk.step, hdoes]
    exact ⟨rfl, hd.idle, hd.scheduler, hd.units, hd.recorder⟩
  | cons unit todo ih =>
    show ((d.step .handle).run (List.replicate (todo.length + 1) .handle)).holder = none ∧
      ((d.step .handle).run (List.replicate (todo.length + 1) .handle)).Shows _
    rw [Errand.carry]
    rcases step_handle hd hholder with ⟨hturn, hfree, hd'⟩ | ⟨c', hturn, hholder', hd'⟩
    · rw [hturn, run_handle_of_free hfree]
      exact ⟨hfree, hd'⟩
    · rw [hturn]
      exact ih hd' hholder'

/-! ### A round by itself -/

theorem run_work (k : Nat) (schedule : List UnitId) :
    d.run (schedule.map (.work k)) =
      { d with hall := d.hall.run Simulation.step (schedule.map (.work k)) } := by
  induction schedule generalizing d with
  | nil => rfl
  | cons unit schedule ih => exact ih

theorem step_round (hlive : c.scheduler.disposed = false)
    (hunits : c.scheduler.table.isEmpty = false) :
    (start c).step .round =
      { hall := .ofFloor c.scheduler (c.scheduler.floor c.units) (some (0, .awake))
        recorder := c.recorder
        recording := c.recording
        holder := some .round } := by
  have hdoes : (start c).does .round = ([.begin], some .round) := by
    simp only [does, start, Hall.start, hlive, hunits]
    rfl
  rw [Desk.step, hdoes, ← Hall.begin_start hlive hunits]
  rfl

/-- Whoever begins a round and is left alone finds that it is done, once its tasks are over. -/
theorem run_look (hlive : c.scheduler.disposed = false)
    (hunits : c.scheduler.table.isEmpty = false) {schedule : List UnitId}
    (hdone : (c.scheduler.along Simulation.step schedule c.units).Done) :
    (start c).run (.round :: (schedule.map (.work 0) ++ [.look])) =
      { hall := .ofFloor c.scheduler (c.scheduler.along Simulation.step schedule c.units)
          (some (0, .leaving .done))
        recorder := c.recorder
        recording := c.recording
        holder := some .round } := by
  show ((start c).step .round).run _ = _
  rw [step_round hlive hunits, run_append, run_work]
  have hawake (k : Nat) : some (0, Waiter.awake) ≠ some (k, .asleep) := by simp
  simp only [Hall.run_ofFloor hawake]
  exact congrArg (Desk.mk · c.recorder c.recording (some .round)) (Hall.look_ofFloor hdone)

/-- **A call to step** that is left alone comes to what the controller does in a round, and then
goes through the units if they are to be recorded. -/
theorem run_round (hlive : c.scheduler.disposed = false)
    (hunits : c.scheduler.table.isEmpty = false) (hnodup : c.scheduler.units.Nodup)
    {schedule : List UnitId}
    (hdone : (c.scheduler.along Simulation.step schedule c.units).Done) :
    let p := (c.scheduler.along Simulation.step schedule c.units).progress
    let d := (start c).run (.round :: (schedule.map (.work 0) ++ [.look, .leave]))
    d.Shows (c.afterRound c.scheduler.complete p) ∧
      d.holder = if c.recording then some (.over .record p.store.keys) else none := by
  intro p d
  let found := (start c).run (.round :: (schedule.map (.work 0) ++ [.look]))
  have hfound : found = _ := run_look hlive hunits hdone
  have hd : d = found.step .leave := by
    show (start c).run (.round :: (schedule.map (.work 0) ++ ([.look] ++ [.leave]))) = _
    rw [← List.append_assoc, ← List.cons_append, run_append]
    rfl
  have hleave : found.does .leave =
      ([.leave, .arrange (p.halted.foldl Scheduler.unregister c.scheduler).table],
        if c.recording then some (.over .record p.store.keys) else none) := by
    rw [hfound]
    rfl
  rw [hd, Desk.step, hleave, hfound]
  refine ⟨⟨rfl, ?_, rfl, rfl⟩, rfl⟩
  show { c.scheduler.complete with
    table := (p.halted.foldl Scheduler.unregister c.scheduler).table } =
      p.halted.foldl Scheduler.unregister c.scheduler.complete
  rw [Scheduler.foldl_unregister _ hnodup,
    Scheduler.foldl_unregister (s := c.scheduler.complete) _ hnodup]
  rfl

/-! ### What stays true -/

/-- Whatever has happened, the thread that waits for a round holds the lock. -/
structure Sound (d : Desk) : Prop where
  hall : d.hall.Sound
  locked : ∀ k, d.hall.inProgress = some k → d.holder = some .round

theorem Sound.start (c : Controller) : (start c).Sound := ⟨.start _ _, nofun⟩

/-- Only a round that begins is waited for from then on. -/
theorem inProgress_run {h : Hall UnitId Simulation} {events : List (Happening UnitId Simulation)}
    {k : Nat} (hevents : .begin ∉ events)
    (hk : (h.run Simulation.step events).inProgress = some k) : h.inProgress = some k := by
  induction events generalizing h with
  | nil => exact hk
  | cons e events ih =>
    rw [List.mem_cons, not_or] at hevents
    exact Hall.inProgress_step (Ne.symm hevents.1) (ih hevents.2 hk)

/-- Who goes through the units changes them, and may put them on the schedule. -/
theorem mem_does_handle {e : Happening UnitId Simulation} (he : e ∈ (d.does .handle).1) :
    (∃ f, e = .touch f) ∨ ∃ table, e = .arrange table := by
  rw [does] at he
  split at he
  · cases he
  · split at he
    · cases he
    · split at he
      · cases he
      · exact .inl ⟨_, List.mem_singleton.mp he⟩
      · rcases List.mem_pair.mp he with he | he
        · exact .inl ⟨_, he⟩
        · exact .inr ⟨_, he⟩
  · cases he

theorem mem_does_leave {e : Happening UnitId Simulation} (he : e ∈ (d.does .leave).1) :
    e = .leave ∨ ∃ table, e = .arrange table := by
  rw [does] at he
  split at he
  · rcases List.mem_pair.mp he with he | he
    · exact .inl he
    · exact .inr ⟨_, he⟩
  · exact .inl (List.mem_singleton.mp he)
  · cases he

/-- Nothing but an act of that name interrupts a round. -/
theorem eq_interrupt_of_mem_does (he : .interrupt ∈ (d.does a).1) : a = .interrupt := by
  cases a with
  | interrupt => rfl
  | round =>
    rw [does] at he
    split at he <;> simp at he
  | handle => rcases mem_does_handle he with ⟨_, he⟩ | ⟨_, he⟩ <;> cases he
  | leave => rcases mem_does_leave he with he | ⟨_, he⟩ <;> cases he
  | send | work | ring | look | stir => simp [does] at he

theorem begin_not_mem_does (ha : a ≠ .round) : .begin ∉ (d.does a).1 := by
  intro he
  cases a with
  | round => exact ha rfl
  | handle => rcases mem_does_handle he with ⟨_, he⟩ | ⟨_, he⟩ <;> cases he
  | leave => rcases mem_does_leave he with he | ⟨_, he⟩ <;> cases he
  | send | work | interrupt | ring | look | stir => simp [does] at he

/-- As long as it waits for a round, the thread keeps the lock. -/
theorem does_of_round (hd : d.holder = some .round) (ha : a ≠ .leave) :
    (d.does a).2 = some .round := by
  cases a with
  | leave => exact absurd rfl ha
  | round | handle | send => simp [does, hd]
  | work | interrupt | ring | look | stir => exact hd

theorem Sound.round (hd : d.Sound) {k : Nat} (hk : (d.step .round).hall.inProgress = some k) :
    (d.step .round).holder = some .round := by
  change (d.hall.run Simulation.step (d.does .round).1).inProgress = some k at hk
  show (d.does .round).2 = some .round
  rw [does] at hk ⊢
  by_cases hbusy : (d.holder.isSome || d.hall.scheduler.disposed) = true
  · rw [if_pos hbusy] at hk ⊢
    exact hd.locked k hk
  rw [if_neg hbusy] at hk ⊢
  cases hempty : d.hall.scheduler.table.isEmpty with
  | false => rfl
  | true =>
    -- There is nothing to wait for.
    have hsame : d.hall.begin.inProgress = d.hall.inProgress := by
      unfold Hall.begin
      rw [hempty]
      split <;> rfl
    have hround := hd.locked k (hsame ▸ hk)
    rw [hround] at hbusy
    exact absurd rfl hbusy

/-- Who leaves lets go of the lock, or goes on to record the units. Nobody waits any more. -/
theorem step_leave {k : Nat} {w : Wait} (hw : d.hall.watch = some (k, .leaving w))
    (hringing : d.hall.ringing = false) :
    (d.step .leave).hall.watch = none ∧ (d.step .leave).hall.rounds = d.hall.rounds ∧
      (d.step .leave).holder = match w with
        | .done => d.afterRound
        | .interrupted _ => none := by
  have hleave : (d.hall.step Simulation.step .leave).watch = none ∧
      (d.hall.step Simulation.step .leave).rounds = d.hall.rounds := by
    simp only [Hall.step, hringing, Hall.leave, hw]
    cases w <;> exact ⟨rfl, rfl⟩
  cases w with
  | done =>
    have harrange (table : Table UnitId (Task UnitId)) (h : Hall UnitId Simulation) :
        (h.step Simulation.step (.arrange table)).watch = h.watch ∧
          (h.step Simulation.step (.arrange table)).rounds = h.rounds := by
      rw [Hall.step]
      split <;> exact ⟨rfl, rfl⟩
    simp only [Desk.step, does, hringing, hw]
    exact ⟨(harrange _ _).1.trans hleave.1, (harrange _ _).2.trans hleave.2, trivial⟩
  | interrupted =>
    simp only [Desk.step, does, hringing, hw]
    exact ⟨hleave.1, hleave.2, trivial⟩

theorem Sound.leave (hd : d.Sound) {k : Nat} (hk : (d.step .leave).hall.inProgress = some k) :
    (d.step .leave).holder = some .round := by
  by_cases hleaves : ∃ j w, d.hall.watch = some (j, .leaving w) ∧ d.hall.ringing = false
  · obtain ⟨j, w, hw, hringing⟩ := hleaves
    rw [Hall.inProgress, (step_leave hw hringing).1] at hk
    cases hk
  · have hdoes : d.does .leave = ([], d.holder) := by
      rw [does]
      split
      · next k hr hw => exact absurd ⟨k, _, hw, hr⟩ hleaves
      · next k p hr hw => exact absurd ⟨k, _, hw, hr⟩ hleaves
      · rfl
    rw [Desk.step, hdoes] at hk ⊢
    exact hd.locked k hk

theorem Sound.step (hd : d.Sound) (a : Act) : (d.step a).Sound := by
  refine ⟨hd.hall.run _, fun k hk => ?_⟩
  by_cases hround : a = .round
  · exact hround ▸ hd.round (hround ▸ hk)
  by_cases hleave : a = .leave
  · exact hleave ▸ hd.leave (hleave ▸ hk)
  exact does_of_round (hd.locked k (inProgress_run (begin_not_mem_does hround) hk)) hleave

theorem Sound.run (hd : d.Sound) (acts : List Act) : (d.run acts).Sound := by
  induction acts generalizing d with
  | nil => exact hd
  | cons a acts ih => exact ih (hd.step a)

/-- While units are recorded or rolled back nobody waits for a round. -/
theorem Sound.watch_of_handles (hd : d.Sound) {unit : UnitId} (hunit : d.handles = some unit) :
    d.hall.watch = none := by
  cases hw : d.hall.watch with
  | none => rfl
  | some w =>
    have hround : d.holder = some .round := hd.locked w.1 (by rw [Hall.inProgress, hw]; rfl)
    rw [handles, hround] at hunit
    cases hunit

/-- A round that was interrupted was so while it was in progress. -/
theorem interrupted_step (hd : d.Sound) {k : Nat}
    (hi : ∃ r, (d.step a).hall.rounds[k]? = some r ∧ r.latch.interrupted = true) :
    (∃ r, d.hall.rounds[k]? = some r ∧ r.latch.interrupted = true) ∨
      a = .interrupt ∧ d.hall.inProgress = some k := by
  refine (Hall.interrupted_run hd.hall hi).imp_right fun ⟨before, later, hevents, hk⟩ => ?_
  have hmem : .interrupt ∈ (d.does a).1 := by
    rw [hevents]
    exact List.mem_append_right _ List.mem_cons_self
  obtain rfl : a = .interrupt := eq_interrupt_of_mem_does hmem
  -- That act is nothing but the interrupt.
  obtain rfl : before = [] := by
    have hlength := congrArg List.length hevents
    simp only [does, List.length_append, List.length_cons, List.length_nil] at hlength
    exact List.eq_nil_of_length_eq_zero (by omega)
  exact ⟨rfl, hk⟩

theorem interrupted_run (hd : d.Sound) {acts : List Act} {k : Nat}
    (hi : ∃ r, (d.run acts).hall.rounds[k]? = some r ∧ r.latch.interrupted = true) :
    (∃ r, d.hall.rounds[k]? = some r ∧ r.latch.interrupted = true) ∨
      ∃ before later, acts = before ++ .interrupt :: later ∧
        (d.run before).hall.inProgress = some k := by
  refine (exists_step_of_foldl step Sound
    (fun d => ∃ r, d.hall.rounds[k]? = some r ∧ r.latch.interrupted = true)
    (fun _ a hd => hd.step a) (fun _ _ hd => interrupted_step hd) hd hi).imp_right ?_
  rintro ⟨before, _, later, hacts, rfl, hk⟩
  exact ⟨before, later, hacts, hk⟩

/-! ### Rollbacks and rounds -/

/-- **What the lock keeps apart, and what it does not.** Whatever many threads have done:

* a unit is recorded or rolled back while a task of some round is not over only if the wait for that
  round was interrupted while it was in progress, so if nobody interrupts it never is;
* a thread whose wait was interrupted lets go of the lock with the round as it stands, and whoever
  comes next to record the units or roll them back turns to the first. -/
theorem apart (c : Controller) (acts : List Act) :
    let after := (start c).run
    let d := after acts
    (∀ unit k, d.handles = some unit → d.hall.unfinished k ≠ 0 →
      ∃ before later, acts = before ++ .interrupt :: later ∧
        (after before).hall.inProgress = some k) ∧
    ∀ k pending, d.hall.watch = some (k, .leaving (.interrupted pending)) →
      d.hall.ringing = false →
      let d' := d.step .leave
      d'.holder = none ∧ d'.hall.unfinished k = d.hall.unfinished k ∧
        ∀ e, (d'.step (.send e)).handles = d'.hall.store.keys.head? ∧
          (d'.step (.send e)).hall = d'.hall := by
  intro after d
  have hd : d.Sound := (Sound.start c).run acts
  refine ⟨fun unit k hunit hopen => ?_, fun k pending hw hringing => ?_⟩
  · cases hr : d.hall.rounds[k]? with
    | none =>
      rw [Hall.unfinished, hr] at hopen
      exact absurd rfl hopen
    | some r =>
      have hidle := hd.watch_of_handles hunit
      rw [Hall.unfinished_of_round hd.hall hr] at hopen
      have hi := (hd.hall.settled_of_idle hidle hr).resolve_left hopen
      refine (interrupted_run (Sound.start c) ⟨r, hr, hi⟩).resolve_left ?_
      rintro ⟨_, hnone, -⟩
      cases hnone
  · obtain ⟨-, hrounds, hfree⟩ := step_leave hw hringing
    intro d'
    refine ⟨hfree, ?_, fun e => ⟨?_, rfl⟩⟩
    · rw [Hall.unfinished, Hall.unfinished, hrounds]
    · have hholder : (d'.step (.send e)).holder = some (.over e d'.hall.store.keys) := by
        show d'.holder.or _ = _
        rw [show d'.holder = none from hfree]
        rfl
      rw [handles, hholder]

end Desk

namespace Sample

/-- Two units that have been recorded, and a worker for each. -/
def twins : Controller := (Controller.ofSettings paired .standard).run [.add idle, .add idle]

/-- The wait for a round is interrupted when one of its two tasks is over. -/
def walkout : List Act :=
  .round :: (List.replicate 5 (.work 0 ⟨1⟩) ++ [.interrupt, .ring, .look])

/-- Then the thread leaves, and another is about to roll all units back. -/
def takeover : List Act := walkout ++ [.leave, .send .restore]

/-- It does so, and then the other task comes to its end. -/
def aftermath : List Act :=
  takeover ++ List.replicate 3 .handle ++ List.replicate 5 (.work 0 ⟨2⟩)

end Sample

/-- The rollback begins while a task is not over. Afterwards the units have come apart, although
both were rolled back to where they were recorded. -/
theorem Desk.apart_takeover :
    let d := (start Sample.twins).run Sample.walkout
    let d' := (start Sample.twins).run Sample.takeover
    (d.hall.watch = some (0, .leaving (.interrupted 1)) ∧ (d.step .leave).holder = none ∧
      (d.step .leave).hall.unfinished 0 = d.hall.unfinished 0) ∧
    (d'.handles = some ⟨1⟩ ∧ d'.hall.unfinished 0 = 1 ∧
      ∃ before later, Sample.takeover = before ++ .interrupt :: later ∧
        ((start Sample.twins).run before).hall.inProgress = some 0) ∧
    ((start Sample.twins).run Sample.aftermath).hall.store.values.map (·.cycle) = [0, 1] := by
  intro d d'
  have hwatch : d.hall.watch = some (0, .leaving (.interrupted 1)) := by decide +kernel
  have hunit : d'.handles = some ⟨1⟩ := by decide +kernel
  have hopen : d'.hall.unfinished 0 = 1 := by decide +kernel
  obtain ⟨-, hleaves⟩ := apart Sample.twins Sample.walkout
  obtain ⟨hfree, hsame, -⟩ := hleaves 0 1 hwatch (by decide +kernel)
  obtain ⟨hinterrupted, -⟩ := apart Sample.twins Sample.takeover
  have hwho := hinterrupted ⟨1⟩ 0 hunit (hopen ▸ Nat.one_ne_zero)
  exact ⟨⟨hwatch, hfree, hsame⟩, ⟨hunit, hopen, hwho⟩, by decide +kernel⟩

/-- A unit may be about to be rolled back while a task is not over. -/
theorem Desk.not_apart_takeover :
    ¬ ∀ (c : Controller) (acts : List Act) (unit : UnitId) (k : Nat),
      ((start c).run acts).handles = some unit → ((start c).run acts).hall.unfinished k = 0 := by
  intro h
  have hunit : ((start Sample.twins).run Sample.takeover).handles = some ⟨1⟩ := by decide +kernel
  have hopen : ((start Sample.twins).run Sample.takeover).hall.unfinished 0 ≠ 0 := by
    decide +kernel
  exact hopen (h Sample.twins Sample.takeover ⟨1⟩ 0 hunit)

end Rewind
