import Rewind.Proofs.Scheduler.Barrier

/-! What the scheduler does can happen in the hall.

A round that is waited for to the end is a run of the hall in which nobody interrupts it
(`Hall.run_round`). A round that is interrupted at a standstill is one in which the thread leaves
while tasks are held up, and these then go on (`Hall.exists_run_interruptRound`). -/

namespace Rewind

variable {ι σ : Type} [DecidableEq ι] {advance : σ → σ × Outcome}

/-! ### Tasks and the latch -/

/-- Two accounts of a round that differ in the latch alone. -/
def Progress.SameBut (p q : Progress ι σ) : Prop :=
  p.store = q.store ∧ p.halted = q.halted ∧ p.failures = q.failures

theorem Progress.SameBut.runTasks {p q : Progress ι σ} (h : p.SameBut q)
    (entries : List (ι × Task ι)) :
    (runTasks advance false p entries).SameBut (Rewind.runTasks advance false q entries) := by
  induction entries generalizing p q with
  | nil => exact h
  | cons e entries ih =>
    refine ih ?_
    obtain ⟨store, halted, failures, latch⟩ := p
    obtain ⟨store', halted', failures', latch'⟩ := q
    obtain ⟨rfl, rfl, rfl⟩ := h
    rw [show e = (e.1, e.2) from rfl, Progress.run_eq_tell, Progress.run_eq_tell]
    exact ⟨rfl, rfl, rfl⟩

theorem runTasks_append (p : Progress ι σ) (entries later : List (ι × Task ι)) :
    runTasks advance false p (entries ++ later) =
      runTasks advance false (runTasks advance false p entries) later :=
  List.foldl_append

/-- A wait that is interrupted comes out at once. -/
theorem Latch.wait?_interrupt_ne_none (l : Latch) : l.interrupt.wait? ≠ none := by
  intro h
  exact Bool.noConfusion (Latch.wait?_eq_none.mp h).2

/-- At a standstill every task is over, held up or waits for a worker. -/
theorem Standstill.perm_reach (gates : List ι) (free : Nat) (entries : List (ι × Task ι)) :
    ((reach gates free entries).ended ++
      ((reach gates free entries).held ++ (reach gates free entries).queued)).Perm entries := by
  induction entries generalizing free with
  | nil => cases free <;> exact .refl _
  | cons e entries ih =>
    cases free with
    | zero => exact .refl _
    | succ free =>
      unfold reach
      split
      · exact List.perm_middle.trans ((ih free).cons e)
      · exact (ih (free + 1)).cons e

namespace Hall

/-! ### One round by itself -/

/-- A hall where there has been one round. -/
def ofFloor (s : Scheduler ι) (f : Floor ι σ) (watch : Option (Nat × Waiter)) : Hall ι σ :=
  { scheduler := s
    store := f.progress.store
    failures := f.progress.failures
    rounds := [f.round]
    watch
    ringing := false }

variable {s : Scheduler ι} {store : Table ι σ} {f : Floor ι σ} {watch : Option (Nat × Waiter)}

theorem work_ofFloor (hwatch : ∀ k, watch ≠ some (k, .asleep)) (unit : ι) :
    (ofFloor s f watch).work advance 0 unit =
      ofFloor s (f.move advance s.mode.workers unit) watch := by
  have hwake : watch.map (fun w => (w.1, w.2.wake)) = watch := by
    cases watch with
    | none => rfl
    | some w =>
      obtain ⟨k, x⟩ := w
      cases x with
      | asleep => exact absurd rfl (hwatch k)
      | awake | leaving => rfl
  show (ofFloor s f watch).put 0 (f.move advance s.mode.workers unit) = _
  unfold put
  split
  · exact congrArg (ofFloor s (f.move advance s.mode.workers unit)) hwake
  · rfl

theorem run_ofFloor (hwatch : ∀ k, watch ≠ some (k, .asleep)) (schedule : List ι) :
    (ofFloor s f watch).run advance (schedule.map (.work 0)) =
      ofFloor s (f.run advance s.mode.workers schedule) watch := by
  induction schedule generalizing f with
  | nil => rfl
  | cons unit schedule ih =>
    show ((ofFloor s f watch).work advance 0 unit).run advance (schedule.map (.work 0)) = _
    rw [work_ofFloor hwatch, ih]
    rfl

omit [DecidableEq ι] in
theorem begin_start (hlive : s.disposed = false) (hunits : s.table.isEmpty = false) :
    (start s store).begin = ofFloor s (s.floor store) (some (0, .awake)) := by
  show (if (false || s.disposed) = true then _ else if s.table.isEmpty = true then _ else _) = _
  rw [hlive, hunits]
  rfl

omit [DecidableEq ι] in
theorem look_ofFloor {w : Wait} (hw : f.progress.latch.wait? = some w) :
    (ofFloor s f (some (0, .awake))).look = ofFloor s f (some (0, .leaving w)) := by
  have hfound : ((ofFloor s f (some (0, .awake))).latch? 0).bind Latch.wait? = some w := hw
  unfold look
  split
  · next k hwatch =>
    obtain ⟨rfl, -⟩ := Prod.mk.inj (Option.some.inj hwatch)
    rw [hfound]
    rfl
  · next hother => exact absurd rfl (hother 0)

/-- **A round that is waited for** is what the tasks come to along the same schedule. -/
theorem run_round (hlive : s.disposed = false) (hunits : s.table.isEmpty = false)
    {schedule : List ι} (hdone : (s.along advance schedule store).Done) :
    (start s store).run advance (.begin :: (schedule.map (.work 0) ++ [.look, .leave])) =
      ofFloor s.complete (s.along advance schedule store) none := by
  show (start s store).begin.run advance _ = _
  rw [begin_start hlive hunits, run_append, run_ofFloor (by simp)]
  show (ofFloor s (s.along advance schedule store) (some (0, .awake))).look.step advance .leave = _
  rw [look_ofFloor hdone]
  rfl

/-- The moves before and after a round is interrupted at a standstill: the tasks that could run
without those held up are over, and then the others go on. -/
theorem exists_turns_interruptRound {gates : List ι} {i : Scheduler.Interrupted ι σ}
    (hi : s.interruptRound advance gates false store = .ok i)
    (hunits : s.table.isEmpty = false) (hworkers : 0 < s.mode.workers) (hnodup : s.units.Nodup) :
    i.delivered = true ∧ ∃ (turns later : List ι) (w : Wait) (f : Floor ι σ), i.wait = some w ∧
      (start s store).run advance (.begin :: (turns.map (.work 0) ++ [.interrupt, .ring])) =
        ofFloor s f (some (0, .awake)) ∧
      f.progress.latch.wait? = some w ∧
      (f.run advance s.mode.workers later).progress.SameBut i.progress := by
  have hlive : s.disposed = false := by
    cases hdisposed : s.disposed with
    | false => rfl
    | true =>
      rw [Scheduler.interruptRound, if_pos hdisposed] at hi
      cases hi
  rw [Scheduler.interruptRound, if_neg (hlive ▸ Bool.false_ne_true)] at hi
  obtain rfl := Except.ok.inj hi
  have hperm := Standstill.perm_reach gates s.mode.workers s.table.entries
  generalize Standstill.reach gates s.mode.workers s.table.entries = still at hperm ⊢
  have hkeys : ((still.ended ++ (still.held ++ still.queued)).map Prod.fst).Nodup :=
    (hperm.map Prod.fst).nodup_iff.mpr hnodup
  have hqueued (e : ι × Task ι) (he : e ∈ still.ended ++ (still.held ++ still.queued)) :
      (s.floor store).stages.get? e.1 = some (.queued e.2) := by
    rw [Scheduler.get?_floor, Table.get?_of_mem hnodup (hperm.mem_iff.mp he)]
    rfl
  rw [List.map_append, List.nodup_append] at hkeys
  obtain ⟨hended, hrest, hapart⟩ := hkeys
  -- The tasks that are over at the standstill.
  obtain ⟨turns, hprogress, hfree, hother⟩ := Floor.exists_run_runTasks advance hworkers still.ended
    hended Scheduler.busy_floor fun e he => hqueued e (List.mem_append_left _ he)
  change _ = runTasks advance false (s.begin store) still.ended at hprogress
  let f : Floor ι σ := (s.floor store).run advance s.mode.workers turns
  let f' : Floor ι σ :=
    { f with progress := { f.progress with latch := f.progress.latch.interrupt } }
  obtain ⟨w, hw⟩ := Option.ne_none_iff_exists'.mp f.progress.latch.wait?_interrupt_ne_none
  -- The tasks that go on after it.
  obtain ⟨later, hprogress', -⟩ := Floor.exists_run_runTasks (f := f') advance hworkers
    (still.held ++ still.queued) hrest hfree fun e he => by
      refine (hother e.1 fun hmem => ?_).trans (hqueued e (List.mem_append_right _ he))
      exact hapart _ hmem _ (List.mem_map_of_mem he) rfl
  refine ⟨rfl, turns, later, w, f', ?_, ?_, hw, ?_⟩
  · show some ((runTasks advance false (s.begin store) still.ended).latch.interrupt) >>= _ = _
    rw [← hprogress]
    exact hw
  · show (start s store).begin.run advance _ = _
    rw [begin_start hlive hunits, run_append, run_ofFloor (by simp)]
    rfl
  · show (f'.run advance s.mode.workers later).progress.SameBut
      (runTasks advance s.disposed (runTasks advance false
        (runTasks advance false (s.begin store) still.ended) still.held) still.queued)
    rw [hprogress', hlive, ← runTasks_append, ← hprogress]
    have hlatch : f'.progress.SameBut f.progress := ⟨rfl, rfl, rfl⟩
    exact hlatch.runTasks _

/-- **A round that is interrupted at a standstill.** The tasks that could run without those held up
are over, the thread that waits finds how the wait comes out and leaves, and then the others
go on. -/
theorem exists_run_interruptRound {gates : List ι} {i : Scheduler.Interrupted ι σ}
    (hi : s.interruptRound advance gates false store = .ok i)
    (hunits : s.table.isEmpty = false) (hworkers : 0 < s.mode.workers) (hnodup : s.units.Nodup) :
    i.delivered = true ∧ ∃ before later w, i.wait = some w ∧
      ((start s store).run advance before).Finds 0 w ∧
      let h := (start s store).run advance (before ++ .look :: later)
      h.watch = none ∧ h.store = i.progress.store ∧ h.failures = i.progress.failures ∧
        h.rounds.map Round.halted = [i.progress.halted] := by
  obtain ⟨hdelivered, turns, later, w, f, hwait, hbefore, hw, hsame⟩ :=
    exists_turns_interruptRound hi hunits hworkers hnodup
  have hlater (s' : Scheduler ι) (hmode : s'.mode = s.mode) :
      (ofFloor s' f none).run advance (later.map (.work 0)) =
        ofFloor s' (f.run advance s.mode.workers later) none := by
    rw [run_ofFloor (by simp), hmode]
  refine ⟨hdelivered, .begin :: (turns.map (.work 0) ++ [.interrupt, .ring]),
    .leave :: later.map (.work 0), w, hwait, ?_, ?_⟩
  · rw [hbefore]
    exact ⟨rfl, hw⟩
  · intro h
    have hrun : h = ((ofFloor s f (some (0, .awake))).look.step advance .leave).run advance
        (later.map (.work 0)) := by
      rw [← hbefore]
      exact run_append _ _ _
    have hh : ∃ s', h = ofFloor s' (f.run advance s.mode.workers later) none := by
      rw [hrun, look_ofFloor hw]
      cases w with
      | done => exact ⟨s.complete, hlater s.complete rfl⟩
      | interrupted => exact ⟨s, hlater s rfl⟩
    obtain ⟨s', hh⟩ := hh
    rw [hh]
    exact ⟨rfl, hsame.1, hsame.2.2, congrArg (fun l => [l]) hsame.2.1⟩

end Hall
end Rewind
