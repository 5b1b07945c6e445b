import Rewind.Proofs.Scheduler.Hall

/-! The latch as a barrier.

However the tasks of many rounds, interrupts and the looks of the waiting thread fall
(`Hall.run`), the wait for a round comes out done only when its tasks are over, and interrupted only
if someone interrupted it while it was in progress (`Hall.barrier`). For this it is traced who
changes a round (`Hall.rounds_step_cases`) and who makes the thread leave (`Hall.leaving_step`). -/

namespace Rewind

/-- What a run has come to was so from the start, or one of the steps has made it so. -/
theorem exists_step_of_foldl {σ ε : Type} (step : σ → ε → σ) (inv holds : σ → Prop)
    {makes : σ → ε → Prop} (hinv : ∀ s e, inv s → inv (step s e))
    (hstep : ∀ s e, inv s → holds (step s e) → holds s ∨ makes s e) {s : σ} (hs : inv s)
    {events : List ε} (h : holds (events.foldl step s)) :
    holds s ∨ ∃ before e later, events = before ++ e :: later ∧ makes (before.foldl step s) e := by
  induction events generalizing s with
  | nil => exact .inl h
  | cons e events ih =>
    rcases ih (hinv s e hs) h with h | ⟨before, e', later, rfl, hmakes⟩
    · exact (hstep s e hs h).imp_right fun hmakes => ⟨[], e, events, rfl, hmakes⟩
    · exact .inr ⟨e :: before, e', later, rfl, hmakes⟩

namespace Hall
variable {ι σ : Type} [DecidableEq ι] {advance : σ → σ × Outcome} {h : Hall ι σ} {k : Nat}
  {unit : ι}

/-! ### Whose doing it is -/

/-- What can happen to a round: it begins, one of its tasks makes a move, or the wait for it is
interrupted. -/
theorem rounds_step_cases (advance : σ → σ × Outcome) (hs : h.Sound) (e : Happening ι σ) (k : Nat) :
    (h.step advance e).rounds[k]? = h.rounds[k]? ∨
    (e = .begin ∧ h.watch = none ∧ k = h.rounds.length ∧
      (h.step advance e).rounds[k]? = some (h.scheduler.floor h.store).round) ∨
    (∃ unit r, e = .work k unit ∧ h.rounds[k]? = some r ∧ (h.step advance e).rounds[k]? =
      some ((h.floor r).move advance (h.workersFor k) unit).round) ∨
    ∃ r, e = .interrupt ∧ h.inProgress = some k ∧ h.rounds[k]? = some r ∧
      (h.step advance e).rounds[k]? = some { r with latch := r.latch.interrupt } := by
  cases e with
  | touch | stir => exact .inl rfl
  | arrange | ring =>
    rw [Hall.step]
    split <;> exact .inl rfl
  | look =>
    rw [Hall.step]
    unfold look
    split
    · split <;> exact .inl rfl
    · exact .inl rfl
  | leave =>
    rw [Hall.step]
    unfold leave
    split
    · exact .inl rfl
    · split <;> exact .inl rfl
  | begin =>
    rw [Hall.step]
    unfold begin
    split
    · exact .inl rfl
    next hidle =>
    split
    · exact .inl rfl
    by_cases hk : k = h.rounds.length
    · refine .inr (.inl ⟨rfl, watch_eq_none_of_idle hidle, hk, ?_⟩)
      rw [hk]
      exact List.getElem?_concat_length
    · refine .inl ?_
      rw [List.getElem?_append]
      split
      · rfl
      · next hlt =>
        rw [List.getElem?_eq_none (Nat.le_of_not_lt hlt), List.getElem?_eq_none]
        rw [List.length_singleton]
        omega
  | work j unit =>
    rw [Hall.step]
    cases hr : h.rounds[j]? with
    | none =>
      unfold work
      rw [hr]
      exact .inl rfl
    | some r =>
      rw [work_of_round hr, rounds_put, List.getElem?_set]
      split
      · next hj =>
        subst hj
        rw [if_pos (List.getElem?_eq_some_iff.mp hr).1]
        exact .inr (.inr (.inl ⟨unit, r, rfl, hr, rfl⟩))
      · exact .inl rfl
  | interrupt =>
    rw [Hall.step]
    split
    · exact .inl rfl
    cases hw : h.watch with
    | none =>
      rw [interrupt_of_idle hs hw]
      exact .inl rfl
    | some w =>
      obtain ⟨j, x⟩ := w
      obtain ⟨r, hr, -⟩ := hs.watched j x hw
      rw [interrupt_of_watch hw hr]
      by_cases hj : j = k
      · subst hj
        exact .inr (.inr (.inr ⟨r, rfl, by rw [inProgress, hw]; rfl, hr, by simp [hr]⟩))
      · exact .inl (by simp [hj])

/-- The wait for a round is interrupted only while the round is in progress. -/
theorem interrupted_step (hs : h.Sound) {e : Happening ι σ}
    (hi : ∃ r, (h.step advance e).rounds[k]? = some r ∧ r.latch.interrupted = true) :
    (∃ r, h.rounds[k]? = some r ∧ r.latch.interrupted = true) ∨
      e = .interrupt ∧ h.inProgress = some k := by
  obtain ⟨r', hr', hi⟩ := hi
  rcases rounds_step_cases advance hs e k with
    hsame | ⟨-, -, -, hnew⟩ | ⟨unit, r, -, hr, hnew⟩ | ⟨r, he, hk, -, -⟩
  · exact .inl ⟨r', hsame ▸ hr', hi⟩
  · obtain rfl := Option.some.inj (hr'.symm.trans hnew)
    cases hi
  · obtain rfl := Option.some.inj (hr'.symm.trans hnew)
    exact .inl ⟨r, hr, ((h.floor r).interrupted_move unit).symm.trans hi⟩
  · exact .inr ⟨he, hk⟩

theorem interrupted_run (hs : h.Sound) {events : List (Happening ι σ)}
    (hi : ∃ r, (h.run advance events).rounds[k]? = some r ∧ r.latch.interrupted = true) :
    (∃ r, h.rounds[k]? = some r ∧ r.latch.interrupted = true) ∨
      ∃ before later, events = before ++ .interrupt :: later ∧
        (h.run advance before).inProgress = some k := by
  refine (exists_step_of_foldl (step advance) Sound
    (fun h => ∃ r, h.rounds[k]? = some r ∧ r.latch.interrupted = true) (fun _ e hs => hs.step e)
    (fun _ _ hs => interrupted_step hs) hs hi).imp_right ?_
  rintro ⟨before, _, later, hevents, rfl, hk⟩
  exact ⟨before, later, hevents, hk⟩

/-! ### The barrier -/

/-- The thread that waits for the round looks at the latch, and this is what it finds. -/
def Finds (h : Hall ι σ) (k : Nat) (w : Wait) : Prop :=
  h.watch = some (k, .awake) ∧ (h.latch? k).bind Latch.wait? = some w

/-- The thread has not found yet how the wait for the round comes out. -/
def Waits (h : Hall ι σ) (k : Nat) : Prop :=
  h.watch = some (k, .awake) ∨ h.watch = some (k, .asleep)

section
omit [DecidableEq ι]
variable {r : Round ι} {w : Wait}

theorem unfinished_of_round (hs : h.Sound) (hr : h.rounds[k]? = some r) :
    h.unfinished k = r.latch.remaining := by
  rw [unfinished, hr, hs.counts k r hr]
  rfl

theorem finds_iff (hr : h.rounds[k]? = some r) :
    h.Finds k w ↔ h.watch = some (k, .awake) ∧ r.latch.wait? = some w := by
  rw [Finds, latch?, hr]
  rfl

theorem Finds.exists_round (hf : h.Finds k w) :
    ∃ r, h.rounds[k]? = some r ∧ r.latch.wait? = some w := by
  obtain ⟨l, hl, hw⟩ := Option.bind_eq_some_iff.mp hf.2
  obtain ⟨r, hr, rfl⟩ := Option.map_eq_some_iff.mp hl
  exact ⟨r, hr, hw⟩

theorem Finds.unfinished_eq_zero (hs : h.Sound) (hf : h.Finds k .done) : h.unfinished k = 0 := by
  obtain ⟨r, hr, hw⟩ := hf.exists_round
  rw [unfinished_of_round hs hr]
  exact Latch.wait?_eq_done.mp hw

/-- Once all tasks are over the thread is awake and finds that they are. -/
theorem Waits.finds_done (hs : h.Sound) (hw : h.Waits k) (hzero : h.unfinished k = 0) :
    h.Finds k .done := by
  rcases hw with hw | hw
  · obtain ⟨r, hr, -⟩ := hs.watched k .awake hw
    rw [unfinished_of_round hs hr] at hzero
    exact (finds_iff hr).mpr ⟨hw, Latch.wait?_eq_done.mpr hzero⟩
  · obtain ⟨r, hr, hopen, -⟩ := hs.watched k .asleep hw
    rw [unfinished_of_round hs hr] at hzero
    omega

end

/-- What can happen to the thread that waits: it wakes up, it begins to wait, it looks, or it has
left. -/
theorem watch_step_cases (advance : σ → σ × Outcome) (h : Hall ι σ) (e : Happening ι σ) :
    (h.step advance e).watch = h.watch ∨
    (h.step advance e).watch = h.wake.watch ∨
    (e = .begin ∧ h.watch = none ∧ (h.step advance e).watch = some (h.rounds.length, .awake)) ∨
    (∃ k, e = .look ∧ h.watch = some (k, .awake) ∧ (h.step advance e).watch =
      some (k, ((h.latch? k).bind Latch.wait?).elim .asleep .leaving)) ∨
    (e = .leave ∧ (h.step advance e).watch = none) := by
  cases e with
  | touch => exact .inl rfl
  | stir => exact .inr (.inl rfl)
  | arrange =>
    rw [Hall.step]
    split <;> exact .inl rfl
  | ring =>
    rw [Hall.step]
    split
    · exact .inr (.inl rfl)
    · exact .inl rfl
  | begin =>
    rw [Hall.step]
    unfold begin
    split
    · exact .inl rfl
    next hidle =>
    split
    · exact .inl rfl
    · exact .inr (.inr (.inl ⟨rfl, watch_eq_none_of_idle hidle, rfl⟩))
  | work j unit =>
    rw [Hall.step]
    unfold work
    split
    · exact .inl rfl
    · unfold put
      split
      · exact .inr (.inl rfl)
      · exact .inl rfl
  | interrupt =>
    rw [Hall.step]
    split
    · exact .inl rfl
    · exact .inl h.watch_interrupt
  | look =>
    rw [Hall.step]
    unfold look
    split
    · next k hw =>
      refine .inr (.inr (.inr (.inl ⟨k, rfl, hw, ?_⟩)))
      cases (h.latch? k).bind Latch.wait? <;> rfl
    · exact .inl rfl
  | leave =>
    rw [Hall.step]
    split
    · exact .inl rfl
    · unfold leave
      split
      · exact .inr (.inr (.inr (.inr ⟨rfl, rfl⟩)))
      · exact .inr (.inr (.inr (.inr ⟨rfl, rfl⟩)))
      · exact .inl rfl

/-- A thread that leaves has found out how the wait came out by looking. -/
theorem leaving_step {w : Wait} {e : Happening ι σ}
    (hx : (h.step advance e).watch = some (k, .leaving w)) :
    h.watch = some (k, .leaving w) ∨ e = .look ∧ h.Finds k w := by
  rcases h.watch_step_cases advance e with
    hsame | hwake | ⟨-, -, hbegin⟩ | ⟨j, he, hw, hlook⟩ | ⟨-, hleave⟩
  · exact .inl (hsame ▸ hx)
  · rw [hwake] at hx
    obtain ⟨y, hy, heq⟩ := watch_wake_eq_some.mp hx
    cases y with
    | leaving => exact .inl (heq ▸ hy)
    | awake | asleep => cases heq
  · rw [hbegin] at hx
    cases hx
  · obtain ⟨rfl, hfound⟩ := Prod.mk.inj (Option.some.inj (hlook.symm.trans hx))
    refine .inr ⟨he, hw, ?_⟩
    cases hwait : (h.latch? j).bind Latch.wait? with
    | none => rw [hwait] at hfound; cases hfound
    | some w' =>
      rw [hwait] at hfound
      rw [Waiter.leaving.inj hfound]
  · rw [hleave] at hx
    cases hx

/-- A thread that waits has begun to. -/
theorem inProgress_step {e : Happening ι σ} (he : e ≠ .begin)
    (hk : (h.step advance e).inProgress = some k) : h.inProgress = some k := by
  rw [inProgress] at hk
  rcases h.watch_step_cases advance e with
    hsame | hwake | ⟨hbegin, -⟩ | ⟨j, -, hw, hlook⟩ | ⟨-, hleave⟩
  · rwa [hsame] at hk
  · rw [hwake] at hk
    exact inProgress_wake ▸ hk
  · exact absurd hbegin he
  · rw [hlook] at hk
    rw [inProgress, hw]
    exact hk
  · rw [hleave] at hk
    cases hk

theorem leaving_run {events : List (Happening ι σ)} {w : Wait}
    (hx : (h.run advance events).watch = some (k, .leaving w)) :
    h.watch = some (k, .leaving w) ∨ ∃ before later, events = before ++ .look :: later ∧
      (h.run advance before).Finds k w := by
  refine (exists_step_of_foldl (step advance) (fun _ => True)
    (fun h => h.watch = some (k, .leaving w)) (fun _ _ _ => trivial) (fun _ _ _ => leaving_step)
    trivial hx).imp_right ?_
  rintro ⟨before, _, later, hevents, rfl, hfinds⟩
  exact ⟨before, later, hevents, hfinds⟩

/-- The tasks of one round do not touch what the wait for another depends on. -/
theorem work_of_ne {j : Nat} (hj : j ≠ k) :
    (h.work advance j unit).rounds[k]? = h.rounds[k]? ∧
      (h.inProgress = some k → (h.work advance j unit).watch = h.watch) := by
  cases hr : h.rounds[j]? with
  | none =>
    unfold work
    rw [hr]
    exact ⟨rfl, fun _ => rfl⟩
  | some r =>
    rw [work_of_round hr, rounds_put, List.getElem?_set_ne hj]
    refine ⟨rfl, fun hk => ?_⟩
    unfold put
    rw [if_neg]
    rintro ⟨hj', -⟩
    exact hj (Option.some.inj (hj'.symm.trans hk))

/-- **The latch is a barrier.** Whatever has happened, in whatever order:

* the wait for a round comes out as the thread finds when it looks at the latch; it finds that the
  round is done only if all tasks of that round are over;
* it finds that it was interrupted only if someone interrupted it while that round was in progress,
  and what it finds pending are the tasks of that round that are not over, of which there are some;
* once all tasks of the round are over the thread does not sleep, and finds that the round is done,
  interrupted or not;
* where no round is in progress an interrupt reports this, and it makes no difference to whatever
  happens later;
* tasks of another round do not touch the round, its latch or the thread that waits for it. -/
theorem barrier (advance : σ → σ × Outcome) (s : Scheduler ι) (store : Table ι σ)
    (events : List (Happening ι σ)) :
    let after := (start s store).run advance
    let h := after events
    (∀ k w, h.watch = some (k, .leaving w) →
      ∃ before later, events = before ++ .look :: later ∧ (after before).Finds k w) ∧
    (∀ k, h.Finds k .done → h.unfinished k = 0) ∧
    (∀ k pending, h.Finds k (.interrupted pending) →
      pending = h.unfinished k ∧ 0 < pending ∧
        ∃ before later, events = before ++ .interrupt :: later ∧
          (after before).inProgress = some k) ∧
    (∀ k, h.Waits k → h.unfinished k = 0 → h.Finds k .done) ∧
    (h.inProgress = none → h.interrupt.2 = false ∧
      ∀ later, after (events ++ .interrupt :: later) = after (events ++ later)) ∧
    ∀ j k unit, j ≠ k → (h.step advance (.work j unit)).rounds[k]? = h.rounds[k]? ∧
      (h.inProgress = some k → (h.step advance (.work j unit)).watch = h.watch) := by
  intro after h
  have hs : h.Sound := (Sound.start s store).run events
  refine ⟨fun k w hx => (leaving_run hx).resolve_left nofun, fun k hf => hf.unfinished_eq_zero hs,
    fun k pending hf => ?_, fun k hw hzero => hw.finds_done hs hzero, fun hidle => ?_,
    fun j k unit hj => work_of_ne hj⟩
  · obtain ⟨r, hr, hwait⟩ := hf.exists_round
    obtain ⟨hpending, hpos, hi⟩ := Latch.wait?_eq_interrupted.mp hwait
    refine ⟨hpending.trans (unfinished_of_round hs hr).symm, hpos, ?_⟩
    refine (interrupted_run (Sound.start s store) ⟨r, hr, hi⟩).resolve_left ?_
    rintro ⟨_, hnone, -⟩
    cases hnone
  · have hwatch : h.watch = none := Option.map_eq_none_iff.mp hidle
    have hinterrupt := interrupt_of_idle hs hwatch
    refine ⟨by rw [hinterrupt], fun later => ?_⟩
    have hstep : h.step advance .interrupt = h := by
      rw [Hall.step, hinterrupt]
      split <;> rfl
    show (start s store).run advance _ = (start s store).run advance _
    rw [run_append, run_append]
    show (h.step advance .interrupt).run advance later = h.run advance later
    rw [hstep]

instance (h : Hall ι σ) (k : Nat) (w : Wait) : Decidable (h.Finds k w) :=
  inferInstanceAs (Decidable (_ ∧ _))

end Hall

namespace Sample

/-- A number that goes up. -/
def counting (n : Nat) : Nat × Outcome := (n + 1, .running)

/-- Two of them, and a worker for each. -/
def pairCounting : Hall Nat Nat :=
  .start (((Scheduler.new 2).register 1).register 2) (.ofList [(1, 0), (2, 0)])

/-- All moves of the task of a unit. -/
def wholeTask (round unit : Nat) : List (Happening Nat Nat) := List.replicate 5 (.work round unit)

/-- The wait for a round is interrupted when one of its two tasks is over. -/
def cutShort : List (Happening Nat Nat) :=
  .begin :: .work 0 2 :: (wholeTask 0 1 ++ [.look, .interrupt, .ring])

/-- The task left over ends in the middle of the next round, which is interrupted too late. -/
def carriedOver : List (Happening Nat Nat) :=
  cutShort ++ [.look, .leave, .interrupt, .begin, .look] ++ wholeTask 1 1 ++ wholeTask 0 2 ++
    wholeTask 1 2 ++ [.interrupt, .ring]

end Sample

/-- The first wait comes out interrupted, with one task pending. The second comes out done, when
all of its own tasks are over. -/
theorem Hall.barrier_carriedOver :
    let h := Sample.pairCounting.run Sample.counting Sample.cutShort
    let h' := Sample.pairCounting.run Sample.counting Sample.carriedOver
    (h.Finds 0 (.interrupted 1) ∧ 1 = h.unfinished 0 ∧
      ∃ before later, Sample.cutShort = before ++ .interrupt :: later ∧
        (Sample.pairCounting.run Sample.counting before).inProgress = some 0) ∧
    (h'.Waits 1 ∧ h'.Finds 1 .done ∧ h'.unfinished 1 = 0) ∧
    h'.store.values = [2, 2] ∧ h'.scheduler.rounds = 0 := by
  intro h h'
  obtain ⟨-, -, hinterrupted, -⟩ := barrier Sample.counting _ _ Sample.cutShort
  obtain ⟨-, hdone, -, hwaits, -⟩ := barrier Sample.counting _ _ Sample.carriedOver
  have hfinds : h.Finds 0 (.interrupted 1) := by decide
  obtain ⟨hpending, -, hwho⟩ := hinterrupted 0 1 hfinds
  have hwait : h'.Waits 1 := .inl (by decide)
  have hfinds' : h'.Finds 1 .done := hwaits 1 hwait (by decide)
  exact ⟨⟨hfinds, hpending, hwho⟩, ⟨hwait, hfinds', hdone 1 hfinds'⟩, by decide, by decide⟩

end Rewind
