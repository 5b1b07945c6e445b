import Rewind.Proofs.Scheduler.Rounds

/-! Rounds that overlap.

If the wait for a round is interrupted its tasks go on, and they are still under way when the next
round begins. So at any time there may be tasks of many rounds on the workers, and one thread that
waits for the last of them (`Hall`). What happens there happens in any order (`Happening`): a task
makes a move, someone interrupts the wait and then wakes the thread, the thread looks at the latch
and goes to sleep or leaves.

Every latch counts the tasks of its own round, a thread does not sleep through what it waits for,
and a round that nobody waits for any more is over or was interrupted (`Hall.Sound`). Whatever
happens keeps this up (`Hall.Sound.run`). -/

namespace Rewind

/-- A round that has been begun. -/
structure Round (ι : Type) where
  stages : Table ι (Stage ι)
  halted : List ι
  latch : Latch

/-- The thread that waits for a round. -/
inductive Waiter where
  /-- It is about to look at the latch. -/
  | awake
  | asleep
  /-- It has found how the wait came out. -/
  | leaving (w : Wait)
deriving DecidableEq

def Waiter.wake : Waiter → Waiter
  | asleep => awake
  | x => x

structure Hall (ι σ : Type) where
  scheduler : Scheduler ι
  store : Table ι σ
  failures : List (TaskFailure ι)
  /-- All rounds so far, the first one first. -/
  rounds : List (Round ι)
  /-- The round in progress, and the thread that waits for it. -/
  watch : Option (Nat × Waiter)
  /-- Whoever interrupted the wait has yet to wake the thread. -/
  ringing : Bool

/-- What can happen. -/
inductive Happening (ι σ : Type) where
  /-- Between rounds the tasks of the next can be laid down. -/
  | arrange (table : Table ι (Task ι))
  /-- Units can be changed at any time. -/
  | touch (f : Table ι σ → Table ι σ)
  | begin
  /-- The task of a unit in a round makes its next move. -/
  | work (round : Nat) (unit : ι)
  | interrupt
  | ring
  | look
  /-- The thread may wake up for no reason. -/
  | stir
  | leave

section
variable {ι σ : Type}

/-- How many tasks have not been counted off. -/
def Round.unfinished (r : Round ι) : Nat := r.stages.values.countP Stage.isOpen

def Round.busy (r : Round ι) : Nat := r.stages.values.countP Stage.isBusy

/-- The round apart from what all rounds share. -/
def Floor.round (f : Floor ι σ) : Round ι :=
  { stages := f.stages, halted := f.progress.halted, latch := f.progress.latch }

namespace Hall

def start (s : Scheduler ι) (store : Table ι σ) : Hall ι σ :=
  { scheduler := s, store, failures := [], rounds := [], watch := none, ringing := false }

/-- The number of the round that is waited for. -/
def inProgress (h : Hall ι σ) : Option Nat := h.watch.map Prod.fst

def latch? (h : Hall ι σ) (k : Nat) : Option Latch := h.rounds[k]?.map Round.latch

def unfinished (h : Hall ι σ) (k : Nat) : Nat := (h.rounds[k]?.map Round.unfinished).getD 0

/-- The scheduler as it is seen by whoever interrupts it. -/
def view (h : Hall ι σ) : Scheduler ι :=
  { h.scheduler with current := h.inProgress.bind h.latch? }

/-- A round with all that it shares with the others. -/
def floor (h : Hall ι σ) (r : Round ι) : Floor ι σ :=
  { progress := { store := h.store, halted := r.halted, failures := h.failures, latch := r.latch }
    stages := r.stages }

/-- The workers that have no task of another round. -/
def workersFor (h : Hall ι σ) (k : Nat) : Nat :=
  h.scheduler.mode.workers - ((h.rounds.eraseIdx k).map Round.busy).sum

/-- Wakes the thread. -/
def wake (h : Hall ι σ) : Hall ι σ := { h with watch := h.watch.map fun w => (w.1, w.2.wake) }

section
variable [DecidableEq ι] (advance : σ → σ × Outcome)

def begin (h : Hall ι σ) : Hall ι σ :=
  if h.watch.isSome || h.scheduler.disposed then h
  else if h.scheduler.table.isEmpty then { h with scheduler := h.scheduler.complete }
  else
    { h with
      rounds := h.rounds ++ [(h.scheduler.floor h.store).round]
      watch := some (h.rounds.length, .awake) }

/-- The round as it is now. The last task that is counted off wakes the thread that waits. -/
def put (h : Hall ι σ) (k : Nat) (f : Floor ι σ) : Hall ι σ :=
  let h' :=
    { h with
      store := f.progress.store
      failures := f.progress.failures
      rounds := h.rounds.set k f.round }
  if h.inProgress = some k ∧ f.progress.latch.remaining = 0 then h'.wake else h'

def work (h : Hall ι σ) (k : Nat) (unit : ι) : Hall ι σ :=
  match h.rounds[k]? with
  | none => h
  | some r => h.put k ((h.floor r).move advance (h.workersFor k) unit)

/-- Interrupts the wait, and says whether there is one. -/
def interrupt (h : Hall ι σ) : Hall ι σ × Bool :=
  let (s, delivered) := h.view.interrupt
  match h.inProgress, s.current with
  | some k, some latch =>
    ({ h with rounds := h.rounds.modify k ({ · with latch }), ringing := delivered }, delivered)
  | _, _ => ({ h with ringing := delivered }, delivered)

def look (h : Hall ι σ) : Hall ι σ :=
  match h.watch with
  | some (k, .awake) =>
    match (h.latch? k).bind Latch.wait? with
    | some w => { h with watch := some (k, .leaving w) }
    | none => { h with watch := some (k, .asleep) }
  | _ => h

/-- A round that was interrupted counts for nothing. -/
def leave (h : Hall ι σ) : Hall ι σ :=
  match h.watch with
  | some (_, .leaving .done) => { h with scheduler := h.scheduler.complete, watch := none }
  | some (_, .leaving (.interrupted _)) => { h with watch := none }
  | _ => h

/-- Nobody interrupts a wait, and the thread does not leave, while someone is about to wake it. -/
def step (h : Hall ι σ) : Happening ι σ → Hall ι σ
  | .arrange table =>
    if h.watch.isSome then h else { h with scheduler := { h.scheduler with table } }
  | .touch f => { h with store := f h.store }
  | .begin => h.begin
  | .work k unit => h.work advance k unit
  | .interrupt => if h.ringing then h else h.interrupt.1
  | .ring => if h.ringing then { h.wake with ringing := false } else h
  | .look => h.look
  | .stir => h.wake
  | .leave => if h.ringing then h else h.leave

def run (h : Hall ι σ) (events : List (Happening ι σ)) : Hall ι σ := events.foldl (step advance) h

end
end Hall
end

/-! ### What stays true -/

namespace Latch
variable {l : Latch}

theorem wait?_eq_done : l.wait? = some .done ↔ l.remaining = 0 := by
  rw [wait?]
  split
  · next h => simp [h]
  · next h => split <;> simp [h]

theorem wait?_eq_interrupted {pending : Nat} :
    l.wait? = some (.interrupted pending) ↔
      pending = l.remaining ∧ 0 < pending ∧ l.interrupted = true := by
  rw [wait?]
  split
  · next h =>
    constructor
    · rintro ⟨⟩
    · rintro ⟨rfl, hpos, -⟩
      omega
  · next h =>
    split
    · next hi =>
      constructor
      · rintro ⟨⟩
        exact ⟨rfl, Nat.pos_of_ne_zero h, hi⟩
      · rintro ⟨rfl, -, -⟩
        rfl
    · next hi => simp [hi]

theorem wait?_eq_none : l.wait? = none ↔ 0 < l.remaining ∧ l.interrupted = false := by
  rw [wait?]
  split
  · next h => simp [h]
  · next h => split <;> simp [*, Nat.pos_of_ne_zero]

end Latch

section
variable {ι σ : Type}

/-- What a thread knows of the round that it waits for. -/
def Waiter.Fits (ringing : Bool) (r : Round ι) : Waiter → Prop
  | awake => True
  | asleep => 0 < r.latch.remaining ∧ (r.latch.interrupted = true → ringing = true)
  | leaving .done => r.latch.remaining = 0
  | leaving (.interrupted _) => r.latch.interrupted = true

theorem Waiter.Fits.wake {ringing ringing' : Bool} {r : Round ι} {x : Waiter}
    (h : x.Fits ringing r) : x.wake.Fits ringing' r := by
  cases x with
  | awake | asleep => trivial
  | leaving w => cases w <;> exact h

theorem Waiter.wake_ne_asleep (x : Waiter) : x.wake ≠ .asleep := by
  cases x <;> exact nofun

/-- The round has gone on, and a thread that sleeps still has to. -/
theorem Waiter.Fits.goOn {ringing : Bool} {r : Round ι} {x : Waiter} {f : Floor ι σ}
    (h : x.Fits ringing r)
    (hlatch : f.progress.latch = r.latch ∨ f.progress.latch = r.latch.countDown)
    (hopen : x = .asleep → 0 < f.progress.latch.remaining) : x.Fits ringing f.round := by
  have hflag : f.round.latch.interrupted = r.latch.interrupted := by
    rcases hlatch with hlatch | hlatch <;> rw [Floor.round, hlatch]
    rfl
  cases x with
  | awake => trivial
  | asleep => exact ⟨hopen rfl, fun hi => h.2 (hflag ▸ hi)⟩
  | leaving w =>
    cases w with
    | done =>
      change r.latch.remaining = 0 at h
      show f.progress.latch.remaining = 0
      rcases hlatch with hlatch | hlatch <;> rw [hlatch]
      · exact h
      · rw [Latch.countDown, h]
    | interrupted => exact hflag.trans h

namespace Hall

/-- What is true whatever has happened. -/
structure Sound (h : Hall ι σ) : Prop where
  /-- Every latch counts the tasks of its own round. -/
  counts : ∀ (k : Nat) (r : Round ι), h.rounds[k]? = some r → r.latch.remaining = r.unfinished
  watched : ∀ k x, h.watch = some (k, x) → ∃ r, h.rounds[k]? = some r ∧ x.Fits h.ringing r
  rings : h.ringing = true → h.watch.isSome = true
  /-- A round that is no longer waited for is over, unless the wait was interrupted. -/
  settled : ∀ (k : Nat) (r : Round ι), h.rounds[k]? = some r →
    h.inProgress = some k ∨ r.latch.remaining = 0 ∨ r.latch.interrupted = true

variable {h : Hall ι σ} {k : Nat} {x : Waiter} {r : Round ι}

theorem Sound.start (s : Scheduler ι) (store : Table ι σ) : (start s store).Sound :=
  ⟨nofun, nofun, nofun, nofun⟩

theorem watch_eq_none_of_idle (hidle : ¬ (h.watch.isSome || h.scheduler.disposed) = true) :
    h.watch = none := by
  cases hw : h.watch with
  | none => rfl
  | some w => exact absurd (by rw [hw]; rfl) hidle

theorem watch_wake_eq_some :
    h.wake.watch = some (k, x) ↔ ∃ y, h.watch = some (k, y) ∧ x = y.wake := by
  simp only [wake, Option.map_eq_some_iff, Prod.exists, Prod.mk.injEq]
  constructor
  · rintro ⟨_, y, hy, rfl, rfl⟩
    exact ⟨y, hy, rfl⟩
  · rintro ⟨y, hy, rfl⟩
    exact ⟨k, y, hy, rfl, rfl⟩

theorem inProgress_wake : h.wake.inProgress = h.inProgress := by
  show (h.watch.map _).map Prod.fst = _
  rw [Option.map_map]
  rfl

theorem Sound.stir (hs : h.Sound) : h.wake.Sound := by
  refine ⟨hs.counts, fun k x hx => ?_, fun hr => ?_, fun k r hr => ?_⟩
  · obtain ⟨y, hy, rfl⟩ := watch_wake_eq_some.mp hx
    obtain ⟨r, hr, hfits⟩ := hs.watched k y hy
    exact ⟨r, hr, hfits.wake⟩
  · exact Option.isSome_map.trans (hs.rings hr)
  · exact inProgress_wake (h := h) ▸ hs.settled k r hr

/-- The thread is woken after an interrupt. -/
theorem Sound.ring (hs : h.Sound) : { h.wake with ringing := false }.Sound := by
  refine ⟨hs.counts, fun k x hx => ?_, nofun, hs.stir.settled⟩
  obtain ⟨y, hy, rfl⟩ := watch_wake_eq_some.mp hx
  obtain ⟨r, hr, hfits⟩ := hs.watched k y hy
  exact ⟨r, hr, hfits.wake⟩

/-- Where nobody waits, a round is over or was interrupted. -/
theorem Sound.settled_of_idle (hs : h.Sound) (hw : h.watch = none) (hr : h.rounds[k]? = some r) :
    r.latch.remaining = 0 ∨ r.latch.interrupted = true := by
  refine (hs.settled k r hr).resolve_left fun hk => ?_
  rw [inProgress, hw] at hk
  cases hk

theorem Sound.begin (hs : h.Sound) : h.begin.Sound := by
  unfold Hall.begin
  split
  · exact hs
  next hidle =>
  have hnone : h.watch = none := watch_eq_none_of_idle hidle
  split
  · exact ⟨hs.counts, hs.watched, hs.rings, hs.settled⟩
  -- The rounds from before, and the one that begins.
  have hcases {k : Nat} {r : Round ι}
      (hr : (h.rounds ++ [(h.scheduler.floor h.store).round])[k]? = some r) :
      h.rounds[k]? = some r ∨ k = h.rounds.length ∧ r = (h.scheduler.floor h.store).round := by
    rw [List.getElem?_append] at hr
    split at hr
    · exact .inl hr
    · obtain ⟨hk, hr⟩ := List.getElem?_eq_some_iff.mp hr
      rw [List.length_singleton] at hk
      exact .inr ⟨by omega, by rw [← hr, List.getElem_singleton]⟩
  refine ⟨fun k r hr => ?_, fun k x hx => ?_, fun _ => rfl, fun k r hr => ?_⟩
  · rcases hcases hr with hr | ⟨-, rfl⟩
    · exact hs.counts k r hr
    · have hcounts : (h.scheduler.floor h.store).Counts := Scheduler.counts_floor
      exact (Floor.counts_iff.mp hcounts).1
  · obtain ⟨rfl, rfl⟩ := Prod.mk.inj (Option.some.inj hx)
    exact ⟨_, List.getElem?_concat_length, trivial⟩
  · rcases hcases hr with hr | ⟨rfl, -⟩
    · exact .inr (hs.settled_of_idle hnone hr)
    · exact .inl rfl

theorem interrupt_of_watch (hw : h.watch = some (k, x)) (hr : h.rounds[k]? = some r) :
    h.interrupt =
      ({ h with
        rounds := h.rounds.modify k ({ · with latch := r.latch.interrupt })
        ringing := true }, true) := by
  simp only [interrupt, view, inProgress, hw, latch?, hr, Scheduler.interrupt, Option.map_some,
    Option.bind_some]

theorem watch_interrupt (h : Hall ι σ) : h.interrupt.1.watch = h.watch := by
  unfold interrupt
  split
  split <;> rfl

/-- Where nobody waits for a round there is nothing to interrupt. -/
theorem interrupt_of_idle (hs : h.Sound) (hw : h.watch = none) : h.interrupt = (h, false) := by
  have hringing : h.ringing = false := by
    cases hr : h.ringing with
    | false => rfl
    | true =>
      have hsome := hs.rings hr
      rw [hw] at hsome
      cases hsome
  simp only [interrupt, view, inProgress, hw, Option.map_none, Option.bind_none,
    Scheduler.interrupt, ← hringing]
  rw [← hw]

theorem Sound.interrupt (hs : h.Sound) : h.interrupt.1.Sound := by
  cases hw : h.watch with
  | none => rwa [interrupt_of_idle hs hw]
  | some w =>
    obtain ⟨k, x⟩ := w
    obtain ⟨r, hr, hfits⟩ := hs.watched k x hw
    rw [interrupt_of_watch hw hr]
    -- The round in progress, interrupted, and the other rounds.
    have hcases {j : Nat} {r' : Round ι}
        (hr' : (h.rounds.modify k ({ · with latch := r.latch.interrupt }))[j]? = some r') :
        k = j ∧ r' = { r with latch := r.latch.interrupt } ∨ h.rounds[j]? = some r' := by
      rw [List.getElem?_modify] at hr'
      obtain ⟨r'', hr'', rfl⟩ := Option.map_eq_some_iff.mp hr'
      by_cases hj : k = j
      · subst hj
        obtain rfl := Option.some.inj (hr.symm.trans hr'')
        exact .inl ⟨rfl, if_pos rfl⟩
      · rw [if_neg hj]
        exact .inr hr''
    refine ⟨fun j r' hr' => ?_, fun j y hy => ?_, fun _ => by rw [hw]; rfl, fun j r' hr' => ?_⟩
    · rcases hcases hr' with ⟨rfl, rfl⟩ | hr'
      · exact hs.counts k r hr
      · exact hs.counts j r' hr'
    · obtain ⟨rfl, rfl⟩ := Prod.mk.inj (Option.some.inj (hw.symm.trans hy))
      refine ⟨{ r with latch := r.latch.interrupt }, by simp [hr], ?_⟩
      cases x with
      | awake => trivial
      | asleep => exact ⟨hfits.1, fun _ => rfl⟩
      | leaving w => cases w with
        | done => exact hfits
        | interrupted => rfl
    · rcases hcases hr' with ⟨-, rfl⟩ | hr'
      · exact .inr (.inr rfl)
      · exact hs.settled j r' hr'

theorem Sound.look (hs : h.Sound) : h.look.Sound := by
  unfold Hall.look
  split
  · next k hw =>
    obtain ⟨r, hr, -⟩ := hs.watched k .awake hw
    have hlatch : h.latch? k = some r.latch := by rw [latch?, hr]; rfl
    have hwatch {x : Waiter} (hx : x.Fits h.ringing r) : { h with watch := some (k, x) }.Sound := by
      refine ⟨hs.counts, fun j y hy => ?_, fun _ => rfl, fun j r hr => ?_⟩
      · obtain ⟨rfl, rfl⟩ := Prod.mk.inj (Option.some.inj hy)
        exact ⟨r, hr, hx⟩
      · have hk : h.inProgress = some k := congrArg (Option.map Prod.fst) hw
        have hsettled := hs.settled j r hr
        rwa [hk] at hsettled
    rw [hlatch, Option.bind_some]
    cases hwait : r.latch.wait? with
    | none =>
      obtain ⟨hopen, hflag⟩ := Latch.wait?_eq_none.mp hwait
      exact hwatch ⟨hopen, fun hi => absurd hi (by rw [hflag]; exact Bool.false_ne_true)⟩
    | some w =>
      cases w with
      | done => exact hwatch (Latch.wait?_eq_done.mp hwait)
      | interrupted p => exact hwatch (Latch.wait?_eq_interrupted.mp hwait).2.2
  · exact hs

theorem rounds_put (f : Floor ι σ) : (h.put k f).rounds = h.rounds.set k f.round := by
  unfold put
  split <;> rfl

/-- Where a round has gone on, with its tasks counted by the latch. -/
theorem Sound.put (hs : h.Sound) (hr : h.rounds[k]? = some r) {f : Floor ι σ}
    (hcounts : f.progress.latch.remaining = f.round.unfinished)
    (hlatch : f.progress.latch = r.latch ∨ f.progress.latch = r.latch.countDown) :
    (h.put k f).Sound := by
  have hset (j : Nat) : (h.rounds.set k f.round)[j]? =
      if k = j then some f.round else h.rounds[j]? := by
    rw [List.getElem?_set]
    simp only [(List.getElem?_eq_some_iff.mp hr).1, if_true]
  have hcounts' (j : Nat) (r' : Round ι) (hr' : (h.rounds.set k f.round)[j]? = some r') :
      r'.latch.remaining = r'.unfinished := by
    rw [hset] at hr'
    split at hr'
    · obtain rfl := Option.some.inj hr'
      exact hcounts
    · exact hs.counts j r' hr'
  -- The thread knows of the round what it knew, unless it sleeps and the last task is over.
  have hwatched {j : Nat} {x : Waiter} (hx : ∃ r, h.rounds[j]? = some r ∧ x.Fits h.ringing r)
      (hopen : x = .asleep → k = j → 0 < f.progress.latch.remaining) :
      ∃ r, (h.rounds.set k f.round)[j]? = some r ∧ x.Fits h.ringing r := by
    obtain ⟨r', hr', hfits⟩ := hx
    rw [hset]
    split
    · next hj =>
      subst hj
      obtain rfl := Option.some.inj (hr.symm.trans hr')
      exact ⟨f.round, rfl, hfits.goOn hlatch fun hx => hopen hx rfl⟩
    · exact ⟨r', hr', hfits⟩
  have hsettled (j : Nat) (r' : Round ι) (hr' : (h.rounds.set k f.round)[j]? = some r') :
      h.inProgress = some j ∨ r'.latch.remaining = 0 ∨ r'.latch.interrupted = true := by
    rw [hset] at hr'
    split at hr'
    · next hj =>
      subst hj
      obtain rfl := Option.some.inj hr'
      rcases hlatch with hlatch | hlatch <;> rw [Floor.round, hlatch]
      · exact hs.settled k r hr
      · refine (hs.settled k r hr).imp_right (.imp_left fun hzero => ?_)
        rw [Latch.countDown, hzero]
    · exact hs.settled j r' hr'
  unfold Hall.put
  split
  · refine ⟨hcounts', fun j x hx => ?_, fun hring => Option.isSome_map.trans (hs.rings hring),
      fun j r' hr' => inProgress_wake (h := h) ▸ hsettled j r' hr'⟩
    obtain ⟨y, hy, rfl⟩ := watch_wake_eq_some.mp hx
    obtain ⟨r', hr', hfits⟩ := hs.watched j y hy
    exact hwatched ⟨r', hr', hfits.wake⟩ fun hasleep => absurd hasleep y.wake_ne_asleep
  · next hcond =>
    refine ⟨hcounts', fun j x hx => hwatched (hs.watched j x hx) fun _ hj => ?_, hs.rings,
      hsettled⟩
    subst hj
    have hinProgress : h.inProgress = some k := congrArg (Option.map Prod.fst) hx
    exact Nat.pos_of_ne_zero fun hzero => hcond ⟨hinProgress, hzero⟩

theorem Sound.leave (hs : h.Sound) (hringing : h.ringing = false) : h.leave.Sound := by
  -- The round that was waited for is over, or it was interrupted.
  have hsettled {k : Nat} {w : Wait} (hw : h.watch = some (k, .leaving w)) (j : Nat) (r : Round ι)
      (hr : h.rounds[j]? = some r) : r.latch.remaining = 0 ∨ r.latch.interrupted = true := by
    rcases hs.settled j r hr with hj | hr'
    · obtain ⟨⟨_, x⟩, hx, rfl⟩ := Option.map_eq_some_iff.mp hj
      obtain ⟨rfl, rfl⟩ := Prod.mk.inj (Option.some.inj (hw.symm.trans hx))
      obtain ⟨r', hr', hfits⟩ := hs.watched k _ hw
      obtain rfl := Option.some.inj (hr.symm.trans hr')
      cases w with
      | done => exact .inl hfits
      | interrupted => exact .inr hfits
    · exact hr'
  have hrings : h.ringing = true → false = true := fun hr => hringing.symm.trans hr
  unfold Hall.leave
  split
  · next hw => exact ⟨hs.counts, nofun, hrings, fun j r hr => .inr (hsettled hw j r hr)⟩
  · next hw => exact ⟨hs.counts, nofun, hrings, fun j r hr => .inr (hsettled hw j r hr)⟩
  · exact hs

end Hall
end

/-! ### Every happening -/

namespace Hall
variable {ι σ : Type} [DecidableEq ι] {advance : σ → σ × Outcome} {h : Hall ι σ} {k : Nat}
  {unit : ι}

theorem work_of_round {r : Round ι} (hr : h.rounds[k]? = some r) :
    h.work advance k unit = h.put k ((h.floor r).move advance (h.workersFor k) unit) := by
  unfold work
  rw [hr]

theorem Sound.work (hs : h.Sound) (k : Nat) (unit : ι) : (h.work advance k unit).Sound := by
  cases hr : h.rounds[k]? with
  | none =>
    unfold Hall.work
    rwa [hr]
  | some r =>
    rw [work_of_round hr]
    exact hs.put hr (Floor.remaining_move (f := h.floor r) (hs.counts k r hr) unit)
      ((h.floor r).latch_move unit)

theorem Sound.step (hs : h.Sound) (e : Happening ι σ) : (h.step advance e).Sound := by
  cases e with
  | arrange table =>
    rw [Hall.step]
    split
    · exact hs
    · exact ⟨hs.counts, hs.watched, hs.rings, hs.settled⟩
  | touch f => exact ⟨hs.counts, hs.watched, hs.rings, hs.settled⟩
  | begin => exact hs.begin
  | work k unit => exact hs.work k unit
  | interrupt =>
    rw [Hall.step]
    split
    · exact hs
    · exact hs.interrupt
  | ring =>
    rw [Hall.step]
    split
    · exact hs.ring
    · exact hs
  | look => exact hs.look
  | stir => exact hs.stir
  | leave =>
    rw [Hall.step]
    split
    · exact hs
    · next hr => exact hs.leave (Bool.eq_false_iff.mpr hr)

/-- Whatever happens, the hall stays sound. -/
theorem Sound.run (hs : h.Sound) (events : List (Happening ι σ)) :
    (h.run advance events).Sound := by
  induction events generalizing h with
  | nil => exact hs
  | cons e events ih => exact ih (hs.step e)

theorem run_append (h : Hall ι σ) (events later : List (Happening ι σ)) :
    h.run advance (events ++ later) = (h.run advance events).run advance later :=
  List.foldl_append

end Hall

end Rewind
