import Rewind.Proofs.Scheduler.Barrier

/-! Where a halt goes.

A task that has come out halted stays so (`Hall.outcome?_step`), and before it is counted off it has
told the round (`Hall.Tells`). So when a round is over it knows of every halt in it
(`Hall.Over.mem_haltedIn`). A round is no longer waited for once the thread has left, and nothing
else brings that about (`Hall.left_step`). -/

namespace Rewind

/-! ### Outcomes -/

/-- How the task has come out, if it has. -/
def Stage.outcome? {ι : Type} : Stage ι → Option Outcome
  | queued _ | running _ (_ + 1) _ => none
  | running _ 0 outcome | ended outcome | told outcome | counted outcome => some outcome

section
variable {ι σ : Type} [DecidableEq ι] {advance : σ → σ × Outcome} {unit v : ι} {o : Outcome}

theorem Progress.outcome?_move {p : Progress ι σ} {stage : Stage ι} (h : stage.outcome? = some o) :
    (p.move advance unit stage).2.outcome? = some o := by
  cases stage with
  | queued => cases h
  | ended | told | counted => exact h
  | running target left last =>
    cases left with
    | zero => exact h
    | succ => cases h

def Round.outcome? (r : Round ι) (unit : ι) : Option Outcome :=
  (r.stages.get? unit).bind Stage.outcome?

/-- The round knows of the tasks that have told it that they halted. -/
def Round.Tells (r : Round ι) : Prop :=
  ∀ v, (r.stages.get? v).bind Stage.told? = some .halted → v ∈ r.halted

namespace Floor
variable {f : Floor ι σ} {workers : Nat}

theorem outcome?_move (h : f.round.outcome? v = some o) :
    (f.move advance workers unit).round.outcome? v = some o := by
  rcases f.move_cases advance workers unit with hmove | ⟨stage, hstage, -, hmove⟩
  · rwa [hmove]
  rw [hmove]
  show ((f.stages.set unit _).get? v).bind Stage.outcome? = some o
  rw [Table.get?_set]
  split
  · next hv =>
    subst hv
    rw [Round.outcome?, show f.round.stages.get? unit = some stage from hstage] at h
    exact Progress.outcome?_move h
  · exact h

theorem halted_move (hv : v ∈ f.progress.halted) :
    v ∈ (f.move advance workers unit).progress.halted := by
  rcases f.move_cases advance workers unit with hmove | ⟨stage, -, -, hmove⟩
  · rwa [hmove]
  rw [hmove]
  rcases f.progress.move_cases advance unit stage with ⟨outcome, -, htell⟩ | ⟨hsame, -⟩
  · rw [htell]
    exact List.mem_append_left _ hv
  · exact hsame ▸ hv

theorem tells_move (h : f.round.Tells) : (f.move advance workers unit).round.Tells := by
  intro v hv
  rcases f.move_cases advance workers unit with hmove | ⟨stage, hstage, -, hmove⟩
  · rw [hmove] at hv ⊢
    exact h v hv
  have hold : v ∈ f.progress.halted → v ∈ (f.move advance workers unit).progress.halted :=
    halted_move
  rw [hmove] at hv hold ⊢
  change ((f.stages.set unit _).get? v).bind Stage.told? = some .halted at hv
  rw [Table.get?_set] at hv
  split at hv
  · next hunit =>
    subst hunit
    rcases f.progress.move_cases advance unit stage with ⟨outcome, -, htell⟩ | ⟨-, -, hsame⟩
    · rw [htell] at hv ⊢
      obtain rfl : outcome = .halted := Option.some.inj hv
      exact List.mem_append_right _ (List.mem_singleton_self _)
    · refine hold (h unit ?_)
      rw [show f.round.stages.get? unit = some stage from hstage, Option.bind_some, ← hsame]
      exact hv
  · exact hold (h v hv)

end Floor
end

namespace Hall
variable {ι σ : Type} [DecidableEq ι] {advance : σ → σ × Outcome} {h : Hall ι σ} {k : Nat}
  {unit : ι} {o : Outcome} {r : Round ι}

def outcome? (h : Hall ι σ) (k : Nat) (unit : ι) : Option Outcome :=
  h.rounds[k]?.bind (·.outcome? unit)

/-- The units that are known to have halted in a round. -/
def haltedIn (h : Hall ι σ) (k : Nat) : List ι := (h.rounds[k]?.map Round.halted).getD []

def Tells (h : Hall ι σ) : Prop := ∀ (k : Nat) (r : Round ι), h.rounds[k]? = some r → r.Tells

/-- All tasks of the round are over. -/
def Over (h : Hall ι σ) (k : Nat) : Prop := ∃ r, h.rounds[k]? = some r ∧ r.latch.remaining = 0

/-- What every happening keeps, a run keeps. -/
theorem run_keeps {P : Hall ι σ → Prop} (hstep : ∀ h e, h.Sound → P h → P (h.step advance e))
    (hs : h.Sound) (hP : P h) (events : List (Happening ι σ)) : P (h.run advance events) := by
  induction events generalizing h with
  | nil => exact hP
  | cons e events ih => exact ih (hs.step e) (hstep h e hs hP)

/-- What the moves of its tasks and an interrupt keep of a round stays true of it. -/
theorem round_step {P : Round ι → Prop} (hs : h.Sound) (e : Happening ι σ)
    (hmove : ∀ (f : Floor ι σ) workers unit, P f.round → P (f.move advance workers unit).round)
    (hinterrupt : ∀ r, P r → P { r with latch := r.latch.interrupt })
    (hP : ∃ r, h.rounds[k]? = some r ∧ P r) :
    ∃ r, (h.step advance e).rounds[k]? = some r ∧ P r := by
  obtain ⟨r, hr, hP⟩ := hP
  rcases rounds_step_cases advance hs e k with
    hsame | ⟨-, -, hk, -⟩ | ⟨unit, r', -, hr', hnew⟩ | ⟨r', -, -, hr', hnew⟩
  · exact ⟨r, hsame.trans hr, hP⟩
  · rw [hk, List.getElem?_eq_none (Nat.le_refl _)] at hr
    cases hr
  · obtain rfl := Option.some.inj (hr.symm.trans hr')
    exact ⟨_, hnew, hmove (h.floor r) _ unit hP⟩
  · obtain rfl := Option.some.inj (hr.symm.trans hr')
    exact ⟨_, hnew, hinterrupt r hP⟩

theorem outcome?_eq_some : h.outcome? k unit = some o ↔
    ∃ r, h.rounds[k]? = some r ∧ r.outcome? unit = some o :=
  Option.bind_eq_some_iff

/-- A task that has come out stays so. -/
theorem outcome?_step (hs : h.Sound) (e : Happening ι σ) (ho : h.outcome? k unit = some o) :
    (h.step advance e).outcome? k unit = some o :=
  outcome?_eq_some.mpr (round_step hs e (fun _ _ _ => Floor.outcome?_move) (fun _ hP => hP)
    (outcome?_eq_some.mp ho))

/-- A round that is over stays so. -/
theorem Over.step (hs : h.Sound) (e : Happening ι σ) (ho : h.Over k) :
    (h.step advance e).Over k := by
  refine round_step (P := fun r => r.latch.remaining = 0) hs e (fun f workers unit hP => ?_)
    (fun _ hP => hP) ho
  change f.progress.latch.remaining = 0 at hP
  show (f.move advance workers unit).progress.latch.remaining = 0
  have hlatch : (f.move advance workers unit).progress.latch = f.progress.latch ∨
      (f.move advance workers unit).progress.latch = f.progress.latch.countDown :=
    f.latch_move unit
  rcases hlatch with hlatch | hlatch <;>
    rw [hlatch]
  · exact hP
  · rw [Latch.countDown, hP]

theorem Tells.start (s : Scheduler ι) (store : Table ι σ) : (start s store).Tells := nofun

theorem Tells.step (hs : h.Sound) (ht : h.Tells) (e : Happening ι σ) :
    (h.step advance e).Tells := by
  intro k r hr
  rcases rounds_step_cases advance hs e k with
    hsame | ⟨-, -, -, hnew⟩ | ⟨unit, r', -, hr', hnew⟩ | ⟨r', -, -, hr', hnew⟩
  · exact ht k r (hsame ▸ hr)
  · obtain rfl := Option.some.inj (hnew.symm.trans hr)
    intro v hv
    change ((h.scheduler.floor h.store).stages.get? v).bind Stage.told? = some .halted at hv
    rw [show ((h.scheduler.floor h.store).stages.get? v).bind Stage.told? = none from
      Scheduler.told?_floor v] at hv
    cases hv
  · obtain rfl := Option.some.inj (hnew.symm.trans hr)
    exact Floor.tells_move (f := h.floor r') (ht k r' hr')
  · obtain rfl := Option.some.inj (hnew.symm.trans hr)
    exact ht k r' hr'

theorem Over.stage_counted (hs : h.Sound) (hr : h.rounds[k]? = some r)
    (hover : r.latch.remaining = 0) {stage : Stage ι} (hstage : r.stages.get? unit = some stage) :
    ∃ outcome, stage = .counted outcome := by
  have hnone : r.unfinished = 0 := (hs.counts k r hr).symm.trans hover
  have hclosed :=
    List.countP_eq_zero.mp hnone stage (List.mem_map_of_mem (Table.mem_of_get? hstage))
  cases stage with
  | counted outcome => exact ⟨outcome, rfl⟩
  | _ => exact absurd rfl hclosed

/-- A round that is over knows of every halt in it. -/
theorem Over.mem_haltedIn (hs : h.Sound) (ht : h.Tells) (hover : h.Over k)
    (ho : h.outcome? k unit = some .halted) : unit ∈ h.haltedIn k := by
  obtain ⟨r, hr, hzero⟩ := hover
  obtain ⟨r', hr', ho⟩ := outcome?_eq_some.mp ho
  obtain rfl := Option.some.inj (hr.symm.trans hr')
  obtain ⟨stage, hstage, ho⟩ := Option.bind_eq_some_iff.mp ho
  obtain ⟨outcome, rfl⟩ := Over.stage_counted hs hr hzero hstage
  rw [haltedIn, hr]
  refine ht k r hr unit ?_
  rw [hstage]
  exact ho

/-- In a round that is over no task comes out any more. -/
theorem Over.outcome?_work (hs : h.Sound) (hover : h.Over k) :
    (h.step advance (.work k unit)).outcome? k unit = h.outcome? k unit := by
  obtain ⟨r, hr, hzero⟩ := hover
  have hstay : (h.floor r).move advance (h.workersFor k) unit = h.floor r := by
    unfold Floor.move
    split
    · rfl
    · next stage hstage =>
      obtain ⟨outcome, rfl⟩ := Over.stage_counted hs hr hzero hstage
      rfl
  have hround : (h.rounds.set k r)[k]? = some r :=
    List.getElem?_set_self (List.getElem?_eq_some_iff.mp hr).1
  rw [Hall.step, work_of_round hr, hstay, outcome?, rounds_put, outcome?, hr]
  exact congrArg (Option.bind · (·.outcome? unit)) hround

/-! ### Who leaves -/

/-- The round is no longer waited for. -/
def Left (h : Hall ι σ) (k : Nat) : Prop := k < h.rounds.length ∧ h.inProgress ≠ some k

/-- The thread that waits for the round is about to leave. -/
def Leaves (h : Hall ι σ) (k : Nat) (w : Wait) : Prop :=
  h.ringing = false ∧ h.watch = some (k, .leaving w)

theorem length_rounds_step (hs : h.Sound) {e : Happening ι σ}
    (hk : k < (h.step advance e).rounds.length) :
    k < h.rounds.length ∨ e = .begin ∧ h.watch = none ∧ k = h.rounds.length := by
  rcases rounds_step_cases advance hs e k with
    hsame | ⟨he, hw, hk, -⟩ | ⟨_, _, -, hr, -⟩ | ⟨_, -, -, hr, -⟩
  · exact .inl (List.getElem?_eq_some_iff.mp (hsame.symm.trans (List.getElem?_eq_getElem hk))).1
  · exact .inr ⟨he, hw, hk⟩
  · exact .inl (List.getElem?_eq_some_iff.mp hr).1
  · exact .inl (List.getElem?_eq_some_iff.mp hr).1

theorem left_step (hs : h.Sound) {e : Happening ι σ} (hl : (h.step advance e).Left k) :
    h.Left k ∨ e = .leave ∧ ∃ w, h.Leaves k w := by
  obtain ⟨hk, hother⟩ := hl
  by_cases hbegin : e = .begin
  · subst hbegin
    rw [Hall.step] at hk hother
    unfold begin at hk hother
    split at hk
    · next hbusy =>
      rw [if_pos hbusy] at hother
      exact .inl ⟨hk, hother⟩
    next hidle =>
    rw [if_neg hidle] at hother
    have hnone : h.inProgress ≠ some k := by
      rw [inProgress, watch_eq_none_of_idle hidle]
      exact (Option.some_ne_none k).symm
    split at hk
    · exact .inl ⟨hk, hnone⟩
    · next hempty =>
      -- The round that begins is waited for.
      rw [if_neg hempty] at hother
      have hne : h.rounds.length ≠ k := fun heq => hother (congrArg some heq)
      rw [List.length_append, List.length_singleton] at hk
      exact .inl ⟨by omega, hnone⟩
  have hk : k < h.rounds.length := (length_rounds_step hs hk).resolve_right fun hb => hbegin hb.1
  by_cases hprogress : h.inProgress = some k
  · have hgone : h.inProgress ≠ (h.step advance e).inProgress := fun heq => hother (heq ▸ hprogress)
    rcases h.watch_step_cases advance e with
      hsame | hwake | ⟨hb, -⟩ | ⟨j, -, hw, hlook⟩ | ⟨he, hnone⟩
    · exact absurd (congrArg (Option.map Prod.fst) hsame).symm hgone
    · exact absurd ((congrArg (Option.map Prod.fst) hwake).trans inProgress_wake).symm hgone
    · exact absurd hb hbegin
    · refine absurd ?_ hgone
      rw [inProgress, inProgress, hw, hlook]
      rfl
    · subst he
      obtain ⟨⟨_, x⟩, hw, rfl⟩ := Option.map_eq_some_iff.mp hprogress
      have hstay : (h.step advance .leave).watch ≠ h.watch := by
        rw [hnone, hw]
        exact (Option.some_ne_none _).symm
      rw [Hall.step] at hstay
      split at hstay
      · exact absurd rfl hstay
      · next hringing =>
        cases x with
        | leaving w => exact .inr ⟨rfl, w, Bool.eq_false_iff.mpr hringing, hw⟩
        | awake | asleep =>
          unfold leave at hstay
          rw [hw] at hstay
          exact absurd hw hstay
  · exact .inl ⟨hk, hprogress⟩

/-! ### The schedule -/

theorem table_step (h : Hall ι σ) (e : Happening ι σ) :
    (h.step advance e).scheduler.table = h.scheduler.table ∨
      e = .arrange (h.step advance e).scheduler.table := by
  cases e with
  | arrange table =>
    rw [Hall.step]
    split
    · exact .inl rfl
    · exact .inr rfl
  | touch | stir => exact .inl rfl
  | begin =>
    rw [Hall.step]
    unfold begin
    split
    · exact .inl rfl
    · split <;> exact .inl rfl
  | work k unit =>
    rw [Hall.step]
    unfold work
    split
    · exact .inl rfl
    · unfold put
      split <;> exact .inl rfl
  | interrupt =>
    rw [Hall.step]
    split
    · exact .inl rfl
    · unfold interrupt
      split
      split <;> exact .inl rfl
  | ring =>
    rw [Hall.step]
    split <;> exact .inl rfl
  | look =>
    rw [Hall.step]
    unfold look
    split
    · split <;> exact .inl rfl
    · exact .inl rfl
  | leave =>
    rw [Hall.step]
    split
    · exact .inl rfl
    · unfold leave
      split <;> exact .inl rfl

/-- The schedule is as it was, or as it has been laid down. -/
theorem table_run (events : List (Happening ι σ)) :
    (h.run advance events).scheduler.table = h.scheduler.table ∨
      .arrange (h.run advance events).scheduler.table ∈ events := by
  induction events generalizing h with
  | nil => exact .inl rfl
  | cons e events ih =>
    show ((h.step advance e).run advance events).scheduler.table = _ ∨ _
    rcases ih (h := h.step advance e) with hsame | hmem
    · refine (h.table_step e).imp hsame.trans fun he => ?_
      exact List.mem_cons.mpr (.inl (hsame ▸ he.symm))
    · exact .inr (List.mem_cons_of_mem _ hmem)

end Hall
end Rewind
