import Rewind.Proofs.Scheduler.Workers

/-! Rounds seen through a function of the units.

Where a unit that is seen through the function advances as the unit does, the tasks of a round
make the same moves on either store, whatever the turns, and tell the same of themselves
(`Scheduler.along_map`). -/

namespace Rewind

namespace Table
variable {κ α β : Type} [DecidableEq κ]

/-- What a function makes of each value. -/
def map (g : α → β) (t : Table κ α) : Table κ β := ⟨t.entries.map fun e => (e.1, g e.2)⟩

variable {g : α → β} {t : Table κ α}

omit [DecidableEq κ] in
@[simp] theorem keys_map : (t.map g).keys = t.keys := by
  rw [keys, map, List.map_map]
  rfl

@[simp] theorem get?_map (key : κ) : (t.map g).get? key = (t.get? key).map g :=
  find_map (fun _ => g) t.entries

theorem map_set (key : κ) (a : α) : (t.set key a).map g = (t.map g).set key (g a) := by
  refine congrArg Table.mk ?_
  obtain ⟨es⟩ := t
  show (put key a es).map _ = put key (g a) (es.map _)
  induction es with
  | nil => rfl
  | cons e es ih =>
    rw [List.map_cons, put, put]
    split
    · rfl
    · rw [List.map_cons, ih]

theorem map_erase (key : κ) : (t.erase key).map g = (t.map g).erase key := by
  refine congrArg Table.mk ?_
  obtain ⟨es⟩ := t
  show (drop key es).map _ = drop key (es.map _)
  induction es with
  | nil => rfl
  | cons e es ih =>
    rw [List.map_cons, drop, drop]
    split
    · rfl
    · rw [List.map_cons, ih]

end Table

variable {ι σ τ : Type} [DecidableEq ι] {g : σ → τ}

/-- What has come of a round, with the units seen through a function. -/
def Progress.map (g : σ → τ) (p : Progress ι σ) : Progress ι τ :=
  { store := p.store.map g, halted := p.halted, failures := p.failures, latch := p.latch }

/-- A round under way, with the units seen through a function. -/
def Floor.map (g : σ → τ) (f : Floor ι σ) : Floor ι τ :=
  { progress := f.progress.map g, stages := f.stages }

variable {advance : σ → σ × Outcome} {advance' : τ → τ × Outcome}

theorem advanceIn_map (h : ∀ s, advance' (g s) = (g (advance s).1, (advance s).2))
    (store : Table ι σ) (unit : ι) :
    advanceIn advance' (store.map g) unit =
      ((advanceIn advance store unit).1.map g, (advanceIn advance store unit).2) := by
  rw [advanceIn, advanceIn, Table.get?_map]
  cases store.get? unit with
  | none => rfl
  | some s =>
    simp only [Option.map_some, h]
    rw [Table.map_set]

theorem Progress.move_map (h : ∀ s, advance' (g s) = (g (advance s).1, (advance s).2))
    (unit : ι) (p : Progress ι σ) (stage : Stage ι) :
    (p.map g).move advance' unit stage =
      ((p.move advance unit stage).1.map g, (p.move advance unit stage).2) := by
  cases stage with
  | queued | ended | told | counted => rfl
  | running target left last =>
    cases left with
    | zero => rfl
    | succ left =>
      have hadvance := advanceIn_map h p.store target
      rw [move_running_succ, move_running_succ]
      simp only [map, hadvance]

namespace Floor

theorem move_map (h : ∀ s, advance' (g s) = (g (advance s).1, (advance s).2)) (workers : Nat)
    (f : Floor ι σ) (unit : ι) :
    (f.map g).move advance' workers unit = (f.move advance workers unit).map g := by
  have hstages : (f.map g).stages = f.stages := rfl
  unfold move
  rw [hstages]
  cases f.stages.get? unit with
  | none => rfl
  | some stage =>
    have hmove := Progress.move_map h unit f.progress stage
    show (if f.canMove workers stage then _ else _) = _
    simp only
    split
    · simp only [map, hmove]
    · rfl

theorem run_map (h : ∀ s, advance' (g s) = (g (advance s).1, (advance s).2)) (workers : Nat)
    (f : Floor ι σ) (schedule : List ι) :
    (f.map g).run advance' workers schedule = (f.run advance workers schedule).map g := by
  induction schedule generalizing f with
  | nil => rfl
  | cons unit schedule ih =>
    show ((f.map g).move advance' workers unit).run advance' workers schedule = _
    rw [move_map h, ih]
    rfl

end Floor

/-- **Tasks take the same course** on units that are seen through the function. -/
theorem Scheduler.along_map (h : ∀ s, advance' (g s) = (g (advance s).1, (advance s).2))
    (s : Scheduler ι) (schedule : List ι) (store : Table ι σ) :
    s.along advance' schedule (store.map g) = (s.along advance schedule store).map g :=
  Floor.run_map h s.mode.workers (s.floor store) schedule

end Rewind
