import Mathlib.Data.List.Nodup
import Rewind.Controller
import Rewind.Proofs.History.Timeline
import Rewind.Proofs.Tree.Tidy
import Rewind.Sample
import Rewind.Simulation.Behaviors

/-! The controller forward and back.

A controller goes through its units one by one, so each of its loops is followed by the
split of the units into those that are done and those to come. What a round does to one
unit is said for the unit alone, and the loops carry it over to all of them
(`Controller.recordEach_rows`, `runTasks_rows`, `Controller.backEach_rows`). Rounds and
rollbacks then are inductions on their number (`Stepped.stepOnto`, `Retreated.stepBackOnto`),
and together they lead back to an earlier state (`Controller.stepBack_step`). -/

namespace Rewind

/-! ### The unit that has its turn -/

section
variable {κ α : Type} {key : κ} {a b : α} {done todo : List (κ × α)}

theorem not_mem_of_nodup_append_cons (h : ((done ++ (key, a) :: todo).map Prod.fst).Nodup) :
    key ∉ done.map Prod.fst := by
  rw [List.map_append, List.map_cons] at h
  exact fun hmem => (List.nodup_append.mp h).2.2 _ hmem _ List.mem_cons_self rfl

variable [DecidableEq κ]

theorem Table.find_append_cons (h : key ∉ done.map Prod.fst) :
    find key (done ++ (key, a) :: todo) = some a := by
  induction done with
  | nil => exact if_pos rfl
  | cons e done ih =>
    rw [List.map_cons, List.mem_cons, not_or] at h
    rw [List.cons_append, find, if_neg (Ne.symm h.1), ih h.2]

theorem Table.put_append_cons (h : key ∉ done.map Prod.fst) :
    put key b (done ++ (key, a) :: todo) = done ++ (key, b) :: todo := by
  induction done with
  | nil => exact if_pos rfl
  | cons e done ih =>
    rw [List.map_cons, List.mem_cons, not_or] at h
    rw [List.cons_append, put, if_neg (Ne.symm h.1), ih h.2]
    rfl

theorem Table.get?_append_cons {t : Table κ α} (ht : t = ⟨done ++ (key, a) :: todo⟩)
    (hnodup : ((done ++ (key, a) :: todo).map Prod.fst).Nodup) : t.get? key = some a := by
  rw [ht]
  exact find_append_cons (not_mem_of_nodup_append_cons hnodup)

/-- The entry is set where it stands, and is done then. -/
theorem Table.set_append_cons {t : Table κ α} (ht : t = ⟨done ++ (key, a) :: todo⟩)
    (hnodup : ((done ++ (key, a) :: todo).map Prod.fst).Nodup) :
    t.set key b = ⟨done ++ [(key, b)] ++ todo⟩ := by
  rw [ht, set, put_append_cons (not_mem_of_nodup_append_cons hnodup), List.append_assoc]
  rfl

/-- A key is dropped with its entry where keys are distinct. -/
theorem Table.drop_eq_filter {es : List (κ × α)} (h : (es.map Prod.fst).Nodup) :
    drop key es = es.filter fun e => e.1 ≠ key := by
  induction es with
  | nil => rfl
  | cons e es ih =>
    obtain ⟨he, hes⟩ := List.nodup_cons.mp h
    by_cases hk : e.1 = key
    · have hall : es.filter (fun e => e.1 ≠ key) = es := by
        refine List.filter_eq_self.mpr fun e' he' => decide_eq_true ?_
        rintro rfl
        exact he (hk ▸ List.mem_map_of_mem he')
      rw [drop, if_pos hk, List.filter_cons_of_neg (by simpa using hk), hall]
    · rw [drop, if_neg hk, List.filter_cons_of_pos (by simpa using hk), ih hes]

end

/-- Units with the simulations that they were added as. -/
abbrev Team := List (UnitId × Simulation)

/-- The entries are those of a team, each in a state that goes with its start. -/
def Rows (P : Simulation → Simulation → Prop) (team entries : Team) : Prop :=
  List.Forall₂ (fun u v => u.1 = v.1 ∧ P u.2 v.2) team entries

namespace Rows
variable {P Q : Simulation → Simulation → Prop} {team entries : Team}

theorem keys (h : Rows P team entries) : entries.map Prod.fst = team.map Prod.fst := by
  rw [← List.forall₂_eq_eq_eq, List.forall₂_map_left_iff, List.forall₂_map_right_iff]
  exact (h.imp fun _ _ h => h.1.symm).flip

theorem imp_of_mem (h : Rows P team entries) (hPQ : ∀ u ∈ team, ∀ t, P u.2 t → Q u.2 t) :
    Rows Q team entries := by
  induction h with
  | nil => exact .nil
  | cons hu _ ih =>
    obtain ⟨hP, hteam⟩ := List.forall_mem_cons.mp hPQ
    exact .cons ⟨hu.1, hP _ hu.2⟩ (ih hteam)

theorem get? (h : Rows P team entries) (hnodup : (team.map Prod.fst).Nodup)
    {u : UnitId × Simulation} (hu : u ∈ team) :
    ∃ t, Table.get? ⟨entries⟩ u.1 = some t ∧ P u.2 t := by
  induction h with
  | nil => cases hu
  | @cons w v team entries hw _ ih =>
    obtain ⟨hnot, hnodup⟩ := List.nodup_cons.mp hnodup
    rcases List.mem_cons.mp hu with rfl | hu
    · exact ⟨v.2, if_pos hw.1.symm, hw.2⟩
    · obtain ⟨t, ht, hP⟩ := ih hnodup hu
      refine ⟨t, ?_, hP⟩
      have hne : v.1 ≠ u.1 := fun he => hnot (hw.1 ▸ he ▸ List.mem_map_of_mem hu)
      exact (if_neg hne).trans ht

end Rows

/-! ### The loops -/

section
variable {P Q : Simulation → Simulation → Prop} {c : Controller} {team todo : Team} (done : Team)

theorem Controller.recordEach_rows (hunits : c.units = ⟨done ++ todo⟩)
    (hnodup : ((done ++ todo).map Prod.fst).Nodup) (htodo : Rows P team todo)
    (hunit : ∀ u ∈ team, ∀ t, P u.2 t → ∃ t', t.record c.recorder = .ok t' ∧ Q u.2 t') :
    ∃ todo', Rows Q team todo' ∧
      c.recordEach (todo.map Prod.fst) = ({ c with units := ⟨done ++ todo'⟩ }, .ok ()) := by
  induction htodo generalizing c done with
  | nil => exact ⟨[], .nil, by rw [← hunits]; rfl⟩
  | @cons u v team todo huv _ ih =>
    obtain ⟨hu, hteam⟩ := List.forall_mem_cons.mp hunit
    obtain ⟨t', hrecord, hQ⟩ := hu v.2 huv.2
    have hget : c.units.get? v.1 = some v.2 := Table.get?_append_cons hunits hnodup
    obtain ⟨todo', htodo', hrest⟩ := ih (c := { c with units := c.units.set v.1 t' })
      (done ++ [(v.1, t')]) (Table.set_append_cons hunits hnodup) (by simpa using hnodup) hteam
    refine ⟨(v.1, t') :: todo', .cons ⟨huv.1, hQ⟩ htodo', ?_⟩
    simp only [List.map_cons, recordEach, hget, hrecord]
    rw [hrest, List.append_assoc]
    rfl

/-- What one rollback does to a unit that goes to a cycle, if to any. -/
def GoesTo (r : Recorder) (t t' : Simulation) : Option UInt64 → Prop
  | some cycle => t.canStepBack = true ∧ t.restore r = .ok (t', .to cycle)
  | none => if t.canStepBack then t.restore r = .ok (t', .nothing) else t' = t

theorem Controller.backEach_cons {done : Team} {unit : UnitId} {t t' : Simulation}
    {goal : Option UInt64}
    (hunits : c.units = ⟨done ++ (unit, t) :: todo⟩)
    (hnodup : ((done ++ (unit, t) :: todo).map Prod.fst).Nodup)
    (hgoes : GoesTo c.recorder t t' goal) (restored : List (UnitId × UInt64)) (rest : List UnitId) :
    ∃ c' : Controller, c'.units = ⟨done ++ [(unit, t')] ++ todo⟩ ∧ c'.recorder = c.recorder ∧
      c.backEach restored (unit :: rest) =
        c'.backEach (restored ++ (goal.map (unit, ·)).toList) rest := by
  have hget : c.units.get? unit = some t := Table.get?_append_cons hunits hnodup
  have hset : c.units.set unit t' = ⟨done ++ [(unit, t')] ++ todo⟩ :=
    Table.set_append_cons hunits hnodup
  cases goal with
  | some cycle =>
    obtain ⟨hback, hrestore⟩ := hgoes
    refine ⟨{ c with units := c.units.set unit t', scheduler := c.scheduler.register unit },
      hset, rfl, ?_⟩
    simp only [backEach, hget, hback, restoreUnit, hrestore, if_true]
    rfl
  | none =>
    rw [Option.map_none, Option.toList_none, List.append_nil]
    cases hback : t.canStepBack with
    | true =>
      rw [GoesTo, hback, if_pos rfl] at hgoes
      refine ⟨{ c with units := c.units.set unit t' }, hset, rfl, ?_⟩
      simp only [backEach, hget, hback, restoreUnit, hgoes, if_true]
    | false =>
      obtain rfl : t' = t := by simpa [GoesTo, hback] using hgoes
      refine ⟨c, hunits.trans (by rw [List.append_assoc]; rfl), rfl, ?_⟩
      simp [backEach, hget, hback]

theorem Controller.backEach_rows (goal : Simulation → Option UInt64)
    (hunits : c.units = ⟨done ++ todo⟩) (hnodup : ((done ++ todo).map Prod.fst).Nodup)
    (htodo : Rows P team todo)
    (hunit : ∀ u ∈ team, ∀ t, P u.2 t → ∃ t', Q u.2 t' ∧ GoesTo c.recorder t t' (goal u.2))
    (restored : List (UnitId × UInt64)) :
    ∃ c' todo', Rows Q team todo' ∧ c'.units = ⟨done ++ todo'⟩ ∧ c'.recorder = c.recorder ∧
      c.backEach restored (todo.map Prod.fst) =
        ⟨c', [], .ok (restored ++ team.filterMap fun u => (goal u.2).map (u.1, ·))⟩ := by
  induction htodo generalizing c done restored with
  | nil => exact ⟨c, [], .nil, hunits, rfl, by rw [List.filterMap_nil, List.append_nil]; rfl⟩
  | @cons u v team todo huv _ ih =>
    obtain ⟨hu, hteam⟩ := List.forall_mem_cons.mp hunit
    obtain ⟨t', hQ, hgoes⟩ := hu v.2 huv.2
    obtain ⟨c₁, hc₁, hr₁, hcons⟩ :=
      backEach_cons hunits hnodup hgoes restored (todo.map Prod.fst)
    obtain ⟨c₂, todo', htodo', hc₂, hr₂, hrest⟩ :=
      ih _ hc₁ (by simpa using hnodup) (hr₁ ▸ hteam) (restored ++ ((goal u.2).map (v.1, ·)).toList)
    refine ⟨c₂, (v.1, t') :: todo', .cons ⟨huv.1, hQ⟩ htodo', ?_, hr₂.trans hr₁, ?_⟩
    · rw [hc₂, List.append_assoc]
      rfl
    · rw [List.map_cons, hcons, hrest, List.append_assoc, ← huv.1]
      cases hgoal : goal u.2 <;> simp [hgoal]

/-- A unit's task in a round that its step comes through. -/
theorem Progress.run_advance {done : Team} {p : Progress UnitId Simulation} {unit : UnitId}
    {t : Simulation}
    (hstore : p.store = ⟨done ++ (unit, t) :: todo⟩)
    (hnodup : ((done ++ (unit, t) :: todo).map Prod.fst).Nodup)
    (hcalm : t.step.2 = .running ∨ t.step.2 = .halted) :
    p.run Simulation.step false (unit, .advance unit) =
      { p with
        store := ⟨done ++ [(unit, t.step.1)] ++ todo⟩
        halted := p.halted ++ if t.step.2 = .halted then [unit] else []
        latch := p.latch.countDown } := by
  have hget : p.store.get? unit = some t := Table.get?_append_cons hstore hnodup
  have hset : p.store.set unit t.step.1 = ⟨done ++ [(unit, t.step.1)] ++ todo⟩ :=
    Table.set_append_cons hstore hnodup
  rcases hcalm with hcalm | hcalm <;>
    simp [run, Task.run, Task.advance, advanceTimes, advanceIn, hget, hcalm, hset]

theorem runTasks_rows (active halts : Simulation → Bool) {p : Progress UnitId Simulation}
    (hstore : p.store = ⟨done ++ todo⟩) (hnodup : ((done ++ todo).map Prod.fst).Nodup)
    (htodo : Rows P team todo)
    (hunit : ∀ u ∈ team, ∀ t, P u.2 t →
      if active u.2 then Q u.2 t.step.1 ∧ t.step.2 = if halts u.2 then .halted else .running
      else Q u.2 t) :
    ∃ p' todo', Rows Q team todo' ∧ p'.store = ⟨done ++ todo'⟩ ∧ p'.failures = p.failures ∧
      p'.halted = p.halted ++ (team.filter fun u => active u.2 && halts u.2).map Prod.fst ∧
      runTasks Simulation.step false p
        ((team.filter fun u => active u.2).map fun u => (u.1, .advance u.1)) = p' := by
  induction htodo generalizing p done with
  | nil => exact ⟨p, [], .nil, hstore, rfl, (List.append_nil _).symm, rfl⟩
  | @cons u v team todo huv _ ih =>
    obtain ⟨hu, hteam⟩ := List.forall_mem_cons.mp hunit
    have hv := hu v.2 huv.2
    cases hactive : active u.2 with
    | true =>
      rw [hactive, if_pos rfl] at hv
      obtain ⟨hQ, hstep⟩ := hv
      have hrun := Progress.run_advance hstore hnodup (by rw [hstep]; split <;> simp)
      obtain ⟨p', todo', htodo', hstore', hfailures, hhalted, hp'⟩ :=
        ih (done ++ [(v.1, v.2.step.1)]) (p := p.run Simulation.step false (v.1, .advance v.1))
          (by rw [hrun])
          (by simpa using hnodup) hteam
      refine ⟨p', (v.1, v.2.step.1) :: todo', .cons ⟨huv.1, hQ⟩ htodo', ?_, ?_, ?_, ?_⟩
      · rw [hstore', List.append_assoc]
        rfl
      · rw [hfailures, hrun]
      · rw [hhalted, hrun, List.append_assoc, hstep]
        cases hhalts : halts u.2 <;> simp [hactive, hhalts, huv.1]
      · rw [List.filter_cons_of_pos (by simp [hactive]), List.map_cons, huv.1]
        exact hp'
    | false =>
      rw [hactive, if_neg (by decide)] at hv
      obtain ⟨p', todo', htodo', hstore', hfailures, hhalted, hp'⟩ :=
        ih (done ++ [v]) (hstore.trans (by rw [List.append_assoc]; rfl))
          (by simpa using hnodup) hteam
      refine ⟨p', v :: todo', .cons ⟨huv.1, hv⟩ htodo', ?_, hfailures, ?_, ?_⟩
      · rw [hstore', List.append_assoc]
        rfl
      · rw [hhalted, List.filter_cons_of_neg (by simp [hactive])]
      · rw [List.filter_cons_of_neg (by simp [hactive])]
        exact hp'

end

/-! ### Rounds -/

theorem Scheduler.foldl_unregister {s : Scheduler UnitId} (ids : List UnitId)
    (h : (s.table.entries.map Prod.fst).Nodup) :
    ids.foldl unregister s =
      { s with table := ⟨s.table.entries.filter fun e => e.1 ∉ ids⟩ } := by
  induction ids generalizing s with
  | nil => simp
  | cons id ids ih =>
    have hdrop : (s.unregister id).table.entries = s.table.entries.filter fun e => e.1 ≠ id :=
      Table.drop_eq_filter h
    have hnodup : ((s.unregister id).table.entries.map Prod.fst).Nodup := by
      rw [hdrop]
      exact h.sublist ((List.filter_sublist).map _)
    rw [List.foldl_cons, ih hnodup, hdrop, List.filter_filter]
    simp [unregister, Bool.and_comm]

variable {f : StandardFormat} {level limit : Option Nat} {team : Team} {c : Controller} {i : Nat}

/-- A controller so many rounds after a team was added. -/
structure Stepped (f : StandardFormat) (level limit : Option Nat) (team : Team) (i : Nat)
    (c : Controller) : Prop where
  recorder : c.recorder = f.recorder level limit
  recording : c.recording = true
  live : c.scheduler.disposed = false
  tasks : c.scheduler.table.entries =
    (team.filter fun u => u.2.Active i).map fun u => (u.1, .advance u.1)
  units : Rows (fun s => Simulation.At f limit s (s.completed i)
    (newest limit (s.timeline (s.completed i)))) team c.units.entries

namespace Stepped

/-- Units that take part in a round and do not halt in it take part in the next. -/
theorem filter_active (hnodup : (team.map Prod.fst).Nodup) (i : Nat)
    (hcalm : ∀ u ∈ team, u.2.Calm (i + 1)) :
    ((team.filter fun u => u.2.Active i).map fun u => (u.1, Task.advance u.1)).filter
        (fun e => e.1 ∉ (team.filter fun u => decide (u.2.Active i) &&
          decide ((u.2.after i).step.2 = .halted)).map Prod.fst) =
      (team.filter fun u => u.2.Active (i + 1)).map fun u => (u.1, Task.advance u.1) := by
  rw [List.filter_map, List.filter_filter]
  refine congrArg _ (List.filter_congr fun u hu => ?_)
  have hmem : u.1 ∈ (team.filter fun u => decide (u.2.Active i) &&
      decide ((u.2.after i).step.2 = .halted)).map Prod.fst ↔
      u.2.Active i ∧ (u.2.after i).step.2 = .halted := by
    simp only [List.mem_map, List.mem_filter, Bool.and_eq_true, decide_eq_true_iff]
    refine ⟨fun ⟨v, ⟨hv, hvh⟩, hvu⟩ => ?_, fun h => ⟨u, ⟨hu, h⟩, rfl⟩⟩
    exact List.inj_on_of_nodup_map hnodup hv hu hvu ▸ hvh
  have hnext := Simulation.active_succ (s := u.2) (n := i)
  by_cases hactive : u.2.Active i
  · have hout := hcalm u hu i (by rw [Simulation.completed_succ_of_active hactive]; omega)
    rcases hout with hout | hout <;> simp [hmem, hnext, hactive, hout]
  · simp [hnext, hactive]

theorem round (h : Stepped f level limit team i c) (hnodup : (team.map Prod.fst).Nodup)
    (hteam : ∀ u ∈ team, u.2.Returns f (i + 1)) (report : StepReport)
    (failures : List (TaskFailure UnitId)) (n : Nat) :
    ∃ c' report', Stepped f level limit team (i + 1) c' ∧
      c.stepOnto report failures (n + 1) = c'.stepOnto report' failures n := by
  have hcalm : ∀ u ∈ team, u.2.Calm (i + 1) := fun u hu => (hteam u hu).calm
  obtain ⟨p, entries, hentries, hstore, hfailures, hhalted, hp⟩ := runTasks_rows []
    (fun s => s.Active i) (fun s => decide ((s.after i).step.2 = .halted))
    (p := c.scheduler.begin c.units)
    (Q := fun s => Simulation.At f limit s (s.completed (i + 1))
      (newest limit (s.timeline (s.completed i))))
    rfl (h.units.keys ▸ hnodup) h.units fun u hu t ht => by simpa using ht.round (hcalm u hu)
  have hround : c.scheduler.runRound Simulation.step c.units = .ok (c.scheduler.complete, p, {
      round := c.scheduler.rounds + 1
      submitted := c.scheduler.table.size
      halted := p.halted }) := by
    rw [Scheduler.runRound, Scheduler.runRoundIn, h.live, h.tasks, hp]
    rfl
  have htable : (c.scheduler.complete.table.entries.map Prod.fst).Nodup := by
    rw [show c.scheduler.complete.table = c.scheduler.table from rfl, h.tasks, List.map_map]
    exact hnodup.sublist (List.filter_sublist.map _)
  have hscheduler : (c.afterRound c.scheduler.complete p).scheduler =
      { c.scheduler.complete with
        table :=
          ⟨(team.filter fun u => u.2.Active (i + 1)).map fun u => (u.1, .advance u.1)⟩ } := by
    rw [Controller.afterRound, Scheduler.foldl_unregister p.halted htable,
      ← filter_active hnodup i hcalm, ← h.tasks, hhalted]
    rfl
  obtain ⟨entries', hentries', hrecord⟩ := Controller.recordEach_rows []
    (c := c.afterRound c.scheduler.complete p)
    (Q := fun s => Simulation.At f limit s (s.completed (i + 1))
      (newest limit (s.timeline (s.completed (i + 1)))))
    hstore (hentries.keys ▸ hnodup) hentries fun u hu t ht => by
      rw [← Simulation.pushCopy_timeline (hteam u hu).inRange]
      exact h.recorder ▸ ht.record level ((hteam u hu).restores _ (Nat.le_refl _))
        (Simulation.cycle_after (hcalm u hu) (Nat.le_refl _))
  refine ⟨{ c.afterRound c.scheduler.complete p with units := ⟨entries'⟩ },
    { report with rounds := report.rounds + 1, halted := report.halted ++ p.halted },
    ⟨h.recorder, h.recording, ?_, congrArg (·.table.entries) hscheduler, hentries'⟩, ?_⟩
  · exact (congrArg Scheduler.disposed hscheduler).trans h.live
  · have hkeys : (c.afterRound c.scheduler.complete p).units.keys = entries.map Prod.fst :=
      congrArg Table.keys hstore
    have hrecording : (c.afterRound c.scheduler.complete p).recording = true := h.recording
    rw [Controller.stepOnto, hround]
    simp only [hrecording, hkeys, hrecord, if_true]
    rw [show p.failures = [] from hfailures, List.append_nil]
    rfl

theorem stepOnto (n : Nat) (h : Stepped f level limit team i c)
    (hnodup : (team.map Prod.fst).Nodup) (hteam : ∀ u ∈ team, u.2.Returns f (i + n))
    (report : StepReport) (failures : List (TaskFailure UnitId)) :
    ∃ c' report', Stepped f level limit team (i + n) c' ∧
      c.stepOnto report failures n = ⟨c', failures, .ok report'⟩ := by
  induction n generalizing i c report with
  | zero => exact ⟨c, report, h, rfl⟩
  | succ n ih =>
    obtain ⟨c₁, report₁, h₁, hround⟩ :=
      h.round hnodup (fun u hu => (hteam u hu).mono (by omega)) report failures n
    have hi : i + 1 + n = i + (n + 1) := by omega
    obtain ⟨c₂, report₂, h₂, hrest⟩ := ih h₁ (fun u hu => hi ▸ hteam u hu) report₁
    exact ⟨c₂, report₂, hi ▸ h₂, hround.trans hrest⟩

end Stepped

/-! ### Rollbacks -/

/-- A controller so many rollbacks after the rounds. -/
structure Retreated (f : StandardFormat) (level limit : Option Nat) (team : Team) (n j : Nat)
    (c : Controller) : Prop where
  recorder : c.recorder = f.recorder level limit
  units : Rows (fun s => GoneBack f limit s (s.completed n) j) team c.units.entries

/-- How far back a unit can go after so many rounds. -/
def Simulation.depth (limit : Option Nat) (n : Nat) (s : Simulation) : Nat :=
  reach limit (s.completed n)

/-- Where a unit goes that has gone back so many times after so many rounds. -/
def Simulation.goal (limit : Option Nat) (n j : Nat) (s : Simulation) : Option UInt64 :=
  if j < s.depth limit n then some (s.cycleIn (s.completed n - (j + 1))) else none

/-- How far back any unit of a team can go. -/
def Team.depth (limit : Option Nat) (n : Nat) (team : Team) : Nat :=
  (team.map fun u => u.2.depth limit n).foldr max 0

/-- The units that go back in a rollback, and where they go. -/
def Team.goals (limit : Option Nat) (n : Nat) (team : Team) (j : Nat) : List (UnitId × UInt64) :=
  team.filterMap fun u => (u.2.goal limit n j).map (u.1, ·)

theorem Team.depth_le_iff {n j : Nat} :
    Team.depth limit n team ≤ j ↔ ∀ u ∈ team, u.2.depth limit n ≤ j := by
  induction team with
  | nil => simp [depth]
  | cons u team ih =>
    rw [List.forall_mem_cons, ← ih]
    exact Nat.max_le

theorem Team.goals_eq_nil_iff {n j : Nat} :
    Team.goals limit n team j = [] ↔ Team.depth limit n team ≤ j := by
  rw [goals, List.filterMap_eq_nil_iff, depth_le_iff]
  refine forall₂_congr fun u _ => ?_
  simp [Simulation.goal]

namespace Retreated
variable {n j : Nat}

theorem round (h : Retreated f level limit team n j c) (hnodup : (team.map Prod.fst).Nodup)
    (hteam : ∀ u ∈ team, u.2.Returns f n) :
    ∃ c', Retreated f level limit team n (j + 1) c' ∧
      c.backEach [] c.units.keys = ⟨c', [], .ok (Team.goals limit n team j)⟩ := by
  obtain ⟨c', entries, hentries, hc', hrecorder, hback⟩ := Controller.backEach_rows []
    (Simulation.goal limit n j) (c := c)
    (Q := fun s => GoneBack f limit s (s.completed n) (j + 1)) rfl (h.units.keys ▸ hnodup) h.units
    (fun u hu t ht => by
      have hrange := (hteam u hu).inRange
      rw [h.recorder, Simulation.goal, Simulation.depth]
      split
      · next hj =>
        obtain ⟨t', hrestore, ht'⟩ := ht.restore level hrange hj
          ((hteam u hu).restores _ (Nat.sub_le _ _))
        exact ⟨t', ht', ht.canStepBack hj, hrestore⟩
      · next hj => exact ht.stay level hrange (Nat.le_of_not_lt hj))
    []
  refine ⟨c', ⟨hrecorder.trans h.recorder, ?_⟩, hback⟩
  rw [hc']
  exact hentries

theorem stepBackOnto (m : Nat) (h : Retreated f level limit team n j c)
    (hnodup : (team.map Prod.fst).Nodup) (hteam : ∀ u ∈ team, u.2.Returns f n)
    (report : StepReport) :
    ∃ c' j', Retreated f level limit team n j' c' ∧
      (∀ u ∈ team, min j' (u.2.depth limit n) = min (j + m) (u.2.depth limit n)) ∧
      c.stepBackOnto report m = ⟨c', [], .ok { report with
        rounds := report.rounds + min m (Team.depth limit n team - j)
        restored := report.restored ++
          (List.range (min m (Team.depth limit n team - j))).flatMap fun i =>
            Team.goals limit n team (j + i) }⟩ := by
  induction m generalizing c j report with
  | zero =>
    refine ⟨c, j, h, fun _ _ => rfl, ?_⟩
    simp [Controller.stepBackOnto]
  | succ m ih =>
    obtain ⟨c₁, h₁, hround⟩ := h.round hnodup hteam
    rw [Controller.stepBackOnto, hround]
    by_cases hdepth : Team.depth limit n team ≤ j
    · rw [Team.goals_eq_nil_iff.mpr hdepth, Nat.sub_eq_zero_of_le hdepth]
      refine ⟨c₁, j + 1, h₁, fun u hu => ?_, ?_⟩
      · have hu := Team.depth_le_iff.mp hdepth u hu
        omega
      · simp
    · have hne := mt Team.goals_eq_nil_iff.mp hdepth
      obtain ⟨e, es, hes⟩ := List.exists_cons_of_ne_nil hne
      obtain ⟨c₂, j', h₂, hj', hrest⟩ := ih h₁
        { report with
          rounds := report.rounds + 1
          restored := report.restored ++ Team.goals limit n team j }
      refine ⟨c₂, j', h₂, fun u hu => (hj' u hu).trans (by rw [Nat.add_right_comm]; rfl), ?_⟩
      have hrounds : min (m + 1) (Team.depth limit n team - j) =
          min m (Team.depth limit n team - (j + 1)) + 1 := by omega
      rw [hrounds, List.range_succ_eq_map, List.flatMap_cons, List.flatMap_map]
      rw [hes] at hrest ⊢
      show c₁.stepBackOnto _ m = _
      rw [hrest]
      simp [hes, Nat.add_assoc, Nat.add_comm 1]

end Retreated

/-- How far so many rollbacks take a unit back. -/
def Simulation.retreat (limit : Option Nat) (n m : Nat) (s : Simulation) : Nat :=
  min m (reach limit (s.completed n))

theorem Team.rounds_eq (limit : Option Nat) (n m : Nat) (team : Team) :
    (team.map fun u => u.2.retreat limit n m).foldr max 0 = min m (Team.depth limit n team) := by
  induction team with
  | nil => exact (Nat.min_zero m).symm
  | cons u team ih =>
    have hcons : Team.depth limit n (u :: team) =
        max (u.2.depth limit n) (Team.depth limit n team) := rfl
    rw [List.map_cons, List.foldr_cons, ih, hcons, Simulation.retreat, Simulation.depth]
    omega

theorem Team.goals_eq {n m j : Nat} (team : Team) (hj : j < m) :
    Team.goals limit n team j = team.filterMap fun u =>
      if j + 1 ≤ u.2.retreat limit n m
      then some (u.1, .ofNat (u.2.cycle.toNat + u.2.completed n - (j + 1))) else none := by
  refine List.filterMap_congr fun u _ => ?_
  have hreach := reach_le limit (u.2.completed n)
  rw [Simulation.goal, Simulation.retreat, Simulation.depth]
  by_cases hu : j < reach limit (u.2.completed n)
  · have hcycle : u.2.cycle.toNat + (u.2.completed n - (j + 1)) =
        u.2.cycle.toNat + u.2.completed n - (j + 1) := by
      omega
    rw [if_pos hu, if_pos (by omega), Simulation.cycleIn, hcycle]
    rfl
  · rw [if_neg hu, if_neg (by omega)]
    rfl

namespace Stepped

/-- All rounds that were asked for. -/
theorem step (h : Stepped f level limit team 0 c) (hnodup : (team.map Prod.fst).Nodup) {n : Nat}
    (hteam : ∀ u ∈ team, u.2.Returns f n) :
    ∃ c' report, Stepped f level limit team n c' ∧ c.step n = ⟨c', [], .ok report⟩ := by
  obtain ⟨c', report, hc', hstep⟩ := h.stepOnto n hnodup (by simpa using hteam) .empty []
  rw [Nat.zero_add] at hc'
  exact ⟨c', report, hc', hstep⟩

theorem retreated {n : Nat} (h : Stepped f level limit team n c)
    (hteam : ∀ u ∈ team, u.2.Returns f n) : Retreated f level limit team n 0 c :=
  ⟨h.recorder, h.units.imp_of_mem fun u hu _ ht =>
    ht.goneBack (hteam u hu).calm (Nat.le_refl _)⟩

end Stepped

/-- All rollbacks that were asked for. -/
theorem Retreated.stepBack {n : Nat} (h : Retreated f level limit team n 0 c)
    (hnodup : (team.map Prod.fst).Nodup) (hteam : ∀ u ∈ team, u.2.Returns f n) (m : Nat) :
    ∃ c' j, Retreated f level limit team n j c' ∧
      (∀ u ∈ team, min j (reach limit (u.2.completed n)) = u.2.retreat limit n m) ∧
      let rounds := (team.map fun u => u.2.retreat limit n m).foldr max 0
      c.stepBack m = ⟨c', [], .ok
        { rounds, halted := [], interrupted := false
          restored := (List.range rounds).flatMap fun j => team.filterMap fun u =>
            if j + 1 ≤ u.2.retreat limit n m
            then some (u.1, .ofNat (u.2.cycle.toNat + u.2.completed n - (j + 1))) else none }⟩ := by
  obtain ⟨c', j, hc', hj, hback⟩ := h.stepBackOnto m hnodup hteam .empty
  refine ⟨c', j, hc', fun u hu => ?_, ?_⟩
  · rw [Simulation.retreat, ← Nat.zero_add m]
    exact hj u hu
  · rw [Controller.stepBack, hback, Team.rounds_eq]
    simp only [StepReport.empty, Nat.sub_zero, Nat.zero_add, List.nil_append]
    have hrestored :
        (List.range (min m (Team.depth limit n team))).flatMap (Team.goals limit n team) =
        (List.range (min m (Team.depth limit n team))).flatMap fun j => team.filterMap fun u =>
          if j + 1 ≤ u.2.retreat limit n m
          then some (u.1, .ofNat (u.2.cycle.toNat + u.2.completed n - (j + 1))) else none :=
      List.flatMap_congr fun j hj =>
        Team.goals_eq team (Nat.lt_of_lt_of_le (List.mem_range.mp hj) (Nat.min_le_left _ _))
    rw [hrestored]

/-! ### Adding a team -/

/-- Adds simulations one after the other, and answers the units that they became. -/
def Controller.addAll (c : Controller) :
    List Simulation → Except ControllerError (Controller × List UnitId)
  | [] => .ok (c, [])
  | s :: ss => do
    let (c, unit) ← c.add s
    let (c, units) ← c.addAll ss
    .ok (c, unit :: units)

namespace Stepped
variable {s : Simulation} {n : Nat}

theorem add (h : Stepped f level limit team 0 c) (hnew : ∀ u ∈ team, u.1 ≠ ⟨c.nextId⟩)
    (hs : s.Returns f n) :
    ∃ c', c.add s = .ok (c', ⟨c.nextId⟩) ∧ c'.nextId = c.nextId + 1 ∧
      Stepped f level limit (team ++ [(⟨c.nextId⟩, s)]) 0 c' := by
  have hstart : Simulation.At f limit s 0 [] s := by
    refine ⟨⟨s.history, rfl⟩, ?_⟩
    rw [World.Keeps, hs.fresh]
    exact .new
  obtain ⟨t, hrecord, ht⟩ := hstart.record level (hs.restores 0 (Nat.zero_le _))
    Simulation.cycleIn_zero.symm
  have hunits : ∀ e ∈ c.units.entries, e.1 ≠ ⟨c.nextId⟩ := by
    intro e he
    obtain ⟨u, hu, hue⟩ := List.mem_map.mp (h.units.keys ▸ List.mem_map_of_mem he)
    exact hue ▸ hnew u hu
  have htasks : ∀ e ∈ c.scheduler.table.entries, e.1 ≠ ⟨c.nextId⟩ := by
    intro e he
    rw [h.tasks] at he
    obtain ⟨u, hu, rfl⟩ := List.mem_map.mp he
    exact hnew u (List.mem_filter.mp hu).1
  refine ⟨{ c with
    scheduler := c.scheduler.register ⟨c.nextId⟩
    units := c.units.set ⟨c.nextId⟩ t
    nextId := c.nextId + 1 }, ?_, rfl, h.recorder, h.recording, h.live, ?_, ?_⟩
  · simp only [Controller.add, h.recording, h.recorder, hrecord, if_true]
  · show Table.put _ _ _ = _
    rw [Table.put_of_forall_ne htasks, h.tasks, List.filter_append, List.map_append,
      List.filter_cons_of_pos (by simpa using Simulation.active_zero)]
    rfl
  · show Rows _ _ (Table.put _ _ _)
    rw [Table.put_of_forall_ne hunits]
    exact List.rel_append h.units (.cons ⟨rfl, ht⟩ .nil)

theorem addAll (h : Stepped f level limit team 0 c) (hnodup : (team.map Prod.fst).Nodup)
    (hids : ∀ u ∈ team, u.1.number < c.nextId) (sims : List Simulation)
    (hsims : ∀ s ∈ sims, s.Returns f n) :
    ∃ c' units, c.addAll sims = .ok (c', units) ∧ units.length = sims.length ∧
      ((team ++ units.zip sims).map Prod.fst).Nodup ∧
      Stepped f level limit (team ++ units.zip sims) 0 c' := by
  induction sims generalizing c team with
  | nil => exact ⟨c, [], rfl, rfl, by simpa using hnodup, by simpa using h⟩
  | cons s sims ih =>
    obtain ⟨hs, hsims⟩ := List.forall_mem_cons.mp hsims
    have hnew : ∀ u ∈ team, u.1 ≠ ⟨c.nextId⟩ := fun u hu he =>
      Nat.lt_irrefl _ (he ▸ hids u hu)
    obtain ⟨c₁, hadd, hnext, h₁⟩ := h.add hnew hs
    have hnodup₁ : ((team ++ [(⟨c.nextId⟩, s)] : Team).map Prod.fst).Nodup := by
      rw [List.map_append]
      refine List.nodup_append.mpr ⟨hnodup, List.nodup_singleton _, fun id hid id' hid' he => ?_⟩
      obtain ⟨u, hu, rfl⟩ := List.mem_map.mp hid
      exact hnew u hu (he.trans (List.mem_singleton.mp hid'))
    have hids₁ : ∀ u ∈ (team ++ [(⟨c.nextId⟩, s)] : Team), u.1.number < c₁.nextId := by
      intro u hu
      rw [hnext]
      rcases List.mem_append.mp hu with hu | hu
      · exact Nat.lt_succ_of_lt (hids u hu)
      · rw [List.mem_singleton.mp hu]
        exact Nat.lt_succ_self _
    obtain ⟨c₂, units, hrest, hlength, hnodup₂, h₂⟩ := ih h₁ hnodup₁ hids₁ hsims
    rw [List.append_assoc] at hnodup₂ h₂
    refine ⟨c₂, ⟨c.nextId⟩ :: units, ?_, congrArg (· + 1) hlength, hnodup₂, h₂⟩
    rw [Controller.addAll, hadd]
    show (c₁.addAll sims >>= _) = _
    rw [hrest]
    rfl

end Stepped

/-! ### There and back -/

/-- The standard format of a name. -/
def StandardFormat.ofName (name : String) : StandardFormat :=
  if name = "json" then json else binary

theorem StandardFormat.format_ofName (name : String) :
    FormatTable.standard.ofName name = (ofName name).format := by
  show (Table.find name [("binary", Format.binary), ("json", Format.json)]).getD .binary = _
  unfold ofName
  by_cases hbinary : name = "binary"
  · subst hbinary
    rfl
  · by_cases hjson : name = "json"
    · subst hjson
      rfl
    · rw [if_neg hjson, Table.find, if_neg (Ne.symm hbinary), Table.find, if_neg (Ne.symm hjson)]
      rfl

theorem Stepped.ofSettings {settings : Settings} (h : settings.history.enabled = true) :
    ∃ level, Stepped (.ofName settings.format) level settings.history.maxDepth [] 0
      (Controller.ofSettings settings .standard) := by
  refine ⟨if settings.history.compress then some (clampLevel settings.history.level) else none,
    ?_, h, rfl, rfl, .nil⟩
  rw [Controller.ofSettings, StandardFormat.format_ofName]
  rfl

/-- **Stepping forward and then back leads to an earlier state.** A unit that completed some
cycles goes back over as many of them as were asked for and are still on record. There it
has the tree that it had after that many rounds less. The report lists, rollback after
rollback, the units that still went back and the cycles that they went to. -/
theorem Controller.stepBack_step (settings : Settings) (henabled : settings.history.enabled = true)
    (sims : List Simulation) (n m : Nat)
    (hsims : ∀ s ∈ sims, s.Restorable (.ofName settings.format) n)
    (hrange : ∀ s ∈ sims, s.InRange (s.completed n)) :
    let back (s : Simulation) : Nat := s.retreat settings.history.maxDepth n m
    ∃ c units, (ofSettings settings .standard).addAll sims = .ok (c, units) ∧
      units.length = sims.length ∧
      let team : Team := units.zip sims
      let rounds := (team.map fun u => back u.2).foldr max 0
      let stepped := c.step n
      let answer := stepped.controller.stepBack m
      (∃ report, stepped.result = .ok report) ∧
      answer.result = .ok
        { rounds, halted := [], interrupted := false
          restored := (List.range rounds).flatMap fun j => team.filterMap fun u =>
            if j + 1 ≤ back u.2
            then some (u.1, .ofNat (u.2.cycle.toNat + u.2.completed n - (j + 1))) else none } ∧
      ∀ u ∈ team, ∃ before now past,
        stepped.controller.units.get? u.1 = some before ∧
        before.cycle.toNat = u.2.cycle.toNat + u.2.completed n ∧
        answer.controller.units.get? u.1 = some now ∧
        now.cycle.toNat = u.2.cycle.toNat + u.2.completed n - back u.2 ∧
        (c.step (u.2.completed n - back u.2)).controller.units.get? u.1 = some past ∧
        past.cycle = now.cycle ∧ now.root = past.root := by
  intro back
  have hreturns : ∀ s ∈ sims, s.Returns (.ofName settings.format) n := fun s hs =>
    ⟨hsims s hs, hrange s hs⟩
  obtain ⟨level, h₀⟩ := Stepped.ofSettings henabled
  obtain ⟨c, units, hadd, hlength, hnodup, hc⟩ :=
    h₀.addAll .nil (List.forall_mem_nil _) sims hreturns
  rw [List.nil_append] at hnodup hc
  refine ⟨c, units, hadd, hlength, ?_⟩
  have hteam : ∀ u ∈ units.zip sims, u.2.Returns (.ofName settings.format) n := fun u hu =>
    hreturns u.2 (List.of_mem_zip hu).2
  obtain ⟨c₁, report, h₁, hstep⟩ := hc.step hnodup hteam
  obtain ⟨c₂, j, h₂, hj, hback⟩ := (h₁.retreated hteam).stepBack hnodup hteam m
  rw [hstep]
  refine ⟨⟨report, rfl⟩, by rw [hback], fun u hu => ?_⟩
  have hcalm := (hteam u hu).calm
  have hrange := (hteam u hu).inRange
  have hle : u.2.completed n - back u.2 ≤ u.2.completed n := Nat.sub_le _ _
  have hretreat : back u.2 ≤ u.2.completed n := Nat.le_trans (Nat.min_le_right _ _) (reach_le _ _)
  obtain ⟨before, hbefore, hat⟩ := h₁.units.get? hnodup hu
  obtain ⟨now, hnow, hgone⟩ := h₂.units.get? hnodup hu
  have hroot := hgone.root
  have hcycle := hgone.cycle
  rw [hj u hu] at hroot hcycle
  -- The same team after fewer rounds is where the unit finds its earlier state.
  obtain ⟨c₃, report₃, h₃, hearlier⟩ := hc.step hnodup fun v hv =>
    (hteam v hv).mono (Nat.le_trans hle (Simulation.completed_le n))
  obtain ⟨past, hpast, hthere⟩ := h₃.units.get? hnodup hu
  rw [Simulation.completed_of_le hle] at hthere
  rw [hback, hearlier]
  refine ⟨before, now, past, hbefore, ?_, hnow, ?_, hpast, ?_, ?_⟩
  · rw [hat.cycle hcalm (Nat.le_refl _), hrange.toNat_cycleIn]
  · rw [hcycle, (hrange.mono hle).toNat_cycleIn, Nat.add_sub_assoc hretreat]
  · rw [hthere.cycle hcalm hle, hcycle]
  · rw [hroot, hthere.root]

namespace Sample

/-- A simulation of two ants that halts at a cycle. -/
def halting (cycle : UInt64) : Simulation :=
  { Simulation.new "unit" context with root := pair, behaviors := [.haltAt cycle] }

/-- A simulation in which nothing happens. -/
def idle : Simulation := .new "unit" context

/-- A simulation of two ants that fails at a cycle. -/
def failing (cycle : UInt64) : Simulation :=
  { Simulation.new "unit" context with root := pair, behaviors := [.failAt cycle] }

theorem step_halting {s : Simulation} {cycle : UInt64} {handed : List CycleContext}
    (h : s.behaviors = [{ Behavior.haltAt cycle with handed }]) :
    s.step.1.root = s.root ∧ (s.step.2 = .running ∨ s.step.2 = .halted) ∧
      ∃ handed, s.step.1.behaviors = [{ Behavior.haltAt cycle with handed }] := by
  rw [Simulation.step, h]
  by_cases hcycle : s.cycle < cycle <;>
    simp [Simulation.runBehaviors, Behavior.onCycle, Behavior.haltAt, Behavior.plain, hcycle]

/-- Whatever cycle it starts at. -/
theorem restorable_halting (cycle start : UInt64) (n : Nat) :
    { halting cycle with cycle := start }.Restorable .json n := by
  let s : Simulation := { halting cycle with cycle := start }
  have hafter (k : Nat) : (s.after k).root = pair ∧
      ∃ handed, (s.after k).behaviors = [{ Behavior.haltAt cycle with handed }] := by
    induction k with
    | zero => exact ⟨rfl, [], rfl⟩
    | succ k ih =>
      obtain ⟨hroot, handed, hbehaviors⟩ := ih
      obtain ⟨hsame, -, hnext⟩ := step_halting hbehaviors
      exact ⟨hsame.trans hroot, hnext⟩
  have hknown : context.Knows pair := by decide
  refine ⟨rfl, fun k _ => ?_, fun k _ => ?_⟩
  · obtain ⟨-, handed, hbehaviors⟩ := hafter k
    exact (step_halting hbehaviors).2.1
  · rw [(hafter k).1]
    exact ⟨built_pair.tidy, by decide, hknown, by decide, by decide, by decide⟩

/-- Three states of a unit are kept, the present among them. -/
def settings : Settings :=
  { concurrency := 2, format := "json"
    history := { enabled := true, compress := true, level := 6, maxDepth := some 3 } }

/-- All states of a unit are kept, as they are written. -/
def uncompressed : Settings :=
  { concurrency := 0, format := "binary"
    history := { enabled := true, compress := false, level := 6, maxDepth := none } }

end Sample

/-- One unit completes two cycles and the other four; both go back over two. -/
theorem Controller.stepBack_step_halting : ∃ c units,
    (ofSettings Sample.settings .standard).addAll [Sample.halting 1, Sample.halting 9] =
      .ok (c, units) ∧
    ∃ report, ((c.step 4).controller.stepBack 3).result = .ok report ∧ report.rounds = 2 ∧
      report.restored.map Prod.snd = [1, 3, 0, 2] := by
  obtain ⟨c, units, hadd, hlength, -, hresult, -⟩ := stepBack_step Sample.settings rfl
    [Sample.halting 1, Sample.halting 9] 4 3 (by
      intro s hs
      rcases List.mem_pair.mp hs with rfl | rfl <;> exact Sample.restorable_halting _ 0 4) (by
      intro s hs
      rcases List.mem_pair.mp hs with rfl | rfl <;> decide +kernel)
  have hone : (Sample.halting 1).completed 4 = 2 ∧
      (Sample.halting 1).retreat Sample.settings.history.maxDepth 4 3 = 2 := by
    decide +kernel
  have hnine : (Sample.halting 9).completed 4 = 4 ∧
      (Sample.halting 9).retreat Sample.settings.history.maxDepth 4 3 = 2 := by
    decide +kernel
  refine ⟨c, units, hadd, _, hresult, ?_⟩
  match units, hlength with
  | [a, b], _ =>
    simp only [List.zip_cons_cons, List.zip_nil_right, List.map_cons, List.map_nil, List.foldr_cons,
      List.foldr_nil, List.filterMap_cons, List.filterMap_nil, hone, hnine]
    exact ⟨rfl, rfl⟩

/-- A simulation of two ants that halts at the last cycle there is. -/
def Sample.atLast : Simulation := { halting 0 with cycle := 18446744073709551615 }

/-- The cycle after the last is zero, and its recording takes the place of all later ones. So the
unit, which has completed one cycle and may go back over one, goes nowhere. -/
theorem Controller.not_stepBack_step_atLast :
    Sample.atLast.Restorable .json 1 ∧ Sample.atLast.completed 1 = 1 ∧
      Sample.atLast.retreat Sample.settings.history.maxDepth 1 1 = 1 ∧
      ∃ p ∈ ((ofSettings Sample.settings .standard).addAll [Sample.atLast]).toOption,
        let answer := (p.1.step 1).controller.stepBack 1
        answer.result = .ok .empty ∧
          answer.controller.units.values.map (fun s => s.cycle) = [0] := by
  refine ⟨Sample.restorable_halting 0 _ 1, ?_, ?_, ?_⟩ <;> decide +kernel

end Rewind
