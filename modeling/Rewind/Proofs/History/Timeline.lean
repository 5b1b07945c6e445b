import Rewind.Proofs.History.Copies
import Rewind.Simulation.Basic

/-! One unit forward and back.

The timeline of a simulation lists the states it steps through. A unit that is recorded
when it is added and after every round keeps the newest part of its timeline, halted or
not, since a recording at an unchanged cycle replaces the one before (`pushCopy_timeline`).
Rolling back then walks down the timeline state by state (`GoneBack.restore`) until the
history has nothing older (`GoneBack.stay`). All this is so while cycles do not start again
from zero (`Simulation.InRange`). -/

namespace Rewind

/-! ### Timelines -/

namespace Simulation
variable (s : Simulation)

/-- The simulation after so many steps. -/
def after : Nat → Simulation
  | 0 => s
  | k + 1 => (after k).step.1

/-- None of so many steps halts. -/
def Active (n : Nat) : Prop := ∀ k < n, (s.after k).step.2 = .running

instance (n : Nat) : Decidable (s.Active n) :=
  inferInstanceAs (Decidable (∀ k < n, (s.after k).step.2 = .running))

/-- The cycles completed in so many rounds, where a unit takes part up to the step that
halts. -/
def completed : Nat → Nat
  | 0 => 0
  | n + 1 => if s.Active n then n + 1 else completed n

/-- No step in so many rounds fails or panics. -/
def Calm (n : Nat) : Prop :=
  ∀ k < s.completed n, (s.after k).step.2 = .running ∨ (s.after k).step.2 = .halted

/-- The cycle after so many more, counted on from the first where the last has been. -/
def cycleIn (k : Nat) : UInt64 := UInt64.ofNat (s.cycle.toNat + k)

/-- There are so many cycles to come before they start again. -/
def InRange (n : Nat) : Prop := s.cycle.toNat + n < 2 ^ 64

instance (n : Nat) : Decidable (s.InRange n) :=
  inferInstanceAs (Decidable (s.cycle.toNat + n < 2 ^ 64))

/-- A cycle and the tree that the simulation has at it. -/
def moment (k : Nat) : UInt64 × Entity := (s.cycleIn k, (s.after k).root)

/-- The moments up to one, the newest first. -/
def timeline : Nat → List (UInt64 × Entity)
  | 0 => [s.moment 0]
  | k + 1 => s.moment (k + 1) :: timeline k

variable {s}

theorem cycleIn_zero : s.cycleIn 0 = s.cycle := UInt64.ofNat_toNat

theorem cycleIn_succ (k : Nat) : s.cycleIn (k + 1) = s.cycleIn k + 1 := UInt64.ofNat_add _ 1

theorem InRange.mono {m n : Nat} (h : s.InRange n) (hm : m ≤ n) : s.InRange m :=
  Nat.lt_of_le_of_lt (Nat.add_le_add_left hm _) h

theorem InRange.toNat_cycleIn {k : Nat} (h : s.InRange k) :
    (s.cycleIn k).toNat = s.cycle.toNat + k := UInt64.toNat_ofNat_of_lt' h

/-- Cycles grow as long as they do not start again. -/
theorem InRange.cycleIn_lt {i k : Nat} (h : s.InRange k) (hi : i < k) :
    s.cycleIn i < s.cycleIn k := by
  rw [UInt64.lt_iff_toNat_lt, h.toNat_cycleIn, (h.mono (Nat.le_of_lt hi)).toNat_cycleIn]
  exact Nat.add_lt_add_left hi _

theorem active_zero : s.Active 0 := by
  intro k hk
  exact absurd hk k.not_lt_zero

theorem completed_of_active {n : Nat} (h : s.Active n) : s.completed n = n := by
  cases n with
  | zero => rfl
  | succ n =>
    have hn : s.Active n := fun k hk => h k (Nat.lt_succ_of_lt hk)
    rw [completed, if_pos hn]

theorem completed_succ_of_active {n : Nat} (h : s.Active n) : s.completed (n + 1) = n + 1 := by
  rw [completed, if_pos h]

theorem completed_succ_of_not_active {n : Nat} (h : ¬ s.Active n) :
    s.completed (n + 1) = s.completed n := by
  rw [completed, if_neg h]

theorem completed_le_succ (n : Nat) : s.completed n ≤ s.completed (n + 1) := by
  by_cases h : s.Active n
  · rw [completed_of_active h, completed_succ_of_active h]
    exact Nat.le_succ n
  · rw [completed_succ_of_not_active h]

theorem active_succ {n : Nat} :
    s.Active (n + 1) ↔ s.Active n ∧ (s.after n).step.2 = .running := by
  constructor
  · exact fun h => ⟨fun k hk => h k (Nat.lt_succ_of_lt hk), h n (Nat.lt_succ_self n)⟩
  · intro ⟨h, hn⟩ k hk
    rcases Nat.lt_succ_iff_lt_or_eq.mp hk with hk | rfl
    · exact h k hk
    · exact hn

theorem completed_mono {m n : Nat} (h : m ≤ n) : s.completed m ≤ s.completed n := by
  induction h with
  | refl => exact Nat.le_refl _
  | step _ ih => exact Nat.le_trans ih (completed_le_succ _)

theorem completed_le (n : Nat) : s.completed n ≤ n := by
  induction n with
  | zero => exact Nat.le_refl 0
  | succ n ih =>
    rw [completed]
    split
    · exact Nat.le_refl _
    · exact Nat.le_succ_of_le ih

theorem active_of_lt_completed {k n : Nat} (h : k < s.completed n) : s.Active k := by
  induction n with
  | zero => cases h
  | succ n ih =>
    by_cases hn : s.Active n
    · rw [completed_succ_of_active hn] at h
      exact fun i hi => hn i (by omega)
    · rw [completed_succ_of_not_active hn] at h
      exact ih h

/-- As many rounds as there were cycles complete them all. -/
theorem completed_of_le {k n : Nat} (h : k ≤ s.completed n) : s.completed k = k := by
  cases k with
  | zero => rfl
  | succ k => exact completed_succ_of_active (active_of_lt_completed h)

/-- A step changes tree, cycle and what the behaviors keep. -/
theorem step_eq : s.step.1 =
    { s with
      behaviors := s.step.1.behaviors, root := s.step.1.root, cycle := s.step.1.cycle } := by
  unfold step
  split <;> rfl

/-- What is recorded of a simulation has no part in its steps. -/
theorem step_withHistory (h : Option History) :
    { s with history := h }.step = ({ s.step.1 with history := h }, s.step.2) := by
  rw [step, step]
  rcases runBehaviors s.context s.cycle s.behaviors s.root with ⟨behaviors, root, outcome⟩
  cases outcome <;> rfl

theorem cycle_step (h : s.step.2 = .running ∨ s.step.2 = .halted) :
    s.step.1.cycle = s.cycle + 1 := by
  revert h
  rw [step]
  rcases runBehaviors s.context s.cycle s.behaviors s.root with ⟨behaviors, root, outcome⟩
  cases outcome <;> simp

theorem context_after (k : Nat) : (s.after k).context = s.context := by
  induction k with
  | zero => rfl
  | succ k ih =>
    rw [after, step_eq]
    exact ih

theorem cycle_after {n k : Nat} (h : s.Calm n) (hk : k ≤ s.completed n) :
    (s.after k).cycle = s.cycleIn k := by
  induction k with
  | zero => exact cycleIn_zero.symm
  | succ k ih => rw [after, cycle_step (h k hk), ih (Nat.le_of_succ_le hk), cycleIn_succ]

theorem cycle_lt_of_mem_timeline {k : Nat} {copy : UInt64 × Entity} (hr : s.InRange (k + 1))
    (h : copy ∈ s.timeline k) : copy.1 < s.cycleIn (k + 1) := by
  induction k with
  | zero =>
    rw [List.mem_singleton.mp h]
    exact hr.cycleIn_lt (Nat.lt_succ_self _)
  | succ k ih =>
    have hlt : s.cycleIn (k + 1) < s.cycleIn (k + 2) := hr.cycleIn_lt (Nat.lt_succ_self _)
    rcases List.mem_cons.mp h with rfl | h
    · exact hlt
    · exact UInt64.lt_trans (ih (hr.mono (Nat.le_succ _)) h) hlt

theorem timeline_eq_cons {k : Nat} (hr : s.InRange k) :
    ∃ below, s.timeline k = s.moment k :: below ∧ ∀ old ∈ below, old.1 < s.cycleIn k := by
  cases k with
  | zero => exact ⟨[], rfl, List.forall_mem_nil _⟩
  | succ k => exact ⟨s.timeline k, rfl, fun _ h => cycle_lt_of_mem_timeline hr h⟩

theorem length_timeline (k : Nat) : (s.timeline k).length = k + 1 := by
  induction k with
  | zero => rfl
  | succ k ih => rw [timeline, List.length_cons, ih]

end Simulation

/-! ### Recording a timeline -/

section
variable {limit : Option Nat} {copy : UInt64 × Entity} {below : List (UInt64 × Entity)}

theorem newest_cons {α : Type} (a : α) (as : List α) :
    newest limit (a :: newest limit as) = newest limit (a :: as) := by
  cases limit with
  | none => rfl
  | some n =>
    obtain ⟨m, hm⟩ : ∃ m, max 1 n = m + 1 := ⟨max 1 n - 1, by omega⟩
    simp [newest, hm, List.take_take]

theorem mem_of_mem_newest {α : Type} {a : α} {as : List α} (h : a ∈ newest limit as) : a ∈ as := by
  cases limit with
  | none => exact h
  | some n => exact List.mem_of_mem_take h

theorem pushCopy_newest (h : ∀ old ∈ below, old.1 < copy.1) :
    pushCopy limit copy (newest limit below) = newest limit (copy :: below) := by
  have hall : (newest limit below).filter (fun old => old.1 < copy.1) = newest limit below :=
    List.filter_eq_self.mpr fun old hold => decide_eq_true (h old (mem_of_mem_newest hold))
  rw [pushCopy, hall, newest_cons]

/-- A copy in place of the one of its own cycle. -/
theorem pushCopy_newest_cons (h : ∀ old ∈ below, old.1 < copy.1) :
    pushCopy limit copy (newest limit (copy :: below)) = newest limit (copy :: below) := by
  have hfilter (as : List (UInt64 × Entity)) (has : ∀ old ∈ as, old.1 < copy.1) :
      (copy :: as).filter (fun old => old.1 < copy.1) = as := by
    rw [List.filter_cons_of_neg (by simp)]
    exact List.filter_eq_self.mpr fun old hold => decide_eq_true (has old hold)
  cases limit with
  | none => simp only [pushCopy, newest, hfilter below h]
  | some n =>
    obtain ⟨m, hm⟩ : ∃ m, max 1 n = m + 1 := ⟨max 1 n - 1, by omega⟩
    have htake : ∀ old ∈ below.take m, old.1 < copy.1 := fun old hold =>
      h old (List.mem_of_mem_take hold)
    simp only [pushCopy, newest, hm, List.take_succ_cons, hfilter _ htake, List.take_take,
      Nat.min_self]

namespace Simulation
variable {s : Simulation}

/-- Recording after a round keeps the timeline, whether or not the unit took part in it. -/
theorem pushCopy_timeline {n : Nat} (hr : s.InRange (s.completed (n + 1))) :
    pushCopy limit (s.moment (s.completed (n + 1))) (newest limit (s.timeline (s.completed n))) =
      newest limit (s.timeline (s.completed (n + 1))) := by
  by_cases h : s.Active n
  · rw [completed_succ_of_active h] at hr
    rw [completed_of_active h, completed_succ_of_active h]
    exact pushCopy_newest fun old hold => cycle_lt_of_mem_timeline hr hold
  · rw [completed_succ_of_not_active h] at hr ⊢
    obtain ⟨below, hbelow, hlt⟩ := timeline_eq_cons hr
    rw [hbelow]
    exact pushCopy_newest_cons hlt

end Simulation
end

/-- A tree that a format takes down and brings back in a context. -/
structure StandardFormat.Restores (f : StandardFormat) (c : Context) (root : Entity) : Prop where
  tidy : root.Tidy
  housed : root.Housed
  known : c.Knows root
  closed : root.firstUnresolved? root.references = none
  written : f.writes root = true
  readable : f.reads root = true

theorem StandardFormat.Restores.recall {f : StandardFormat} {c : Context} {root : Entity}
    (h : f.Restores c root) : c.recall f.reads root = .ok root := by
  rw [Context.recall, if_pos h.readable, if_pos h.known, h.closed]

/-- A simulation with nothing recorded that can run so many rounds without failing,
through trees that the format brings back. -/
structure Simulation.Restorable (f : StandardFormat) (s : Simulation) (n : Nat) : Prop where
  fresh : s.history = none
  calm : s.Calm n
  restores : ∀ k ≤ s.completed n, f.Restores s.context (s.after k).root

/-- And that does not come to the end of its cycles in these rounds. -/
structure Simulation.Returns (f : StandardFormat) (s : Simulation) (n : Nat) : Prop
    extends s.Restorable f n where
  inRange : s.InRange (s.completed n)

theorem Simulation.Returns.mono {f : StandardFormat} {s : Simulation} {m n : Nat}
    (h : s.Returns f n) (hm : m ≤ n) : s.Returns f m :=
  have hcompleted := Simulation.completed_mono hm
  ⟨⟨h.fresh, fun k hk => h.calm k (Nat.lt_of_lt_of_le hk hcompleted),
    fun k hk => h.restores k (Nat.le_trans hk hcompleted)⟩, h.inRange.mono hcompleted⟩

/-- The unit has come so far from its start, and its history keeps the copies. -/
structure Simulation.At (f : StandardFormat) (limit : Option Nat) (s : Simulation) (k : Nat)
    (copies : List (UInt64 × Entity)) (t : Simulation) : Prop where
  state : ∃ h, t = { s.after k with history := h }
  keeps : t.toWorld.Keeps f limit copies

namespace Simulation.At
variable {f : StandardFormat} {limit : Option Nat} {s t : Simulation} {k : Nat}
  {copies older : List (UInt64 × Entity)} {copy : UInt64 × Entity}

theorem step (h : At f limit s k copies t) :
    At f limit s (k + 1) copies t.step.1 ∧ t.step.2 = (s.after k).step.2 := by
  obtain ⟨⟨history, rfl⟩, hk⟩ := h
  rw [step_withHistory]
  exact ⟨⟨⟨history, rfl⟩, hk⟩, rfl⟩

theorem root (h : At f limit s k copies t) : t.root = (s.after k).root := by
  obtain ⟨⟨history, rfl⟩, -⟩ := h
  rfl

theorem cycle {n : Nat} (h : At f limit s k copies t) (hcalm : s.Calm n)
    (hk : k ≤ s.completed n) : t.cycle = s.cycleIn k := by
  obtain ⟨⟨history, rfl⟩, -⟩ := h
  exact cycle_after hcalm hk

/-- What a round does to a unit: a step if it takes part. -/
theorem round {i : Nat} (h : At f limit s (s.completed i) copies t) (hcalm : s.Calm (i + 1)) :
    if s.Active i then
      At f limit s (s.completed (i + 1)) copies t.step.1 ∧
        t.step.2 = if (s.after i).step.2 = .halted then .halted else .running
    else At f limit s (s.completed (i + 1)) copies t := by
  split
  · next hactive =>
    rw [Simulation.completed_of_active hactive] at h
    rw [Simulation.completed_succ_of_active hactive]
    refine ⟨h.step.1, h.step.2.trans ?_⟩
    rcases hcalm i (by rw [Simulation.completed_succ_of_active hactive]; omega) with hout | hout <;>
      simp [hout]
  · next hactive =>
    rw [Simulation.completed_succ_of_not_active hactive]
    exact h

theorem record (level : Option Nat) (h : At f limit s k copies t)
    (hr : f.Restores s.context (s.after k).root) (hcycle : (s.after k).cycle = s.cycleIn k) :
    ∃ t', t.record (f.recorder level limit) = .ok t' ∧
      At f limit s k (pushCopy limit (s.moment k) copies) t' := by
  obtain ⟨⟨history, rfl⟩, hk⟩ := h
  obtain ⟨bs, hencode, -⟩ := StandardFormat.encodeTree_of_writes hr.written
    (s.after k).cycle
  obtain ⟨h, hrecord, hkeeps⟩ :=
    StandardFormat.record_keeps level hk hr.tidy hr.housed hencode
  refine ⟨{ s.after k with history := some h }, ?_, ⟨some h, rfl⟩, ?_⟩
  · rw [Simulation.record, hrecord]
    rfl
  · rw [moment, ← hcycle]
    exact hkeeps

end Simulation.At

/-! ### Going back along a timeline -/

/-- How far back a unit can go after so many cycles. -/
def reach (limit : Option Nat) (k : Nat) : Nat :=
  match limit with
  | none => k
  | some d => min k (d - 1)

theorem reach_le (limit : Option Nat) (k : Nat) : reach limit k ≤ k := by
  cases limit with
  | none => exact Nat.le_refl k
  | some d => exact Nat.min_le_left k _

namespace Simulation
variable {limit : Option Nat} {s : Simulation} {j k : Nat}

/-- The recorded moments that are still ahead after so many rollbacks. -/
def past (limit : Option Nat) (s : Simulation) (k j : Nat) : List (UInt64 × Entity) :=
  (s.timeline (k - (j + 1))).take (reach limit k - j)

/-- What a history has after so many rollbacks. Before the first the present is on top. -/
def remaining (limit : Option Nat) (s : Simulation) (k : Nat) : Nat → List (UInt64 × Entity)
  | 0 => newest limit (s.timeline k)
  | j + 1 => s.past limit k (j + 1)

theorem past_of_le (h : reach limit k ≤ j) : s.past limit k j = [] := by
  rw [past, Nat.sub_eq_zero_of_le h, List.take_zero]

theorem past_of_lt (h : j < reach limit k) :
    s.past limit k j = s.moment (k - (j + 1)) :: s.past limit k (j + 1) := by
  have hk := reach_le limit k
  obtain ⟨r, hr⟩ : ∃ r, reach limit k - j = r + 1 := ⟨reach limit k - j - 1, by omega⟩
  have hr' : reach limit k - (j + 1) = r := by omega
  rw [past, past, hr, hr']
  cases hi : k - (j + 1) with
  | zero =>
    have hr : r = 0 := by omega
    rw [hr]
    rfl
  | succ i =>
    have hi' : k - (j + 1 + 1) = i := by omega
    rw [hi', timeline, List.take_succ_cons]

theorem newest_timeline (limit : Option Nat) (s : Simulation) (k : Nat) :
    newest limit (s.timeline k) = s.moment k :: s.past limit k 0 := by
  have htake : newest limit (s.timeline k) = (s.timeline k).take (reach limit k + 1) := by
    cases limit with
    | none => exact (List.take_of_length_le (Nat.le_of_eq (length_timeline k))).symm
    | some d =>
      refine List.take_eq_take_iff.mpr ?_
      rw [length_timeline, reach]
      omega
  rw [htake, past]
  cases k with
  | zero =>
    rw [timeline, List.take_succ_cons, Nat.eq_zero_of_le_zero (reach_le limit 0)]
    rfl
  | succ k => rfl

/-- A unit that has gone back skips nothing, one that has not skips the present. -/
theorem pastCopies_remaining (limit : Option Nat) {k : Nat} (hr : s.InRange k) (j : Nat) :
    pastCopies (s.cycleIn (k - min j (reach limit k))) (s.remaining limit k j) =
      s.past limit k j := by
  cases j with
  | zero =>
    rw [remaining, newest_timeline, Nat.zero_min]
    exact if_pos rfl
  | succ j =>
    rw [remaining]
    by_cases h : reach limit k ≤ j + 1
    · rw [past_of_le h]
      rfl
    · have hk := reach_le limit k
      have hlt : s.cycleIn (k - (j + 1 + 1)) < s.cycleIn (k - min (j + 1) (reach limit k)) :=
        (hr.mono (Nat.sub_le _ _)).cycleIn_lt (by omega)
      rw [past_of_lt (Nat.lt_of_not_le h), pastCopies, if_neg]
      exact UInt64.ne_of_lt hlt

end Simulation

/-- The unit has gone back so many times from where it was after `k` cycles, or as often
as it could. What its behaviors keep has not gone back. -/
structure GoneBack (f : StandardFormat) (limit : Option Nat) (s : Simulation) (k j : Nat)
    (t : Simulation) : Prop where
  context : t.context = s.context
  root : t.root = (s.after (k - min j (reach limit k))).root
  cycle : t.cycle = s.cycleIn (k - min j (reach limit k))
  keeps : t.toWorld.Keeps f limit (s.remaining limit k j)

theorem Simulation.At.goneBack {f : StandardFormat} {limit : Option Nat} {s t : Simulation}
    {k n : Nat} (h : At f limit s k (newest limit (s.timeline k)) t) (hcalm : s.Calm n)
    (hk : k ≤ s.completed n) : GoneBack f limit s k 0 t := by
  refine ⟨?_, ?_, ?_, h.keeps⟩
  · obtain ⟨⟨history, rfl⟩, -⟩ := h
    exact context_after k
  · rw [Nat.zero_min]
    exact h.root
  · rw [Nat.zero_min]
    exact h.cycle hcalm hk

namespace GoneBack
variable {f : StandardFormat} {limit : Option Nat} {s t : Simulation} {j k : Nat}

theorem canStepBack (h : GoneBack f limit s k j t) (hj : j < reach limit k) :
    t.canStepBack = true := by
  rw [h.keeps.canStepBack]
  cases j with
  | zero =>
    rw [Simulation.remaining, Simulation.newest_timeline]
    rfl
  | succ j =>
    rw [Simulation.remaining, Simulation.past_of_lt hj]
    rfl

/-- A unit with something older goes one cycle back. -/
theorem restore (level : Option Nat) (h : GoneBack f limit s k j t) (hrange : s.InRange k)
    (hj : j < reach limit k) (hr : f.Restores s.context (s.after (k - (j + 1))).root) :
    ∃ t', t.restore (f.recorder level limit) = .ok (t', .to (s.cycleIn (k - (j + 1)))) ∧
      GoneBack f limit s k (j + 1) t' := by
  have hpast : pastCopies t.cycle (s.remaining limit k j) =
      s.moment (k - (j + 1)) :: s.past limit k (j + 1) := by
    rw [h.cycle, Simulation.pastCopies_remaining limit hrange, Simulation.past_of_lt hj]
  have hrestore := StandardFormat.restore_past level h.keeps hpast
  have hrecall : t.context.recall f.reads (s.moment (k - (j + 1))).2 =
      .ok (s.after (k - (j + 1))).root := h.context.symm ▸ hr.recall
  rw [hrecall] at hrestore
  obtain ⟨history, hrestore, hkeeps⟩ := hrestore
  have hmin : min (j + 1) (reach limit k) = j + 1 := Nat.min_eq_left hj
  refine ⟨{ t with
    root := (s.after (k - (j + 1))).root
    cycle := s.cycleIn (k - (j + 1))
    history := some history }, ?_, h.context, ?_, ?_, hkeeps⟩
  · rw [Simulation.restore, hrestore]
    rfl
  · rw [hmin]
  · rw [hmin]

/-- A unit with nothing older stays where it is. Its history is empty after that. -/
theorem stay (level : Option Nat) (h : GoneBack f limit s k j t) (hrange : s.InRange k)
    (hj : reach limit k ≤ j) :
    ∃ t', GoneBack f limit s k (j + 1) t' ∧
      if t.canStepBack then t.restore (f.recorder level limit) = .ok (t', .nothing)
      else t' = t := by
  have hposition : k - min (j + 1) (reach limit k) = k - min j (reach limit k) := by omega
  have hnone : s.remaining limit k (j + 1) = [] := Simulation.past_of_le (Nat.le_succ_of_le hj)
  have hroot := h.root
  have hcycle := h.cycle
  have hkeeps := h.keeps
  rw [← hposition] at hroot hcycle
  cases hback : t.canStepBack with
  | false =>
    have hempty : s.remaining limit k j = [] := by
      rw [hkeeps.canStepBack] at hback
      simpa using hback
    rw [hempty, ← hnone] at hkeeps
    exact ⟨t, ⟨h.context, hroot, hcycle, hkeeps⟩, rfl⟩
  | true =>
    have hpast : pastCopies t.cycle (s.remaining limit k j) = [] := by
      rw [h.cycle, Simulation.pastCopies_remaining limit hrange, Simulation.past_of_le hj]
    obtain ⟨history, hrestore, hkeeps⟩ := StandardFormat.restore_nothing level hkeeps hpast
    rw [← hnone] at hkeeps
    refine ⟨{ t with history }, ⟨h.context, hroot, hcycle, hkeeps⟩, ?_⟩
    rw [if_pos rfl, Simulation.restore, hrestore]
    rfl

end GoneBack
end Rewind
