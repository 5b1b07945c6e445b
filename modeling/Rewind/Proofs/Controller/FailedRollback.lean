import Rewind.Proofs.Controller.Life

/-! What a rollback that fails leaves behind.

For a single unit a rollback that fails changes nothing. A controller gives its units their
turns one after the other and does not take back what it has done when one of them fails:
the units that had their turns have gone back, and are scheduled again. So nothing has
changed only if the failure came in the first round, and before any unit that has anything
on record (`Controller.failed_rollback`). -/

namespace Rewind

/-! ### One unit -/

namespace Simulation
variable {r : Recorder} {s t : Simulation}

theorem length_of_goal? {n : Node} {older : List Node} (h : s.goal? = some (n, older)) :
    older.length < s.nodes.length := by
  obtain ⟨history, hhistory, htarget⟩ := Option.bind_eq_some_iff.mp h
  rw [nodes, hhistory]
  rw [History.target?] at htarget
  split at htarget
  · cases htarget
  · next m ms hnodes =>
    simp only [hnodes]
    split at htarget
    · split at htarget
      · cases htarget
      · obtain ⟨rfl, rfl⟩ := Prod.mk.inj (Option.some.inj htarget)
        exact Nat.lt_succ_of_lt (Nat.lt_succ_self _)
    · obtain ⟨rfl, rfl⟩ := Prod.mk.inj (Option.some.inj htarget)
      exact Nat.lt_succ_self _

/-- A rollback that goes back uses something up. -/
theorem length_of_goesBack (h : s.GoesBack r) :
    (s.rolledBack r).nodes.length < s.nodes.length := by
  obtain ⟨t, cycle, ht⟩ := h
  obtain ⟨n, older, root, hgoal, -, -, rfl⟩ := restore_eq_to ht
  have hlength := length_of_goal? hgoal
  rw [rolledBack_of_ok ht]
  show (s.keeping older).nodes.length < s.nodes.length
  rwa [nodes_keeping_of_goal? hgoal]

theorem length_rolledBack (r : Recorder) (s : Simulation) :
    (s.rolledBack r).nodes.length ≤ s.nodes.length := by
  rcases hs : s.restore r with e | ⟨t, cycle | _⟩
  · rw [rolledBack, moved, hs]
  · exact Nat.le_of_lt (length_of_goesBack ⟨t, cycle, hs⟩)
  · obtain ⟨-, rfl⟩ := restore_eq_nothing hs
    rw [rolledBack_of_ok hs, nodes_keeping_nil]
    exact Nat.zero_le _

theorem length_rewind (r : Recorder) (s : Simulation) (j : Nat) :
    (s.rewind r j).nodes.length ≤ s.nodes.length := by
  induction j with
  | zero => exact Nat.le_refl _
  | succ j ih =>
    rw [rewind_succ']
    exact Nat.le_trans (length_rolledBack _ _) ih

/-- A unit with nothing on record stays as it is. -/
theorem restore_of_nodes_eq_nil (h : s.nodes = []) : s.restore r = .ok (s, .nothing) := by
  refine restore_of_not_canStepBack r ?_
  rw [World.canStepBack]
  rw [nodes] at h
  cases hhistory : s.history with
  | none => rfl
  | some history =>
    rw [hhistory] at h
    simp only at h
    simp [History.canStepBack, History.isEmpty, h]

/-- A rollback that does not fail leaves less on record, if there is anything. -/
theorem length_rolledBack_lt {p : Simulation × Restored} (h : s.restore r = .ok p)
    (hs : s.nodes ≠ []) : (s.rolledBack r).nodes.length < s.nodes.length := by
  obtain ⟨t, cycle | _⟩ := p
  · exact length_of_goesBack ⟨t, cycle, h⟩
  · obtain ⟨-, rfl⟩ := restore_eq_nothing h
    rw [rolledBack_of_ok h, nodes_keeping_nil]
    exact List.length_pos_iff.mpr hs

end Simulation

/-! ### All units -/

namespace Controller

/-- To whoever looks at trees, cycles, histories and the schedule nothing has changed. -/
structure SameView (c c' : Controller) : Prop where
  units : ∀ u, (c'.units.get? u).map (fun s => (s.root, s.cycle, s.history)) =
    (c.units.get? u).map fun s => (s.root, s.cycle, s.history)
  scheduled : ∀ u, u ∈ c'.scheduled ↔ u ∈ c.scheduled

variable {c c' : Controller}

theorem SameView.nodes (h : SameView c c') {u : UnitId} {s t : Simulation}
    (hs : c.units.get? u = some s) (ht : c'.units.get? u = some t) : t.nodes = s.nodes := by
  have hsame := h.units u
  rw [hs, ht, Option.map_some, Option.map_some, Option.some.injEq, Prod.mk.injEq,
    Prod.mk.injEq] at hsame
  rw [Simulation.nodes, Simulation.nodes, hsame.2.2]

theorem SameView.cycle (h : SameView c c') (u : UnitId) :
    (c'.units.get? u).map (fun s => s.cycle) = (c.units.get? u).map fun s => s.cycle := by
  have hsame := congrArg (Option.map fun v => v.2.1) (h.units u)
  rwa [Option.map_map, Option.map_map] at hsame

/-- A unit that has less on record than before does not look the same. -/
theorem SameView.not_lt (h : SameView c c') {turns : UnitId → Nat} (hwound : c.WoundBack turns c')
    {u : UnitId} {s : Simulation} (hs : c.units.get? u = some s) :
    ¬ (s.rewind c.recorder (turns u)).nodes.length < s.nodes.length := by
  have ht : c'.units.get? u = some (s.rewind c.recorder (turns u)) := by
    rw [hwound.get?, hs, Option.map_some]
  rw [h.nodes hs ht]
  exact Nat.lt_irrefl _

/-- Rollbacks that ended at a unit changed nothing exactly if that was in the first round and
no unit before that one had anything on record. -/
theorem WoundBack.sameView_iff {j : Nat} {gone rest : Team} (hnodup : c.units.keys.Nodup)
    (hback : ∀ i < j, ∃ u ∈ c.units.entries, (u.2.rewind c.recorder i).GoesBack c.recorder)
    (hentries : c.units.entries = gone ++ rest)
    (hgone : ∀ u ∈ gone, ∃ p, (u.2.rewind c.recorder j).restore c.recorder = .ok p)
    (h : c.WoundBack (fun v => if v ∈ gone.map Prod.fst then j + 1 else j) c') :
    SameView c c' ↔ j = 0 ∧ ∀ u ∈ gone, u.2.nodes = [] := by
  have hget : ∀ u ∈ gone, c.units.get? u.1 = some u.2 := fun u hu =>
    Table.get?_of_mem hnodup (hentries ▸ List.mem_append_left rest hu)
  constructor
  · intro hsame
    have hzero : j = 0 := by
      by_contra hj
      obtain ⟨u, hu, hback⟩ := hback 0 (Nat.pos_of_ne_zero hj)
      refine hsame.not_lt h (Table.get?_of_mem hnodup hu) ?_
      obtain ⟨k, hk⟩ : ∃ k, (if u.1 ∈ gone.map Prod.fst then j + 1 else j) = k + 1 :=
        Nat.exists_eq_add_one.mpr (by split <;> omega)
      rw [hk, Simulation.rewind_succ]
      exact Nat.lt_of_le_of_lt (Simulation.length_rewind _ _ _)
        (Simulation.length_of_goesBack hback)
    subst hzero
    refine ⟨rfl, fun u hu => ?_⟩
    by_contra hne
    obtain ⟨p, hp⟩ := hgone u hu
    refine hsame.not_lt h (hget u hu) ?_
    rw [if_pos (List.mem_map_of_mem hu)]
    exact Simulation.length_rolledBack_lt hp hne
  · rintro ⟨rfl, hnothing⟩
    have hstay : ∀ u ∈ gone, u.2.restore c.recorder = .ok (u.2, .nothing) := fun u hu =>
      Simulation.restore_of_nodes_eq_nil (hnothing u hu)
    refine ⟨fun v => ?_, fun v => ?_⟩
    · rw [h.get?]
      by_cases hv : v ∈ gone.map Prod.fst
      · obtain ⟨u, hu, rfl⟩ := List.mem_map.mp hv
        have hsame : u.2.rewind c.recorder 1 = u.2 := Simulation.rolledBack_of_ok (hstay u hu)
        rw [if_pos hv, hget u hu, Option.map_some, hsame]
      · rw [if_neg hv]
        cases c.units.get? v <;> rfl
    · rw [h.scheduled]
      refine or_iff_left ?_
      rintro ⟨s, hs, hturn, t, cycle, ht⟩
      split at hturn
      · next hv =>
        obtain ⟨u, hu, rfl⟩ := List.mem_map.mp hv
        obtain rfl := Option.some.inj ((hget u hu).symm.trans hs)
        rw [hstay u hu] at ht
        cases (Prod.mk.inj (Except.ok.inj ht)).2
      · exact absurd hturn (Nat.lt_irrefl 0)

/-- A rollback has failed at a unit after so many full rounds. The units before that one have
been rolled back once more than the others, and what went back is on the schedule. -/
def FailedAt (c c' : Controller) (j : Nat) (unit : UnitId) (e : HistoryError) : Prop :=
  ∃ gone s later, c.units.entries = gone ++ (unit, s) :: later ∧
    (s.rewind c.recorder j).restore c.recorder = .error e ∧
    c.WoundBack (fun v => if v ∈ gone.map Prod.fst then j + 1 else j) c' ∧
    (SameView c c' ↔ j = 0 ∧ ∀ u ∈ gone, u.2.nodes = [])

theorem ofHistory_eq_history {unit v : UnitId} {e e' : HistoryError}
    (h : ControllerError.ofHistory unit e = .history v e') : unit = v ∧ e = e' := by
  unfold ControllerError.ofHistory at h
  split at h
  · cases h
  · exact ControllerError.history.inj h

/-- **A rollback that fails.** `stepBack` and `restoreNow` stop at the unit that the error names.
What they did before that stays done, so the controller looks as before the call exactly if
the first round was not over and no unit before that one had anything on record. -/
theorem failed_rollback (c : Controller) (hnodup : c.units.keys.Nodup) (unit : UnitId)
    (e : HistoryError) :
    (∀ n, (c.stepBack n).result = .error (.history unit e) →
      ∃ j < n, c.FailedAt (c.stepBack n).controller j unit e) ∧
    (c.restoreNow.result = .error (.history unit e) →
      c.FailedAt c.restoreNow.controller 0 unit e) := by
  constructor
  · intro n hfailed
    obtain ⟨report, hok, -⟩ | ⟨j, hj, hback, gone, unit', s, later, e', hentries, hgone, he, herror,
        hwound⟩ := stepBackOnto_cases hnodup .empty n
    · cases hok.symm.trans hfailed
    · obtain ⟨rfl, rfl⟩ := ofHistory_eq_history (Except.error.inj (herror.symm.trans hfailed))
      exact ⟨j, hj, gone, s, later, hentries, he, hwound,
        hwound.sameView_iff hnodup hback hentries hgone⟩
  · rw [restoreNow_eq hnodup]
    intro hfailed
    obtain ⟨gone, rest, hentries, hgone, -, hwound, hend⟩ := rolledBack_cases hnodup
    rw [Sweep.result] at hfailed
    obtain ⟨hnone, -⟩ | ⟨unit', s, later, e', rfl, he, hsome⟩ := hend
    · rw [hnone] at hfailed
      cases hfailed
    · rw [hsome] at hfailed
      obtain ⟨rfl, rfl⟩ := ofHistory_eq_history (Except.error.inj hfailed)
      exact ⟨gone, s, later, hentries, he, hwound, hwound.sameView_iff hnodup
        (fun i hi => absurd hi i.not_lt_zero) hentries hgone⟩

end Controller

namespace Sample

/-- One whose root names an ant that is not there. -/
def stray : Simulation := { idle with root := idle.root.set "friend" (.entity (ant 9)) }

/-- Both after a round. What is on record of the second cannot be read. -/
def strayed : Controller :=
  (Controller.ofSettings uncompressed .standard).run [.add idle, .add stray, .step 1]

theorem nodup_keys_strayed : strayed.units.keys.Nodup := by decide +kernel

end Sample

/-- The rollback fails at the second unit, when the first has gone back. -/
theorem Controller.not_sameView_strayed :
    (Sample.strayed.stepBack 1).result =
        .error (.history ⟨2⟩ (.decode (.unresolved (Sample.ant 9)))) ∧
      ¬ SameView Sample.strayed (Sample.strayed.stepBack 1).controller ∧
    Sample.strayed.restoreNow.result =
        .error (.history ⟨2⟩ (.decode (.unresolved (Sample.ant 9)))) ∧
      ¬ SameView Sample.strayed Sample.strayed.restoreNow.controller := by
  refine ⟨by decide +kernel, fun h => ?_, by decide +kernel, fun h => ?_⟩
  · exact absurd (h.cycle ⟨1⟩) (by decide +kernel)
  · exact absurd (h.cycle ⟨1⟩) (by decide +kernel)

/-- The unit before the one that fails has something on record, so something has changed. -/
theorem Controller.failed_rollback_strayed :
    ∃ gone s later, Sample.strayed.units.entries = gone ++ (⟨2⟩, s) :: later ∧
      s.restore Sample.strayed.recorder = .error (.decode (.unresolved (Sample.ant 9))) ∧
      (SameView Sample.strayed (Sample.strayed.stepBack 1).controller ↔
        ∀ u ∈ gone, u.2.nodes = []) := by
  obtain ⟨hback, -⟩ := failed_rollback Sample.strayed Sample.nodup_keys_strayed ⟨2⟩
    (.decode (.unresolved (Sample.ant 9)))
  obtain ⟨j, hj, gone, s, later, hentries, he, -, hsame⟩ := hback 1 (by decide +kernel)
  obtain rfl := Nat.lt_one_iff.mp hj
  exact ⟨gone, s, later, hentries, he, by simpa using hsame⟩

end Rewind
