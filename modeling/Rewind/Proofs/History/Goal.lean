import Rewind.Proofs.Controller.StepBack
import Rewind.Proofs.History.Acceptance
import Rewind.Proofs.History.Retention

/-! What a rollback goes to.

It looks at the newest node and at most at one more. Whatever has been done to the unit, cycles on
record fall from the newest to the oldest (`Simulation.Descending.through`), so what it finds is the
latest of the recorded cycles other than the present one (`Simulation.restore_goal`). That lies in
the past as long as the present has not come below what is on record, by being set back or by
starting again from zero (`Simulation.Ordered.through`); after that it may lie ahead. -/

namespace Rewind

/-! ### Answers -/

/-- The rollback goes to the latest of some cycles, or nowhere if there are none. -/
def Restored.IsLatest (cycles : List UInt64) : Restored → Prop
  | .to c => c ∈ cycles ∧ ∀ k ∈ cycles, k ≤ c
  | .nothing => cycles = []

/-- The latest of the other cycles is the latest of the past exactly if none lies ahead. -/
theorem Restored.IsLatest.past_iff {cycles : List UInt64} {present : UInt64} {what : Restored}
    (h : what.IsLatest (cycles.filter (· ≠ present))) :
    what.IsLatest (cycles.filter (· < present)) ↔ ∀ k ∈ cycles, k ≤ present := by
  constructor
  · intro hpast k hk
    by_cases hne : k = present
    · exact UInt64.le_of_eq hne
    have hother : k ∈ cycles.filter (· ≠ present) := List.mem_filter.mpr ⟨hk, decide_eq_true hne⟩
    cases what with
    | nothing => exact absurd (h ▸ hother) List.not_mem_nil
    | _ c =>
      have hc : c < present := of_decide_eq_true (List.mem_filter.mp hpast.1).2
      exact UInt64.le_trans (h.2 k hother) (UInt64.le_of_lt hc)
  · intro hall
    have hsame : cycles.filter (· < present) = cycles.filter (· ≠ present) := by
      refine List.filter_congr fun k hk => decide_eq_decide.mpr ?_
      exact ⟨UInt64.ne_of_lt, UInt64.lt_of_le_of_ne (hall k hk)⟩
    rwa [hsame]

/-! ### What is on record -/

/-- The goal is the newest node, or the one below that if the newest is of the present. -/
theorem History.target?_eq_some {h : History} {current : UInt64} {n : Node} {older : List Node}
    (htarget : h.target? current = some (n, older)) :
    n.cycle ≠ current ∧ h.nodes = n :: older ∨
      ∃ newest, newest.cycle = current ∧ h.nodes = newest :: n :: older := by
  rw [target?] at htarget
  split at htarget
  · cases htarget
  next newest rest hnodes =>
  split at htarget
  · next hcycle =>
    split at htarget
    · cases htarget
    · cases htarget
      exact .inr ⟨newest, hcycle, hnodes⟩
  · next hcycle =>
    cases htarget
    exact .inl ⟨hcycle, hnodes⟩

/-- Without a goal there is nothing on record but the present. -/
theorem History.cycle_of_target?_eq_none {h : History} {current : UInt64}
    (htarget : h.target? current = none) : ∀ m ∈ h.nodes, m.cycle = current := by
  rw [target?] at htarget
  split at htarget
  · next hnodes => exact hnodes ▸ List.forall_mem_nil _
  next newest rest hnodes =>
  split at htarget
  · next hcycle =>
    split at htarget
    · rw [hnodes]
      exact List.forall_mem_singleton.mpr hcycle
    · cases htarget
  · cases htarget

theorem Recorder.map_cycle_endJob (nodes : List Node) (i : Nat) (succeeds : Bool) :
    (nodes.modify i (endJob succeeds)).map Node.cycle = nodes.map Node.cycle := by
  induction nodes generalizing i with
  | nil => cases i <;> rfl
  | cons n nodes ih =>
    cases i with
    | zero =>
      rw [List.modify_zero_cons, List.map_cons, List.map_cons, endJob]
      split
      · rw [Node.cycle_settle]
      · rw [Node.cycle_finish]
    | succ i => rw [List.modify_succ_cons, List.map_cons, List.map_cons, ih]

namespace Simulation
variable {r : Recorder} {s t : Simulation} {n : Node} {older : List Node} {k : UInt64}

/-- The cycles on record, the oldest first. -/
def onRecord (s : Simulation) : List UInt64 := s.history.elim [] History.cycles

theorem nodes_of_history {history : History} (h : s.history = some history) :
    s.nodes = history.nodes := by
  rw [nodes, h]

theorem nodes_of_no_history (h : s.history = none) : s.nodes = [] := by
  rw [nodes, h]

theorem onRecord_eq (s : Simulation) : s.onRecord = (s.nodes.map Node.cycle).reverse := by
  rw [onRecord, nodes]
  cases s.history <;> rfl

theorem mem_onRecord : k ∈ s.onRecord ↔ ∃ n ∈ s.nodes, n.cycle = k := by
  rw [onRecord_eq, List.mem_reverse, List.mem_map]

theorem sublist_of_goal? (h : s.goal? = some (n, older)) : (n :: older).Sublist s.nodes := by
  obtain ⟨history, hhistory, htarget⟩ := Option.bind_eq_some_iff.mp h
  rw [nodes_of_history hhistory]
  rcases History.target?_eq_some htarget with ⟨-, hnodes⟩ | ⟨newest, -, hnodes⟩ <;> rw [hnodes]
  exact List.sublist_cons_self newest (n :: older)

theorem map_cycle_endJob (i : Nat) (succeeds : Bool) :
    (r.move s (.endJob i succeeds)).1.nodes.map Node.cycle = s.nodes.map Node.cycle := by
  obtain ⟨⟨context, root, cycle, history⟩, name, behaviors⟩ := s
  cases history with
  | none => rfl
  | some history => exact Recorder.map_cycle_endJob history.nodes i succeeds

/-- Cycles fall from the newest node to the oldest. -/
def Descending (s : Simulation) : Prop := (s.nodes.map Node.cycle).Pairwise (· > ·)

namespace Descending

theorem of_nodes_eq_nil (h : s.nodes = []) : s.Descending := by
  rw [Descending, h]
  exact .nil

theorem record (h : s.Descending) (hrecord : s.record r = .ok t) : t.Descending := by
  obtain ⟨bs, -, rfl⟩ := record_eq_ok hrecord
  have hhistory : (s.history.getD (.new r.maxDepth)).Descending := by
    cases hs : s.history with
    | none => exact .new r.maxDepth
    | some history =>
      rw [Descending, nodes_of_history hs, List.pairwise_map] at h
      exact h
  rw [Descending, nodes_of_history rfl, List.pairwise_map]
  exact hhistory.push (r.node s.cycle bs)

theorem restore {what : Restored} (h : s.Descending) (hrestore : s.restore r = .ok (t, what)) :
    t.Descending := by
  cases what with
  | nothing =>
    obtain ⟨-, rfl⟩ := restore_eq_nothing hrestore
    exact of_nodes_eq_nil (nodes_keeping_nil s)
  | _ cycle =>
    obtain ⟨n, older, root, hgoal, -, -, rfl⟩ := restore_eq_to hrestore
    have holder : older.Sublist s.nodes :=
      (List.sublist_cons_self n older).trans (sublist_of_goal? hgoal)
    show ((s.keeping older).nodes.map Node.cycle).Pairwise (· > ·)
    rw [nodes_keeping_of_goal? hgoal]
    exact List.Pairwise.sublist (holder.map Node.cycle) h

/-- Whatever is done to the unit, cycles on record keep falling. -/
theorem move (h : s.Descending) (r : Recorder) (x : Move) : (r.move s x).1.Descending := by
  cases x with
  | record =>
    rw [Recorder.move]
    cases hrecord : s.record r with
    | error e => exact h
    | ok t => exact h.record hrecord
  | restore =>
    rw [Recorder.move]
    cases hrestore : s.restore r with
    | error e => exact h
    | ok p => exact h.restore hrestore
  | step =>
    show (s.step.1.nodes.map Node.cycle).Pairwise (· > ·)
    rw [nodes_step]
    exact h
  | setCycle | edit => exact h
  | endJob i succeeds =>
    rw [Descending, map_cycle_endJob]
    exact h

end Descending

/-! ### Runs -/

/-- The unit after some moves, each with a recorder. -/
def through (s : Simulation) (xs : List (Recorder × Move)) : Simulation :=
  xs.foldl (fun s x => (x.1.move s x.2).1) s

theorem Descending.through (h : s.Descending) (xs : List (Recorder × Move)) :
    (s.through xs).Descending := by
  induction xs generalizing s with
  | nil => exact h
  | cons x xs ih => exact ih (h.move x.1 x.2)

/-- The cycle is not set back below one on record, and does not start again. -/
def Keeps (s : Simulation) : Move → Prop
  | .setCycle cycle => ∀ k ∈ s.onRecord, k ≤ cycle
  | .step => s.cycle ≤ s.step.1.cycle
  | _ => True

/-- Unless it is set back, the present stays ahead of what is on record. -/
theorem Ordered.move (h : s.Ordered) (r : Recorder) {x : Move} (hx : s.Keeps x) :
    (r.move s x).1.Ordered := by
  cases x with
  | record =>
    rw [Recorder.move]
    cases hrecord : s.record r with
    | error e => exact h
    | ok t => exact h.record hrecord
  | restore =>
    rw [Recorder.move]
    cases hrestore : s.restore r with
    | error e => exact h
    | ok p => exact h.restore hrestore
  | step => exact h.step hx
  | setCycle cycle => exact ⟨h.newestFirst, fun n hn => hx n.cycle (mem_onRecord.mpr ⟨n, hn, rfl⟩)⟩
  | edit => exact ⟨h.newestFirst, h.past⟩
  | endJob i succeeds =>
    have hcycles := map_cycle_endJob (r := r) (s := s) i succeeds
    refine ⟨?_, fun n hn => ?_⟩
    · have hfirst := h.newestFirst
      rw [← List.pairwise_map (f := Node.cycle) (R := (· > ·))] at hfirst ⊢
      rw [hcycles]
      exact hfirst
    · have hmem : n.cycle ∈ s.nodes.map Node.cycle := hcycles ▸ List.mem_map_of_mem hn
      obtain ⟨m, hm, hcycle⟩ := List.mem_map.mp hmem
      exact hcycle ▸ h.past m hm

theorem Ordered.through (h : s.Ordered) {xs : List (Recorder × Move)}
    (hxs : ∀ before r x later, xs = before ++ (r, x) :: later → (s.through before).Keeps x) :
    (s.through xs).Ordered := by
  induction xs generalizing s with
  | nil => exact h
  | cons x xs ih =>
    refine ih (h.move x.1 (hxs [] x.1 x.2 xs rfl)) fun before r y later heq => ?_
    exact hxs (x :: before) r y later (by rw [heq]; rfl)

/-! ### The goal of a rollback -/

theorem mem_onRecord_filter {p : UInt64 → Prop} [DecidablePred p] :
    k ∈ s.onRecord.filter (p ·) ↔ (∃ n ∈ s.nodes, n.cycle = k) ∧ p k := by
  rw [List.mem_filter, mem_onRecord, decide_eq_true_iff]

theorem isLatest_of_goal?_eq_none (h : s.goal? = none) :
    Restored.nothing.IsLatest (s.onRecord.filter (· ≠ s.cycle)) := by
  refine List.eq_nil_iff_forall_not_mem.mpr fun k hk => ?_
  obtain ⟨⟨n, hn, rfl⟩, hne⟩ := mem_onRecord_filter.mp hk
  cases hs : s.history with
  | none =>
    rw [nodes_of_no_history hs] at hn
    cases hn
  | some history =>
    rw [goal?, hs] at h
    rw [nodes_of_history hs] at hn
    exact hne (History.cycle_of_target?_eq_none h n hn)

theorem Descending.isLatest_of_goal? (h : s.Descending) (hgoal : s.goal? = some (n, older)) :
    (Restored.to n.cycle).IsLatest (s.onRecord.filter (· ≠ s.cycle)) := by
  obtain ⟨history, hhistory, htarget⟩ := Option.bind_eq_some_iff.mp hgoal
  rw [Descending, List.pairwise_map, nodes_of_history hhistory] at h
  simp only [Restored.IsLatest, mem_onRecord_filter, nodes_of_history hhistory]
  rcases History.target?_eq_some htarget with ⟨hne, hnodes⟩ | ⟨newest, hnewest, hnodes⟩ <;>
    rw [hnodes] at h ⊢
  · refine ⟨⟨⟨n, List.mem_cons_self, rfl⟩, hne⟩, ?_⟩
    rintro _ ⟨⟨m, hm, rfl⟩, -⟩
    rcases List.mem_cons.mp hm with rfl | hm
    · exact UInt64.le_refl _
    · exact UInt64.le_of_lt (List.rel_of_pairwise_cons h hm)
  · have hbelow : n.cycle < newest.cycle := List.rel_of_pairwise_cons h List.mem_cons_self
    refine ⟨⟨⟨n, List.mem_cons_of_mem _ List.mem_cons_self, rfl⟩,
      hnewest ▸ UInt64.ne_of_lt hbelow⟩, ?_⟩
    rintro _ ⟨⟨m, hm, rfl⟩, hne⟩
    rcases List.mem_cons.mp hm with rfl | hm
    · exact absurd hnewest hne
    rcases List.mem_cons.mp hm with rfl | hm
    · exact UInt64.le_refl _
    · exact UInt64.le_of_lt (List.rel_of_pairwise_cons (List.pairwise_cons.mp h).2 hm)

/-- The cycle that a rollback leaves behind. -/
def cycleAfter (s : Simulation) : Restored → UInt64
  | .to c => c
  | .nothing => s.cycle

theorem lt_cycleAfter_iff {what : Restored}
    (h : what.IsLatest (s.onRecord.filter (· ≠ s.cycle))) :
    s.cycle < s.cycleAfter what ↔ ∃ k ∈ s.onRecord, s.cycle < k := by
  constructor
  · intro hlt
    cases what with
    | nothing => exact absurd hlt (UInt64.lt_irrefl _)
    | _ c => exact ⟨c, List.mem_of_mem_filter h.1, hlt⟩
  · rintro ⟨k, hk, hlt⟩
    have hother : k ∈ s.onRecord.filter (· ≠ s.cycle) :=
      List.mem_filter.mpr ⟨hk, decide_eq_true (UInt64.ne_of_lt hlt).symm⟩
    cases what with
    | nothing => exact absurd (h ▸ hother) List.not_mem_nil
    | _ c => exact UInt64.lt_of_lt_of_le hlt (h.2 k hother)

/-- A rollback succeeds if all snapshots can be read, and goes to the latest of the other
cycles. -/
theorem Descending.restores (h : s.Descending)
    (hread : ∀ n ∈ s.nodes, ∃ root, r.tree s.context n = .ok root) :
    ∃ t what, s.restore r = .ok (t, what) ∧ t.cycle = s.cycleAfter what ∧
      what.IsLatest (s.onRecord.filter (· ≠ s.cycle)) := by
  rw [restore_eq]
  cases hgoal : s.goal? with
  | none => exact ⟨_, _, rfl, rfl, isLatest_of_goal?_eq_none hgoal⟩
  | some goal =>
    obtain ⟨n, older⟩ := goal
    obtain ⟨root, hroot⟩ := hread n ((sublist_of_goal? hgoal).subset List.mem_cons_self)
    simp only [hroot]
    exact ⟨_, _, rfl, rfl, h.isLatest_of_goal? hgoal⟩

end Simulation

namespace Sample

/-- Snapshots as they are written, as many as there are. -/
def plain : Recorder := StandardFormat.binary.recorder none none

/-- Records are made at cycles 0 and 5, and then the cycle is set. -/
def setTo (cycle : UInt64) : Simulation :=
  idle.through <| [.record, .setCycle 5, .record, .setCycle cycle].map fun x => (plain, x)

end Sample

namespace Simulation
variable {s : Simulation}

/-- Whatever has been done to a unit that began with nothing on record, a rollback goes to the
latest of the cycles on record other than the present. That is the latest of the past unless the
present has been set back below what is on record or has started again from zero, and otherwise it
lies ahead. -/
theorem restore_goal (hs : s.history = none) (xs : List (Recorder × Move)) (r : Recorder)
    (hread : ∀ n ∈ (s.through xs).nodes, ∃ root, r.tree (s.through xs).context n = .ok root) :
    let t := s.through xs
    ∃ u what, t.restore r = .ok (u, what) ∧ u.cycle = t.cycleAfter what ∧
      what.IsLatest (t.onRecord.filter (· ≠ t.cycle)) ∧
      (what.IsLatest (t.onRecord.filter (· < t.cycle)) ↔ ∀ k ∈ t.onRecord, k ≤ t.cycle) ∧
      (t.cycle < u.cycle ↔ ∃ k ∈ t.onRecord, t.cycle < k) ∧
      ((∀ before r x later, xs = before ++ (r, x) :: later → (s.through before).Keeps x) →
        ∀ k ∈ t.onRecord, k ≤ t.cycle) := by
  intro t
  have hnodes : s.nodes = [] := nodes_of_no_history hs
  obtain ⟨u, what, hrestore, hcycle, hlatest⟩ :=
    ((Descending.of_nodes_eq_nil hnodes).through xs).restores hread
  refine ⟨u, what, hrestore, hcycle, hlatest, hlatest.past_iff, ?_, fun hxs k hk => ?_⟩
  · rw [hcycle]
    exact lt_cycleAfter_iff hlatest
  · obtain ⟨n, hn, rfl⟩ := mem_onRecord.mp hk
    exact ((Ordered.of_nodes_eq_nil hnodes).through hxs).past n hn

theorem restore_goal_six : ∃ u what, (Sample.setTo 6).restore Sample.plain = .ok (u, what) ∧
    what.IsLatest [0, 5] ∧ u.cycle = (Sample.setTo 6).cycleAfter what := by
  obtain ⟨u, what, hrestore, hcycle, -, hpast, -⟩ := restore_goal (s := Sample.idle) rfl
    ([.record, .setCycle 5, .record, .setCycle 6].map fun x => (Sample.plain, x)) Sample.plain
    (readable_of_all (by decide +kernel))
  have honly : (Sample.setTo 6).onRecord.filter (· < (Sample.setTo 6).cycle) = [0, 5] := by
    decide +kernel
  have hpresent : (Sample.setTo 6).onRecord.all (· ≤ (Sample.setTo 6).cycle) = true := by
    decide +kernel
  have hlatest := hpast.mpr fun k hk => of_decide_eq_true (List.all_eq_true.mp hpresent k hk)
  exact ⟨u, what, hrestore, honly ▸ hlatest, hcycle⟩

/-- With 0 and 5 on record the present is set back to 2, and the rollback goes to 5. -/
theorem restore_goal_two :
    (∀ n ∈ (Sample.setTo 2).nodes, ∃ root,
        Sample.plain.tree (Sample.setTo 2).context n = .ok root) ∧
      (Sample.setTo 2).onRecord.filter (· < (Sample.setTo 2).cycle) = [0] ∧
      ∃ u, (Sample.setTo 2).restore Sample.plain = .ok (u, .to 5) ∧
        (Sample.setTo 2).cycle < u.cycle := by
  refine ⟨readable_of_all (by decide +kernel), by decide +kernel, ?_⟩
  have hgoal : ((Sample.setTo 2).goal?.map fun goal => goal.1.cycle) = some 5 := by decide +kernel
  obtain ⟨⟨n, older⟩, hgoal, hn⟩ := Option.map_eq_some_iff.mp hgoal
  have hn : n.cycle = 5 := hn
  have hread : ∀ m ∈ (Sample.setTo 2).nodes, ∃ root,
      Sample.plain.tree (Sample.setTo 2).context m = .ok root :=
    readable_of_all (by decide +kernel)
  obtain ⟨root, hroot⟩ := hread n ((sublist_of_goal? hgoal).subset List.mem_cons_self)
  rw [restore_eq, hgoal]
  simp only [hroot, hn]
  exact ⟨_, rfl, show (Sample.setTo 2).cycle < 5 by decide +kernel⟩

end Simulation
end Rewind
