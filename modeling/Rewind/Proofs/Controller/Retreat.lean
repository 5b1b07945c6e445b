import Rewind.Proofs.Controller.Round

/-! Rolling back, whatever comes of it.

A unit goes back along the nodes that it has on record (`Simulation.restore_eq`), and once it
has nothing to go back to it stays where it is (`Simulation.restore_of_nothing`).
One round rolls back all units or those before the first failure (`Controller.rolledBack`),
and `stepBack` and `restoreNow` are such rounds (`Controller.stepBackOnto_succ`,
`Controller.restoreNow_eq`). How often each unit has been rolled back is all there is to say
of the controller afterwards (`Controller.WoundBack`, `Controller.stepBackOnto_cases`). -/

namespace Rewind

/-! ### One unit -/

namespace Simulation

/-- What is on record, the newest first. -/
def nodes (s : Simulation) : List Node :=
  match s.history with
  | none => []
  | some h => h.nodes

/-- Other nodes in place of those on record. -/
def keeping (s : Simulation) (nodes : List Node) : Simulation :=
  { s with history := s.history.map fun h => { h with nodes } }

/-- What the next rollback goes to, and what is on record below that. -/
def goal? (s : Simulation) : Option (Node × List Node) := s.history.bind (·.target? s.cycle)

@[simp] theorem nodes_keeping_nil (s : Simulation) : (s.keeping []).nodes = [] := by
  rw [nodes, keeping]
  cases s.history <;> rfl

theorem nodes_keeping_of_goal? {s : Simulation} {n : Node} {older : List Node}
    (h : s.goal? = some (n, older)) : (s.keeping older).nodes = older := by
  obtain ⟨history, hhistory, -⟩ := Option.bind_eq_some_iff.mp h
  rw [nodes, keeping, hhistory]
  rfl

theorem restore_eq (r : Recorder) (s : Simulation) :
    s.restore r =
      match s.goal? with
      | none => .ok (s.keeping [], .nothing)
      | some (n, older) =>
        match r.tree s.context n with
        | .error e => .error e
        | .ok root => .ok ({ s.keeping older with root, cycle := n.cycle }, .to n.cycle) := by
  obtain ⟨⟨context, root, cycle, history⟩, name, behaviors⟩ := s
  cases history with
  | none => rfl
  | some h =>
    simp only [restore, Recorder.restore, goal?, Option.bind_some]
    cases h.target? cycle with
    | none => rfl
    | some target =>
      obtain ⟨n, older⟩ := target
      simp only
      cases r.tree context n <;> rfl

section
variable {r : Recorder} {s t : Simulation}

theorem restore_eq_nothing (h : s.restore r = .ok (t, .nothing)) :
    s.goal? = none ∧ t = s.keeping [] := by
  rw [restore_eq] at h
  split at h
  · next hgoal => exact ⟨hgoal, (Prod.mk.inj (Except.ok.inj h)).1.symm⟩
  · split at h
    · cases h
    · cases (Prod.mk.inj (Except.ok.inj h)).2

theorem restore_eq_to {cycle : UInt64} (h : s.restore r = .ok (t, .to cycle)) :
    ∃ n older root, s.goal? = some (n, older) ∧ r.tree s.context n = .ok root ∧ cycle = n.cycle ∧
      t = { s.keeping older with root, cycle := n.cycle } := by
  rw [restore_eq] at h
  split at h
  · cases (Prod.mk.inj (Except.ok.inj h)).2
  · next n older hgoal =>
    split at h
    · cases h
    · next root hroot =>
      obtain ⟨rfl, hcycle⟩ := Prod.mk.inj (Except.ok.inj h)
      exact ⟨n, older, root, hgoal, hroot, (Restored.to.inj hcycle).symm, rfl⟩

theorem record_eq_ok (h : s.record r = .ok t) :
    ∃ bs, r.format.encodeTree s.root s.cycle = .ok bs ∧
      t = { s with
        history := some ((s.history.getD (.new r.maxDepth)).push (r.node s.cycle bs)) } := by
  rw [record, Recorder.record] at h
  split at h
  · cases h
  · next bs hbs => exact ⟨bs, hbs, (Except.ok.inj h).symm⟩

end

/-- The unit after a rollback, which leaves it as it was if it fails. -/
def rolledBack (r : Recorder) (s : Simulation) : Simulation := s.moved (restore · r)

/-- The unit after so many rollbacks. -/
def rewind (r : Recorder) (j : Nat) (s : Simulation) : Simulation := (rolledBack r)^[j] s

/-- The unit has something to go back to, and it can be read. -/
def GoesBack (r : Recorder) (s : Simulation) : Prop := ∃ t cycle, s.restore r = .ok (t, .to cycle)

section
variable {r : Recorder} {s t : Simulation} {j : Nat}

theorem rewind_succ : s.rewind r (j + 1) = (s.rolledBack r).rewind r j := rfl

theorem rewind_succ' : s.rewind r (j + 1) = (s.rewind r j).rolledBack r :=
  Function.iterate_succ_apply' _ j s

theorem rolledBack_of_ok {a : Restored} (h : s.restore r = .ok (t, a)) : s.rolledBack r = t :=
  moved_of_ok h

theorem goal?_keeping_nil : (s.keeping []).goal? = none := by
  rw [goal?, keeping]
  cases s.history <;> rfl

/-- Once there is nothing to go back to, there is nothing to go back to any more. -/
theorem restore_of_nothing (h : s.restore r = .ok (t, .nothing)) :
    t.restore r = .ok (t, .nothing) := by
  obtain ⟨-, rfl⟩ := restore_eq_nothing h
  rw [restore_eq, goal?_keeping_nil]
  refine congrArg (fun t => Except.ok (t, Restored.nothing)) ?_
  rw [keeping, keeping]
  cases s.history <;> rfl

theorem rewind_of_nothing (h : s.restore r = .ok (t, .nothing)) : s.rewind r (j + 1) = t := by
  induction j generalizing s with
  | zero => exact rolledBack_of_ok h
  | succ j ih => rw [rewind_succ, rolledBack_of_ok h, ih (restore_of_nothing h)]

theorem goesBack_of_goesBack_rolledBack (h : (s.rolledBack r).GoesBack r) : s.GoesBack r := by
  obtain ⟨t, cycle, h⟩ := h
  rcases hs : s.restore r with e | ⟨t', cycle' | _⟩
  · rw [rolledBack, moved, hs, hs] at h
    cases h
  · exact ⟨t', _, hs⟩
  · rw [rolledBack_of_ok hs, restore_of_nothing hs] at h
    cases h

end
end Simulation

/-! ### One round -/

theorem mem_goals {answers : List (UnitId × Restored)} {unit : UnitId} :
    unit ∈ (goals answers).map Prod.fst ↔ ∃ cycle, .to cycle ∈ said unit answers := by
  simp only [mem_said, goals, List.mem_map, List.mem_filterMap, Prod.exists]
  constructor
  · rintro ⟨u, cycle, ⟨u', a, ha, hsome⟩, rfl⟩
    cases a with
    | nothing => cases hsome
    | _ cycle' =>
      obtain ⟨rfl, rfl⟩ := Prod.mk.inj (Option.some.inj hsome)
      exact ⟨_, ha⟩
  · rintro ⟨cycle, h⟩
    exact ⟨unit, cycle, ⟨unit, _, h, rfl⟩, rfl⟩

namespace Controller

/-- The pass over all units that rolls each of them back once. -/
def rollback (c : Controller) : Sweep Restored := Team.restore c.recorder c.units.entries

/-- The controller after that pass. -/
def rolledBack (c : Controller) : Controller :=
  { c with
    units := ⟨c.rollback.team⟩
    scheduler := c.scheduler.registerAll ((goals c.rollback.answers).map Prod.fst) }

section
variable {c : Controller}

theorem restoreEach_keys (h : c.units.keys.Nodup) :
    c.restoreEach [] c.units.keys =
      ⟨c.rolledBack, [], c.rollback.result.map fun _ => c.rollback.answers⟩ :=
  restoreEach_eq [] rfl h []

theorem restoreNow_eq (h : c.units.keys.Nodup) :
    c.restoreNow = ⟨c.rolledBack, [], c.rollback.result.map fun _ => c.rollback.answers⟩ :=
  restoreEach_keys h

/-- A rollback of all units ends with an error, finds nothing to go back to, or is followed by
the rollbacks still to come. -/
theorem stepBackOnto_succ (h : c.units.keys.Nodup) (report : StepReport) (n : Nat) :
    c.stepBackOnto report (n + 1) =
      match c.rollback.failure with
      | some (unit, e) => ⟨c.rolledBack, [], .error (.ofHistory unit e)⟩
      | none =>
        if goals c.rollback.answers = [] then ⟨c.rolledBack, [], .ok report⟩
        else c.rolledBack.stepBackOnto
          { report with
            rounds := report.rounds + 1
            restored := report.restored ++ goals c.rollback.answers } n := by
  have hround : c.backEach [] c.units.keys =
      ⟨c.rolledBack, [], c.rollback.result.map fun _ => goals c.rollback.answers⟩ := by
    have hback := c.backEach_eq [] c.units.keys
    rw [restoreEach_keys h] at hback
    refine hback.trans ?_
    cases c.rollback.result <;> rfl
  rw [stepBackOnto, hround, Sweep.result]
  rcases c.rollback.failure with _ | ⟨unit, e⟩
  · cases goals c.rollback.answers <;> rfl
  · rfl

theorem keys_rolledBack (c : Controller) : c.rolledBack.units.keys = c.units.keys :=
  Team.keys_sweep _ _

theorem mem_scheduled_rolledBack {v : UnitId} :
    v ∈ c.rolledBack.scheduled ↔
      v ∈ c.scheduled ∨ ∃ cycle, .to cycle ∈ said v c.rollback.answers := by
  rw [← mem_goals]
  exact Scheduler.mem_units_registerAll

theorem InService.rolledBack (h : c.InService) : c.rolledBack.InService := by
  have hkeys := keys_rolledBack c
  refine ⟨(Scheduler.disposed_registerAll _).trans h.live, h.schedule.registerAll _,
    hkeys ▸ h.nodup, fun u hu => ?_, hkeys ▸ h.numbered⟩
  rw [hkeys]
  rcases mem_scheduled_rolledBack.mp hu with hu | ⟨cycle, hu⟩
  · exact h.held u hu
  · rcases Team.sweep_turn (Simulation.restore · c.recorder) h.nodup u with
      ⟨-, hnone⟩ | ⟨s, -, -, hs, -⟩
    · rw [rollback, Team.restore, hnone] at hu
      cases hu
    · exact Table.mem_keys_iff.mpr ⟨s, hs⟩

end

/-! ### Rounds -/

/-- Every unit has been rolled back so many times, and those that went back are scheduled. -/
structure WoundBack (c : Controller) (turns : UnitId → Nat) (c' : Controller) : Prop where
  units : c'.units = ⟨c.units.entries.map fun u => (u.1, u.2.rewind c.recorder (turns u.1))⟩
  recorder : c'.recorder = c.recorder
  scheduled : ∀ v, v ∈ c'.scheduled ↔
    v ∈ c.scheduled ∨ ∃ s, c.units.get? v = some s ∧ 0 < turns v ∧ s.GoesBack c.recorder

namespace WoundBack
variable {c c₁ c₂ : Controller} {turns : UnitId → Nat}

theorem get? (h : WoundBack c turns c₁) (v : UnitId) :
    c₁.units.get? v = (c.units.get? v).map (·.rewind c.recorder (turns v)) := by
  rw [h.units]
  exact Table.find_map (fun v s => s.rewind c.recorder (turns v)) c.units.entries

theorem after_one (h₁ : WoundBack c (fun _ => 1) c₁) (h₂ : WoundBack c₁ turns c₂) :
    WoundBack c (fun v => turns v + 1) c₂ := by
  refine ⟨?_, h₂.recorder.trans h₁.recorder, fun v => ?_⟩
  · rw [h₂.units, h₁.units, h₁.recorder, List.map_map]
    rfl
  · rw [h₂.scheduled, h₁.scheduled, h₁.get?, h₁.recorder]
    constructor
    · rintro ((hv | ⟨s, hs, -, hback⟩) | ⟨t, ht, -, hback⟩)
      · exact .inl hv
      · exact .inr ⟨s, hs, Nat.succ_pos _, hback⟩
      · obtain ⟨s, hs, rfl⟩ := Option.map_eq_some_iff.mp ht
        exact .inr ⟨s, hs, Nat.succ_pos _, Simulation.goesBack_of_goesBack_rolledBack hback⟩
    · rintro (hv | ⟨s, hs, -, hback⟩)
      · exact .inl (.inl hv)
      · exact .inl (.inr ⟨s, hs, Nat.one_pos, hback⟩)

theorem congr {turns' : UnitId → Nat} (h : WoundBack c turns c₁)
    (hturns : ∀ v ∈ c.units.keys, turns v = turns' v) : WoundBack c turns' c₁ := by
  refine ⟨h.units.trans ?_, h.recorder, fun v => (h.scheduled v).trans (or_congr_right ?_)⟩
  · refine congrArg Table.mk (List.map_congr_left fun u hu => ?_)
    rw [hturns u.1 (List.mem_map_of_mem hu)]
  · refine exists_congr fun s => and_congr_right fun hs => ?_
    rw [hturns v (Table.mem_keys_iff.mpr ⟨s, hs⟩)]

/-- Where no unit found anything to go back to, more rollbacks change nothing. -/
theorem of_nothing (h : WoundBack c (fun _ => 1) c₁)
    (hnothing : ∀ u ∈ c.units.entries, ∃ t, u.2.restore c.recorder = .ok (t, .nothing)) (n : Nat) :
    WoundBack c (fun _ => n + 1) c₁ := by
  refine ⟨h.units.trans ?_, h.recorder, fun v => ?_⟩
  · refine congrArg Table.mk (List.map_congr_left fun u hu => ?_)
    obtain ⟨t, ht⟩ := hnothing u hu
    rw [Simulation.rewind_of_nothing ht, Simulation.rewind_of_nothing ht]
  · simp only [h.scheduled, Nat.succ_pos]

end WoundBack

section
variable {c : Controller}

/-- A rollback of all units reaches all of them, or those before the one where it fails. -/
theorem rolledBack_cases (h : c.units.keys.Nodup) :
    ∃ gone rest : Team, c.units.entries = gone ++ rest ∧
      (∀ u ∈ gone, ∃ p, u.2.restore c.recorder = .ok p) ∧
      (∀ v, v ∈ (goals c.rollback.answers).map Prod.fst ↔
        ∃ s, (v, s) ∈ gone ∧ s.GoesBack c.recorder) ∧
      c.WoundBack (fun v => if v ∈ gone.map Prod.fst then 1 else 0) c.rolledBack ∧
      (c.rollback.failure = none ∧ rest = [] ∨
        ∃ unit s later e, rest = (unit, s) :: later ∧ s.restore c.recorder = .error e ∧
          c.rollback.failure = some (unit, e)) := by
  obtain ⟨gone, rest, hentries, hgone, hteam, hanswers, hend⟩ :=
    Team.sweep_split (Simulation.restore · c.recorder) c.units.entries
  have hrest : ∀ u ∈ rest, u.1 ∉ gone.map Prod.fst := by
    intro u hu hmem
    have hnodup : ((gone ++ rest).map Prod.fst).Nodup := hentries ▸ h
    rw [List.map_append] at hnodup
    exact (List.nodup_append.mp hnodup).2.2 _ hmem _ (List.mem_map_of_mem hu) rfl
  have hgoals : ∀ v, v ∈ (goals c.rollback.answers).map Prod.fst ↔
      ∃ s, (v, s) ∈ gone ∧ s.GoesBack c.recorder := by
    intro v
    rw [rollback, Team.restore, hanswers, mem_goals]
    simp only [mem_said, List.mem_filterMap, Option.map_eq_some_iff, Simulation.answer?_eq_some]
    constructor
    · rintro ⟨cycle, ⟨u, s⟩, hu, _, ⟨t, ht⟩, hpair⟩
      obtain ⟨rfl, rfl⟩ := Prod.mk.inj hpair
      exact ⟨s, hu, t, cycle, ht⟩
    · rintro ⟨s, hu, t, cycle, ht⟩
      exact ⟨cycle, (v, s), hu, _, ⟨t, ht⟩, rfl⟩
  refine ⟨gone, rest, hentries, hgone, hgoals, ⟨?_, rfl, fun v => ?_⟩, hend⟩
  · refine congrArg Table.mk (hteam.trans ?_)
    rw [hentries, List.map_append]
    congr 1
    · refine List.map_congr_left fun u hu => ?_
      rw [if_pos (List.mem_map_of_mem hu)]
      rfl
    · refine (List.map_id' rest).symm.trans (List.map_congr_left fun u hu => ?_)
      rw [if_neg (hrest u hu)]
      rfl
  · have hmem (s : Simulation) : (v, s) ∈ gone ↔
        c.units.get? v = some s ∧ 0 < if v ∈ gone.map Prod.fst then 1 else 0 := by
      constructor
      · intro hs
        rw [if_pos (List.mem_map_of_mem hs)]
        exact ⟨Table.get?_of_mem h (hentries ▸ List.mem_append_left _ hs), Nat.one_pos⟩
      · rintro ⟨hs, hturn⟩
        refine (List.mem_append.mp (hentries ▸ Table.mem_of_get? hs)).resolve_right fun hs => ?_
        rw [if_neg (hrest _ hs)] at hturn
        cases hturn
    rw [mem_scheduled_rolledBack, ← mem_goals, hgoals]
    simp only [hmem, and_assoc]

/-- Rolling back so many times does that to every unit, or it fails at a unit in one of the
rounds, when some unit went back in each round before. Then the units before the one that
fails have had their turn in that round, and the others have not. -/
theorem stepBackOnto_cases (h : c.units.keys.Nodup) (report : StepReport) (n : Nat) :
    (∃ report', (c.stepBackOnto report n).result = .ok report' ∧
      c.WoundBack (fun _ => n) (c.stepBackOnto report n).controller) ∨
    ∃ j < n, (∀ i < j, ∃ u ∈ c.units.entries, (u.2.rewind c.recorder i).GoesBack c.recorder) ∧
      ∃ gone unit s later e, c.units.entries = gone ++ (unit, s) :: later ∧
      (∀ u ∈ gone, ∃ p, (u.2.rewind c.recorder j).restore c.recorder = .ok p) ∧
      (s.rewind c.recorder j).restore c.recorder = .error e ∧
      (c.stepBackOnto report n).result = .error (.ofHistory unit e) ∧
      c.WoundBack (fun v => if v ∈ gone.map Prod.fst then j + 1 else j)
        (c.stepBackOnto report n).controller := by
  induction n generalizing c report with
  | zero =>
    refine .inl ⟨report, rfl, ?_, rfl, fun v => ?_⟩
    · exact congrArg Table.mk (List.map_id' _).symm
    · simp [stepBackOnto]
  | succ n ih =>
    obtain ⟨gone, rest, hentries, hgone, hgoals, hwound, hend⟩ := rolledBack_cases h
    rw [stepBackOnto_succ h]
    rcases hend with ⟨hnone, rfl⟩ | ⟨unit, s, later, e, rfl, he, hsome⟩
    · rw [List.append_nil] at hentries
      have hall : c.WoundBack (fun _ => 1) c.rolledBack :=
        hwound.congr fun v hv => if_pos (hentries ▸ hv)
      rw [hnone]
      by_cases hnothing : goals c.rollback.answers = []
      · simp only [if_pos hnothing]
        refine .inl ⟨report, rfl, hall.of_nothing (fun u hu => ?_) n⟩
        obtain ⟨⟨t, cycle | _⟩, ht⟩ := hgone u (hentries ▸ hu)
        · have hmem := (hgoals u.1).mpr ⟨u.2, hentries ▸ hu, t, _, ht⟩
          rw [hnothing] at hmem
          cases hmem
        · exact ⟨t, ht⟩
      · simp only [if_neg hnothing]
        rcases ih (c := c.rolledBack) (keys_rolledBack c ▸ h) _ with
          ⟨report', hok, hwound'⟩ |
          ⟨j, hj, hback, gone', unit, s', later, e, hentries', hgone', he, hresult, hwound'⟩
        · exact .inl ⟨report', hok, hall.after_one hwound'⟩
        · -- The units of the round that fails, one rollback earlier.
          have hunits : c.rolledBack.units.entries =
              c.units.entries.map fun u => (u.1, u.2.rewind c.recorder 1) :=
            congrArg Table.entries hall.units
          obtain ⟨gone₀, rest₀, hsplit, rfl, hrest₀⟩ :=
            List.map_eq_append_iff.mp (hunits.symm.trans hentries')
          obtain ⟨⟨u₀, s₀⟩, later₀, rfl, hpair, rfl⟩ := List.map_eq_cons_iff.mp hrest₀
          obtain ⟨rfl, rfl⟩ := Prod.mk.inj hpair
          have hkeys : (gone₀.map fun u => (u.1, u.2.rewind c.recorder 1)).map Prod.fst =
              gone₀.map Prod.fst := by
            rw [List.map_map]
            rfl
          refine .inr ⟨j + 1, Nat.succ_lt_succ hj, fun i hi => ?_, gone₀, u₀, s₀, later₀, e, hsplit,
            fun u hu => ?_, he, hresult, ?_⟩
          · cases i with
            | zero =>
              obtain ⟨v, hv⟩ := List.exists_mem_of_ne_nil _ hnothing
              obtain ⟨s, hs, hback⟩ := (hgoals v.1).mp (List.mem_map_of_mem hv)
              exact ⟨(v.1, s), hentries ▸ hs, hback⟩
            | succ i =>
              obtain ⟨v, hv, hback⟩ := hback i (Nat.lt_of_succ_lt_succ hi)
              obtain ⟨u, hu, rfl⟩ := List.mem_map.mp (hunits ▸ hv)
              exact ⟨u, hu, hback⟩
          · exact hgone' _ (List.mem_map_of_mem hu)
          · refine (hall.after_one hwound').congr fun v _ => ?_
            rw [hkeys]
            split <;> rfl
    · rw [hsome]
      exact .inr ⟨0, Nat.succ_pos _, fun i hi => absurd hi i.not_lt_zero, gone, unit, s, later, e,
        hentries, hgone, he, rfl, hwound⟩

end

end Controller
end Rewind
