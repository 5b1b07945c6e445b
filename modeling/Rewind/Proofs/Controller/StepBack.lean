import Rewind.Proofs.Controller.Life

/-! How far units go back.

The cycles on record of a unit grow up to its present, whatever has happened to it
(`Simulation.Ordered`, `Controller.ordered_run`). So its way back is the list of the nodes
below the present, one after the other (`Simulation.below`, `Simulation.Recoverable.rewind`),
and a controller rolls its units back until the longest of these ways is at its end
(`Controller.result_stepBackOnto`, `Controller.stepBack_run`). -/

namespace Rewind

/-! ### Cycles on record -/

theorem History.keep_sublist {α : Type} (limit : Option Nat) (as : List α) :
    (keep limit as).Sublist as := by
  cases limit with
  | none => exact List.Sublist.refl as
  | some n => exact List.take_sublist n as

namespace Simulation

/-- The cycles on record grow up to the present. -/
structure Ordered (s : Simulation) : Prop where
  newestFirst : s.nodes.Pairwise fun m n => n.cycle < m.cycle
  past : ∀ n ∈ s.nodes, n.cycle ≤ s.cycle

/-- What is on record from before the present, the newest first. -/
def below (s : Simulation) : List Node := s.nodes.filter fun n => n.cycle < s.cycle

theorem nodes_step (s : Simulation) : s.step.1.nodes = s.nodes := by
  rw [step_eq]
  rfl

namespace Ordered
variable {r : Recorder} {s t : Simulation}

theorem of_nodes_eq_nil (h : s.nodes = []) : s.Ordered := by
  refine ⟨?_, ?_⟩ <;> rw [h]
  · exact .nil
  · exact List.forall_mem_nil _

theorem step (h : s.Ordered) (hcycle : s.cycle ≤ s.step.1.cycle) : s.step.1.Ordered := by
  refine ⟨?_, fun n hn => ?_⟩
  · rw [nodes_step]
    exact h.newestFirst
  · rw [nodes_step] at hn
    exact UInt64.le_trans (h.past n hn) hcycle

/-- The present goes on top of what is from before it. -/
theorem nodes_record (h : s.Ordered) (hrecord : s.record r = .ok t) :
    ∃ bs, r.format.encodeTree s.root s.cycle = .ok bs ∧
      t.nodes = History.keep (s.history.getD (.new r.maxDepth)).maxDepth
        (r.node s.cycle bs :: s.below) := by
  obtain ⟨bs, hencode, rfl⟩ := record_eq_ok hrecord
  have hnodes : (s.history.getD (.new r.maxDepth)).nodes = s.nodes := by
    rw [nodes]
    cases s.history <;> rfl
  refine ⟨bs, hencode, ?_⟩
  show ((s.history.getD (.new r.maxDepth)).push (r.node s.cycle bs)).nodes = _
  rw [History.push, hnodes, r.cycle_node, dropWhile_eq_filter s.cycle h.newestFirst]
  rfl

theorem record (h : s.Ordered) (hrecord : s.record r = .ok t) : t.Ordered := by
  obtain ⟨bs, -, hnodes⟩ := h.nodes_record hrecord
  obtain ⟨_, -, rfl⟩ := record_eq_ok hrecord
  have hcycle : (r.node s.cycle bs).cycle = s.cycle := r.cycle_node _ _
  have hsublist := History.keep_sublist (s.history.getD (.new r.maxDepth)).maxDepth
    (r.node s.cycle bs :: s.below)
  refine ⟨?_, fun n hn => ?_⟩
  · rw [hnodes]
    refine List.Pairwise.sublist hsublist (List.pairwise_cons.mpr ⟨fun n hn => ?_, ?_⟩)
    · rw [hcycle]
      exact of_decide_eq_true (List.mem_filter.mp hn).2
    · exact h.newestFirst.filter _
  · rw [hnodes] at hn
    rcases List.mem_cons.mp (hsublist.subset hn) with rfl | hn
    · exact UInt64.le_of_eq hcycle
    · exact h.past n (List.mem_of_mem_filter hn)

theorem goal?_eq (h : s.Ordered) :
    s.goal? = match s.below with
      | [] => none
      | n :: ns => some (n, ns) := by
  obtain ⟨⟨context, root, cycle, history⟩, name, behaviors⟩ := s
  cases history with
  | none => rfl
  | some history =>
    obtain ⟨nodes, maxDepth⟩ := history
    cases nodes with
    | nil => rfl
    | cons n ns =>
      have hfirst : n.cycle ≤ cycle := h.past n List.mem_cons_self
      have hns : ∀ m ∈ ns, m.cycle < n.cycle := (List.pairwise_cons.mp h.newestFirst).1
      have hbelow : ns.filter (fun m => m.cycle < cycle) = ns :=
        List.filter_eq_self.mpr fun m hm =>
          decide_eq_true (UInt64.lt_of_lt_of_le (hns m hm) hfirst)
      show (if n.cycle = cycle then _ else _) =
        match (n :: ns).filter (fun m => m.cycle < cycle) with
        | [] => none
        | n :: ns => some (n, ns)
      by_cases hn : n.cycle = cycle
      · have hfilter : (n :: ns).filter (fun m => m.cycle < cycle) = ns :=
          (List.filter_cons_of_neg (by simp [hn])).trans hbelow
        generalize (n :: ns).filter (fun m => m.cycle < cycle) = kept at hfilter ⊢
        subst hfilter
        exact (if_pos hn).trans (by cases kept <;> rfl)
      · have hlt : decide (n.cycle < cycle) = true :=
          decide_eq_true (UInt64.lt_of_le_of_ne hfirst hn)
        rw [if_neg hn, List.filter_cons_of_pos (by exact hlt), hbelow]

theorem restore {what : Restored} (h : s.Ordered) (hrestore : s.restore r = .ok (t, what)) :
    t.Ordered := by
  cases what with
  | nothing =>
    obtain ⟨-, rfl⟩ := restore_eq_nothing hrestore
    exact of_nodes_eq_nil (nodes_keeping_nil s)
  | _ cycle =>
    obtain ⟨n, older, root, hgoal, -, -, rfl⟩ := restore_eq_to hrestore
    have hbelow : (n :: older).Pairwise fun m n => n.cycle < m.cycle := by
      have hpairwise : s.below.Pairwise fun m n => n.cycle < m.cycle := h.newestFirst.filter _
      rw [h.goal?_eq] at hgoal
      split at hgoal
      · cases hgoal
      · next hs =>
        obtain ⟨rfl, rfl⟩ := Prod.mk.inj (Option.some.inj hgoal)
        exact hs ▸ hpairwise
    obtain ⟨hn, holder⟩ := List.pairwise_cons.mp hbelow
    have hnodes : Simulation.nodes { s.keeping older with root, cycle := n.cycle } = older :=
      nodes_keeping_of_goal? hgoal
    refine ⟨?_, ?_⟩ <;> rw [hnodes]
    · exact holder
    · exact fun m hm => UInt64.le_of_lt (hn m hm)

/-- The cycles on record, the oldest first. -/
theorem cycles (h : s.Ordered) {history : History} (hhistory : s.history = some history) :
    history.cycles.Pairwise (· < ·) ∧ ∀ k ∈ history.cycles, k ≤ s.cycle := by
  have hnodes : s.nodes = history.nodes := by rw [nodes, hhistory]
  obtain ⟨hnewest, hpast⟩ := h
  rw [hnodes] at hnewest hpast
  refine ⟨?_, fun k hk => ?_⟩
  · rw [History.cycles, List.pairwise_reverse, List.pairwise_map]
    exact hnewest
  · obtain ⟨m, hm, rfl⟩ := List.mem_map.mp (List.mem_reverse.mp hk)
    exact hpast m hm

end Ordered
end Simulation

/-- A step that completes its cycle has another one after it. -/
def Event.InRange : Event → Prop
  | stepped cycle .running | stepped cycle .halted => cycle < cycle + 1
  | _ => True

instance : DecidablePred Event.InRange
  | .stepped cycle .running => inferInstanceAs (Decidable (cycle < cycle + 1))
  | .stepped cycle .halted => inferInstanceAs (Decidable (cycle < cycle + 1))
  | .stepped _ (.failed _) | .stepped _ (.panicked _) => .isTrue trivial
  | .added _ | .removed | .recorded | .restored _ => .isTrue trivial

theorem Simulation.cycle_le_step {s : Simulation}
    (h : (Event.stepped s.cycle s.step.2).InRange) : s.cycle ≤ s.step.1.cycle := by
  rw [step] at h ⊢
  split at h
  · exact UInt64.le_of_lt h
  · exact UInt64.le_of_lt h
  · exact UInt64.le_refl _

/-- Whatever happens to a unit that was added with nothing on record, its cycles grow as long as
they do not start again. -/
theorem Life.ordered {r : Recorder} {seat : Option Seat} {es : List Event}
    (h : Life r none es seat) (hfresh : ∀ s, .added s ∈ es → s.history = none)
    (hrange : ∀ e ∈ es, e.InRange) : ∀ t ∈ seat, t.sim.Ordered := by
  refine h.keeps (P := fun seat => ∀ t ∈ seat, t.sim.Ordered)
    (fun e he seat seat' hleads hseat t ht => ?_) (fun t ht => by cases ht)
  cases hleads with
  | added s =>
    obtain rfl := Option.some.inj ht
    refine .of_nodes_eq_nil ?_
    rw [Simulation.nodes, hfresh s he]
  | removed => cases ht
  | stepped s =>
    obtain rfl := Option.some.inj ht
    exact (hseat _ rfl).step (Simulation.cycle_le_step (hrange _ he))
  | recorded hrecord =>
    obtain rfl := Option.some.inj ht
    exact (hseat _ rfl).record hrecord
  | wentBack hrestore =>
    obtain rfl := Option.some.inj ht
    exact (hseat _ rfl).restore hrestore
  | foundNothing hrestore =>
    obtain rfl := Option.some.inj ht
    exact (hseat _ rfl).restore hrestore

theorem Controller.ordered_run (settings : Settings) (formats : FormatTable) {calls : List Call}
    (hfresh : ∀ s, .add s ∈ calls → s.history = none)
    (hrange : ∀ e ∈ (ofSettings settings formats).log calls, e.2.InRange) {u : UnitId}
    {s : Simulation} (hs : ((ofSettings settings formats).run calls).units.get? u = some s) :
    s.Ordered := by
  have hlife := ((inService_ofSettings settings formats).lives_run calls).lives u
  rw [seat_of_get? hs] at hlife
  refine hlife.ordered (fun t ht => ?_) (fun e he => hrange _ (mem_said.mp he)) _ rfl
  obtain ⟨call, hcall, hcause⟩ := causes_log _ _ _ (mem_said.mp ht)
  cases hcause
  exact hfresh t hcall

/-! ### The way back -/

namespace Simulation

/-- All that is on record can be read. -/
structure Recoverable (r : Recorder) (s : Simulation) : Prop extends s.Ordered where
  readable : ∀ n ∈ s.nodes, ∃ root, r.tree s.context n = .ok root

theorem readable_of_all {r : Recorder} {s : Simulation}
    (h : s.nodes.all fun n => (r.tree s.context n).isOk) :
    ∀ n ∈ s.nodes, ∃ root, r.tree s.context n = .ok root := by
  intro n hn
  have hn : (r.tree s.context n).isOk = true := List.all_eq_true.mp h n hn
  cases htree : r.tree s.context n with
  | error e =>
    rw [htree] at hn
    cases hn
  | ok root => exact ⟨root, rfl⟩

/-- A unit that has gone over some nodes is where the last of them says. -/
def Landed (r : Recorder) (s : Simulation) (nodes : List Node) (t : Simulation) : Prop :=
  match nodes.getLast? with
  | none => t.root = s.root ∧ t.cycle = s.cycle
  | some n => r.tree s.context n = .ok t.root ∧ t.cycle = n.cycle

/-- A unit that has gone back over so many nodes, or over all that there were. -/
structure Retreated (r : Recorder) (s : Simulation) (j : Nat) (t : Simulation) : Prop where
  recoverable : t.Recoverable r
  context : t.context = s.context
  below : t.below = s.below.drop j
  landed : s.Landed r (s.below.take j) t

namespace Recoverable
variable {r : Recorder} {s t : Simulation}

theorem restore (h : s.Recoverable r) :
    match s.below with
    | [] => s.restore r = .ok (s.keeping [], .nothing)
    | n :: ns => ∃ root, r.tree s.context n = .ok root ∧
        s.restore r = .ok ({ s.keeping ns with root, cycle := n.cycle }, .to n.cycle) := by
  rw [restore_eq, h.goal?_eq]
  cases hbelow : s.below with
  | nil => rfl
  | cons n ns =>
    have hn : n ∈ s.nodes := List.mem_of_mem_filter (hbelow ▸ List.mem_cons_self)
    obtain ⟨root, hroot⟩ := h.readable n hn
    simp only [hroot]
    exact ⟨root, rfl, rfl⟩

theorem restore_ok (h : s.Recoverable r) : ∃ p, s.restore r = .ok p := by
  have hrestore := h.restore
  split at hrestore
  · exact ⟨_, hrestore⟩
  · obtain ⟨root, -, hrestore⟩ := hrestore
    exact ⟨_, hrestore⟩

theorem nodes_rolledBack (h : s.Recoverable r) : (s.rolledBack r).nodes = s.below.tail := by
  have hrestore := h.restore
  cases hbelow : s.below with
  | nil =>
    rw [hbelow] at hrestore
    rw [rolledBack_of_ok hrestore]
    exact nodes_keeping_nil s
  | cons n ns =>
    rw [hbelow] at hrestore
    obtain ⟨root, -, hrestore⟩ := hrestore
    rw [rolledBack_of_ok hrestore]
    exact nodes_keeping_of_goal? (by rw [h.goal?_eq, hbelow])

/-- One rollback uses up the first node below the present. -/
theorem rolledBack (h : s.Recoverable r) : s.Retreated r 1 (s.rolledBack r) := by
  have hnodes := h.nodes_rolledBack
  have hrestore := h.restore
  cases hbelow : s.below with
  | nil =>
    rw [hbelow] at hrestore hnodes
    have hordered := Ordered.of_nodes_eq_nil hnodes
    refine ⟨⟨hordered, ?_⟩, ?_, ?_, ?_⟩
    · rw [hnodes]
      exact List.forall_mem_nil _
    · rw [rolledBack_of_ok hrestore]
      rfl
    · rw [below, hnodes, hbelow]
      rfl
    · rw [rolledBack_of_ok hrestore, hbelow]
      exact ⟨rfl, rfl⟩
  | cons n ns =>
    rw [hbelow] at hrestore hnodes
    obtain ⟨root, hroot, hrestore⟩ := hrestore
    have hdescending : (n :: ns).Pairwise fun m n => n.cycle < m.cycle :=
      hbelow ▸ h.newestFirst.filter _
    have hns : ∀ m ∈ ns, m ∈ s.nodes := fun m hm =>
      List.mem_of_mem_filter (hbelow ▸ List.mem_cons_of_mem n hm)
    have hstate := rolledBack_of_ok hrestore
    refine ⟨⟨?_, ?_⟩, ?_, ?_, ?_⟩
    · rw [hstate]
      exact h.toOrdered.restore hrestore
    · rw [hnodes, hstate]
      exact fun m hm => h.readable m (hns m hm)
    · rw [hstate]
      rfl
    · have hcycle : (s.rolledBack r).cycle = n.cycle := by rw [hstate]
      rw [below, hnodes, hcycle, hbelow]
      exact List.filter_eq_self.mpr fun m hm =>
        decide_eq_true ((List.pairwise_cons.mp hdescending).1 m hm)
    · rw [hstate, hbelow]
      exact ⟨hroot, rfl⟩

end Recoverable

/-- One node more on the way back. -/
theorem Retreated.next {r : Recorder} {s t u : Simulation} {j : Nat} (h : s.Retreated r j t)
    (h' : t.Retreated r 1 u) : s.Retreated r (j + 1) u := by
  refine ⟨h'.recoverable, h'.context.trans h.context, ?_, ?_⟩
  · rw [h'.below, h.below, List.drop_drop]
  · have hlanded := h'.landed
    rw [h.below] at hlanded
    cases hdrop : s.below.drop j with
    | nil =>
      -- The way back was over already.
      have hall : s.below.take (j + 1) = s.below.take j := by
        have hlength := List.drop_eq_nil_iff.mp hdrop
        rw [List.take_of_length_le hlength, List.take_of_length_le (Nat.le_succ_of_le hlength)]
      rw [hdrop] at hlanded
      obtain ⟨hroot, hcycle⟩ := hlanded
      rw [hall, Landed, hroot, hcycle]
      exact h.landed
    | cons n ns =>
      have htake : s.below.take (j + 1) = s.below.take j ++ [n] := by
        rw [List.take_add_one, ← List.head?_drop, hdrop]
        rfl
      rw [hdrop] at hlanded
      rw [htake, Landed, List.getLast?_concat, ← h.context]
      exact hlanded

/-- What is older than one of the nodes stands behind it. -/
theorem filter_of_split {nodes before older : List Node} {n : Node}
    (h : nodes.Pairwise fun m n => n.cycle < m.cycle) (hsplit : nodes = before ++ n :: older) :
    nodes.filter (fun m => m.cycle < n.cycle) = older := by
  rw [hsplit] at h ⊢
  obtain ⟨-, hrest, hcross⟩ := List.pairwise_append.mp h
  have hbefore : before.filter (fun m => m.cycle < n.cycle) = [] := by
    refine List.filter_eq_nil_iff.mpr fun m hm => ?_
    have hlt := hcross m hm n List.mem_cons_self
    rw [decide_eq_true_eq]
    exact UInt64.not_lt.mpr (UInt64.le_of_lt hlt)
  rw [List.filter_append, hbefore, List.filter_cons_of_neg (by simp), List.nil_append]
  exact List.filter_eq_self.mpr fun m hm => decide_eq_true ((List.pairwise_cons.mp hrest).1 m hm)

namespace Recoverable
variable {r : Recorder} {s : Simulation}

/-- So many rollbacks use up so many of the nodes below the present. -/
theorem rewind (h : s.Recoverable r) (j : Nat) : s.Retreated r j (s.rewind r j) := by
  induction j with
  | zero => exact ⟨h, rfl, rfl, rfl, rfl⟩
  | succ j ih =>
    rw [rewind_succ']
    exact ih.next ih.recoverable.rolledBack

theorem nodes_rewind (h : s.Recoverable r) (j : Nat) :
    (s.rewind r (j + 1)).nodes = s.below.drop (j + 1) := by
  have hj := h.rewind j
  rw [rewind_succ', hj.recoverable.nodes_rolledBack, hj.below, List.tail_drop]

/-- What is left is what is older than the node the unit ended on. -/
theorem nodes_rewind_eq_filter (h : s.Recoverable r) (j : Nat) :
    (s.rewind r (j + 1)).nodes =
      s.nodes.filter fun n => n.cycle < (s.rewind r (j + 1)).cycle := by
  have hlanded := (h.rewind (j + 1)).landed
  rw [h.nodes_rewind]
  rw [Landed] at hlanded
  split at hlanded
  · next hnone =>
    have hbelow : s.below = [] := by simpa using hnone
    rw [hlanded.2, hbelow, List.drop_nil]
    exact hbelow.symm
  · next n hlast =>
    obtain ⟨before, hbefore⟩ := List.getLast?_eq_some_iff.mp hlast
    have hsplit : s.below = before ++ n :: s.below.drop (j + 1) := by
      rw [List.append_cons, ← hbefore, List.take_append_drop]
    have hdescending : s.below.Pairwise fun m n => n.cycle < m.cycle := h.newestFirst.filter _
    have hn : n.cycle < s.cycle := by
      have hmem : n ∈ s.below := hsplit ▸ List.mem_append_right _ List.mem_cons_self
      exact of_decide_eq_true (List.mem_filter.mp hmem).2
    have hfilter : s.nodes.filter (fun m => m.cycle < n.cycle) =
        s.below.filter fun m => m.cycle < n.cycle := by
      rw [below, List.filter_filter]
      refine List.filter_congr fun m _ => ?_
      rw [← Bool.decide_and, decide_eq_decide]
      exact iff_self_and.mpr fun hm => UInt64.lt_trans hm hn
    rw [hlanded.2, hfilter]
    exact (filter_of_split hdescending hsplit).symm

end Recoverable
end Simulation

/-! ### All units -/

/-- How many rollbacks a unit of the team has before it. -/
def Team.way (team : Team) : Nat := (team.map fun u => u.2.below.length).foldr max 0

/-- Where the units go in a rollback that follows so many others. -/
def Team.landings (team : Team) (j : Nat) : List (UnitId × UInt64) :=
  team.filterMap fun u => u.2.below[j]?.map fun n => (u.1, n.cycle)

theorem Team.way_le_iff {team : Team} {m : Nat} :
    team.way ≤ m ↔ ∀ u ∈ team, u.2.below.length ≤ m := by
  induction team with
  | nil => simp [way]
  | cons u team ih =>
    rw [List.forall_mem_cons, ← ih]
    exact Nat.max_le

theorem Team.length_below_le {team : Team} {unit : UnitId} {s : Simulation}
    (hs : Table.find unit team = some s) : s.below.length ≤ team.way :=
  way_le_iff.mp (Nat.le_refl _) (unit, s) (Table.mem_of_get? (t := ⟨team⟩) hs)

theorem Team.landings_eq_nil_iff {team : Team} {j : Nat} : team.landings j = [] ↔ team.way ≤ j := by
  rw [landings, List.filterMap_eq_nil_iff, way_le_iff]
  simp

namespace Controller
variable {c : Controller}

theorem rollback_eq (hunits : ∀ u ∈ c.units.entries, u.2.Recoverable c.recorder) :
    c.rollback.failure = none ∧ goals c.rollback.answers = Team.landings c.units.entries 0 := by
  have hok : c.rollback = _ := Team.sweep_of_ok fun u hu => (hunits u hu).restore_ok
  rw [hok]
  refine ⟨rfl, ?_⟩
  rw [goals, List.filterMap_filterMap, Team.landings]
  refine List.filterMap_congr fun u hu => ?_
  have hrestore := (hunits u hu).restore
  cases hbelow : u.2.below with
  | nil =>
    rw [hbelow] at hrestore
    have hanswer : u.2.answer? (Simulation.restore · c.recorder) = some .nothing :=
      Simulation.answer?_eq_some.mpr ⟨_, hrestore⟩
    rw [hanswer]
    rfl
  | cons n ns =>
    rw [hbelow] at hrestore
    obtain ⟨root, -, hrestore⟩ := hrestore
    have hanswer : u.2.answer? (Simulation.restore · c.recorder) = some (.to n.cycle) :=
      Simulation.answer?_eq_some.mpr ⟨_, hrestore⟩
    rw [hanswer]
    rfl

theorem units_rolledBack (hunits : ∀ u ∈ c.units.entries, u.2.Recoverable c.recorder) :
    c.rolledBack.units.entries = c.units.entries.map fun u => (u.1, u.2.rolledBack c.recorder) :=
  congrArg Sweep.team (Team.sweep_of_ok fun u hu => (hunits u hu).restore_ok)

/-- Rollbacks go on until no unit has anything to go back to. -/
theorem result_stepBackOnto (hnodup : c.units.keys.Nodup)
    (hunits : ∀ u ∈ c.units.entries, u.2.Recoverable c.recorder) (report : StepReport) (n : Nat) :
    (c.stepBackOnto report n).result = .ok
      { report with
        rounds := report.rounds + min n (Team.way c.units.entries)
        restored := report.restored ++
          (List.range (min n (Team.way c.units.entries))).flatMap
            (Team.landings c.units.entries) } := by
  induction n generalizing c report with
  | zero => simp [stepBackOnto]
  | succ n ih =>
    obtain ⟨hnone, hgoals⟩ := rollback_eq hunits
    rw [stepBackOnto_succ hnodup, hnone, hgoals]
    by_cases hway : Team.way c.units.entries ≤ 0
    · simp only [if_pos (Team.landings_eq_nil_iff.mpr hway), Nat.le_zero.mp hway]
      simp
    · simp only [if_neg (mt Team.landings_eq_nil_iff.mp hway)]
      have hentries := units_rolledBack hunits
      have hnext : ∀ u ∈ c.rolledBack.units.entries, u.2.Recoverable c.recorder := by
        rw [hentries]
        intro v hv
        obtain ⟨u, hu, rfl⟩ := List.mem_map.mp hv
        exact (hunits u hu).rolledBack.recoverable
      have hlandings : Team.landings c.rolledBack.units.entries =
          fun j => Team.landings c.units.entries (j + 1) := by
        funext j
        rw [hentries, Team.landings, Team.landings, List.filterMap_map]
        refine List.filterMap_congr fun u hu => ?_
        have hbelow := (hunits u hu).rolledBack.below
        simp [hbelow]
      have hlength : Team.way c.rolledBack.units.entries = Team.way c.units.entries - 1 := by
        refine eq_of_forall_ge_iff fun m => ?_
        rw [hentries, Nat.sub_le_iff_le_add, Team.way_le_iff, Team.way_le_iff, List.forall_mem_map]
        refine forall₂_congr fun u hu => ?_
        rw [(hunits u hu).rolledBack.below, List.length_drop, Nat.sub_le_iff_le_add]
      have hrounds : min (n + 1) (Team.way c.units.entries) =
          min n (Team.way c.units.entries - 1) + 1 := by
        omega
      rw [ih (keys_rolledBack c ▸ hnodup) hnext, hlength, hlandings, hrounds,
        List.range_succ_eq_map, List.flatMap_cons, List.flatMap_map]
      simp [Nat.add_assoc, Nat.add_comm 1]

theorem woundBack_stepBackOnto (hnodup : c.units.keys.Nodup)
    (hunits : ∀ u ∈ c.units.entries, u.2.Recoverable c.recorder) (report : StepReport) (n : Nat) :
    c.WoundBack (fun _ => n) (c.stepBackOnto report n).controller := by
  obtain ⟨-, -, hwound⟩ | ⟨j, -, -, gone, unit, s, later, e, -, -, -, herror, -⟩ :=
    stepBackOnto_cases hnodup report n
  · exact hwound
  · rw [result_stepBackOnto hnodup hunits] at herror
    cases herror

end Controller

section
variable {β : Type} {unit : UnitId} {team : Team}

theorem flatMap_range_getElem? {α : Type} (as : List α) (n : Nat) :
    ((List.range n).flatMap fun j => as[j]?.toList) = as.take n := by
  induction n with
  | zero => rfl
  | succ n ih => simp [List.range_succ, ih, List.take_add_one]

/-- A unit goes back along its own way. -/
theorem said_landings (hnodup : (team.map Prod.fst).Nodup) {s : Simulation}
    (hs : Table.find unit team = some s) (n : Nat) :
    said unit ((List.range n).flatMap team.landings) = (s.below.take n).map Node.cycle := by
  have hround (j : Nat) : said unit (team.landings j) = (s.below[j]?.toList).map Node.cycle := by
    have hlandings : team.landings j =
        team.filterMap fun u => (u.2.below[j]?.map Node.cycle).map (u.1, ·) := by
      simp only [Team.landings, Option.map_map]
      rfl
    rw [hlandings, said_team hnodup fun s => s.below[j]?.map Node.cycle, hs]
    cases h : s.below[j]? <;> simp [h]
  rw [said_flatMap, ← flatMap_range_getElem?, List.map_flatMap]
  simp only [hround]

end

/-- **How far `stepBack` goes.** After any calls, failed or not, that complete no unit's last cycle,
the cycles on record of a unit grow strictly and none is above the present one. If all that is on
record can be read, rolling back takes each unit along the nodes below its present, one in a round,
until the rounds or all nodes are used up; what is on record then is older than where the unit
ended. -/
theorem Controller.stepBack_run (settings : Settings) (formats : FormatTable) (calls : List Call)
    (hfresh : ∀ s, .add s ∈ calls → s.history = none)
    (hrange : ∀ e ∈ (ofSettings settings formats).log calls, e.2.InRange) :
    let c := (ofSettings settings formats).run calls
    (∀ u s, c.units.get? u = some s → ∀ h, s.history = some h →
      h.cycles.Pairwise (· < ·) ∧ ∀ k ∈ h.cycles, k ≤ s.cycle) ∧
    ∀ n, (∀ u s, c.units.get? u = some s →
        ∀ m ∈ s.nodes, ∃ root, c.recorder.tree s.context m = .ok root) →
      ∃ report, (c.stepBack n).result = .ok report ∧
        report.rounds = min n ((c.units.values.map fun s => s.below.length).foldr max 0) ∧
        report.halted = [] ∧ report.interrupted = false ∧
        (∀ e ∈ report.restored, e.1 ∈ c.units.keys) ∧
        (∀ u s, c.units.get? u = some s →
          ∃ t, (c.stepBack n).controller.units.get? u = some t ∧
            said u report.restored = (s.below.take n).map Node.cycle ∧
            (said u report.restored).Pairwise (· > ·) ∧
            s.Landed c.recorder (s.below.take n) t ∧
            (0 < n → t.nodes = s.nodes.filter fun m => m.cycle < t.cycle)) ∧
        (report.rounds < n →
          ∀ u t, (c.stepBack n).controller.units.get? u = some t → t.nodes = []) := by
  intro c
  have hc : c.InService := ((inService_ofSettings settings formats).lives_run calls).inService
  have hordered : ∀ u s, c.units.get? u = some s → s.Ordered := fun u s =>
    ordered_run settings formats hfresh hrange
  refine ⟨fun u s hs h hhistory => (hordered u s hs).cycles hhistory, fun n hreadable => ?_⟩
  have hrecoverable : ∀ u s, c.units.get? u = some s → s.Recoverable c.recorder := fun u s hs =>
    ⟨hordered u s hs, hreadable u s hs⟩
  have hunits : ∀ u ∈ c.units.entries, u.2.Recoverable c.recorder := fun u hu =>
    hrecoverable u.1 u.2 (Table.get?_of_mem hc.nodup hu)
  have hresult := result_stepBackOnto hc.nodup hunits .empty n
  have hwound := woundBack_stepBackOnto hc.nodup hunits .empty n
  have hway : ((c.units.values.map fun s => s.below.length).foldr max 0) =
      Team.way c.units.entries := by
    rw [Table.values, List.map_map]
    rfl
  refine ⟨_, hresult, ?_, rfl, rfl, fun e he => ?_, fun u s hs => ?_, fun hfew u t ht => ?_⟩
  · rw [hway]
    exact Nat.zero_add _
  · obtain ⟨j, -, he⟩ := List.mem_flatMap.mp he
    obtain ⟨u, hu, hlanding⟩ := List.mem_filterMap.mp he
    obtain ⟨m, -, rfl⟩ := Option.map_eq_some_iff.mp hlanding
    exact List.mem_map_of_mem hu
  · have hlength : s.below.take (min n (Team.way c.units.entries)) = s.below.take n := by
      have hle := Team.length_below_le hs
      refine List.take_eq_take_iff.mpr ?_
      omega
    have hsaid := said_landings hc.nodup hs (min n (Team.way c.units.entries))
    rw [hlength] at hsaid
    refine ⟨s.rewind c.recorder n, ?_, hsaid, ?_, ((hrecoverable u s hs).rewind n).landed,
      fun hn => ?_⟩
    · exact (hwound.get? u).trans (by rw [hs]; rfl)
    · show (said u ((List.range _).flatMap _)).Pairwise (· > ·)
      rw [hsaid, List.pairwise_map]
      have hdescending := (hordered u s hs).newestFirst.filter fun m => m.cycle < s.cycle
      exact hdescending.sublist (List.take_sublist n s.below)
    · obtain ⟨k, rfl⟩ := Nat.exists_eq_add_one.mpr hn
      exact (hrecoverable u s hs).nodes_rewind_eq_filter k
  · have hfew : Team.way c.units.entries < n := by
      change 0 + min n (Team.way c.units.entries) < n at hfew
      omega
    obtain ⟨s, hs, rfl⟩ := Option.map_eq_some_iff.mp ((hwound.get? u).symm.trans ht)
    obtain ⟨k, rfl⟩ := Nat.exists_eq_add_one.mpr (Nat.zero_lt_of_lt hfew)
    have hle := Team.length_below_le hs
    rw [(hrecoverable u s hs).nodes_rewind]
    exact List.drop_eq_nil_iff.mpr (by omega)

/-- Two units that have gone back before; what they then went through again is on record. -/
theorem Controller.stepBack_run_again :
    let c := (ofSettings Sample.uncompressed .standard).run
      [.add (Sample.halting 1), .add (Sample.failing 2), .step 4, .stepBack 1, .step 1]
    ∃ report s t, (c.stepBack 3).result = .ok report ∧ report.rounds = 1 ∧
      c.units.get? ⟨2⟩ = some s ∧ s.cycle = 2 ∧ said ⟨2⟩ report.restored = [0] ∧
      (c.stepBack 3).controller.units.get? ⟨2⟩ = some t ∧ t.cycle = 0 ∧ t.nodes = [] := by
  intro c
  obtain ⟨-, hback⟩ := stepBack_run Sample.uncompressed .standard
    [.add (Sample.halting 1), .add (Sample.failing 2), .step 4, .stepBack 1, .step 1] (by
      intro s hs
      simp only [List.mem_cons, Call.add.injEq, reduceCtorEq, List.not_mem_nil, or_false] at hs
      rcases hs with rfl | rfl <;> rfl) (by decide +kernel)
  have hreadable : ∀ u ∈ c.units.entries,
      u.2.nodes.all fun m => (c.recorder.tree u.2.context m).isOk := by
    decide +kernel
  obtain ⟨report, hresult, hrounds, -, -, -, hunits, hempty⟩ := hback 3 fun u s hs =>
    Simulation.readable_of_all (hreadable _ (Table.mem_of_get? hs))
  have hone : report.rounds = 1 := hrounds.trans (by decide +kernel)
  have hheld : ⟨2⟩ ∈ c.units.keys := by decide +kernel
  have hstate : ∀ u ∈ c.units.entries, u.2.cycle = 2 ∧ u.2.below.map Node.cycle = [0] := by
    decide +kernel
  obtain ⟨s, hs⟩ := Table.mem_keys_iff.mp hheld
  obtain ⟨hcycle, hbelow⟩ := hstate _ (Table.mem_of_get? hs)
  obtain ⟨t, ht, hsaid, -, hlanded, -⟩ := hunits ⟨2⟩ s hs
  have hnodes := hempty (by omega) ⟨2⟩ t ht
  obtain ⟨n, hn, hzero⟩ := List.map_eq_singleton_iff.mp hbelow
  have htake : s.below.take 3 = [n] := by
    rw [hn]
    rfl
  rw [htake] at hsaid hlanded
  exact ⟨report, s, t, hresult, hone, hs, hcycle, hsaid.trans (congrArg (fun k => [k]) hzero), ht,
    hlanded.2.trans hzero, hnodes⟩

/-- States are kept as they are written, and only when it is asked for. -/
def Sample.onRequest : Settings :=
  { uncompressed with history := { uncompressed.history with enabled := false } }

/-- The cycle after the last is zero. The recording of the last lies ahead of it then, and is gone
back to although nothing lies below. -/
theorem Controller.not_stepBack_run_atLast :
    let c := (ofSettings Sample.onRequest .standard).run
      [.add Sample.atLast, .recordNow, .step 1]
    (∀ u s, c.units.get? u = some s →
        ∀ m ∈ s.nodes, ∃ root, c.recorder.tree s.context m = .ok root) ∧
      (∃ s ∈ c.units.get? ⟨1⟩, ∃ h ∈ s.history,
        h.cycles = [18446744073709551615] ∧ s.cycle = 0 ∧ s.below.length = 0) ∧
      ∃ report ∈ (c.stepBack 1).result.toOption, report.rounds = 1 ∧
        report.restored = [(⟨1⟩, 18446744073709551615)] := by
  intro c
  have hreadable : ∀ u ∈ c.units.entries,
      u.2.nodes.all fun m => (c.recorder.tree u.2.context m).isOk := by
    decide +kernel
  refine ⟨fun u s hs => Simulation.readable_of_all (hreadable _ (Table.mem_of_get? hs)), ?_, ?_⟩
  · decide +kernel
  · decide +kernel

end Rewind
