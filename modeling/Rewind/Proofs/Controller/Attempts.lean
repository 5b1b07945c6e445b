import Rewind.Proofs.Controller.StepBack

/-! What a recording holds after steps that fail.

A step that fails leaves the cycle where it was and the tree as far as it got. It counts as a
step of the round all the same, and after the round the unit is recorded over the recording
that it had at this cycle. So a node holds the state in which the unit was last recorded at
its cycle, which is the one in which it came there unless failed attempts left traces
(`Attempted`, `Controller.recorded_attempts`). A unit that has not completed any cycle has only
the present on record, and nothing to go back to. -/

namespace Rewind

/-! ### Steps and cycles -/

namespace Simulation
variable {s : Simulation}

/-- The next step completes its cycle. -/
def Completes (s : Simulation) : Prop := s.step.2 = .running ∨ s.step.2 = .halted

instance (s : Simulation) : Decidable s.Completes :=
  inferInstanceAs (Decidable (s.step.2 = .running ∨ s.step.2 = .halted))

theorem cycle_step_of_not_completes (h : ¬ s.Completes) : s.step.1.cycle = s.cycle := by
  revert h
  rw [Completes, step]
  rcases runBehaviors s.context s.cycle s.behaviors s.root with ⟨behaviors, root, outcome⟩
  cases outcome <;> simp

/-- Its cycles do not start again in so many steps. -/
def Onward (s : Simulation) (k : Nat) : Prop :=
  ∀ l < k, (s.after l).cycle ≤ (s.after (l + 1)).cycle

namespace Onward
variable {i j l : Nat}

theorem mono (h : s.Onward j) (hi : i ≤ j) : s.Onward i :=
  fun l hl => h l (Nat.lt_of_lt_of_le hl hi)

theorem cycle_le (h : s.Onward j) (hi : i ≤ j) : (s.after i).cycle ≤ (s.after j).cycle := by
  induction hi with
  | refl => exact UInt64.le_refl _
  | @step j _ ih =>
    exact UInt64.le_trans (ih (h.mono (Nat.le_succ j))) (h j (Nat.lt_succ_self j))

theorem cycle_lt (h : s.Onward j) (hl : l < j) (hcompletes : (s.after l).Completes) :
    (s.after l).cycle < (s.after (l + 1)).cycle := by
  have hnext : (s.after (l + 1)).cycle = (s.after l).cycle + 1 := cycle_step hcompletes
  refine UInt64.lt_of_le_of_ne (h l hl) ?_
  rw [hnext]
  simp

/-- As long as the cycle stays the same no step completes it. -/
theorem not_completes (h : s.Onward j) (hcycle : (s.after j).cycle = (s.after i).cycle)
    (hi : i ≤ l) (hj : l < j) : ¬ (s.after l).Completes := by
  intro hcompletes
  have hfirst := (h.mono (Nat.le_of_lt hj)).cycle_le hi
  have hlast := h.cycle_le (show l + 1 ≤ j from hj)
  have hgrows := UInt64.lt_of_lt_of_le (h.cycle_lt hj hcompletes) hlast
  exact UInt64.ne_of_lt (UInt64.lt_of_le_of_lt hfirst hgrows) hcycle.symm

end Onward

theorem cycle_after_of_not_completes {k : Nat} (h : ∀ l < k, ¬ (s.after l).Completes) :
    (s.after k).cycle = s.cycle := by
  induction k with
  | zero => rfl
  | succ k ih =>
    rw [after, cycle_step_of_not_completes (h k (Nat.lt_succ_self k)),
      ih fun l hl => h l (Nat.lt_succ_of_lt hl)]

theorem onward_of_not_completes {k : Nat} (h : ∀ l < k, ¬ (s.after l).Completes) : s.Onward k :=
  fun l hl => UInt64.le_of_eq (cycle_step_of_not_completes (h l hl)).symm

/-- The unit comes to a cycle with so many steps. -/
def Arrives (s : Simulation) (cycle : UInt64) (i : Nat) : Prop :=
  (s.after i).cycle = cycle ∧ ∀ l < i, (s.after l).cycle < cycle

/-- A unit that is at a cycle has come there. -/
theorem Onward.exists_arrives {j : Nat} (h : s.Onward j) :
    ∃ i ≤ j, s.Arrives (s.after j).cycle i := by
  induction j with
  | zero => exact ⟨0, Nat.le_refl 0, rfl, fun l hl => absurd hl l.not_lt_zero⟩
  | succ j ih =>
    have hj := h.mono (Nat.le_succ j)
    by_cases hcompletes : (s.after j).Completes
    · refine ⟨j + 1, Nat.le_refl _, rfl, fun l hl => ?_⟩
      have hle := hj.cycle_le (Nat.le_of_lt_succ hl)
      exact UInt64.lt_of_le_of_lt hle (h.cycle_lt (Nat.lt_succ_self j) hcompletes)
    · obtain ⟨i, hi, harrives⟩ := ih hj
      have hsame : (s.after (j + 1)).cycle = (s.after j).cycle :=
        cycle_step_of_not_completes hcompletes
      exact ⟨i, Nat.le_succ_of_le hi, hsame ▸ harrives⟩

end Simulation

/-! ### Recordings -/

/-- The node holds the snapshot of a state. -/
def Recorder.Holds (r : Recorder) (n : Node) (s : Simulation) : Prop :=
  ∃ bs, n.bytes? = some bs ∧ r.format.encodeTree s.root s.cycle = .ok bs

/-- Of two states at one cycle a node that holds one holds the other if they are written alike. -/
theorem Recorder.Holds.iff {r : Recorder} {n : Node} {s t : Simulation} (h : r.Holds n s) :
    r.Holds n t ↔ r.format.encodeTree t.root t.cycle =
      r.format.encodeTree s.root s.cycle := by
  obtain ⟨bs, hbytes, hencode⟩ := h
  rw [hencode]
  constructor
  · rintro ⟨bs', hbytes', hencode'⟩
    rw [hencode', Option.some.inj (hbytes'.symm.trans hbytes)]
  · exact fun hencode' => ⟨bs, hbytes, hencode'⟩

/-- How many steps a unit had taken each time that it was recorded. -/
def recordings : Nat → List Event → List Nat
  | _, [] => []
  | k, .stepped _ _ :: es => recordings (k + 1) es
  | k, .recorded :: es => k :: recordings k es
  | k, _ :: es => recordings k es

/-- What is on record of a unit that was recorded after some of its steps. -/
structure Traced (r : Recorder) (s : Simulation) (recorded : List Nat) (t : Simulation) :
    Prop where
  ordered : t.Ordered
  /-- A node holds what was recorded last at its cycle. -/
  holds : ∀ n ∈ t.nodes, ∃ j ∈ recorded, (s.after j).cycle = n.cycle ∧ r.Holds n (s.after j) ∧
    ∀ j' ∈ recorded, (s.after j').cycle = n.cycle → j' ≤ j
  /-- Without a limit no cycle is forgotten. -/
  kept : r.maxDepth = none → ∀ j ∈ recorded, ∃ n ∈ t.nodes, n.cycle = (s.after j).cycle

/-- The unit has taken so many steps from its start and was recorded after some of them. -/
structure Attempted (r : Recorder) (s : Simulation) (k : Nat) (recorded : List Nat)
    (t : Simulation) : Prop where
  state : ∃ h, t = { s.after k with history := h }
  limit : ∀ h, t.history = some h → h.maxDepth = r.maxDepth.map (max 1)
  past : ∀ j ∈ recorded, j ≤ k
  traced : s.Onward k → Traced r s recorded t

section
variable {r : Recorder} {s t t' : Simulation} {k : Nat} {recorded : List Nat}

theorem Traced.start (r : Recorder) (h : s.history = none) : Traced r s [] s := by
  have hnodes : s.nodes = [] := by rw [Simulation.nodes, h]
  refine ⟨.of_nodes_eq_nil hnodes, ?_, fun _ => List.forall_mem_nil _⟩
  rw [hnodes]
  exact List.forall_mem_nil _

theorem Traced.step (h : Traced r s recorded t) (hcycle : t.cycle ≤ t.step.1.cycle) :
    Traced r s recorded t.step.1 := by
  refine ⟨h.ordered.step hcycle, ?_, ?_⟩ <;> rw [t.nodes_step]
  · exact h.holds
  · exact h.kept

namespace Attempted

theorem start (r : Recorder) (h : s.history = none) : Attempted r s 0 [] s := by
  refine ⟨⟨s.history, rfl⟩, fun h' hh' => ?_, List.forall_mem_nil _, fun _ => .start r h⟩
  rw [h] at hh'
  cases hh'

theorem step (h : Attempted r s k recorded t) : Attempted r s (k + 1) recorded t.step.1 := by
  obtain ⟨⟨history, rfl⟩, hlimit, hpast, htraced⟩ := h
  have hstep := Simulation.step_withHistory (s := s.after k) history
  refine ⟨⟨history, congrArg Prod.fst hstep⟩, ?_, fun j hj => Nat.le_succ_of_le (hpast j hj),
    fun honward => (htraced (honward.mono (Nat.le_succ k))).step ?_⟩
  · rw [hstep]
    exact hlimit
  · rw [hstep]
    exact honward k (Nat.lt_succ_self k)

theorem cycle (h : Attempted r s k recorded t) : t.cycle = (s.after k).cycle := by
  obtain ⟨history, rfl⟩ := h.state
  rfl

/-- The limit under which the unit is recorded. -/
theorem maxDepth_getD (h : Attempted r s k recorded t) :
    (t.history.getD (.new r.maxDepth)).maxDepth = r.maxDepth.map (max 1) := by
  cases hhistory : t.history with
  | none => rfl
  | some history => exact h.limit history hhistory

theorem past_concat (h : Attempted r s k recorded t) : ∀ j ∈ recorded ++ [k], j ≤ k := by
  intro j hj
  rcases List.mem_append.mp hj with hj | hj
  · exact h.past j hj
  · exact Nat.le_of_eq (List.mem_singleton.mp hj)

/-- The present goes over what was recorded at its cycle. -/
theorem traced_record (h : Attempted r s k recorded t) (honward : s.Onward k)
    (hrecord : t.record r = .ok t') : Traced r s (recorded ++ [k]) t' := by
  have hcycle := h.cycle
  have htraced := h.traced honward
  obtain ⟨bs, hencode, hnodes⟩ := htraced.ordered.nodes_record hrecord
  rw [h.maxDepth_getD] at hnodes
  have hnode : (r.node t.cycle bs).cycle = t.cycle := r.cycle_node _ _
  refine ⟨htraced.ordered.record hrecord, fun n hn => ?_, fun hlimit j hj => ?_⟩
  · rw [hnodes] at hn
    rcases List.mem_cons.mp ((History.keep_sublist _ _).subset hn) with rfl | hn
    · -- The node of the present.
      have hroot : t.root = (s.after k).root := by
        obtain ⟨history, rfl⟩ := h.state
        rfl
      refine ⟨k, List.mem_append_right _ (List.mem_singleton_self k), (hnode.trans hcycle).symm,
        ⟨bs, r.bytes?_node _ _, by rw [← hroot, ← hcycle, hencode]⟩,
        fun j' hj' _ => h.past_concat j' hj'⟩
    · -- A node of an earlier cycle, where nothing has been recorded since.
      obtain ⟨hn, hlt⟩ := List.mem_filter.mp hn
      have hlt : n.cycle < t.cycle := of_decide_eq_true hlt
      obtain ⟨j, hj, hjn, hholds, hlast⟩ := htraced.holds n hn
      refine ⟨j, List.mem_append_left _ hj, hjn, hholds, fun j' hj' hcycle' => ?_⟩
      rcases List.mem_append.mp hj' with hj' | hj'
      · exact hlast j' hj' hcycle'
      · rw [List.mem_singleton.mp hj', ← hcycle] at hcycle'
        exact absurd hcycle'.symm (UInt64.ne_of_lt hlt)
  · have hkeep : t'.nodes = r.node t.cycle bs :: t.below := by rw [hnodes, hlimit]; rfl
    rw [hkeep]
    have hle : (s.after j).cycle ≤ t.cycle := hcycle ▸ honward.cycle_le (h.past_concat j hj)
    by_cases hsame : (s.after j).cycle = t.cycle
    · exact ⟨_, List.mem_cons_self, hnode.trans hsame.symm⟩
    · have hold : j ∈ recorded := by
        refine (List.mem_append.mp hj).resolve_right fun hj => hsame ?_
        rw [List.mem_singleton.mp hj, hcycle]
      obtain ⟨n, hn, hncycle⟩ := htraced.kept hlimit j hold
      refine ⟨n, List.mem_cons_of_mem _ (List.mem_filter.mpr ⟨hn, decide_eq_true ?_⟩), hncycle⟩
      rw [hncycle]
      exact UInt64.lt_of_le_of_ne hle hsame

theorem record (h : Attempted r s k recorded t) (hrecord : t.record r = .ok t') :
    Attempted r s k (recorded ++ [k]) t' := by
  refine ⟨?_, fun h' hh' => ?_, h.past_concat, fun honward => h.traced_record honward hrecord⟩
  · obtain ⟨history, rfl⟩ := h.state
    obtain ⟨_, -, rfl⟩ := Simulation.record_eq_ok hrecord
    exact ⟨_, rfl⟩
  · obtain ⟨_, -, rfl⟩ := Simulation.record_eq_ok hrecord
    obtain rfl := Option.some.inj hh'
    exact h.maxDepth_getD

theorem onward_succ (h : Attempted r s k recorded t) (honward : s.Onward k)
    (hnext : (Event.stepped t.cycle t.step.2).InRange) : s.Onward (k + 1) := by
  intro l hl
  rcases Nat.lt_succ_iff_lt_or_eq.mp hl with hl | rfl
  · exact honward l hl
  · rw [← h.cycle, ← h.step.cycle]
    exact Simulation.cycle_le_step hnext

/-- The life of a unit that is stepped and recorded, and nothing else. -/
theorem life {b : Bool} {es : List Event} {seat : Option Seat}
    (h : Attempted r s k recorded t) (hlife : Life r (some ⟨t, b⟩) es seat)
    (hes : ∀ e ∈ es, e = .recorded ∨ ∃ cycle o, e = .stepped cycle o) :
    ∃ k' t' b', seat = some ⟨t', b'⟩ ∧ Attempted r s k' (recorded ++ recordings k es) t' ∧
      ((∀ e ∈ es, e.InRange) → s.Onward k → s.Onward k') := by
  generalize hstart : some (⟨t, b⟩ : Seat) = first at hlife
  induction hlife generalizing k recorded t b with
  | nil =>
    rw [recordings, List.append_nil]
    exact ⟨k, t, b, hstart.symm, h, fun _ honward => honward⟩
  | @cons seat seat' _ e es he _ ih =>
    obtain ⟨hfirst, hrest⟩ := List.forall_mem_cons.mp hes
    subst hstart
    cases he with
    | stepped =>
      obtain ⟨k', t', b', hseat, hlast, honward⟩ := ih h.step hrest rfl
      refine ⟨k', t', b', hseat, hlast, fun hrange hk => ?_⟩
      obtain ⟨hnow, hlater⟩ := List.forall_mem_cons.mp hrange
      exact honward hlater (h.onward_succ hk hnow)
    | recorded hrecord =>
      obtain ⟨k', t', b', hseat, hlast, honward⟩ := ih (h.record hrecord) hrest rfl
      rw [recordings, List.append_cons]
      exact ⟨k', t', b', hseat, hlast, fun hrange => honward (List.forall_mem_cons.mp hrange).2⟩
    | _ => rcases hfirst with hfirst | ⟨_, _, hfirst⟩ <;> cases hfirst

/-- As long as no step has completed a cycle there is nothing to go back to. -/
theorem restore_of_not_completes (h : Attempted r s k recorded t)
    (hfails : ∀ l < k, ¬ (s.after l).Completes) :
    t.restore r = .ok (t.keeping [], .nothing) := by
  have hcycle : t.cycle = s.cycle := h.cycle.trans (Simulation.cycle_after_of_not_completes hfails)
  have htraced := h.traced (Simulation.onward_of_not_completes hfails)
  have hbelow : t.below = [] := by
    refine List.filter_eq_nil_iff.mpr fun n hn => ?_
    obtain ⟨j, hj, hjn, -⟩ := htraced.holds n hn
    have hjs : (s.after j).cycle = s.cycle :=
      Simulation.cycle_after_of_not_completes fun l hl =>
        hfails l (Nat.lt_of_lt_of_le hl (h.past j hj))
    rw [decide_eq_true_eq, ← hjn, hjs, hcycle]
    exact UInt64.lt_irrefl s.cycle
  rw [Simulation.restore_eq, htraced.ordered.goal?_eq, hbelow]

/-- A start that was recorded is kept once the first step has completed its cycle. -/
theorem holds_start (h : Attempted r s k recorded t) (honward : s.Onward k)
    (hlimit : r.maxDepth = none) (hstart : 0 ∈ recorded) (hcompletes : s.Completes) :
    ∃ n ∈ t.nodes, n.cycle = s.cycle ∧ r.Holds n s := by
  obtain ⟨n, hn, hcycle⟩ := (h.traced honward).kept hlimit 0 hstart
  obtain ⟨j, hj, hjn, hholds, -⟩ := (h.traced honward).holds n hn
  have hsame : (s.after j).cycle = (s.after 0).cycle := hjn.trans hcycle
  have hzero : j = 0 := by
    by_contra hne
    exact (honward.mono (h.past j hj)).not_completes hsame (Nat.le_refl 0)
      (Nat.pos_of_ne_zero hne) hcompletes
  subst hzero
  exact ⟨n, hn, hcycle, hholds⟩

end Attempted
end

/-! ### The log of a unit -/

namespace Life
variable {r : Recorder} {seat seat' : Option Seat} {es : List Event}

/-- Nothing but being added happens to a unit that is not held. -/
theorem eq_nil_or_added (h : Life r none es seat) (hes : ∀ e ∈ es, e ≠ .removed) :
    es = [] ∧ seat = none ∨
      ∃ s rest, es = .added s :: rest ∧ Life r (some ⟨s, true⟩) rest seat := by
  cases h with
  | nil => exact .inl ⟨rfl, rfl⟩
  | cons he hrest =>
    cases he with
    | added s => exact .inr ⟨s, _, rfl, hrest⟩
    | removed => exact absurd rfl (hes _ List.mem_cons_self)

/-- A unit that is held stays unless it is removed. -/
theorem isSome (h : Life r seat es seat') (hes : ∀ e ∈ es, e ≠ .removed) (hseat : seat.isSome) :
    seat'.isSome := by
  refine h.keeps (P := fun seat => seat.isSome) (fun e he seat seat' hleads _ => ?_) hseat
  cases hleads with
  | removed => exact absurd rfl (hes _ he)
  | _ => rfl

/-- Only a unit that is not held is added. -/
theorem not_added (h : Life r seat es seat') (hes : ∀ e ∈ es, e ≠ .removed) (hseat : seat.isSome)
    (s : Simulation) : .added s ∉ es := by
  induction h with
  | nil => exact List.not_mem_nil
  | cons he _ ih =>
    obtain ⟨hfirst, hrest⟩ := List.forall_mem_cons.mp hes
    rw [List.mem_cons, not_or]
    cases he with
    | added => cases hseat
    | removed => exact absurd rfl hfirst
    | _ => exact ⟨Event.noConfusion, ih hrest rfl⟩

end Life

/-- Calls that add units with nothing on record or step them. -/
def Call.Forward (call : Call) : Prop :=
  (∃ s, call = .add s ∧ s.history = none) ∨ ∃ n, call = .step n

theorem Call.Forward.of_causes {call : Call} {e : Event} (h : call.Forward) (he : call.Causes e) :
    (e = .recorded ∨ ∃ cycle o, e = .stepped cycle o) ∨ ∃ s, e = .added s ∧ s.history = none := by
  obtain ⟨s, rfl, hs⟩ | ⟨n, rfl⟩ := h
  · cases he with
    | joined => exact .inr ⟨s, rfl, hs⟩
    | joinedRecorded => exact .inl (.inl rfl)
  · cases he with
    | stepped n cycle o => exact .inl (.inr ⟨cycle, o, rfl⟩)
    | steppedRecorded => exact .inl (.inl rfl)

namespace Controller
variable {c : Controller} {calls : List Call} {u : UnitId}

theorem forward_said (c : Controller) (hcalls : ∀ call ∈ calls, call.Forward) :
    ∀ e ∈ said u (c.log calls),
      (e = .recorded ∨ ∃ cycle o, e = .stepped cycle o) ∨ ∃ s, e = .added s ∧ s.history = none := by
  intro e he
  obtain ⟨call, hcall, hcause⟩ := causes_log c calls _ (mem_said.mp he)
  exact (hcalls call hcall).of_causes hcause

/-- A unit begins with being added, and with being recorded if that is asked for. -/
theorem said_log (h : c.InService) (hcalls : ∀ call ∈ calls, call.Forward)
    (hnone : c.units.get? u = none) {t : Simulation} (ht : (c.run calls).units.get? u = some t) :
    ∃ s rest, said u (c.log calls) =
      .added s :: ((if c.recording then [.recorded] else []) ++ rest) := by
  induction calls generalizing c with
  | nil =>
    rw [show (c.run []).units.get? u = c.units.get? u from rfl, hnone] at ht
    cases ht
  | cons call calls ih =>
    obtain ⟨hcall, hcalls⟩ := List.forall_mem_cons.mp hcalls
    have hlives := h.lives_call call
    have hlife := hlives.lives u
    have hkept : ∀ e ∈ said u (c.callLog call), e ≠ .removed := by
      rintro e he rfl
      rcases hcall.of_causes (causes_callLog c call _ (mem_said.mp he)) with
        (he | ⟨_, _, he⟩) | ⟨s, he, -⟩ <;> cases he
    rw [seat, hnone] at hlife
    rw [log, said_append]
    cases hget : (c.call call).units.get? u with
    | none =>
      have hquiet : said u (c.callLog call) = [] := by
        obtain ⟨hnil, -⟩ | ⟨s, rest, hes, hrest⟩ := hlife.eq_nil_or_added hkept
        · exact hnil
        · have hheld := hrest.isSome
            (fun e he => hkept e (hes ▸ List.mem_cons_of_mem _ he)) rfl
          rw [seat, hget] at hheld
          cases hheld
      rw [hquiet, List.nil_append, ← hlives.recording]
      exact ih hlives.inService hcalls hget ht
    | some t' =>
      obtain ⟨s, rfl, -⟩ | ⟨n, rfl⟩ := hcall
      · -- Only the call that adds the unit brings it about.
        cases hadd : c.add s with
        | error e =>
          have hsame : c.call (.add s) = c := by rw [Controller.call, hadd]
          rw [hsame, hnone] at hget
          cases hget
        | ok p =>
          obtain ⟨t₁, -, rfl⟩ := add_eq_ok hadd
          have hnew : c.call (.add s) = c.joinedBy t₁ := by rw [Controller.call, hadd]
          have hlog : c.callLog (.add s) =
              (⟨c.nextId⟩, .added s) :: if c.recording then [(⟨c.nextId⟩, .recorded)] else [] := by
            rw [callLog, addLog, hadd]
          have hu : (⟨c.nextId⟩ : UnitId) = u := by
            rw [hnew, InService.get?_joinedBy] at hget
            by_contra hne
            rw [if_neg hne, hnone] at hget
            cases hget
          refine ⟨s, said u ((c.call (.add s)).log calls), ?_⟩
          rw [hlog, hu]
          by_cases hrecording : c.recording = true
          · simp [said, hrecording]
          · simp [said, hrecording]
      · obtain ⟨-, hseat⟩ | ⟨s, rest, hes, -⟩ := hlife.eq_nil_or_added hkept
        · rw [seat, hget] at hseat
          cases hseat
        · have hadded : Event.added s ∈ said u (c.callLog (.step n)) := hes ▸ List.mem_cons_self
          cases causes_callLog c _ _ (mem_said.mp hadded)

/-- A unit that was added and stepped, and recorded in between. -/
theorem attempted_run (h : c.InService) (hcalls : ∀ call ∈ calls, call.Forward)
    (hnone : c.units.get? u = none) {t : Simulation} (ht : (c.run calls).units.get? u = some t) :
    ∃ s k, .added s ∈ said u (c.log calls) ∧
      Attempted c.recorder s k (recordings 0 (said u (c.log calls))) t ∧
      ((∀ e ∈ said u (c.log calls), e.InRange) → s.Onward k) := by
  have hsaid := forward_said (u := u) c hcalls
  have hlife := (h.lives_run calls).lives u
  have hstart : c.seat u = none := by rw [seat, hnone]; rfl
  rw [hstart, seat_of_get? ht] at hlife
  have hkept : ∀ e ∈ said u (c.log calls), e ≠ .removed := by
    rintro e he rfl
    rcases hsaid _ he with (he | ⟨_, _, he⟩) | ⟨s, he, -⟩ <;> cases he
  obtain ⟨-, hnone⟩ | ⟨s, rest, hes, hrest⟩ := hlife.eq_nil_or_added hkept
  · cases hnone
  have hmem : .added s ∈ said u (c.log calls) := hes ▸ List.mem_cons_self
  have hfresh : s.history = none := by
    rcases hsaid _ hmem with (he | ⟨_, _, he⟩) | ⟨s', he, hs'⟩
    · cases he
    · cases he
    · exact Event.added.inj he ▸ hs'
  have hforward : ∀ e ∈ rest, e = .recorded ∨ ∃ cycle o, e = .stepped cycle o := by
    intro e he
    have hmem := List.mem_cons_of_mem (Event.added s) he
    rcases hsaid e (hes ▸ hmem) with he' | ⟨s', rfl, -⟩
    · exact he'
    · refine absurd he (hrest.not_added (fun e he => hkept e ?_) rfl s')
      exact hes ▸ List.mem_cons_of_mem _ he
  obtain ⟨k, t', b', hseat, hatt, honward⟩ :=
    (Attempted.start c.recorder hfresh).life hrest hforward
  obtain ⟨rfl, -⟩ := Seat.mk.inj (Option.some.inj hseat)
  refine ⟨s, k, hmem, ?_, ?_⟩ <;> rw [hes]
  · exact hatt
  · intro hrange
    exact honward (List.forall_mem_cons.mp hrange).2 fun l hl => absurd hl l.not_lt_zero

/-- **What is on record after steps that may fail.** A unit that was added and stepped is where its
steps have taken it. As long as none of them completes the last cycle, a node holds the state in
which the unit was last recorded at the cycle of the node; all steps since it came there have
failed, and the node holds the state in which it came exactly if the two are written alike. Without
a limit all cycles are on record; so what was recorded first is kept once the first step has
completed its cycle, but before that there is nothing to go back to. -/
theorem recorded_attempts (settings : Settings) (formats : FormatTable) (calls : List Call)
    (hcalls : ∀ call ∈ calls, call.Forward) :
    let start := ofSettings settings formats
    let c := start.run calls
    ∀ u t, c.units.get? u = some t →
      ∃ s k, .added s ∈ said u (start.log calls) ∧ (∃ h, t = { s.after k with history := h }) ∧
        ((∀ e ∈ said u (start.log calls), e.InRange) →
          (∀ n ∈ t.nodes, ∃ i j, i ≤ j ∧ j ≤ k ∧ s.Arrives n.cycle i ∧
            (s.after j).cycle = n.cycle ∧ j ∈ recordings 0 (said u (start.log calls)) ∧
            (∀ j' ∈ recordings 0 (said u (start.log calls)),
              (s.after j').cycle = n.cycle → j' ≤ j) ∧
            (∀ l, i ≤ l → l < j → ¬ (s.after l).Completes) ∧
            c.recorder.Holds n (s.after j) ∧
            (c.recorder.Holds n (s.after i) ↔
              c.recorder.format.encodeTree (s.after i).root n.cycle =
                c.recorder.format.encodeTree (s.after j).root n.cycle)) ∧
          (settings.history.maxDepth = none →
            (∀ j ∈ recordings 0 (said u (start.log calls)),
              ∃ n ∈ t.nodes, n.cycle = (s.after j).cycle) ∧
            (settings.history.enabled = true → s.Completes →
              ∃ n ∈ t.nodes, n.cycle = s.cycle ∧ c.recorder.Holds n s))) ∧
        ((∀ l < k, ¬ (s.after l).Completes) →
          t.restore c.recorder = .ok (t.keeping [], .nothing)) := by
  intro start c u t ht
  have hstart : start.InService := inService_ofSettings settings formats
  have hrecorder : c.recorder = start.recorder := (hstart.lives_run calls).recorder
  obtain ⟨s, k, hmem, hatt, honward⟩ := attempted_run hstart hcalls rfl ht
  rw [hrecorder]
  refine ⟨s, k, hmem, hatt.state, fun hrange => ?_, hatt.restore_of_not_completes⟩
  have honward := honward hrange
  have htraced := hatt.traced honward
  refine ⟨fun n hn => ?_, fun hlimit => ⟨htraced.kept hlimit, ?_⟩⟩
  · obtain ⟨j, hj, hjn, hholds, hlast⟩ := htraced.holds n hn
    have hj' := honward.mono (hatt.past j hj)
    obtain ⟨i, hij, harrives⟩ := hj'.exists_arrives
    rw [hjn] at harrives
    have hsame : (s.after j).cycle = (s.after i).cycle := hjn.trans harrives.1.symm
    refine ⟨i, j, hij, hatt.past j hj, harrives, hjn, hj, hlast, fun l hi hl =>
      hj'.not_completes hsame hi hl, hholds, ?_⟩
    rw [hholds.iff, harrives.1, hjn]
  · intro henabled hcompletes
    refine hatt.holds_start honward hlimit ?_ hcompletes
    obtain ⟨s', rest', hlog⟩ := said_log hstart hcalls (by rfl) ht
    have hrecording : start.recording = true := henabled
    rw [hlog, hrecording]
    exact List.mem_cons_self

end Controller

/-- A simulation that counts a tick before it fails. -/
def Sample.faltering : Simulation :=
  { idle with behaviors := [.counter "ticks", .failAt 0] }

/-- After the first step the only node holds what that step left behind, and the rollback does
not bring the start back. -/
theorem Controller.not_holds_faltering :
    let c := (ofSettings Sample.uncompressed .standard).run [.add Sample.faltering, .step 1]
    ∃ t n, c.units.get? ⟨1⟩ = some t ∧ n ∈ t.nodes ∧ n.cycle = Sample.faltering.cycle ∧
      ¬ c.recorder.Holds n Sample.faltering ∧ (c.stepBack 1).result = .ok .empty ∧
      ((c.stepBack 1).controller.units.get? ⟨1⟩).map (fun t => t.root) ≠
        some Sample.faltering.root := by
  intro c
  have hheld : ⟨1⟩ ∈ c.units.keys := by decide +kernel
  have hnodes : ∀ u ∈ c.units.entries, u.2.nodes.length = 1 ∧ ∀ n ∈ u.2.nodes, n.cycle = 0 ∧
      n.bytes? ≠ (c.recorder.format.encodeTree Sample.faltering.root 0).toOption := by
    decide +kernel
  obtain ⟨t, ht⟩ := Table.mem_keys_iff.mp hheld
  obtain ⟨hlength, hall⟩ := hnodes _ (Table.mem_of_get? ht)
  obtain ⟨n, hn⟩ := List.length_eq_one_iff.mp hlength
  have hmem : n ∈ t.nodes := hn ▸ List.mem_singleton_self n
  obtain ⟨hcycle, hbytes⟩ := hall n hmem
  refine ⟨t, n, ht, hmem, hcycle, ?_, by decide +kernel, fun hroot => ?_⟩
  · rintro ⟨bs, hbs, hencode⟩
    have hencode : c.recorder.format.encodeTree Sample.faltering.root 0 = .ok bs := hencode
    rw [hbs, hencode] at hbytes
    exact hbytes rfl
  · have hticks := congrArg (Option.map fun root : Entity => (root.get? "ticks").isSome) hroot
    exact absurd hticks (by decide +kernel)

/-- Once the first step has completed its cycle the start stays on record. -/
theorem Controller.recorded_attempts_halting :
    let c := (ofSettings Sample.uncompressed .standard).run [.add (Sample.halting 1), .step 2]
    ∃ t, c.units.get? ⟨1⟩ = some t ∧
      ∃ n ∈ t.nodes, n.cycle = 0 ∧ c.recorder.Holds n (Sample.halting 1) := by
  intro c
  have hheld : ⟨1⟩ ∈ c.units.keys := by decide +kernel
  obtain ⟨t, ht⟩ := Table.mem_keys_iff.mp hheld
  obtain ⟨s, k, hs, -, hrecorded, -⟩ := recorded_attempts Sample.uncompressed .standard
    [.add (Sample.halting 1), .step 2] (by
      intro call hcall
      rcases List.mem_pair.mp hcall with rfl | rfl
      · exact .inl ⟨_, rfl, rfl⟩
      · exact .inr ⟨_, rfl⟩) ⟨1⟩ t ht
  have hstart : s = Sample.halting 1 := by
    obtain ⟨call, hcall, hcause⟩ := causes_log _ _ _ (mem_said.mp hs)
    cases hcause
    simpa using hcall
  subst hstart
  have hcompletes : (Sample.halting 1).Completes := by decide +kernel
  obtain ⟨-, hkept⟩ := hrecorded (by decide +kernel)
  exact ⟨t, ht, (hkept rfl).2 rfl hcompletes⟩

end Rewind
