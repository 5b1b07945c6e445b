import Rewind.Proofs.Controller.Office

/-! What many threads that call to step leave true.

Whoever waits for a round does so for a call that has not come back, and every unit on the schedule
has the task to step itself (`Office.Sound`). A unit gets on the schedule only when it is restored
(`Office.scheduled_run`), a round is waited for until someone leaves (`Office.left_run`), and what
a call has to report it goes on to report unless it comes back with an error
(`Office.reports_run`). -/

namespace Rewind

/-! ### Who is on the schedule -/

theorem Errand.apply_eq_to {e : Errand} {r : Recorder} {s t : Simulation} {cycle : UInt64}
    (h : e.apply r s = .ok (t, .to cycle)) : e ≠ record ∧ s.restore r = .ok (t, .to cycle) := by
  cases e with
  | record =>
    rw [apply] at h
    cases hrecord : s.record r with
    | error err => rw [hrecord] at h; cases h
    | ok t' => rw [hrecord] at h; cases h
  | restore => exact ⟨by decide, h⟩
  | back =>
    rw [apply] at h
    split at h
    · exact ⟨by decide, h⟩
    · cases h

namespace Desk
variable {d : Desk} {a : Act} {unit : UnitId} {k : Nat}

/-- Who leaves takes the units off the schedule that halted, and a unit that is restored is put
on it. -/
theorem arrange_mem_does {table : Table UnitId (Task UnitId)} (h : .arrange table ∈ (d.does a).1) :
    (∃ halted : List UnitId, table = (halted.foldl Scheduler.unregister d.hall.scheduler).table) ∨
      ∃ unit, a = .handle ∧ d.Restores unit ∧ table = (d.hall.scheduler.register unit).table := by
  cases a with
  | leave =>
    rw [does] at h
    split at h
    · rcases List.mem_pair.mp h with h | h
      · cases h
      · exact .inl ⟨_, (Happening.arrange.inj h)⟩
    · cases List.mem_singleton.mp h
    · cases h
  | handle =>
    rw [does] at h
    split at h
    · cases h
    · next e unit todo hholder =>
      split at h
      · cases h
      · next s hs =>
        split at h
        · cases h
        · cases List.mem_singleton.mp h
        · next t cycle happly =>
          rcases List.mem_pair.mp h with h | h
          · cases h
          · obtain ⟨he, hrestore⟩ := Errand.apply_eq_to happly
            exact .inr ⟨unit, rfl, ⟨e, todo, he, hholder, s, t, cycle, hs, hrestore⟩,
              Happening.arrange.inj h⟩
    · cases h
  | round =>
    rw [does] at h
    split at h <;> simp at h
  | send | work | interrupt | ring | look | stir => simp [does] at h

theorem table_step_cases (d : Desk) (a : Act) :
    (∃ halted : List UnitId, (d.step a).hall.scheduler.table =
      (halted.foldl Scheduler.unregister d.hall.scheduler).table) ∨
    ∃ unit, a = .handle ∧ d.Restores unit ∧
      (d.step a).hall.scheduler.table = (d.hall.scheduler.register unit).table := by
  have hrun : (d.hall.run Simulation.step (d.does a).1).scheduler.table = _ ∨ _ :=
    Hall.table_run (d.does a).1
  rcases hrun with hsame | hmem
  · exact .inl ⟨[], hsame⟩
  · exact arrange_mem_does hmem

theorem advances_step (h : d.hall.scheduler.Advances) (a : Act) :
    (d.step a).hall.scheduler.Advances := by
  have hsame {s s' : Scheduler UnitId} (hs : s.Advances) (htable : s'.table = s.table) :
      s'.Advances := by
    refine ⟨?_, ?_⟩
    · rw [htable]
      exact hs.tasks
    · rw [Scheduler.units, htable]
      exact hs.nodup
  rcases d.table_step_cases a with ⟨halted, htable⟩ | ⟨unit, -, -, htable⟩
  · exact hsame (h.units_foldl_unregister halted).1 htable
  · exact hsame (h.register unit) htable

/-- Only a unit that is restored gets on the schedule. -/
theorem mem_units_step (h : d.hall.scheduler.units.Nodup)
    (hunit : unit ∈ (d.step a).hall.scheduler.units) :
    unit ∈ d.hall.scheduler.units ∨ a = .handle ∧ d.Restores unit := by
  rcases d.table_step_cases a with ⟨halted, htable⟩ | ⟨other, ha, hrestores, htable⟩ <;>
    rw [Scheduler.units, htable] at hunit
  · rw [Scheduler.foldl_unregister halted h] at hunit
    exact .inl ((List.filter_sublist.map _).subset hunit)
  · change unit ∈ (d.hall.scheduler.table.set other (.advance other)).keys at hunit
    rw [Table.keys_set] at hunit
    split at hunit
    · exact .inl hunit
    · rcases List.mem_append.mp hunit with hunit | hunit
      · exact .inl hunit
      · exact .inr ⟨ha, List.mem_singleton.mp hunit ▸ hrestores⟩

/-- What is known of halts in a round when the thread leaves after it. -/
theorem units_leave (h : d.hall.scheduler.units.Nodup) (hleaves : d.hall.Leaves k .done)
    (hunit : unit ∈ d.hall.haltedIn k) : unit ∉ (d.step .leave).hall.scheduler.units := by
  obtain ⟨hringing, hwatch⟩ := hleaves
  have hdoes : (d.does .leave).1 = [.leave, .arrange
      ((d.hall.haltedIn k).foldl Scheduler.unregister d.hall.scheduler).table] := by
    simp only [does, hringing, hwatch]
    rfl
  have hnone : (d.hall.step Simulation.step .leave).watch = none := by
    simp only [Hall.step, hringing, Hall.leave, hwatch]
    rfl
  have htable : (d.step .leave).hall.scheduler.table =
      ((d.hall.haltedIn k).foldl Scheduler.unregister d.hall.scheduler).table := by
    rw [step, hdoes]
    show ((d.hall.step Simulation.step .leave).step Simulation.step
      (.arrange _)).scheduler.table = _
    rw [Hall.step, hnone]
    rfl
  rw [Scheduler.units, htable, Scheduler.foldl_unregister _ h]
  intro hmem
  obtain ⟨entry, hentry, rfl⟩ := List.mem_map.mp hmem
  exact of_decide_eq_true (List.mem_filter.mp hentry).2 hunit

/-- The thread waits for a round only if it did before, unless a round begins. -/
theorem holder_of_round (ha : a ≠ .round) (h : (d.step a).holder = some .round) :
    d.holder = some .round := by
  change (d.does a).2 = some .round at h
  cases a with
  | round => exact absurd rfl ha
  | send e =>
    cases hd : d.holder with
    | none =>
      rw [does, hd] at h
      cases h
    | some section' =>
      rw [does, hd] at h
      exact h
  | handle =>
    rw [does] at h
    split at h
    · cases h
    · split at h
      · cases h
      · split at h <;> cases h
    · exact h
  | leave =>
    rw [does] at h
    split at h
    · unfold afterRound at h
      split at h <;> cases h
    · cases h
    · exact h
  | work | interrupt | ring | look | stir => exact h

theorem eq_leave_of_mem_does (h : .leave ∈ (d.does a).1) : a = .leave := by
  cases a with
  | leave => rfl
  | round =>
    rw [does] at h
    split at h <;> simp at h
  | handle => rcases mem_does_handle h with ⟨_, h⟩ | ⟨_, h⟩ <;> cases h
  | send | work | interrupt | ring | look | stir => simp [does] at h

/-- Where a unit cannot be handled the lock is let go of. -/
theorem does_handle_of_obstacle {e : ControllerError} (h : d.obstacle? = some e) :
    d.does .handle = ([], none) := by
  rw [obstacle?] at h
  split at h
  · next errand unit todo hholder =>
    split at h
    · cases h
    · next s hs =>
      split at h
      · next err happly => simp only [does, hholder, hs, happly]
      · cases h
  · cases h

/-- A round is waited for until the thread leaves. -/
theorem left_step (hd : d.Sound) (hl : (d.step a).hall.Left k) :
    d.hall.Left k ∨ a = .leave ∧ ∃ w, d.hall.Leaves k w := by
  by_cases hleave : a = .leave
  · subst hleave
    by_cases hleaves : ∃ j w, d.hall.Leaves j w
    · obtain ⟨j, w, hringing, hwatch⟩ := hleaves
      obtain ⟨-, hrounds, -⟩ := step_leave hwatch hringing
      by_cases hj : j = k
      · exact .inr ⟨rfl, w, hringing, hj ▸ hwatch⟩
      · refine .inl ⟨hrounds ▸ hl.1, fun hk => hj ?_⟩
        rw [Hall.inProgress, hwatch] at hk
        exact Option.some.inj hk
    · have hdoes : d.does .leave = ([], d.holder) := by
        rw [does]
        split
        · next k hr hw => exact absurd ⟨k, _, hr, hw⟩ hleaves
        · next k p hr hw => exact absurd ⟨k, _, hr, hw⟩ hleaves
        · rfl
      rw [step, hdoes] at hl
      exact .inl hl
  · refine .inl ((exists_step_of_foldl (Hall.step Simulation.step) Hall.Sound (·.Left k)
      (fun _ e hs => hs.step e) (fun _ _ hs => Hall.left_step hs) hd.hall hl).resolve_right ?_)
    rintro ⟨before, e, later, hevents, rfl, -⟩
    refine hleave (eq_leave_of_mem_does (d := d) ?_)
    rw [hevents]
    exact List.mem_append_right _ List.mem_cons_self

/-- A round begins with the tasks on the schedule, when no other is waited for. -/
theorem begins {r : Round UnitId} (h : (d.step .round).hall.rounds = d.hall.rounds ++ [r]) :
    d.hall.watch = none ∧ r = (d.hall.scheduler.floor d.hall.store).round := by
  have hsame : d.hall.rounds ≠ d.hall.rounds ++ [r] := by simp
  change (d.hall.run Simulation.step (d.does .round).1).rounds = _ at h
  rw [does] at h
  split at h
  · exact absurd h hsame
  change d.hall.begin.rounds = _ at h
  unfold Hall.begin at h
  split at h
  · exact absurd h hsame
  next hidle =>
  split at h
  · exact absurd h hsame
  · exact ⟨Hall.watch_eq_none_of_idle hidle,
      (List.singleton_inj.mp (List.append_cancel_left h)).symm⟩

end Desk

namespace StepCall

/-- The call has the unit to report, or has come back and reported it. -/
def Reports (x : StepCall) (unit : UnitId) : Prop := unit ∈ x.halted

/-- The call has come back with an error, which takes the place of its report. -/
def Errs (x : StepCall) : Prop := ∃ e, x = back (.error e)

end StepCall

namespace Office
variable {o : Office} {x : Deed} {k i : Nat} {unit : UnitId}

/-- Whatever an act comes to, what a call has to report it reports, unless it has come back with an
error. -/
theorem reports_answer {x : StepCall} (d : Desk) (a : Act) (h : x.Reports unit ∨ x.Errs) :
    (answer d a x).Reports unit ∨ (answer d a x).Errs := by
  cases x with
  | back => exact h
  | pending left report =>
    have hreport : unit ∈ report.halted := h.resolve_right nofun
    cases a with
    | leave =>
      refine .inl ?_
      simp only [answer]
      split
      · exact List.mem_append_left _ hreport
      · exact hreport
      · exact hreport
    | handle =>
      simp only [answer]
      split
      · exact .inr ⟨_, rfl⟩
      · exact .inl hreport
    | _ => exact .inl hreport

/-- Who still has the lock after an act has not come back. -/
theorem answer_pending {d : Desk} {a : Act} (h : (d.step a).holder.isSome) (left : Nat)
    (report : StepReport) :
    ∃ left' report', answer d a (.pending left report) = .pending left' report' := by
  change (d.does a).2.isSome at h
  cases a with
  | leave =>
    simp only [answer]
    rw [Desk.does] at h
    split
    · exact ⟨_, _, rfl⟩
    · next hr hw => simp only [hr, hw] at h; cases h
    · exact ⟨_, _, rfl⟩
  | handle =>
    simp only [answer]
    split
    · next e he =>
      rw [Desk.does_handle_of_obstacle he] at h
      cases h
    · exact ⟨_, _, rfl⟩
  | _ => exact ⟨_, _, rfl⟩

/-- What can come of a turn: nothing, the call comes back, or it begins a round. -/
theorem turn_cases (o : Office) (i : Nat) :
    o.turn i = o ∨
    (∃ left report answer, o.calls[i]? = some (.pending left report) ∧ o.serving ≠ some i ∧
      (answer = .ok report ∨ ∃ e, answer = .error e) ∧
      o.turn i = { o with calls := o.calls.set i (.back answer) }) ∨
    ∃ left report, o.calls[i]? = some (.pending (left + 1) report) ∧
      o.turn i = o.begin i left report := by
  rw [turn]
  split
  · exact .inl rfl
  next hserving =>
  split
  · next report hcall => exact .inr (.inl ⟨0, report, _, hcall, hserving, .inl rfl, rfl⟩)
  · next left report hcall =>
    split
    · exact .inl rfl
    · split
      · exact .inr (.inl ⟨_, report, _, hcall, hserving, .inr ⟨_, rfl⟩, rfl⟩)
      · exact .inr (.inr ⟨left, report, hcall, rfl⟩)
  · exact .inl rfl

/-- An act makes a difference to the call that has the lock. -/
theorem getElem?_calls_act (o : Office) {a : Act} (ha : a ≠ .round) (i : Nat) :
    (o.act a).calls[i]? =
      o.calls[i]?.map fun c => if o.serving = some i then answer o.desk a c else c := by
  rw [act, if_neg ha]
  show (o.serving.elim o.calls fun j => o.calls.modify j (answer o.desk a))[i]? = _
  cases o.serving with
  | none => simp
  | some j =>
    show (o.calls.modify j (answer o.desk a))[i]? = _
    rw [List.getElem?_modify]
    simp

/-- What is done at the desk. -/
theorem desk_step (o : Office) (x : Deed) :
    (o.step x).desk = o.desk ∨ ∃ a, (o.step x).desk = o.desk.step a ∧
      (a = .round ∧ (∃ i, x = .turn i) ∨ a ≠ .round ∧ x = .act a) := by
  cases x with
  | call => exact .inl rfl
  | act a =>
    by_cases ha : a = .round
    · exact .inl (by rw [step, act, if_pos ha])
    · exact .inr ⟨a, by rw [step, act, if_neg ha], .inr ⟨ha, rfl⟩⟩
  | turn i =>
    rw [step]
    rcases o.turn_cases i with hturn | ⟨_, _, _, -, -, -, hturn⟩ | ⟨_, _, -, hturn⟩ <;> rw [hturn]
    · exact .inl rfl
    · exact .inl rfl
    · exact .inr ⟨.round, rfl, .inl ⟨rfl, i, rfl⟩⟩

/-- What a call has to report it goes on to report, unless it comes back with an error. -/
theorem reports_step {c : StepCall} (hc : o.calls[i]? = some c) (h : c.Reports unit ∨ c.Errs)
    (x : Deed) : ∃ c', (o.step x).calls[i]? = some c' ∧ (c'.Reports unit ∨ c'.Errs) := by
  have hlt := (List.getElem?_eq_some_iff.mp hc).1
  -- A call that turns to something else has what it had to report.
  have hset {j left : Nat} {report : StepReport} {c' : StepCall}
      (hj : o.calls[j]? = some (.pending left report))
      (hc' : unit ∈ report.halted → c'.Reports unit ∨ c'.Errs) :
      ∃ c'', (o.calls.set j c')[i]? = some c'' ∧ (c''.Reports unit ∨ c''.Errs) := by
    rw [List.getElem?_set]
    split
    · next heq =>
      subst heq
      obtain rfl := Option.some.inj (hc.symm.trans hj)
      exact ⟨c', if_pos hlt, hc' (h.resolve_right nofun)⟩
    · exact ⟨c, hc, h⟩
  cases x with
  | call n => exact ⟨c, (List.getElem?_append_left hlt).trans hc, h⟩
  | act a =>
    by_cases ha : a = .round
    · exact ⟨c, by rw [step, act, if_pos ha, hc], h⟩
    · rw [step, getElem?_calls_act o ha, hc]
      refine ⟨_, rfl, ?_⟩
      split
      · exact reports_answer o.desk a h
      · exact h
  | turn j =>
    rw [step]
    rcases o.turn_cases j with
      hturn | ⟨left, report, answer, hj, -, hanswer, hturn⟩ | ⟨left, report, hj, hturn⟩ <;>
      rw [hturn]
    · exact ⟨c, hc, h⟩
    · refine hset hj fun hreports => ?_
      rcases hanswer with rfl | ⟨e, rfl⟩
      · exact .inl hreports
      · exact .inr ⟨e, rfl⟩
    · exact hset hj .inl

/-! ### What stays true -/

/-- Whoever waits for a round does so for a call that has not come back. -/
structure Sound (o : Office) : Prop where
  desk : o.desk.Sound
  tells : o.desk.hall.Tells
  schedule : o.desk.hall.scheduler.Advances
  serves : ∀ i, o.serving = some i → ∃ left report, o.calls[i]? = some (.pending left report)
  waits : o.desk.holder = some .round → o.serving.isSome

theorem Sound.start {c : Controller} (hc : c.scheduler.Advances) : (start c).Sound :=
  ⟨.start c, .start _ _, hc, nofun, nofun⟩

namespace Sound

theorem serves_step (ho : o.Sound) (x : Deed) (hi : (o.step x).serving = some i) :
    ∃ left report, (o.step x).calls[i]? = some (.pending left report) := by
  cases x with
  | call n =>
    obtain ⟨left, report, hcall⟩ := ho.serves i hi
    have hlt := (List.getElem?_eq_some_iff.mp hcall).1
    exact ⟨left, report, (List.getElem?_append_left hlt).trans hcall⟩
  | act a =>
    rw [step] at hi ⊢
    by_cases ha : a = .round
    · rw [act, if_pos ha] at hi ⊢
      exact ho.serves i hi
    rw [getElem?_calls_act o ha]
    rw [act, if_neg ha] at hi
    by_cases hheld : (o.desk.step a).holder.isSome = true
    · have hi : o.serving = some i := (if_pos hheld).symm.trans hi
      obtain ⟨left, report, hcall⟩ := ho.serves i hi
      obtain ⟨left', report', hanswer⟩ := answer_pending hheld left report
      exact ⟨left', report', by rw [hcall, Option.map_some, if_pos hi, hanswer]⟩
    · cases (if_neg hheld).symm.trans hi
  | turn j =>
    rw [step] at hi ⊢
    rcases o.turn_cases j with
      hturn | ⟨left, report, answer, hj, hne, -, hturn⟩ | ⟨left, report, hj, hturn⟩ <;>
      rw [hturn] at hi ⊢
    · exact ho.serves i hi
    · obtain ⟨left', report', hcall⟩ := ho.serves i hi
      refine ⟨left', report', ?_⟩
      have hij : j ≠ i := fun heq => hne (heq ▸ hi)
      rw [List.getElem?_set_ne hij]
      exact hcall
    · have hlt := (List.getElem?_eq_some_iff.mp hj).1
      have hi : (if (o.desk.step .round).holder.isSome then some j else none) = some i := hi
      split at hi
      · obtain rfl := Option.some.inj hi
        exact ⟨_, _, List.getElem?_set_self hlt⟩
      · cases hi

theorem waits_step (ho : o.Sound) (x : Deed) (hround : (o.step x).desk.holder = some .round) :
    (o.step x).serving.isSome := by
  cases x with
  | call => exact ho.waits hround
  | act a =>
    rw [step] at hround ⊢
    by_cases ha : a = .round
    · rw [act, if_pos ha] at hround ⊢
      exact ho.waits hround
    rw [act, if_neg ha] at hround ⊢
    have hheld : (o.desk.step a).holder.isSome = true := hround ▸ rfl
    show (if (o.desk.step a).holder.isSome then o.serving else none).isSome = true
    rw [if_pos hheld]
    exact ho.waits (Desk.holder_of_round ha hround)
  | turn j =>
    rw [step] at hround ⊢
    rcases o.turn_cases j with hturn | ⟨_, _, _, -, -, -, hturn⟩ | ⟨_, _, -, hturn⟩ <;>
      rw [hturn] at hround ⊢
    · exact ho.waits hround
    · exact ho.waits hround
    · have hheld : (o.desk.step .round).holder.isSome = true := hround ▸ rfl
      show (if (o.desk.step .round).holder.isSome then some j else none).isSome = true
      rw [if_pos hheld]
      rfl

theorem step (ho : o.Sound) (x : Deed) : (o.step x).Sound := by
  have hdesk : (o.step x).desk.Sound ∧ (o.step x).desk.hall.Tells ∧
      (o.step x).desk.hall.scheduler.Advances := by
    rcases o.desk_step x with hsame | ⟨a, hstep, -⟩
    · exact hsame ▸ ⟨ho.desk, ho.tells, ho.schedule⟩
    · rw [hstep]
      exact ⟨ho.desk.step a, Hall.run_keeps (fun _ e hs ht => ht.step hs e) ho.desk.hall ho.tells _,
        Desk.advances_step ho.schedule a⟩
  exact ⟨hdesk.1, hdesk.2.1, hdesk.2.2, fun _ => ho.serves_step x, ho.waits_step x⟩

theorem run (ho : o.Sound) (deeds : List Deed) : (o.run deeds).Sound := by
  induction deeds generalizing o with
  | nil => exact ho
  | cons x deeds ih => exact ih (ho.step x)

end Sound

/-! ### Runs -/

/-- What is true of the hall whatever happens there stays true. -/
theorem hall_run {P : Hall UnitId Simulation → Prop}
    (hstep : ∀ h e, h.Sound → P h → P (h.step Simulation.step e)) (ho : o.Sound)
    (hP : P o.desk.hall) (deeds : List Deed) : P (o.run deeds).desk.hall := by
  induction deeds generalizing o with
  | nil => exact hP
  | cons x deeds ih =>
    refine ih (ho.step x) ?_
    rcases o.desk_step x with hsame | ⟨a, hdesk, -⟩
    · exact hsame ▸ hP
    · rw [hdesk]
      exact Hall.run_keeps hstep ho.desk.hall hP _

theorem reports_run {c : StepCall} (hc : o.calls[i]? = some c) (h : c.Reports unit ∨ c.Errs)
    (deeds : List Deed) :
    ∃ c', (o.run deeds).calls[i]? = some c' ∧ (c'.Reports unit ∨ c'.Errs) := by
  induction deeds generalizing o c with
  | nil => exact ⟨c, hc, h⟩
  | cons x deeds ih =>
    obtain ⟨c', hc', h'⟩ := reports_step hc h x
    exact ih hc' h'

/-- What nothing but one kind of act brings about at the desk comes from someone who did it. -/
theorem brought_run (holds P : Desk → Prop) {a : Act} (ha : a ≠ .round)
    (hstep : ∀ (o : Office) b, o.Sound → holds (o.desk.step b) → holds o.desk ∨ b = a ∧ P o.desk)
    (ho : o.Sound) {deeds : List Deed} (h : holds (o.run deeds).desk) :
    holds o.desk ∨
      ∃ before later, deeds = before ++ .act a :: later ∧ P (o.run before).desk := by
  have hmakes : ∀ (o : Office) (x : Deed), o.Sound → holds (o.step x).desk →
      holds o.desk ∨ x = .act a ∧ P o.desk := by
    intro o x ho h
    rcases o.desk_step x with hsame | ⟨b, hdesk, hx⟩
    · exact .inl (hsame ▸ h)
    · rw [hdesk] at h
      refine (hstep o b ho h).imp_right fun ⟨hb, hP⟩ => ?_
      subst hb
      rcases hx with ⟨hround, -⟩ | ⟨-, hx⟩
      · exact absurd hround ha
      · exact ⟨hx, hP⟩
  refine (exists_step_of_foldl step Sound (fun o => holds o.desk) (fun _ x ho => ho.step x) hmakes
    ho h).imp_right ?_
  rintro ⟨before, _, later, hdeeds, rfl, hP⟩
  exact ⟨before, later, hdeeds, hP⟩

/-- A round is waited for until someone leaves. -/
theorem left_run (ho : o.Sound) {deeds : List Deed} (hl : (o.run deeds).desk.hall.Left k) :
    o.desk.hall.Left k ∨ ∃ before later, deeds = before ++ .act .leave :: later ∧
      ∃ w, (o.run before).desk.hall.Leaves k w :=
  brought_run (·.hall.Left k) (fun d => ∃ w, d.hall.Leaves k w) (a := .leave) nofun
    (fun _ _ ho hl => Desk.left_step ho.desk hl) ho hl

/-- Who gets on the schedule has been restored. -/
theorem scheduled_run (ho : o.Sound) {deeds : List Deed}
    (hunit : unit ∈ (o.run deeds).desk.hall.scheduler.units) :
    unit ∈ o.desk.hall.scheduler.units ∨ ∃ before later,
      deeds = before ++ .act .handle :: later ∧ (o.run before).desk.Restores unit :=
  brought_run (unit ∈ ·.hall.scheduler.units) (·.Restores unit) (a := .handle) nofun
    (fun _ _ ho hunit => Desk.mem_units_step ho.schedule.nodup hunit) ho hunit

/-- The wait for a round comes out interrupted if someone has interrupted it. -/
theorem interrupted_run (ho : o.Sound) {deeds : List Deed} {r : Round UnitId}
    (hr : (o.run deeds).desk.hall.rounds[k]? = some r) (hi : r.latch.interrupted = true) :
    (∃ r, o.desk.hall.rounds[k]? = some r ∧ r.latch.interrupted = true) ∨
      ∃ before later, deeds = before ++ .act .interrupt :: later ∧
        (o.run before).desk.hall.inProgress = some k :=
  brought_run (fun d => ∃ r, d.hall.rounds[k]? = some r ∧ r.latch.interrupted = true)
    (·.hall.inProgress = some k) (a := .interrupt) nofun
    (fun _ _ ho hi => Desk.interrupted_step ho.desk hi) ho ⟨r, hr, hi⟩

end Office
end Rewind
