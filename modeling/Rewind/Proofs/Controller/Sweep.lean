import Rewind.Proofs.Controller
import Rewind.Proofs.Table

/-! Going over the units one by one, up to the first failure.

Recording all units and rolling all of them back are passes of one kind. Each unit is
changed for itself, and a failure ends the pass with the units before it changed and the
others as they were (`Team.sweep_split`). The loops of the controller come to such passes
(`Controller.recordEach_eq`, `Controller.restoreEach_eq`). A round of `stepBack` leaves out
the units that have nothing on record; to them a rollback does nothing either, so the
round is the pass of `restoreNow` with a shorter report (`Controller.backEach_eq`). -/

namespace Rewind

/-! ### Logs -/

/-- What is said of one unit, in the order in which it was said. -/
def said {β : Type} (unit : UnitId) (log : List (UnitId × β)) : List β :=
  log.filterMap fun e => if e.1 = unit then some e.2 else none

section
variable {β γ : Type} {unit : UnitId}

theorem said_cons_self (b : β) (log : List (UnitId × β)) :
    said unit ((unit, b) :: log) = b :: said unit log :=
  List.filterMap_cons_some (if_pos rfl)

theorem said_cons_of_ne {v : UnitId} (h : v ≠ unit) (b : β) (log : List (UnitId × β)) :
    said unit ((v, b) :: log) = said unit log :=
  List.filterMap_cons_none (if_neg h)

theorem mem_said {log : List (UnitId × β)} {b : β} :
    b ∈ said unit log ↔ (unit, b) ∈ log := by
  rw [said, List.mem_filterMap]
  constructor
  · rintro ⟨⟨u, b'⟩, he, hb⟩
    split at hb
    · next hu => exact Option.some.inj hb ▸ (show u = unit from hu) ▸ he
    · cases hb
  · exact fun h => ⟨(unit, b), h, if_pos rfl⟩

theorem said_append (log log' : List (UnitId × β)) :
    said unit (log ++ log') = said unit log ++ said unit log' :=
  List.filterMap_append

theorem said_map (g : β → γ) (log : List (UnitId × β)) :
    said unit (log.map fun e => (e.1, g e.2)) = (said unit log).map g := by
  rw [said, said, List.filterMap_map, List.map_filterMap]
  refine List.filterMap_congr fun e _ => ?_
  show (if e.1 = unit then _ else _) = Option.map g (if e.1 = unit then _ else _)
  split <;> rfl

theorem said_eq_nil {log : List (UnitId × β)} (h : ∀ e ∈ log, e.1 ≠ unit) : said unit log = [] := by
  refine List.filterMap_eq_nil_iff.mpr fun e he => if_neg (h e he)

/-- Where every unit has at most one thing to say. -/
theorem said_filterMap {units : List UnitId} (hnodup : units.Nodup) (g : UnitId → Option β) :
    said unit (units.filterMap fun u => (g u).map (u, ·)) =
      if unit ∈ units then (g unit).toList else [] := by
  induction units with
  | nil => rfl
  | cons u units ih =>
    obtain ⟨hnot, hnodup⟩ := List.nodup_cons.mp hnodup
    by_cases hu : u = unit
    · subst hu
      rw [if_pos List.mem_cons_self]
      cases hg : g u with
      | none => rw [List.filterMap_cons_none (by rw [hg]; rfl), ih hnodup, if_neg hnot]; rfl
      | some b =>
        rw [List.filterMap_cons_some (by rw [hg]; rfl), said_cons_self, ih hnodup, if_neg hnot]
        rfl
    · have hmem : unit ∈ u :: units ↔ unit ∈ units := by simp [Ne.symm hu]
      simp only [hmem, ← ih hnodup]
      cases hg : g u with
      | none => rw [List.filterMap_cons_none (by rw [hg]; rfl)]
      | some b => rw [List.filterMap_cons_some (by rw [hg]; rfl), said_cons_of_ne hu]

theorem said_flatMap {α : Type} (as : List α) (f : α → List (UnitId × β)) :
    said unit (as.flatMap f) = as.flatMap fun a => said unit (f a) := by
  rw [said, List.filterMap_flatMap]
  rfl

theorem said_team {team : Team} (hnodup : (team.map Prod.fst).Nodup) (g : Simulation → Option β) :
    said unit (team.filterMap fun u => (g u.2).map (u.1, ·)) =
      ((Table.find unit team).bind g).toList := by
  have hteam : (team.filterMap fun u => (g u.2).map (u.1, ·)) =
      (team.map Prod.fst).filterMap fun v => ((Table.find v team).bind g).map (v, ·) := by
    rw [List.filterMap_map]
    refine List.filterMap_congr fun u hu => ?_
    have hu : Table.find u.1 team = some u.2 := Table.get?_of_mem (t := ⟨team⟩) hnodup hu
    simp [hu]
  rw [hteam, said_filterMap hnodup]
  split
  · rfl
  · next hnot =>
    have hnone : Table.find unit team = none := (Table.get?_eq_none_iff (t := ⟨team⟩)).mpr hnot
    rw [hnone]
    rfl

end

/-! ### Passes -/

/-- What came of a pass: the units after it, what was answered for those that were changed,
and the unit that ended it. -/
structure Sweep (α : Type) where
  team : Team
  answers : List (UnitId × α)
  failure : Option (UnitId × HistoryError)

def Sweep.result {α : Type} (w : Sweep α) : Except ControllerError Unit :=
  match w.failure with
  | none => .ok ()
  | some (unit, e) => .error (.ofHistory unit e)

section
variable {α : Type} (f : Simulation → Except HistoryError (Simulation × α))

/-- Changes units one after the other up to the first that fails. -/
def Team.sweep : Team → Sweep α
  | [] => ⟨[], [], none⟩
  | (unit, s) :: team =>
    match f s with
    | .error e => ⟨(unit, s) :: team, [], some (unit, e)⟩
    | .ok (t, a) =>
      { sweep team with
        team := (unit, t) :: (sweep team).team
        answers := (unit, a) :: (sweep team).answers }

/-- The unit after its turn. -/
def Simulation.moved (s : Simulation) : Simulation :=
  match f s with
  | .ok (t, _) => t
  | .error _ => s

/-- What is answered for it. -/
def Simulation.answer? (s : Simulation) : Option α :=
  match f s with
  | .ok (_, a) => some a
  | .error _ => none

variable {f} {s t : Simulation} {a : α} {unit : UnitId} {team : Team}

theorem Simulation.moved_of_ok (h : f s = .ok (t, a)) : s.moved f = t := by
  rw [moved, h]

theorem Simulation.answer?_eq_some : s.answer? f = some a ↔ ∃ t, f s = .ok (t, a) := by
  rw [answer?]
  split <;> simp_all

theorem Team.sweep_cons_of_ok (h : f s = .ok (t, a)) :
    sweep f ((unit, s) :: team) =
      { sweep f team with
        team := (unit, t) :: (sweep f team).team
        answers := (unit, a) :: (sweep f team).answers } := by
  rw [sweep, h]

theorem Team.sweep_cons_of_error {e : HistoryError} (h : f s = .error e) :
    sweep f ((unit, s) :: team) = ⟨(unit, s) :: team, [], some (unit, e)⟩ := by
  rw [sweep, h]

variable (f) in
/-- A pass changes the units before the first that fails, which are all if none does. -/
theorem Team.sweep_split (team : Team) :
    ∃ gone rest, team = gone ++ rest ∧ (∀ u ∈ gone, ∃ p, f u.2 = .ok p) ∧
      (sweep f team).team = gone.map (fun u => (u.1, u.2.moved f)) ++ rest ∧
      (sweep f team).answers = gone.filterMap (fun u => (u.2.answer? f).map (u.1, ·)) ∧
      ((sweep f team).failure = none ∧ rest = [] ∨
        ∃ unit s later e, rest = (unit, s) :: later ∧ f s = .error e ∧
          (sweep f team).failure = some (unit, e)) := by
  induction team with
  | nil => exact ⟨[], [], rfl, List.forall_mem_nil _, rfl, rfl, .inl ⟨rfl, rfl⟩⟩
  | cons u team ih =>
    obtain ⟨id, s⟩ := u
    cases hs : f s with
    | error e =>
      rw [sweep_cons_of_error hs]
      exact ⟨[], _, rfl, List.forall_mem_nil _, rfl, rfl, .inr ⟨id, s, team, e, rfl, hs, rfl⟩⟩
    | ok p =>
      obtain ⟨t, a⟩ := p
      obtain ⟨gone, rest, hteam, hgone, hafter, hanswers, hend⟩ := ih
      have hanswer : s.answer? f = some a := by rw [Simulation.answer?, hs]
      rw [sweep_cons_of_ok hs]
      refine ⟨(id, s) :: gone, rest, by rw [hteam]; rfl, List.forall_mem_cons.mpr ⟨⟨_, hs⟩, hgone⟩,
        ?_, ?_, hend⟩
      · simp only [hafter, List.map_cons, Simulation.moved_of_ok hs, List.cons_append]
      · simp only [hanswers, List.filterMap_cons, hanswer, Option.map_some]

/-- A pass in which nothing fails. -/
theorem Team.sweep_of_ok (h : ∀ u ∈ team, ∃ p, f u.2 = .ok p) :
    sweep f team = ⟨team.map fun u => (u.1, u.2.moved f),
      team.filterMap fun u => (u.2.answer? f).map (u.1, ·), none⟩ := by
  induction team with
  | nil => rfl
  | cons u team ih =>
    obtain ⟨⟨⟨t, a⟩, hu⟩, hteam⟩ := List.forall_mem_cons.mp h
    have hanswer : u.2.answer? f = some a := by rw [Simulation.answer?, hu]
    rw [sweep_cons_of_ok hu, ih hteam, List.map_cons, List.filterMap_cons, hanswer,
      Simulation.moved_of_ok hu]
    rfl

variable (f) in
theorem Team.keys_sweep (team : Team) : (sweep f team).team.map Prod.fst = team.map Prod.fst := by
  obtain ⟨gone, rest, hteam, -, hafter, -⟩ := sweep_split f team
  rw [hafter, hteam, List.map_append, List.map_append, List.map_map]
  rfl

variable (f) in
/-- A pass gives each unit one turn, or none. -/
theorem Team.sweep_turn (hnodup : (team.map Prod.fst).Nodup) (v : UnitId) :
    (Table.find v (sweep f team).team = Table.find v team ∧ said v (sweep f team).answers = []) ∨
    ∃ s t a, Table.find v team = some s ∧ f s = .ok (t, a) ∧
      Table.find v (sweep f team).team = some t ∧ said v (sweep f team).answers = [a] := by
  induction team with
  | nil => exact .inl ⟨rfl, rfl⟩
  | cons u team ih =>
    obtain ⟨id, s⟩ := u
    obtain ⟨hnot, hnodup⟩ := List.nodup_cons.mp hnodup
    cases hs : f s with
    | error e =>
      rw [sweep_cons_of_error hs]
      exact .inl ⟨rfl, rfl⟩
    | ok p =>
      obtain ⟨t, a⟩ := p
      rw [sweep_cons_of_ok hs]
      by_cases hv : id = v
      · subst hv
        refine .inr ⟨s, t, a, if_pos rfl, hs, if_pos rfl, ?_⟩
        have hrest : Table.find id team = none :=
          (Table.get?_eq_none_iff (t := ⟨team⟩)).mpr hnot
        rcases ih hnodup with ⟨-, hsaid⟩ | ⟨s', -, -, hsome, -⟩
        · rw [said_cons_self, hsaid]
        · rw [hrest] at hsome
          cases hsome
      · simp only [Table.find, if_neg hv, said_cons_of_ne hv]
        exact ih hnodup

end

/-! ### The loops of the controller -/

/-- Recording, as a step of a pass. It answers nothing. -/
def Simulation.recordTo (r : Recorder) (s : Simulation) :
    Except HistoryError (Simulation × Unit) :=
  (s.record r).map fun t => (t, ())

theorem Simulation.record_of_recordTo {r : Recorder} {s t : Simulation} {a : Unit}
    (h : recordTo r s = .ok (t, a)) : s.record r = .ok t := by
  rw [recordTo] at h
  cases hr : s.record r with
  | error e => rw [hr] at h; cases h
  | ok t' =>
    rw [hr] at h
    exact congrArg Except.ok (Prod.mk.inj (Except.ok.inj h)).1

def Team.record (r : Recorder) (team : Team) : Sweep Unit := sweep (Simulation.recordTo r) team

def Team.restore (r : Recorder) (team : Team) : Sweep Restored :=
  sweep (Simulation.restore · r) team

/-- The units that went back, and the cycles they went to. -/
def goals (answers : List (UnitId × Restored)) : List (UnitId × UInt64) :=
  answers.filterMap fun a =>
    match a.2 with
    | .to cycle => some (a.1, cycle)
    | .nothing => none

/-- A scheduler with more units registered. -/
def Scheduler.registerAll (s : Scheduler UnitId) (units : List UnitId) : Scheduler UnitId :=
  units.foldl register s

namespace Controller
variable {c : Controller} {todo : Team} (done : Team)

theorem recordEach_eq (hunits : c.units = ⟨done ++ todo⟩)
    (hnodup : ((done ++ todo).map Prod.fst).Nodup) :
    c.recordEach (todo.map Prod.fst) =
      ({ c with units := ⟨done ++ (Team.record c.recorder todo).team⟩ },
        (Team.record c.recorder todo).result) := by
  induction todo generalizing c done with
  | nil =>
    show (c, _) = ({ c with units := ⟨done ++ []⟩ }, _)
    rw [← hunits]
    rfl
  | cons u todo ih =>
    obtain ⟨unit, s⟩ := u
    have hget : c.units.get? unit = some s := Table.get?_append_cons hunits hnodup
    cases hs : s.record c.recorder with
    | error e =>
      have hf : Simulation.recordTo c.recorder s = .error e := by rw [Simulation.recordTo, hs]; rfl
      rw [Team.record, Team.sweep_cons_of_error hf, ← hunits]
      simp only [List.map_cons, recordEach, hget, hs]
      rfl
    | ok t =>
      have hf : Simulation.recordTo c.recorder s = .ok (t, ()) := by
        rw [Simulation.recordTo, hs]
        rfl
      have hrest := ih (c := { c with units := c.units.set unit t }) (done ++ [(unit, t)])
        (Table.set_append_cons hunits hnodup) (by simpa using hnodup)
      rw [Team.record, Team.sweep_cons_of_ok hf]
      simp only [List.map_cons, recordEach, hget, hs, hrest, List.append_assoc]
      rfl

theorem restoreEach_eq (hunits : c.units = ⟨done ++ todo⟩)
    (hnodup : ((done ++ todo).map Prod.fst).Nodup) (answers : List (UnitId × Restored)) :
    c.restoreEach answers (todo.map Prod.fst) =
      ⟨{ c with
          units := ⟨done ++ (Team.restore c.recorder todo).team⟩
          scheduler := c.scheduler.registerAll
            ((goals (Team.restore c.recorder todo).answers).map Prod.fst) }, [],
        (Team.restore c.recorder todo).result.map fun _ =>
          answers ++ (Team.restore c.recorder todo).answers⟩ := by
  induction todo generalizing c done answers with
  | nil =>
    show Answer.mk c [] _ = ⟨{ c with units := ⟨done ++ []⟩ }, [], .ok (answers ++ [])⟩
    rw [← hunits, List.append_nil]
  | cons u todo ih =>
    obtain ⟨unit, s⟩ := u
    have hget : c.units.get? unit = some s := Table.get?_append_cons hunits hnodup
    cases hs : s.restore c.recorder with
    | error e =>
      rw [Team.restore, Team.sweep_cons_of_error hs, ← hunits]
      simp only [List.map_cons, restoreEach, hget, restoreUnit, hs]
      rfl
    | ok p =>
      obtain ⟨t, restored⟩ := p
      have hset : c.units.set unit t = ⟨done ++ [(unit, t)] ++ todo⟩ :=
        Table.set_append_cons hunits hnodup
      have hnodup' : ((done ++ [(unit, t)] ++ todo).map Prod.fst).Nodup := by simpa using hnodup
      rw [Team.restore, Team.sweep_cons_of_ok hs]
      rcases restored with cycle | _
      · have hrest := ih (c := { c with
          units := c.units.set unit t
          scheduler := c.scheduler.register unit }) _ hset hnodup' (answers ++ [(unit, .to cycle)])
        simp only [List.map_cons, restoreEach, hget, restoreUnit, hs, hrest, List.append_assoc]
        rfl
      · have hrest := ih (c := { c with units := c.units.set unit t }) _ hset hnodup'
          (answers ++ [(unit, .nothing)])
        simp only [List.map_cons, restoreEach, hget, restoreUnit, hs, hrest, List.append_assoc]
        rfl

end Controller

/-- A rollback does nothing to a unit that has nothing on record. -/
theorem Simulation.restore_of_not_canStepBack {s : Simulation} (r : Recorder)
    (h : s.canStepBack = false) : s.restore r = .ok (s, .nothing) := by
  obtain ⟨⟨context, root, cycle, history⟩, name, behaviors⟩ := s
  cases history with
  | none => rfl
  | some history =>
    obtain ⟨nodes, maxDepth⟩ := history
    cases nodes with
    | nil => rfl
    | cons n ns => cases h

namespace Controller

theorem restoreUnit_of_not_canStepBack {c : Controller} {unit : UnitId} {s : Simulation}
    (hget : c.units.get? unit = some s) (h : s.canStepBack = false) :
    c.restoreUnit unit s = .ok (c, .nothing) := by
  simp only [restoreUnit, Simulation.restore_of_not_canStepBack _ h, Table.set_of_get? hget]

theorem backEach_eq (c : Controller) (answers : List (UnitId × Restored)) (units : List UnitId) :
    c.backEach (goals answers) units =
      { c.restoreEach answers units with
        result := (c.restoreEach answers units).result.map goals } := by
  induction units generalizing c answers with
  | nil => rfl
  | cons unit units ih =>
    rw [backEach, restoreEach]
    cases hget : c.units.get? unit with
    | none => exact ih c answers
    | some s =>
      cases hback : s.canStepBack with
      | false =>
        have hgoals : goals (answers ++ [(unit, .nothing)]) = goals answers := by simp [goals]
        simp only [hback, restoreUnit_of_not_canStepBack hget hback, ← ih, hgoals]
        rfl
      | true =>
        simp only [hback, if_true]
        rcases c.restoreUnit unit s with e | ⟨c', cycle | _⟩
        · rfl
        · have hgoals :
              goals (answers ++ [(unit, .to cycle)]) = goals answers ++ [(unit, cycle)] := by
            simp [goals]
          simp only [← ih, hgoals]
        · have hgoals : goals (answers ++ [(unit, .nothing)]) = goals answers := by simp [goals]
          simp only [← ih, hgoals]

end Controller
end Rewind
