import Rewind.Proofs.History.Copies
import Rewind.Sample
import Rewind.Simulation.Basic

/-! The recorder next to a machine that keeps plain copies.

The reference keeps its past as copies of trees and has neither snapshots nor jobs.
Whatever is done to a unit, and whenever compression ends, the recorder answers and
leaves the unit as the reference does, where a rollback of the reference fails on the
copies that the format cannot read (`StandardFormat.trace_eq_reference`). A recorder that
could bring back all it takes would never fail for that. -/

namespace Rewind

/-! ### Moves and what is seen of them -/

/-- What is done to a unit, and what happens to its history meanwhile. -/
inductive Move where
  | record
  | restore
  | step
  | setCycle (cycle : UInt64)
  | edit (change : Entity → Entity)
  /-- The job ends that has a node, counted from the newest. -/
  | endJob (node : Nat) (succeeds : Bool)

inductive Reply where
  | done
  | recorded (cycle : UInt64)
  | restored (r : Restored)
  | stepped (o : Outcome)
  | failed (f : Failure)
deriving DecidableEq

/-- The answer to a move and the unit after it, with the recorded cycles, the oldest first. -/
structure View where
  reply : Reply
  root : Entity
  cycle : UInt64
  recorded : List UInt64

structure Machine (σ : Type) where
  move : σ → Move → σ × Reply
  root : σ → Entity
  cycle : σ → UInt64
  recorded : σ → List UInt64

def Machine.view {σ : Type} (m : Machine σ) (s : σ) (reply : Reply) : View :=
  ⟨reply, m.root s, m.cycle s, m.recorded s⟩

def Machine.trace {σ : Type} (m : Machine σ) (s : σ) : List Move → List View
  | [] => []
  | move :: moves =>
    m.view (m.move s move).1 (m.move s move).2 :: m.trace (m.move s move).1 moves

/-! ### The two machines -/

namespace Recorder

/-- A job that has a node ends. -/
def endJob (succeeds : Bool) (n : Node) : Node := if succeeds then n.settle else n.finish none

def move (r : Recorder) (s : Simulation) : Move → Simulation × Reply
  | .record =>
    match s.record r with
    | .ok s => (s, .recorded s.cycle)
    | .error e => (s, .failed e.failure)
  | .restore =>
    match s.restore r with
    | .ok (s, restored) => (s, .restored restored)
    | .error e => (s, .failed e.failure)
  | .step => (s.step.1, .stepped s.step.2)
  | .setCycle cycle => ({ s with cycle }, .done)
  | .edit change => ({ s with root := change s.root }, .done)
  | .endJob i succeeds =>
    let history := s.history.map fun h => { h with nodes := h.nodes.modify i (endJob succeeds) }
    ({ s with history }, .done)

def machine (r : Recorder) : Machine Simulation where
  move := r.move
  root s := s.root
  cycle s := s.cycle
  recorded s := s.history.elim [] History.cycles

end Recorder

/-- A unit and plain copies of its past, the newest first. -/
structure Reference where
  context : Context
  behaviors : List Behavior
  root : Entity
  cycle : UInt64
  copies : List (UInt64 × Entity)

namespace Reference

/-- The unit of a simulation, with nothing recorded. -/
def ofSimulation (s : Simulation) : Reference :=
  { context := s.context, behaviors := s.behaviors, root := s.root, cycle := s.cycle, copies := [] }

def step (m : Reference) : Reference × Outcome :=
  match Simulation.runBehaviors m.context m.cycle m.behaviors m.root with
  | (behaviors, root, .running) => ({ m with behaviors, root, cycle := m.cycle + 1 }, .running)
  | (behaviors, root, .halted) => ({ m with behaviors, root, cycle := m.cycle + 1 }, .halted)
  | (behaviors, root, outcome) => ({ m with behaviors, root }, outcome)

/-- Copies are taken of what the format writes, and the readable ones are brought back. -/
def move (f : StandardFormat) (limit : Option Nat) (readable : Entity → Bool) (m : Reference) :
    Move → Reference × Reply
  | .record =>
    match f.format.encodeTree m.root m.cycle with
    | .ok _ => ({ m with copies := pushCopy limit (m.cycle, m.root) m.copies }, .recorded m.cycle)
    | .error e => (m, .failed (.unwritable e))
  | .restore =>
    match pastCopies m.cycle m.copies with
    | [] => ({ m with copies := [] }, .restored .nothing)
    | (cycle, root) :: older =>
      match m.context.recall readable root with
      | .ok root => ({ m with root, cycle, copies := older }, .restored (.to cycle))
      | .error e => (m, .failed e)
  | .step => (m.step.1, .stepped m.step.2)
  | .setCycle cycle => ({ m with cycle }, .done)
  | .edit change => ({ m with root := change m.root }, .done)
  | .endJob _ _ => (m, .done)

def machine (f : StandardFormat) (limit : Option Nat) (readable : Entity → Bool) :
    Machine Reference where
  move := move f limit readable
  root := root
  cycle := cycle
  recorded m := (m.copies.map Prod.fst).reverse

end Reference

/-! ### Simulation -/

variable {f : StandardFormat} {limit : Option Nat}

/-- The simulation is in the state of the reference, and its history keeps the copies. -/
structure Mirrors (f : StandardFormat) (limit : Option Nat) (s : Simulation) (m : Reference) :
    Prop where
  context : s.context = m.context
  behaviors : s.behaviors = m.behaviors
  root : s.root = m.root
  cycle : s.cycle = m.cycle
  keeps : s.toWorld.Keeps f limit m.copies

namespace Mirrors
variable {s : Simulation} {m : Reference}

theorem ofSimulation (h : s.history = none) : Mirrors f limit s (.ofSimulation s) := by
  refine ⟨rfl, rfl, rfl, rfl, ?_⟩
  rw [World.Keeps, h]
  exact .new

theorem recorded (h : Mirrors f limit s m) :
    s.history.elim [] History.cycles = (m.copies.map Prod.fst).reverse := by
  have hk := h.keeps
  rw [World.Keeps] at hk
  rw [← hk.cycles]
  cases s.history <;> rfl

theorem view (level : Option Nat) (h : Mirrors f limit s m) (readable : Entity → Bool)
    (reply : Reply) :
    (f.recorder level limit).machine.view s reply =
      (Reference.machine f limit readable).view m reply := by
  simp only [Machine.view, Recorder.machine, Reference.machine, h.root, h.cycle, h.recorded]

theorem step (h : Mirrors f limit s m) :
    Mirrors f limit s.step.1 m.step.1 ∧ s.step.2 = m.step.2 := by
  rw [Simulation.step, Reference.step, h.context, h.behaviors, h.root, h.cycle]
  rcases Simulation.runBehaviors m.context m.cycle m.behaviors m.root with
    ⟨behaviors, root, outcome⟩
  cases outcome <;> exact ⟨⟨rfl, rfl, rfl, rfl, h.keeps⟩, rfl⟩

theorem record (level : Option Nat) (h : Mirrors f limit s m) (ht : m.root.Tidy)
    (hh : m.root.Housed) (readable : Entity → Bool) :
    Mirrors f limit ((f.recorder level limit).move s .record).1
        (m.move f limit readable .record).1 ∧
      ((f.recorder level limit).move s .record).2 = (m.move f limit readable .record).2 := by
  rw [Recorder.move, Reference.move, Simulation.record]
  cases hencode : f.format.encodeTree m.root m.cycle with
  | error e =>
    have hrecord : (f.recorder level limit).record s.toWorld = .error (.encode e) := by
      rw [← h.root, ← h.cycle] at hencode
      simp only [Recorder.record, StandardFormat.recorder, hencode]
    rw [hrecord]
    exact ⟨h, rfl⟩
  | ok bs =>
    rw [← h.root, ← h.cycle] at hencode
    obtain ⟨history, hrecord, hkeeps⟩ := StandardFormat.record_keeps level h.keeps
      (h.root ▸ ht) (h.root ▸ hh) hencode
    rw [hrecord]
    rw [h.root, h.cycle] at hkeeps
    exact ⟨⟨h.context, h.behaviors, h.root, h.cycle, hkeeps⟩, congrArg Reply.recorded h.cycle⟩

theorem restore (level : Option Nat) (h : Mirrors f limit s m) :
    Mirrors f limit ((f.recorder level limit).move s .restore).1
        (m.move f limit f.reads .restore).1 ∧
      ((f.recorder level limit).move s .restore).2 = (m.move f limit f.reads .restore).2 := by
  rw [Recorder.move, Reference.move, Simulation.restore]
  cases hpast : pastCopies m.cycle m.copies with
  | nil =>
    rw [← h.cycle] at hpast
    obtain ⟨history, hrestore, hkeeps⟩ :=
      StandardFormat.restore_nothing level h.keeps hpast
    rw [hrestore]
    exact ⟨⟨h.context, h.behaviors, h.root, h.cycle, hkeeps⟩, rfl⟩
  | cons copy older =>
    rw [← h.cycle] at hpast
    have hrestore := StandardFormat.restore_past level h.keeps hpast
    rw [h.context] at hrestore
    simp only
    cases hrecall : m.context.recall f.reads copy.2 with
    | error e =>
      rw [hrecall] at hrestore
      obtain ⟨e', hrestore, hfailure⟩ := hrestore
      rw [hrestore]
      exact ⟨h, congrArg Reply.failed hfailure⟩
    | ok root =>
      rw [hrecall] at hrestore
      obtain ⟨history, hrestore, hkeeps⟩ := hrestore
      rw [hrestore]
      exact ⟨⟨rfl, h.behaviors, rfl, rfl, hkeeps⟩, rfl⟩

theorem endJob (level : Option Nat) (h : Mirrors f limit s m) (i : Nat) (succeeds : Bool) :
    Mirrors f limit ((f.recorder level limit).move s (.endJob i succeeds)).1 m := by
  refine ⟨h.context, h.behaviors, h.root, h.cycle, ?_⟩
  have hk := h.keeps
  rw [World.Keeps] at hk ⊢
  show History.Keeps f limit (Option.getD (s.history.map _) _) m.copies
  cases hs : s.history with
  | none => rwa [hs] at hk
  | some history =>
    rw [hs] at hk
    refine hk.modify (fun n copy hn => ?_) i
    unfold Recorder.endJob
    split
    · exact hn.congr Node.cycle_settle Node.bytes?_settle
    · exact hn.congr (Node.cycle_finish none) Node.bytes?_finish_none

/-- One move keeps the simulation in the state of the reference, and the answers agree. -/
theorem move (level : Option Nat) (h : Mirrors f limit s m) (ht : m.root.Tidy)
    (hh : m.root.Housed) (x : Move) :
    Mirrors f limit ((f.recorder level limit).move s x).1 (m.move f limit f.reads x).1 ∧
      ((f.recorder level limit).move s x).2 = (m.move f limit f.reads x).2 := by
  cases x with
  | record => exact h.record level ht hh f.reads
  | restore => exact h.restore level
  | step => exact ⟨h.step.1, congrArg Reply.stepped h.step.2⟩
  | setCycle cycle => exact ⟨⟨h.context, h.behaviors, h.root, rfl, h.keeps⟩, rfl⟩
  | edit change =>
    exact ⟨⟨h.context, h.behaviors, congrArg change h.root, h.cycle, h.keeps⟩, rfl⟩
  | endJob i succeeds => exact ⟨h.endJob level i succeeds, rfl⟩

theorem trace (level : Option Nat) (h : Mirrors f limit s m) (ht : m.root.Tidy)
    (hh : m.root.Housed) (xs : List Move)
    (htrace : ∀ v ∈ (Reference.machine f limit f.reads).trace m xs, v.root.Tidy ∧ v.root.Housed) :
    (f.recorder level limit).machine.trace s xs =
      (Reference.machine f limit f.reads).trace m xs := by
  induction xs generalizing s m with
  | nil => rfl
  | cons x xs ih =>
    obtain ⟨hnext, hreply⟩ := h.move level ht hh x
    obtain ⟨⟨hnt, hnh⟩, hrest⟩ := List.forall_mem_cons.mp htrace
    have hview := hnext.view level f.reads ((f.recorder level limit).move s x).2
    rw [hreply] at hview
    exact congrArg₂ List.cons (hreply ▸ hview) (ih hnext hnt hnh hrest)

end Mirrors

/-! ### Bringing everything back -/

theorem Context.recall_of_readable {c : Context} {readable : Entity → Bool} {root : Entity}
    (h : readable root = true) : c.recall readable root = c.recall (fun _ => true) root := by
  rw [Context.recall, Context.recall, if_pos h, if_pos rfl]

theorem Context.recall_of_not_readable {c : Context} {readable : Entity → Bool} {root : Entity}
    (h : readable root = false) : c.recall readable root = .error .unreadable := by
  simp [Context.recall, h]

theorem Context.recall_ne_unreadable {c : Context} {root : Entity} :
    c.recall (fun _ => true) root ≠ .error .unreadable := by
  rw [Context.recall, if_pos rfl]
  split
  · split <;> simp
  · simp

namespace Reference
variable {m : Reference}

theorem move_ne_unreadable (x : Move) :
    (m.move f limit (fun _ => true) x).2 ≠ .failed .unreadable := by
  cases x with
  | record =>
    rw [move]
    split <;> simp
  | restore =>
    rw [move]
    split
    · simp
    · next cycle root older hpast =>
      cases hrecall : m.context.recall (fun _ => true) root with
      | ok root => simp
      | error e =>
        intro h
        cases h
        exact Context.recall_ne_unreadable hrecall
  | _ => simp [move]

/-- What the format can read makes no difference as long as it reads what it is asked to. -/
theorem move_eq_of_ne_unreadable {x : Move}
    (h : (m.move f limit f.reads x).2 ≠ .failed .unreadable) :
    m.move f limit f.reads x = m.move f limit (fun _ => true) x := by
  cases x with
  | restore =>
    rw [move, move] at *
    split
    · rfl
    · next cycle root older hpast =>
      rw [hpast] at h
      cases hr : f.reads root with
      | true => rw [Context.recall_of_readable hr]
      | false =>
        simp only [Context.recall_of_not_readable hr] at h
        exact absurd rfl h
  | _ => rfl

theorem trace_eq_iff (m : Reference) (xs : List Move) :
    (machine f limit f.reads).trace m xs = (machine f limit fun _ => true).trace m xs ↔
      ∀ v ∈ (machine f limit f.reads).trace m xs, v.reply ≠ .failed .unreadable := by
  induction xs generalizing m with
  | nil => simp [Machine.trace]
  | cons x xs ih =>
    rw [Machine.trace, Machine.trace, List.forall_mem_cons, List.cons.injEq]
    constructor
    · intro ⟨hview, hrest⟩
      have hreply : (m.move f limit f.reads x).2 = (m.move f limit (fun _ => true) x).2 :=
        congrArg View.reply hview
      have hne : (m.move f limit f.reads x).2 ≠ .failed .unreadable :=
        hreply ▸ move_ne_unreadable x
      have hmove := move_eq_of_ne_unreadable hne
      refine ⟨hne, (ih _).mp ?_⟩
      rw [hrest]
      exact congrArg (fun s => (machine f limit fun _ => true).trace s.1 xs) hmove.symm
    · intro ⟨hne, hrest⟩
      have hmove := move_eq_of_ne_unreadable hne
      have htrace := (ih _).mpr hrest
      refine ⟨congrArg (fun s => (machine f limit f.reads).view s.1 s.2) hmove, htrace.trans ?_⟩
      exact congrArg (fun s => (machine f limit fun _ => true).trace s.1 xs) hmove

end Reference

/-- **The recorder is a stack of plain copies**, of which it fails to bring back the ones
that its format cannot read; without such a failure it brings back all that it took. -/
theorem StandardFormat.trace_eq_reference (f : StandardFormat) (level limit : Option Nat)
    {s : Simulation} (hs : s.history = none) (xs : List Move) (ht : s.root.Tidy)
    (hh : s.root.Housed)
    (htrace : ∀ v ∈ (Reference.machine f limit f.reads).trace (.ofSimulation s) xs,
      v.root.Tidy ∧ v.root.Housed) :
    (f.recorder level limit).machine.trace s xs =
        (Reference.machine f limit f.reads).trace (.ofSimulation s) xs ∧
      ((f.recorder level limit).machine.trace s xs =
          (Reference.machine f limit fun _ => true).trace (.ofSimulation s) xs ↔
        ∀ v ∈ (f.recorder level limit).machine.trace s xs, v.reply ≠ .failed .unreadable) := by
  have heq := (Mirrors.ofSimulation hs).trace level ht hh xs htrace
  refine ⟨heq, ?_⟩
  rw [heq]
  exact Reference.trace_eq_iff _ _

namespace Sample

/-- A simulation of a tree that no behavior changes. -/
def still (root : Entity) : Simulation := { Simulation.new "unit" context with root }

/-- Goes back over an edit, by way of a compressed snapshot. -/
def roundTrip : List Move :=
  [.record, .endJob 0 true, .setCycle 1, .edit fun _ => .newRoot, .restore]

theorem trace_roundTrip_pair : (Reference.machine .json (some 3) StandardFormat.json.reads).trace
    (.ofSimulation (still pair)) roundTrip =
    [⟨.recorded 0, pair, 0, [0]⟩, ⟨.done, pair, 0, [0]⟩, ⟨.done, pair, 1, [0]⟩,
      ⟨.done, .newRoot, 1, [0]⟩, ⟨.restored (.to 0), pair, 0, []⟩] := by
  rfl

/-- Lists in one another. -/
def nested : Nat → Value
  | 0 => .nil
  | n + 1 => .list (.simple "unknown") [nested n]

/-- JSON takes three levels for a list and five around an attribute: one more than it reads. -/
def deep : Entity := Entity.newRoot.set "deep" (nested 41)

theorem built_nested (n : Nat) : (nested n).Built := by
  induction n with
  | zero => exact .plain rfl
  | succ n ih => exact .list fun v hv => List.mem_singleton.mp hv ▸ ih

end Sample

theorem StandardFormat.trace_eq_reference_pair :
    (json.recorder (some 6) (some 3)).machine.trace (Sample.still Sample.pair) Sample.roundTrip =
      [⟨.recorded 0, Sample.pair, 0, [0]⟩, ⟨.done, Sample.pair, 0, [0]⟩,
        ⟨.done, Sample.pair, 1, [0]⟩, ⟨.done, .newRoot, 1, [0]⟩,
        ⟨.restored (.to 0), Sample.pair, 0, []⟩] := by
  have hpair : Sample.pair.Tidy ∧ Sample.pair.Housed := ⟨Sample.built_pair.tidy, by decide⟩
  have hempty : Entity.newRoot.Tidy ∧ Entity.newRoot.Housed :=
    ⟨(Entity.Built.new _ _).tidy, by decide⟩
  refine (trace_eq_reference json (some 6) (some 3) rfl Sample.roundTrip hpair.1 hpair.2 ?_).1.trans
    Sample.trace_roundTrip_pair
  rw [Sample.trace_roundTrip_pair]
  simp [hpair, hempty]

/-- A tree that nests too deep is recorded, and then it cannot be brought back. -/
theorem StandardFormat.trace_ne_reference_deep :
    (json.recorder none none).machine.trace (Sample.still Sample.deep)
        [.record, .setCycle 1, .restore] ≠
      (Reference.machine .json none fun _ => true).trace (.ofSimulation (Sample.still Sample.deep))
        [.record, .setCycle 1, .restore] := by
  have hdeep : Sample.deep.Tidy ∧ Sample.deep.Housed :=
    ⟨(Entity.Built.set (.new _ _) (Sample.built_nested 41)).tidy, by decide +kernel⟩
  have hw : json.writes Sample.deep = true := by decide +kernel
  have hr : json.reads Sample.deep = false := by decide +kernel
  obtain ⟨bs, hencode, -⟩ := encodeTree_of_writes hw 0
  have htrace : (Reference.machine json none json.reads).trace
      (.ofSimulation (Sample.still Sample.deep)) [.record, .setCycle 1, .restore] =
      [⟨.recorded 0, Sample.deep, 0, [0]⟩, ⟨.done, Sample.deep, 1, [0]⟩,
        ⟨.failed .unreadable, Sample.deep, 1, [0]⟩] := by
    simp [Machine.trace, Machine.view, Reference.machine, Reference.move, Reference.ofSimulation,
      Sample.still, Simulation.new, pushCopy, newest, pastCopies, hencode,
      Context.recall_of_not_readable hr]
  have hmirrors : Mirrors json none (Sample.still Sample.deep)
      (.ofSimulation (Sample.still Sample.deep)) :=
    .ofSimulation rfl
  rw [hmirrors.trace none hdeep.1 hdeep.2 _ (by rw [htrace]; simp [hdeep])]
  refine mt (Reference.trace_eq_iff _ _).mp fun h => ?_
  rw [htrace] at h
  exact h ⟨.failed .unreadable, Sample.deep, 1, [0]⟩ (by simp) rfl

end Rewind
