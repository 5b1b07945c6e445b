import Rewind.Proofs.Closure
import Rewind.Proofs.History.Reference
import Rewind.Proofs.History.Timeline
import Rewind.Proofs.JsonText

/-! What a recorder takes and what it brings back.

A recording lies on top of the history until the next one or the next rollback, whatever is
done to the unit and whenever compression ends (`Simulation.OnTop.run`). So a rollback from
another cycle reads the bytes that were recorded. The binary format reads all it writes. JSON
turns down the floats it could not read, but not the texts that nest too deep for it, and those
are recorded in vain (`StandardFormat.restore_of_record`). -/

namespace Rewind

/-! ### Between recordings -/

/-- Neither records nor rolls back. -/
def Move.IsChange : Move → Prop
  | .record | .restore => False
  | _ => True

/-- The unit after some moves. -/
def Recorder.run (r : Recorder) (s : Simulation) (xs : List Move) : Simulation :=
  xs.foldl (fun s x => (r.move s x).1) s

/-- There is room for a node. Limits are clamped to one when a history is made. -/
def World.HasRoom (w : World) : Prop := ∀ h, w.history = some h → h.maxDepth ≠ some 0

theorem World.hasRoom_of_none {w : World} (h : w.history = none) : w.HasRoom := by
  intro history hsome
  rw [h] at hsome
  cases hsome

/-- The node holds bytes that were recorded at a cycle. -/
structure Node.Holds (n : Node) (cycle : UInt64) (bs : Bytes) : Prop where
  cycle : n.cycle = cycle
  bytes : n.bytes? = some bs

variable {r : Recorder} {cycle : UInt64} {bs : Bytes}

theorem Recorder.holds_node (r : Recorder) (cycle : UInt64) (bs : Bytes) :
    (r.node cycle bs).Holds cycle bs :=
  ⟨r.cycle_node cycle bs, r.bytes?_node cycle bs⟩

theorem Node.Holds.endJob {n : Node} (h : n.Holds cycle bs) (succeeds : Bool) :
    (Recorder.endJob succeeds n).Holds cycle bs := by
  unfold Recorder.endJob
  split
  · exact ⟨Node.cycle_settle.trans h.cycle, Node.bytes?_settle.trans h.bytes⟩
  · exact ⟨(Node.cycle_finish none).trans h.cycle, Node.bytes?_finish_none.trans h.bytes⟩

theorem History.nodes_push {h : History} (hroom : h.maxDepth ≠ some 0) (n : Node) :
    ∃ older, (h.push n).nodes = n :: older := by
  rw [push]
  cases hmax : h.maxDepth with
  | none => exact ⟨_, rfl⟩
  | some limit =>
    cases limit with
    | zero => exact absurd hmax hroom
    | succ limit => exact ⟨_, rfl⟩

theorem History.maxDepth_new (limit : Option Nat) : (History.new limit).maxDepth ≠ some 0 := by
  cases limit with
  | none => nofun
  | some limit =>
    intro h
    have hzero : max 1 limit = 0 := Option.some.inj h
    omega

namespace Simulation

/-- The newest node of a unit holds bytes that were recorded at a cycle. -/
def OnTop (s : Simulation) (cycle : UInt64) (bs : Bytes) : Prop :=
  ∃ h n older, s.history = some h ∧ h.nodes = n :: older ∧ n.Holds cycle bs

namespace OnTop
variable {s t : Simulation}

/-- A recording puts what the format wrote on top, and changes nothing but the history. -/
theorem of_record (hroom : s.HasRoom) (h : s.record r = .ok t) :
    ∃ bs, r.format.encodeTree s.root s.cycle = .ok bs ∧ t.OnTop s.cycle bs ∧
      t = { s with history := t.history } := by
  rw [record, Recorder.record] at h
  split at h
  · cases h
  · next bs hencode =>
    cases h
    have hmax : (s.history.getD (.new r.maxDepth)).maxDepth ≠ some 0 := by
      cases hs : s.history with
      | none => exact History.maxDepth_new r.maxDepth
      | some history => exact hroom history hs
    obtain ⟨older, hnodes⟩ := History.nodes_push hmax (r.node s.cycle bs)
    exact ⟨bs, hencode, ⟨_, _, older, rfl, hnodes, r.holds_node s.cycle bs⟩, rfl⟩

/-- One change leaves the top node with its bytes, and the unit in its context. -/
theorem move (h : s.OnTop cycle bs) {x : Move} (hx : x.IsChange) :
    (r.move s x).1.OnTop cycle bs ∧ (r.move s x).1.context = s.context := by
  cases x with
  | record | restore => exact hx.elim
  | step =>
    rw [Recorder.move, step_eq]
    exact ⟨h, rfl⟩
  | setCycle | edit => exact ⟨h, rfl⟩
  | endJob i succeeds =>
    obtain ⟨history, n, older, hhistory, hnodes, hn⟩ := h
    have hmodify : ∃ n' older', history.nodes.modify i (Recorder.endJob succeeds) = n' :: older' ∧
        n'.Holds cycle bs := by
      rw [hnodes]
      cases i with
      | zero => exact ⟨_, older, List.modify_zero_cons _ _ _, hn.endJob succeeds⟩
      | succ i => exact ⟨n, _, List.modify_succ_cons _ _ _ _, hn⟩
    obtain ⟨n', older', hnodes', hn'⟩ := hmodify
    let history' := { history with nodes := history.nodes.modify i (Recorder.endJob succeeds) }
    refine ⟨⟨history', n', older', ?_, hnodes', hn'⟩, rfl⟩
    simp only [Recorder.move, hhistory]
    rfl

theorem run (h : s.OnTop cycle bs) {xs : List Move} (hxs : ∀ x ∈ xs, x.IsChange) :
    (r.run s xs).OnTop cycle bs ∧ (r.run s xs).context = s.context := by
  induction xs generalizing s with
  | nil => exact ⟨h, rfl⟩
  | cons x xs ih =>
    obtain ⟨hx, hrest⟩ := List.forall_mem_cons.mp hxs
    obtain ⟨hnext, hcontext⟩ := h.move (r := r) hx
    obtain ⟨hend, hsame⟩ := ih hnext hrest
    exact ⟨hend, hsame.trans hcontext⟩

/-- At another cycle the top node is what a rollback goes to. -/
theorem restore (h : s.OnTop cycle bs) (hcycle : s.cycle ≠ cycle) :
    (∀ root n, r.format.decodeClosedTree s.context bs = .ok (root, n) →
      ∃ history, s.restore r = .ok ({ s with root, cycle, history }, .to cycle)) ∧
    ∀ e, r.format.decodeClosedTree s.context bs = .error e →
      s.restore r = .error (.decode e) := by
  obtain ⟨history, n, older, hhistory, hnodes, hn⟩ := h
  have htarget : history.target? s.cycle = some (n, older) := by
    simp only [History.target?, hnodes, hn.cycle, if_neg (Ne.symm hcycle)]
  constructor
  · intro root m hdecode
    have htree : r.tree s.context n = .ok root := by
      simp only [Recorder.tree, hn.bytes, hdecode]
    refine ⟨some { history with nodes := older }, ?_⟩
    simp only [Simulation.restore, Recorder.restore, hhistory, htarget, htree, hn.cycle]
    rfl
  · intro e hdecode
    have htree : r.tree s.context n = .error (.decode e) := by
      simp only [Recorder.tree, hn.bytes, hdecode]
    simp only [Simulation.restore, Recorder.restore, hhistory, htarget, htree]
    rfl

end OnTop
end Simulation

/-! ### The limit of JSON texts -/

namespace StandardFormat
variable {f : StandardFormat} {root : Entity} {c : Context} {n : UInt64}

/-- Binary snapshots are readable, and JSON snapshots up to the depth limit of texts. -/
theorem reads_iff (hencode : f.format.encodeTree root n = .ok bs) :
    f.reads root = true ↔ f = .binary ∨ Json.textNesting bs ≤ 127 := by
  cases f with
  | binary => exact iff_of_true rfl (.inl rfl)
  | json =>
    have hw : json.writes root = true := by
      by_contra hw
      obtain ⟨e, he⟩ := encodeTree_of_not_writes (Bool.eq_false_of_not_eq_true hw) n
      rw [hencode] at he
      cases he
    have hf : Json.Finite (Document.ofTree root n).floats := List.all_eq_true.mp hw
    have hbs : json.format.encodeTree root n = .ok (Document.ofTree root n).jsonBytes :=
      Format.json_write_of_finite (Document.firstNonFinite?_eq_none.mpr hf)
    obtain rfl : (Document.ofTree root n).jsonBytes = bs := Except.ok.inj (hbs.symm.trans hencode)
    rw [Document.textNesting_jsonBytes, nesting_ofTree, reads, decide_eq_true_iff]
    have hlimit : Json.depthLimit = 127 := rfl
    constructor
    · intro h
      exact .inr (by omega)
    · rintro (h | h)
      · cases h
      · omega

/-- A closed tree of known names is decoded as it was if its snapshot is readable. -/
theorem decodeClosedTree_encodeTree (ht : root.Tidy) (hh : root.Housed) (hc : c.Knows root)
    (hclosed : root.Closed) (hencode : f.format.encodeTree root n = .ok bs) :
    f.format.decodeClosedTree c bs =
      if f.reads root then .ok (root, n) else .error (.malformed f.format.name) := by
  rw [Format.decodeClosedTree, read_encodeTree hencode]
  split
  · show (Document.ofTree root n).closedTree c = _
    rw [Document.closedTree_ofTree_of_knows n ht hh hc,
      Entity.firstUnresolved?_eq_none.mpr (Entity.closed_iff.mp hclosed)]
  · rfl

end StandardFormat

/-- **What is recorded can be brought back**, as long as its text stays within the limit of
JSON: after any changes, and at any other cycle, a rollback gives the recorded tree and its
cycle. A JSON text beyond the limit is recorded like any other, and the rollback fails. -/
theorem StandardFormat.restore_of_record (f : StandardFormat) (level limit : Option Nat)
    {s t : Simulation} (hroom : s.HasRoom) (ht : s.root.Tidy) (hh : s.root.Housed)
    (hknown : s.context.Knows s.root) (hclosed : s.root.Closed)
    (hrecord : s.record (f.recorder level limit) = .ok t) {changes : List Move}
    (hchanges : ∀ x ∈ changes, x.IsChange)
    (hcycle : ((f.recorder level limit).run t changes).cycle ≠ s.cycle) :
    let u := (f.recorder level limit).run t changes
    ∃ bs, f.format.encodeTree s.root s.cycle = .ok bs ∧
      (f = .binary ∨ Json.textNesting bs ≤ 127 → ∃ history,
        u.restore (f.recorder level limit) =
          .ok ({ u with root := s.root, cycle := s.cycle, history }, .to s.cycle)) ∧
      (f = .json ∧ 127 < Json.textNesting bs →
        u.restore (f.recorder level limit) = .error (.decode (.malformed f.format.name))) := by
  intro u
  obtain ⟨bs, hencode, htop, hsame⟩ := Simulation.OnTop.of_record hroom hrecord
  obtain ⟨hend, hcontext⟩ := htop.run (r := f.recorder level limit) hchanges
  have hcontext : u.context = s.context := by rw [hcontext, hsame]
  have hdecode := decodeClosedTree_encodeTree ht hh (hcontext ▸ hknown) hclosed hencode
  obtain ⟨hok, herror⟩ := hend.restore (r := f.recorder level limit) hcycle
  refine ⟨bs, hencode, fun hreads => ?_, fun ⟨hf, hdeep⟩ => ?_⟩
  · rw [← reads_iff hencode] at hreads
    rw [if_pos hreads] at hdecode
    exact hok _ _ hdecode
  · have hunread : ¬ f.reads s.root = true := by
      rw [reads_iff hencode, hf]
      simpa using hdeep
    rw [if_neg hunread] at hdecode
    exact herror _ hdecode

namespace Sample

/-- Compression ends, and the tree is replaced at a later cycle. -/
def detour : List Move := [.endJob 0 true, .setCycle 5, .edit fun _ => .newRoot]

theorem built_chainFrom (depth n : Nat) (species : String) (index : UInt32) :
    (chainFrom depth (.new species index) n).Built := by
  induction n generalizing depth species index with
  | zero => exact .set (.new _ _) (.plain rfl)
  | succ n ih => exact .setPopulation (.set (.new _ _) (.plain rfl)) (.insert (.new "ant") (ih ..))

end Sample

theorem StandardFormat.record_of_writes {f : StandardFormat} {s : Simulation}
    (level limit : Option Nat) (h : f.writes s.root = true) :
    ∃ t, s.record (f.recorder level limit) = .ok t := by
  obtain ⟨bs, hencode, -⟩ := encodeTree_of_writes h s.cycle
  simp [Simulation.record, Recorder.record, recorder, hencode, bind, Except.bind]

theorem StandardFormat.restore_of_record_pair :
    ∃ t history, (Sample.still Sample.pair).record (json.recorder (some 6) (some 3)) = .ok t ∧
      ((json.recorder (some 6) (some 3)).run t Sample.detour).restore
          (json.recorder (some 6) (some 3)) =
        .ok ({ (json.recorder (some 6) (some 3)).run t Sample.detour with
          root := Sample.pair, cycle := 0, history }, .to 0) := by
  obtain ⟨t, hrecord⟩ := record_of_writes (f := json) (s := Sample.still Sample.pair) (some 6)
    (some 3) (by decide)
  have hchanges : ∀ x ∈ Sample.detour, x.IsChange := by simp [Sample.detour, Move.IsChange]
  obtain ⟨bs, hencode, hrestore, -⟩ := restore_of_record json (some 6) (some 3)
    (World.hasRoom_of_none rfl) Sample.built_pair.tidy (by decide) (by decide) (by decide) hrecord
    hchanges (show (5 : UInt64) ≠ 0 by decide)
  obtain ⟨history, hrestore⟩ := hrestore ((reads_iff hencode).mp (by decide))
  exact ⟨t, history, hrecord, hrestore⟩

/-- Entities that own one another 31 levels deep are recorded as JSON and not brought back. -/
theorem StandardFormat.restore_of_record_chain :
    let s := Sample.still (Sample.chain 31)
    let r := json.recorder none none
    s.history = none ∧ s.root.Tidy ∧ s.root.Housed ∧ s.context.Knows s.root ∧ s.root.Closed ∧
      ∃ t, s.record r = .ok t ∧
        (r.run t [.edit (·.set "depth" (.str "later")), .setCycle 5]).restore r =
          .error (.decode (.malformed "json")) := by
  intro s r
  have hh : s.root.Housed := by decide +kernel
  have hknown : s.context.Knows s.root := by decide +kernel
  have hclosed : s.root.Closed := by decide +kernel
  have hread : json.reads s.root = false := by decide +kernel
  have ht : s.root.Tidy := (Sample.built_chainFrom 0 31 rootSpecies 0).tidy
  obtain ⟨t, hrecord⟩ := record_of_writes (f := json) (s := s) none none (by decide +kernel)
  obtain ⟨bs, hencode, htop, hsame⟩ :=
    Simulation.OnTop.of_record (World.hasRoom_of_none rfl) hrecord
  have hchanges : ∀ x ∈ [Move.edit (·.set "depth" (.str "later")), .setCycle 5], x.IsChange := by
    simp [Move.IsChange]
  obtain ⟨hend, hcontext⟩ := htop.run (r := r) hchanges
  have hdecode := decodeClosedTree_encodeTree (f := json) ht hh hknown hclosed hencode
  rw [hread] at hdecode
  refine ⟨rfl, ht, hh, hknown, hclosed, t, hrecord, ?_⟩
  refine (hend.restore (r := r) ?_).2 _ ?_
  · show (5 : UInt64) ≠ 0
    decide
  · rw [hcontext, hsame]
    exact hdecode

end Rewind
