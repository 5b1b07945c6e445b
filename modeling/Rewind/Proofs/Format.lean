import Rewind.Format
import Rewind.Proofs.BinaryFormat
import Rewind.Proofs.JsonFormat
import Rewind.Proofs.Tree.Snapshot
import Rewind.Sample

/-! Snapshots of trees, in either format.

The binary format writes every tree and reads it back. JSON writes the trees whose floats
are finite, and of those it reads the ones that do not nest too deep. What becomes of a
snapshot that is read is up to the context (`StandardFormat.decodeTree_encodeTree`). -/

namespace Rewind

namespace Format

theorem read_of_read? {f : Format} {bs : Bytes} {d : Document} (h : f.read? bs = some d) :
    f.read bs = .ok d := by
  rw [read, h]

theorem read_of_read?_eq_none {f : Format} {bs : Bytes} (h : f.read? bs = none) :
    f.read bs = .error (.malformed f.name) := by
  rw [read, h]

theorem json_write_of_nonFinite {d : Document} {x : Binary64} (h : d.firstNonFinite? = some x) :
    json.write d = .error (.nonFinite x) := by
  simp only [json, h]

theorem json_write_of_finite {d : Document} (h : d.firstNonFinite? = none) :
    json.write d = .ok d.jsonBytes := by
  simp only [json, h]

end Format

/-! ### The two formats -/

/-- The formats of the standard table. -/
inductive StandardFormat where
  | binary
  | json
deriving DecidableEq

namespace StandardFormat

def format : StandardFormat → Format
  | binary => .binary
  | json => .json

/-- The format writes the tree: JSON has no form for floats that are not finite. -/
def writes (f : StandardFormat) (root : Entity) : Bool :=
  match f with
  | binary => true
  | json => root.form.floats.all Binary64.isFinite

/-- The format reads the tree once it is written: JSON texts are limited in depth, and
a document takes two levels around its tree. -/
def reads (f : StandardFormat) (root : Entity) : Bool :=
  match f with
  | binary => true
  | json => decide (root.form.json.nesting + 2 ≤ Json.depthLimit)

variable {f : StandardFormat} {root : Entity}

theorem nesting_ofTree (root : Entity) (cycle : UInt64) :
    (Document.ofTree root cycle).json.nesting = max 1 (root.form.json.nesting + 1) + 1 := by
  show (Json.record [("header", _), ("body", Json.variant "Entity" root.form.json)]).nesting = _
  simp [Json.record, Json.variant, Json.nesting, Json.fieldsNesting, Header.json, Json.nat]
  omega

/-- A tree that the format does not write is turned down when it is encoded. -/
theorem encodeTree_of_not_writes (h : f.writes root = false) (cycle : UInt64) :
    ∃ e, f.format.encodeTree root cycle = .error e := by
  cases f with
  | binary => cases h
  | json =>
    have hne : (Document.ofTree root cycle).firstNonFinite? ≠ none := fun hnone => by
      have hf : Json.Finite root.form.floats := Document.firstNonFinite?_eq_none.mp hnone
      have hall : root.form.floats.all Binary64.isFinite = true := List.all_eq_true.mpr hf
      rw [writes, hall] at h
      cases h
    obtain ⟨x, hx⟩ := Option.ne_none_iff_exists'.mp hne
    exact ⟨.nonFinite x, Format.json_write_of_nonFinite hx⟩

/-- A tree that the format writes is read back as the same document or not at all. -/
theorem encodeTree_of_writes (h : f.writes root = true) (cycle : UInt64) :
    ∃ bs, f.format.encodeTree root cycle = .ok bs ∧
      (f.reads root = true → f.format.read bs = .ok (.ofTree root cycle)) ∧
      (f.reads root = false → f.format.read bs = .error (.malformed f.format.name)) := by
  cases f with
  | binary =>
    refine ⟨(Document.ofTree root cycle).binaryBytes, rfl, fun _ => ?_, ?_⟩
    · exact Format.read_of_read? (Document.ofBinaryBytes?_binaryBytes _)
    · intro h
      cases h
  | json =>
    have hf : Json.Finite root.form.floats := List.all_eq_true.mp h
    have hread := Document.ofJsonBytes?_jsonBytes (d := .ofTree root cycle) hf
    have hnest := nesting_ofTree root cycle
    have hnone : (Document.ofTree root cycle).firstNonFinite? = none :=
      Document.firstNonFinite?_eq_none.mpr hf
    refine ⟨(Document.ofTree root cycle).jsonBytes, Format.json_write_of_finite hnone,
      fun hr => ?_, fun hr => ?_⟩
    · have hr := of_decide_eq_true hr
      exact Format.read_of_read? (hread.1 (by omega))
    · have hr := of_decide_eq_false hr
      exact Format.read_of_read?_eq_none (hread.2 (by omega))

end StandardFormat

namespace Document

theorem check_ofTree (root : Entity) (cycle : UInt64) : (ofTree root cycle).check = .ok () := rfl

/-- The tree of a document that was made of a tree. -/
theorem tree_ofTree {c : Context} {root : Entity} (cycle : UInt64) (ht : root.Tidy)
    (hh : root.Housed) : ReadsIff ((ofTree root cycle).tree c) (c.Knows root) (root, cycle) := by
  have hread := Entity.read_form (c := c) ht hh
  rw [tree, check_ofTree]
  exact hread.andThen rfl

end Document

/-- **A snapshot is read back in every context that knows its names**, as the tree that
was recorded and its cycle, and in every other context the error says what is missing. -/
theorem StandardFormat.decodeTree_encodeTree {f : StandardFormat} {root : Entity} (cycle : UInt64)
    (c : Context) (hb : root.Built) (hh : root.Housed) (hw : f.writes root = true)
    (hr : f.reads root = true) :
    ∃ bs, f.format.encodeTree root cycle = .ok bs ∧
      (c.Knows root → f.format.decodeTree c bs = .ok (root, cycle)) ∧
      (¬ c.Knows root → ∃ e, f.format.decodeTree c bs = .error e ∧ e.isStructural = false) := by
  obtain ⟨bs, hencode, hread, -⟩ := encodeTree_of_writes hw cycle
  obtain ⟨hknown, hunknown⟩ := Document.tree_ofTree (c := c) cycle hb.tidy hh
  have hdecode : f.format.decodeTree c bs = (Document.ofTree root cycle).tree c := by
    rw [Format.decodeTree, hread hr]
    rfl
  rw [← hdecode] at hknown hunknown
  refine ⟨bs, hencode, hknown, fun hc => ?_⟩
  obtain ⟨e, he, hname⟩ := hunknown hc
  exact ⟨e, he, DecodeError.not_isStructural_of_isUnknownName hname⟩

theorem Sample.built_pair : pair.Built := by
  have hant (i : UInt32) (a : Address) : (Entity.set (.new "ant" i) "partner" (.entity a)).Built :=
    .set (.new "ant" i) (.plain rfl)
  exact .setPopulation (.new _ _) (.setMember (.spawn (.setMember (.spawn (.new "ant"))
    (hant 0 (ant 1)))) (hant 1 (ant 0)))

theorem StandardFormat.decodeTree_encodeTree_pair :
    ∃ bs, json.format.encodeTree Sample.pair 7 = .ok bs ∧
      json.format.decodeTree Sample.context bs = .ok (Sample.pair, 7) := by
  obtain ⟨bs, hencode, hknown, -⟩ := decodeTree_encodeTree 7 Sample.context Sample.built_pair
    (by decide) (f := json) (by decide) (by decide)
  exact ⟨bs, hencode, hknown (by decide)⟩

end Rewind
