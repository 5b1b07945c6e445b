import Rewind.Proofs.HeldValue
import Rewind.Proofs.Tree.Edits

/-! What stops a value from being written.

A tree is written wherever its links lead, because a link in a tree is written as the address that
it is. A value of its own takes the entities along that it names, so these have to be there; what
they hold is written like any tree. Entities that have been written before are there as well, so it
makes no difference that their addresses are not looked up again (`Value.writesItself`). What is
left is that a value is refused for the first of its own links that leads nowhere, and for nothing
else (`Recipe.encodeValue_dangling`). -/

namespace Rewind

/-- A value names an entity where it is a link, as an item of a list, or as a key or a value of a
map. The owner of a shape is not named, and neither is what a named entity holds. -/
inductive Value.Names : Value → Address → Prop
  | entity (a : Address) : Names (.entity a) a
  | item {content : TypeExpr} {items : List Value} {v : Value} {a : Address} (hv : v ∈ items)
      (h : Names v a) : Names (.list content items) a
  | key {key content : TypeExpr} {ordered : Bool} {entries : List (Value × Value)}
      {e : Value × Value} {a : Address} (he : e ∈ entries) (h : Names e.1 a) :
      Names (.map key content ordered entries) a
  | value {key content : TypeExpr} {ordered : Bool} {entries : List (Value × Value)}
      {e : Value × Value} {a : Address} (he : e ∈ entries) (h : Names e.2 a) :
      Names (.map key content ordered entries) a

theorem Value.mem_links {v : Value} {a : Address} : a ∈ v.links ↔ v.Names a := by
  induction v with
  | list content items ih =>
    rw [links_list, List.mem_flatMap]
    constructor
    · rintro ⟨v, hv, ha⟩
      exact .item hv ((ih v hv).mp ha)
    · rintro (_ | ⟨hv, h⟩)
      exact ⟨_, hv, (ih _ hv).mpr h⟩
  | map key content ordered entries ih =>
    rw [links_map, List.mem_flatMap]
    constructor
    · rintro ⟨e, he, ha⟩
      rcases List.mem_append.mp ha with ha | ha
      · exact .key he ((ih e he).1.mp ha)
      · exact .value he ((ih e he).2.mp ha)
    · rintro (_ | _ | ⟨he, h⟩ | ⟨he, h⟩)
      · exact ⟨_, he, List.mem_append_left _ ((ih _ he).1.mpr h)⟩
      · exact ⟨_, he, List.mem_append_right _ ((ih _ he).2.mpr h)⟩
  | entity b =>
    rw [links_entity, List.mem_singleton]
    constructor
    · rintro rfl
      exact .entity _
    · rintro ⟨⟩
      rfl
  | _ => exact iff_of_false List.not_mem_nil nofun

namespace Document
variable {root : Entity} {v : Value}

/-- The links of a value decide whether it has a document, and the first that leads nowhere is the
reason if it has none. -/
theorem ofHeldValue_outcome (hsorted : root.Everywhere Entity.Sorted) (v : Value) :
    (∃ d, ofHeldValue root v = .ok d ∧ ∀ a ∈ v.links, root.Resolves a) ∨
      ∃ before a after, v.links = before ++ a :: after ∧ (∀ b ∈ before, root.Resolves b) ∧
        ¬ root.Resolves a ∧ ofHeldValue root v = .error (.dangling a) := by
  have hwrites := v.writesItself hsorted []
  rw [ofHeldValue]
  change Writes root [] v.links _ (v.fullForm root []) at hwrites
  cases hform : v.fullForm root [] with
  | ok x =>
    rw [hform] at hwrites
    exact .inl ⟨.ofValue x.1, rfl, hwrites.1⟩
  | error e =>
    rw [hform] at hwrites
    obtain ⟨before, a, after, hlinks, hbefore, ha, rfl⟩ := hwrites
    exact .inr ⟨before, a, after, hlinks, hbefore, ha, rfl⟩

theorem ofHeldValue_eq_error (hsorted : root.Everywhere Entity.Sorted) {e : EncodeError}
    (h : ofHeldValue root v = .error e) :
    ∃ before a after, v.links = before ++ a :: after ∧ (∀ b ∈ before, root.Resolves b) ∧
      ¬ root.Resolves a ∧ e = .dangling a := by
  rcases ofHeldValue_outcome hsorted v with ⟨d, hd, -⟩ | ⟨before, a, after, hlinks, hbefore, ha, he⟩
  · cases hd.symm.trans h
  · exact ⟨before, a, after, hlinks, hbefore, ha, Except.error.inj (h.symm.trans he)⟩

theorem ofHeldValue_eq_ok (hsorted : root.Everywhere Entity.Sorted)
    (h : ∀ a, v.Names a → root.Resolves a) : ∃ d, ofHeldValue root v = .ok d := by
  rcases ofHeldValue_outcome hsorted v with ⟨d, hd, -⟩ | ⟨before, a, after, hlinks, -, ha, -⟩
  · exact ⟨d, hd⟩
  · exact absurd (h a (Value.mem_links.mp (by rw [hlinks]; simp))) ha

end Document

/-- The formats have no objection to a tree but its floats. -/
theorem StandardFormat.encodeTree_ne_dangling (f : StandardFormat) (root : Entity) (cycle : UInt64)
    (a : Address) : f.format.encodeTree root cycle ≠ .error (.dangling a) := by
  intro h
  cases f with
  | binary => cases h
  | json =>
    cases hfirst : (Document.ofTree root cycle).firstNonFinite? with
    | none => cases (Format.json_write_of_finite hfirst).symm.trans h
    | some x => cases (Format.json_write_of_nonFinite hfirst).symm.trans h

/-- **A value is refused for its own links only.** In a tree that came about by any edits, a value
has no document exactly if it names an entity that is not there, and the error names the first of
these in reading order, in every format. Otherwise the binary format writes it, wherever the links
of the entities lead that it takes along; and a tree is always written, never refused for a link. -/
theorem Recipe.encodeValue_dangling (r : Recipe) (v : Value) :
    let root := r.tree
    ((∃ e, Document.ofHeldValue root v = .error e) ↔ ∃ a, v.Names a ∧ ¬ root.Resolves a) ∧
    (∀ e, Document.ofHeldValue root v = .error e →
      (∃ before a after, v.links = before ++ a :: after ∧ (∀ b ∈ before, root.Resolves b) ∧
        ¬ root.Resolves a ∧ e = .dangling a) ∧
      ∀ f : Format, f.encodeValue root v = .error e) ∧
    ((∀ a, v.Names a → root.Resolves a) → ∃ bs, Format.binary.encodeValue root v = .ok bs) ∧
    ∀ cycle, (∃ bs, Format.binary.encodeTree root cycle = .ok bs) ∧
      ∀ (f : StandardFormat) a, f.format.encodeTree root cycle ≠ .error (.dangling a) := by
  intro root
  have hsorted := r.shelved.sorted
  refine ⟨⟨fun ⟨e, he⟩ => ?_, fun ⟨a, hnames, ha⟩ => ?_⟩, fun e he => ⟨?_, fun f => ?_⟩,
    fun h => ?_, fun cycle => ⟨⟨_, rfl⟩, fun f a => f.encodeTree_ne_dangling root cycle a⟩⟩
  · obtain ⟨before, a, after, hlinks, -, ha, -⟩ := Document.ofHeldValue_eq_error hsorted he
    exact ⟨a, Value.mem_links.mp (by rw [hlinks]; simp), ha⟩
  · rcases Document.ofHeldValue_outcome hsorted v with ⟨d, -, hall⟩ | ⟨_, b, _, -, -, -, hb⟩
    · exact absurd (hall a (Value.mem_links.mpr hnames)) ha
    · exact ⟨.dangling b, hb⟩
  · exact Document.ofHeldValue_eq_error hsorted he
  · rw [Format.encodeValue, he]
    rfl
  · obtain ⟨d, hd⟩ := Document.ofHeldValue_eq_ok hsorted h
    refine ⟨d.binaryBytes, ?_⟩
    rw [Format.encodeValue, hd]
    rfl

/-- The friend of an ant may be missing when the ant is written, but not the ant itself. -/
example :
    let root := Entity.newRoot.withPopulation "ant" fun p =>
      p.spawn.update 0 (·.set "friend" (.entity (Sample.ant 9)))
    (Document.ofHeldValue root (.entity (Sample.ant 0))).isOk = true ∧
      (Document.ofHeldValue root (.entity (Sample.ant 9))).isOk = false := by decide

end Rewind
