import Rewind.Document.ToTree
import Rewind.Proofs.Tree.Walk

/-! What addresses a tree holds, and where they lead.

`Value.Holds` and `Entity.Holds` say it rule by rule, one rule for every place where an
address can stand. A reader goes by the lists of `references`; these have the addresses
that are held and no others (`Entity.mem_references`), so the check at the end of reading
passes exactly if all of them lead somewhere, and otherwise names the first that does not
(`Entity.checkResolved_eq_error`). -/

namespace Rewind

/-- A value holds an address as a link, as the owner of a shape, or in one of its parts. -/
inductive Value.Holds : Value → Address → Prop
  | entity (a : Address) : Holds (.entity a) a
  | owner {s : Shape} {a : Address} (h : s.owner = some a) : Holds (.shape s) a
  | item {content : TypeExpr} {items : List Value} {v : Value} {a : Address} (hv : v ∈ items)
      (h : Holds v a) : Holds (.list content items) a
  | key {key content : TypeExpr} {ordered : Bool} {entries : List (Value × Value)}
      {e : Value × Value} {a : Address} (he : e ∈ entries) (h : Holds e.1 a) :
      Holds (.map key content ordered entries) a
  | value {key content : TypeExpr} {ordered : Bool} {entries : List (Value × Value)}
      {e : Value × Value} {a : Address} (he : e ∈ entries) (h : Holds e.2 a) :
      Holds (.map key content ordered entries) a

namespace Entity

/-- A tree holds an address in an attribute of its owner or in one of its members. -/
inductive Holds : Entity → Address → Prop
  | attribute {e : Entity} {v : Value} {a : Address} (hv : v ∈ e.attributes.values)
      (h : v.Holds a) : Holds e a
  | member {e m : Entity} {p : Population Entity} {a : Address} (hp : p ∈ e.populations.values)
      (hm : m ∈ p.members.values) (h : Holds m a) : Holds e a

/-- There is an entity at the address. -/
def Resolves (root : Entity) (a : Address) : Prop := (root.at? a).isSome = true

instance (root : Entity) (a : Address) : Decidable (root.Resolves a) :=
  inferInstanceAs (Decidable (_ = true))

/-- Every address that the tree holds leads to an entity in it. -/
def Closed (root : Entity) : Prop := ∀ a, root.Holds a → root.Resolves a

theorem resolves_iff {root : Entity} {a : Address} :
    root.Resolves a ↔ ∃ e, root.at? a = some e :=
  Option.isSome_iff_exists

theorem resolves_root (root : Entity) : root.Resolves .root := rfl

end Entity

/-! ### The lists of references -/

theorem Value.itemReferences_eq_flatMap (vs : List Value) :
    itemReferences vs = vs.flatMap references := by
  induction vs with
  | nil => rfl
  | cons v vs ih => rw [itemReferences, ih, List.flatMap_cons]

theorem Value.entryReferences_eq_flatMap (es : List (Value × Value)) :
    entryReferences es = es.flatMap fun e => e.1.references ++ e.2.references := by
  induction es with
  | nil => rfl
  | cons e es ih => rw [entryReferences, ih, List.flatMap_cons]

theorem Value.mem_references {v : Value} {a : Address} : a ∈ v.references ↔ v.Holds a := by
  induction v with
  | list content items ih =>
    rw [references, itemReferences_eq_flatMap, List.mem_flatMap]
    constructor
    · rintro ⟨v, hv, ha⟩
      exact .item hv ((ih v hv).mp ha)
    · rintro (_ | _ | ⟨hv, h⟩)
      exact ⟨_, hv, (ih _ hv).mpr h⟩
  | map key content ordered entries ih =>
    rw [references, entryReferences_eq_flatMap, List.mem_flatMap]
    constructor
    · rintro ⟨e, he, ha⟩
      rcases List.mem_append.mp ha with ha | ha
      · exact .key he ((ih e he).1.mp ha)
      · exact .value he ((ih e he).2.mp ha)
    · rintro (_ | _ | _ | ⟨he, h⟩ | ⟨he, h⟩)
      · exact ⟨_, he, List.mem_append_left _ ((ih _ he).1.mpr h)⟩
      · exact ⟨_, he, List.mem_append_right _ ((ih _ he).2.mpr h)⟩
  | shape s =>
    rw [references, Option.mem_toList]
    constructor
    · exact .owner
    · rintro (_ | h)
      exact h
  | entity b =>
    rw [references, List.mem_singleton]
    constructor
    · rintro rfl
      exact .entity _
    · rintro ⟨⟩
      rfl
  | _ =>
    rw [references]
    exact iff_of_false List.not_mem_nil nofun

namespace Entity

theorem memberReferences_eq_flatMap (ms : List (UInt32 × Entity)) :
    memberReferences ms = (ms.map Prod.snd).flatMap references := by
  induction ms with
  | nil => rfl
  | cons m ms ih => rw [memberReferences, ih, List.map_cons, List.flatMap_cons]

theorem populationReferences_eq_flatMap (ps : List (String × Population Entity)) :
    populationReferences ps =
      (ps.map Prod.snd).flatMap fun p => p.members.values.flatMap references := by
  induction ps with
  | nil => rfl
  | cons p ps ih =>
    rw [populationReferences, ih, memberReferences_eq_flatMap, List.map_cons, List.flatMap_cons]
    rfl

/-- An entity's attributes in order, then its members. -/
theorem references_eq (e : Entity) :
    e.references = e.attributes.values.flatMap Value.references ++
      e.populations.values.flatMap fun p => p.members.values.flatMap references := by
  obtain ⟨s, i, as, ⟨ps⟩⟩ := e
  rw [references, populationReferences_eq_flatMap]
  rfl

theorem mem_references {root : Entity} {a : Address} : a ∈ root.references ↔ root.Holds a := by
  induction root with
  | owner e ih =>
    simp only [references_eq e, List.mem_append, List.mem_flatMap]
    constructor
    · rintro (⟨v, hv, ha⟩ | ⟨p, hp, m, hm, ha⟩)
      · exact .attribute hv (Value.mem_references.mp ha)
      · exact .member hp hm ((ih p hp m hm).mp ha)
    · rintro (⟨hv, h⟩ | ⟨hp, hm, h⟩)
      · exact .inl ⟨_, hv, Value.mem_references.mpr h⟩
      · exact .inr ⟨_, hp, _, hm, (ih _ hp _ hm).mpr h⟩

theorem closed_iff {root : Entity} : root.Closed ↔ ∀ a ∈ root.references, root.Resolves a :=
  forall_congr' fun _ => imp_congr_left mem_references.symm

instance (root : Entity) : Decidable root.Closed := decidable_of_iff _ closed_iff.symm

/-! ### The check -/

theorem firstUnresolved?_eq_none {root : Entity} {as : List Address} :
    root.firstUnresolved? as = none ↔ ∀ a ∈ as, root.Resolves a := by
  simp [firstUnresolved?, Resolves, Option.isSome_iff_ne_none]

theorem firstUnresolved?_eq_some {root : Entity} {as : List Address} {a : Address} :
    root.firstUnresolved? as = some a ↔ ∃ before after, as = before ++ a :: after ∧
      (∀ b ∈ before, root.Resolves b) ∧ ¬ root.Resolves a := by
  rw [firstUnresolved?, List.find?_eq_some_iff_append]
  constructor
  · rintro ⟨ha, before, after, heq, hbefore⟩
    exact ⟨before, after, heq, by simpa [Resolves, Option.isSome_iff_ne_none] using hbefore,
      by simpa [Resolves] using ha⟩
  · rintro ⟨before, after, heq, hbefore, ha⟩
    exact ⟨by simpa [Resolves] using ha, before, after, heq,
      by simpa [Resolves, Option.isSome_iff_ne_none] using hbefore⟩

theorem checkResolved_eq_ok {root : Entity} {as : List Address} :
    root.checkResolved as = .ok () ↔ ∀ a ∈ as, root.Resolves a := by
  rw [checkResolved, ← firstUnresolved?_eq_none]
  cases root.firstUnresolved? as with
  | none => exact iff_of_true rfl rfl
  | some a => exact iff_of_false nofun nofun

/-- A check that does not pass names the first address that leads nowhere. -/
theorem checkResolved_eq_error {root : Entity} {as : List Address}
    (h : ¬ ∀ a ∈ as, root.Resolves a) :
    ∃ before a after, as = before ++ a :: after ∧ (∀ b ∈ before, root.Resolves b) ∧
      ¬ root.Resolves a ∧ root.checkResolved as = .error (.unresolved a) := by
  obtain ⟨a, ha⟩ := Option.ne_none_iff_exists'.mp (mt firstUnresolved?_eq_none.mp h)
  obtain ⟨before, after, heq, hbefore, hna⟩ := firstUnresolved?_eq_some.mp ha
  exact ⟨before, a, after, heq, hbefore, hna, by rw [checkResolved, ha]⟩

end Entity
end Rewind
