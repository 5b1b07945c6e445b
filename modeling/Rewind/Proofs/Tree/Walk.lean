import Rewind.Document.OfTree

/-! Walking values and trees.

Values nest through lists and map entries, entities through the members of their
populations. `Value.induction` and `Entity.induction` say so with membership, and
what a tree has at every place is said by `Entity.Everywhere`: a property of single
entities, asked of all the entities of a tree (`everywhere_iff`). -/

namespace Rewind

/-! ### Values -/

@[induction_eliminator]
theorem Value.induction {motive : Value → Prop} (nil : motive .nil)
    (bool : ∀ b, motive (.bool b)) (int : ∀ i, motive (.int i)) (float : ∀ x, motive (.float x))
    (str : ∀ s, motive (.str s))
    (list : ∀ content items, (∀ v ∈ items, motive v) → motive (.list content items))
    (map : ∀ key content ordered entries, (∀ e ∈ entries, motive e.1 ∧ motive e.2) →
      motive (.map key content ordered entries))
    (type : ∀ t, motive (.type t)) (context : ∀ name, motive (.context name))
    (shape : ∀ s, motive (.shape s)) (entity : ∀ a, motive (.entity a)) : ∀ v, motive v :=
  fun v =>
    @Value.rec motive (fun vs => ∀ v ∈ vs, motive v)
      (fun es => ∀ e ∈ es, motive e.1 ∧ motive e.2) (fun e => motive e.1 ∧ motive e.2)
      nil bool int float str list map type context shape entity
      (List.forall_mem_nil _) (fun _ _ hv hvs => List.forall_mem_cons.mpr ⟨hv, hvs⟩)
      (List.forall_mem_nil _) (fun _ _ he hes => List.forall_mem_cons.mpr ⟨he, hes⟩)
      (fun _ _ hk hv => ⟨hk, hv⟩) v

/-- The values that a list or a map holds itself. -/
def Value.inner : Value → List Value
  | .list _ items => items
  | .map _ _ _ entries => entries.flatMap fun e => [e.1, e.2]
  | _ => []

mutual

/-- A value and all that is nested in it. -/
def Value.parts : Value → List Value
  | .list content items => .list content items :: itemParts items
  | .map key content ordered entries => .map key content ordered entries :: entryParts entries
  | .nil => [.nil]
  | .bool b => [.bool b]
  | .int i => [.int i]
  | .float x => [.float x]
  | .str s => [.str s]
  | .type t => [.type t]
  | .context name => [.context name]
  | .shape s => [.shape s]
  | .entity a => [.entity a]
termination_by structural v => v

def itemParts : List Value → List Value
  | [] => []
  | v :: vs => v.parts ++ itemParts vs
termination_by structural vs => vs

def entryParts : List (Value × Value) → List Value
  | [] => []
  | (k, v) :: es => k.parts ++ v.parts ++ entryParts es
termination_by structural es => es

end

theorem itemParts_eq_flatMap (vs : List Value) : itemParts vs = vs.flatMap Value.parts := by
  induction vs with
  | nil => rfl
  | cons v vs ih => rw [itemParts, ih, List.flatMap_cons]

theorem entryParts_eq_flatMap (es : List (Value × Value)) :
    entryParts es = (es.flatMap fun e => [e.1, e.2]).flatMap Value.parts := by
  induction es with
  | nil => rfl
  | cons e es ih => simp [entryParts, ih]

theorem Value.parts_eq (v : Value) : v.parts = v :: v.inner.flatMap parts := by
  cases v with
  | list content items => rw [parts, itemParts_eq_flatMap, inner]
  | map key content ordered entries => rw [parts, entryParts_eq_flatMap, inner]
  | _ => rfl

/-- A property of single values that a value has and all that is nested in it. -/
def Value.Throughout (P : Value → Prop) (v : Value) : Prop := ∀ w ∈ v.parts, P w

theorem Value.throughout_iff {P : Value → Prop} {v : Value} :
    v.Throughout P ↔ P v ∧ ∀ w ∈ v.inner, w.Throughout P := by
  simp only [Throughout, parts_eq v, List.forall_mem_cons, List.mem_flatMap,
    forall_exists_index, and_imp]
  exact and_congr_right fun _ => ⟨fun h w hw x hx => h x w hw hx, fun h x w hw hx => h w hw x hx⟩

theorem Value.throughout_list {P : Value → Prop} {content : TypeExpr} {items : List Value} :
    (Value.list content items).Throughout P ↔
      P (.list content items) ∧ ∀ v ∈ items, v.Throughout P :=
  throughout_iff

theorem Value.throughout_map {P : Value → Prop} {key content : TypeExpr} {ordered : Bool}
    {entries : List (Value × Value)} :
    (Value.map key content ordered entries).Throughout P ↔
      P (.map key content ordered entries) ∧
        ∀ e ∈ entries, e.1.Throughout P ∧ e.2.Throughout P := by
  rw [throughout_iff]
  refine and_congr_right fun _ => ⟨fun h e he => ⟨h _ ?_, h _ ?_⟩, fun h w hw => ?_⟩
  · exact List.mem_flatMap.mpr ⟨e, he, by simp⟩
  · exact List.mem_flatMap.mpr ⟨e, he, by simp⟩
  · obtain ⟨e, he, hw⟩ := List.mem_flatMap.mp hw
    simp only [List.mem_cons, List.not_mem_nil, or_false] at hw
    rcases hw with rfl | rfl
    · exact (h e he).1
    · exact (h e he).2

theorem itemForms_eq_map (vs : List Value) : itemForms vs = vs.map Value.form := by
  induction vs with
  | nil => rfl
  | cons v vs ih => rw [itemForms, ih, List.map_cons]

theorem entryForms_eq_map (es : List (Value × Value)) :
    entryForms es = es.map fun e => (e.1.form, e.2.form) := by
  induction es with
  | nil => rfl
  | cons e es ih => rw [entryForms, ih, List.map_cons]

/-! ### Trees -/

namespace Entity

@[induction_eliminator]
theorem induction {motive : Entity → Prop}
    (owner : ∀ e, (∀ p ∈ e.populations.values, ∀ m ∈ p.members.values, motive m) → motive e) :
    ∀ e, motive e :=
  fun e =>
    @Entity.rec motive (fun t => ∀ p ∈ t.values, ∀ m ∈ p.members.values, motive m)
      (fun ps => ∀ p ∈ ps.map Prod.snd, ∀ m ∈ p.members.values, motive m)
      (fun p => ∀ m ∈ p.2.members.values, motive m) (fun p => ∀ m ∈ p.members.values, motive m)
      (fun t => ∀ m ∈ t.values, motive m) (fun ms => ∀ m ∈ ms.map Prod.snd, motive m)
      (fun m => motive m.2) (fun s i as ps h => owner ⟨s, i, as, ps⟩ h) (fun _ h => h)
      (List.forall_mem_nil _) (fun _ _ hp hps => List.forall_mem_cons.mpr ⟨hp, hps⟩)
      (fun _ _ h => h) (fun _ _ _ h => h) (fun _ h => h)
      (List.forall_mem_nil _) (fun _ _ hm hms => List.forall_mem_cons.mpr ⟨hm, hms⟩)
      (fun _ _ h => h) e

mutual

/-- The entities of a tree, an owner before its members. -/
def entities : Entity → List Entity
  | ⟨s, i, as, ⟨ps⟩⟩ => ⟨s, i, as, ⟨ps⟩⟩ :: populationEntities ps
termination_by structural e => e

def populationEntities : List (String × Population Entity) → List Entity
  | [] => []
  | (_, ⟨_, _, ⟨ms⟩⟩) :: ps => memberEntities ms ++ populationEntities ps
termination_by structural ps => ps

def memberEntities : List (UInt32 × Entity) → List Entity
  | [] => []
  | (_, e) :: es => e.entities ++ memberEntities es
termination_by structural es => es

end

theorem memberEntities_eq_flatMap (ms : List (UInt32 × Entity)) :
    memberEntities ms = (ms.map Prod.snd).flatMap entities := by
  induction ms with
  | nil => rfl
  | cons m ms ih => rw [memberEntities, ih, List.map_cons, List.flatMap_cons]

theorem populationEntities_eq_flatMap (ps : List (String × Population Entity)) :
    populationEntities ps =
      (ps.map Prod.snd).flatMap fun p => p.members.values.flatMap entities := by
  induction ps with
  | nil => rfl
  | cons p ps ih =>
    rw [populationEntities, ih, memberEntities_eq_flatMap, List.map_cons, List.flatMap_cons]
    rfl

theorem entities_eq (e : Entity) :
    e.entities = e :: e.populations.values.flatMap fun p => p.members.values.flatMap entities := by
  obtain ⟨s, i, as, ⟨ps⟩⟩ := e
  rw [entities, populationEntities_eq_flatMap]
  rfl

/-- A property of single entities that all entities of a tree have. -/
def Everywhere (P : Entity → Prop) (root : Entity) : Prop := ∀ e ∈ root.entities, P e

theorem everywhere_iff {P : Entity → Prop} {e : Entity} :
    e.Everywhere P ↔
      P e ∧ ∀ p ∈ e.populations.values, ∀ m ∈ p.members.values, m.Everywhere P := by
  simp only [Everywhere, entities_eq e, List.forall_mem_cons, List.mem_flatMap,
    forall_exists_index, and_imp]
  exact and_congr_right fun _ =>
    ⟨fun h p hp m hm x hx => h x p hp m hm hx, fun h x p hp m hm hx => h p hp m hm x hx⟩

theorem Everywhere.here {P : Entity → Prop} {e : Entity} (h : e.Everywhere P) : P e :=
  (everywhere_iff.mp h).1

theorem Everywhere.member {P : Entity → Prop} {e m : Entity} {p : Population Entity}
    (h : e.Everywhere P) (hp : p ∈ e.populations.values) (hm : m ∈ p.members.values) :
    m.Everywhere P :=
  (everywhere_iff.mp h).2 p hp m hm

end Entity

/-! ### Forms of trees -/

theorem memberForms_eq_map (ms : List (UInt32 × Entity)) :
    memberForms ms = (ms.map Prod.snd).map Entity.form := by
  induction ms with
  | nil => rfl
  | cons m ms ih => rw [memberForms, ih, List.map_cons, List.map_cons]

/-- A population as written. -/
def Population.form (p : Population Entity) : PopulationForm EntityForm :=
  ⟨p.species, p.nextIndex, p.members.values.map Entity.form⟩

theorem populationForms_eq_map (ps : List (String × Population Entity)) :
    populationForms ps = (ps.map Prod.snd).map Population.form := by
  induction ps with
  | nil => rfl
  | cons p ps ih =>
    rw [populationForms, ih, memberForms_eq_map, List.map_cons, List.map_cons]
    rfl

theorem Entity.form_eq (e : Entity) :
    e.form = .mk e.index e.species (e.attributes.entries.map fun a => (a.1, a.2.form))
      (e.populations.values.map Population.form) := by
  obtain ⟨s, i, as, ⟨ps⟩⟩ := e
  rw [form, populationForms_eq_map]
  rfl

end Rewind
