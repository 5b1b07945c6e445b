import Rewind.Proofs.Tree.Edits
import Rewind.Proofs.Tree.InFull

/-! What the document of a tree is made of.

A document has entities as members of others, at places like those of a tree
(`EntityForm.places`), and it has values, nested and in the attributes of all its entities
(`EntityForm.parts`). The document of a tree has the entities of the tree where the tree has
them, and for every value of the tree its form, in which links are addresses: so it has nothing
twice, however the links run (`Document.hasEachOnce_ofTree`). A reader has nothing to place
after it, because only entities in full are placed (`ValueForm.length_arrivals`). -/

namespace Rewind

/-! ### Values -/

mutual

/-- The form of a value and all that is nested in it, be it in an entity in full. -/
def ValueForm.parts : ValueForm → List ValueForm
  | .list content items => .list content items :: itemFormParts items
  | .map key content ordered entries => .map key content ordered entries :: entryFormParts entries
  | .full owner e => .full owner e :: e.parts
  | .nil => [.nil]
  | .bool b => [.bool b]
  | .int i => [.int i]
  | .float x => [.float x]
  | .str s => [.str s]
  | .type t => [.type t]
  | .context name => [.context name]
  | .shape s => [.shape s]
  | .reference p => [.reference p]
termination_by structural f => f

def itemFormParts : List ValueForm → List ValueForm
  | [] => []
  | f :: fs => f.parts ++ itemFormParts fs
termination_by structural fs => fs

def entryFormParts : List (ValueForm × ValueForm) → List ValueForm
  | [] => []
  | (k, v) :: fs => k.parts ++ v.parts ++ entryFormParts fs
termination_by structural fs => fs

/-- The values of an entity form, an entity's own before its members'. -/
def EntityForm.parts : EntityForm → List ValueForm
  | .mk _ _ as ps => attributeFormParts as ++ populationFormParts ps
termination_by structural e => e

def attributeFormParts : List (String × ValueForm) → List ValueForm
  | [] => []
  | (_, f) :: as => f.parts ++ attributeFormParts as
termination_by structural as => as

def populationFormParts : List (PopulationForm EntityForm) → List ValueForm
  | [] => []
  | ⟨_, _, ms⟩ :: ps => memberFormParts ms ++ populationFormParts ps
termination_by structural ps => ps

def memberFormParts : List EntityForm → List ValueForm
  | [] => []
  | e :: es => e.parts ++ memberFormParts es
termination_by structural es => es

end

/-- The values of a tree, an entity's own before its members'. -/
def Entity.parts (e : Entity) : List Value :=
  e.entities.flatMap fun t => t.attributes.values.flatMap Value.parts

theorem Entity.parts_eq (e : Entity) : e.parts = e.attributes.values.flatMap Value.parts ++
    e.populations.values.flatMap fun p => p.members.values.flatMap parts := by
  rw [parts, entities_eq, List.flatMap_cons, List.flatMap_assoc]
  simp only [List.flatMap_assoc]
  rfl

mutual

theorem Value.parts_form : ∀ v : Value, v.form.parts = v.parts.map Value.form
  | .list _ items => congrArg (_ :: ·) (itemFormParts_itemForms items)
  | .map _ _ _ entries => congrArg (_ :: ·) (entryFormParts_entryForms entries)
  | .nil | .bool _ | .int _ | .float _ | .str _ | .type _ | .context _ | .shape _
  | .entity _ => rfl
termination_by structural v => v

theorem itemFormParts_itemForms : ∀ vs : List Value,
    itemFormParts (itemForms vs) = (itemParts vs).map Value.form
  | [] => rfl
  | v :: vs => by
    rw [itemForms, itemFormParts, itemParts, List.map_append, v.parts_form,
      itemFormParts_itemForms vs]
termination_by structural vs => vs

theorem entryFormParts_entryForms : ∀ es : List (Value × Value),
    entryFormParts (entryForms es) = (entryParts es).map Value.form
  | [] => rfl
  | (k, v) :: es => by
    rw [entryForms, entryFormParts, entryParts, List.map_append, List.map_append, k.parts_form,
      v.parts_form, entryFormParts_entryForms es]
termination_by structural es => es

end

theorem attributeFormParts_map (as : List (String × Value)) :
    attributeFormParts (as.map fun a => (a.1, a.2.form)) =
      ((as.map Prod.snd).flatMap Value.parts).map Value.form := by
  induction as with
  | nil => rfl
  | cons a as ih =>
    rw [List.map_cons, attributeFormParts, Value.parts_form, ih, List.map_cons, List.flatMap_cons,
      List.map_append]

theorem memberFormParts_map {ms : List Entity}
    (h : ∀ m ∈ ms, m.form.parts = m.parts.map Value.form) :
    memberFormParts (ms.map Entity.form) = (ms.flatMap Entity.parts).map Value.form := by
  induction ms with
  | nil => rfl
  | cons m ms ih =>
    obtain ⟨hm, hms⟩ := List.forall_mem_cons.mp h
    rw [List.map_cons, memberFormParts, hm, ih hms, List.flatMap_cons, List.map_append]

theorem populationFormParts_map {ps : List (Population Entity)}
    (h : ∀ p ∈ ps, ∀ m ∈ p.members.values, m.form.parts = m.parts.map Value.form) :
    populationFormParts (ps.map Population.form) =
      (ps.flatMap fun p => p.members.values.flatMap Entity.parts).map Value.form := by
  induction ps with
  | nil => rfl
  | cons p ps ih =>
    obtain ⟨hp, hps⟩ := List.forall_mem_cons.mp h
    rw [List.map_cons, Population.form, populationFormParts, memberFormParts_map hp, ih hps,
      List.flatMap_cons, List.map_append]

/-- The form of a tree has the form of every value where the tree has the value. -/
theorem Entity.parts_form (e : Entity) : e.form.parts = e.parts.map Value.form := by
  induction e with
  | owner e ih =>
    rw [form_eq, EntityForm.parts, attributeFormParts_map, populationFormParts_map ih, parts_eq,
      List.map_append]
    rfl

theorem Value.form_ne_full (v : Value) (owner : Option PathForm) (e : EntityForm) :
    v.form ≠ .full owner e := by
  cases v <;> rintro ⟨⟩

theorem Value.form_eq_reference {v : Value} {p : PathForm} :
    v.form = .reference p ↔ ∃ a, v = .entity a ∧ p = a.form := by
  constructor
  · intro h
    cases v with
    | entity a => exact ⟨a, rfl, (ValueForm.reference.inj h).symm⟩
    | _ => cases h
  · rintro ⟨a, rfl, rfl⟩
    rfl

/-! ### Entities -/

mutual

/-- The entities of a form that stands at `here`, each with the address of its place. -/
def EntityForm.places (here : Address) : EntityForm → List (Address × EntityForm)
  | .mk index species as ps => (here, .mk index species as ps) :: populationFormPlaces here ps
termination_by structural e => e

def populationFormPlaces (here : Address) :
    List (PopulationForm EntityForm) → List (Address × EntityForm)
  | [] => []
  | ⟨species, _, ms⟩ :: ps => memberFormPlaces here species ms ++ populationFormPlaces here ps
termination_by structural ps => ps

def memberFormPlaces (here : Address) (species : String) :
    List EntityForm → List (Address × EntityForm)
  | [] => []
  | e :: es => e.places (here.child species e.index) ++ memberFormPlaces here species es
termination_by structural es => es

end

/-- A place of a tree, with the form of what stands there. -/
def formAt (place : Address × Entity) : Address × EntityForm := (place.1, place.2.form)

mutual

/-- The form of a tree has the form of every entity where the tree has the entity. -/
theorem Entity.places_form (here : Address) : ∀ e : Entity,
    e.form.places here = (e.places here).map formAt
  | ⟨_, _, _, ⟨ps⟩⟩ => by
    rw [Entity.form, EntityForm.places, Entity.places, List.map_cons,
      populationFormPlaces_populationForms here ps]
    rfl
termination_by structural e => e

theorem populationFormPlaces_populationForms (here : Address) :
    ∀ ps : List (String × Population Entity), populationFormPlaces here (populationForms ps) =
      (Entity.populationPlaces here ps).map formAt
  | [] => rfl
  | (_, ⟨species, _, ⟨ms⟩⟩) :: ps => by
    rw [populationForms, populationFormPlaces, Entity.populationPlaces, List.map_append,
      memberFormPlaces_memberForms here species ms, populationFormPlaces_populationForms here ps]
termination_by structural ps => ps

theorem memberFormPlaces_memberForms (here : Address) (species : String) :
    ∀ ms : List (UInt32 × Entity), memberFormPlaces here species (memberForms ms) =
      (Entity.memberPlaces here species ms).map formAt
  | [] => rfl
  | (_, m) :: ms => by
    rw [memberForms, memberFormPlaces, Entity.memberPlaces, List.map_append, m.index_form,
      Entity.places_form _ m, memberFormPlaces_memberForms here species ms]
termination_by structural ms => ms

end

mutual

theorem Entity.length_entities : ∀ e : Entity, e.entities.length = e.count
  | ⟨_, _, _, ⟨ps⟩⟩ => by
    rw [Entity.entities, Entity.count, List.length_cons, length_populationEntities ps, Nat.add_comm]
termination_by structural e => e

theorem Entity.length_populationEntities : ∀ ps : List (String × Population Entity),
    (populationEntities ps).length = countPopulations ps
  | [] => rfl
  | (_, ⟨_, _, ⟨ms⟩⟩) :: ps => by
    rw [populationEntities, countPopulations, List.length_append, length_memberEntities ms,
      length_populationEntities ps]
termination_by structural ps => ps

theorem Entity.length_memberEntities : ∀ ms : List (UInt32 × Entity),
    (memberEntities ms).length = countMembers ms
  | [] => rfl
  | (_, m) :: ms => by
    rw [memberEntities, countMembers, List.length_append, m.length_entities,
      length_memberEntities ms]
termination_by structural ms => ms

end

/-! ### Arrivals -/

section
variable {c : Context}

mutual

/-- A reader has as many entities to place as the form has in full. -/
theorem ValueForm.length_arrivals : ∀ {f : ValueForm} {v : Value} {as : List Arrival},
    f.read c = .ok (v, as) → as.length = f.fulls.length
  | .nil, _, _, h | .bool _, _, _, h | .int _, _, _, h | .float _, _, _, h | .str _, _, _, h
  | .context _, _, _, h => by
    cases h
    rfl
  | .list _ items, _, _, h => by
    rw [ValueForm.read] at h
    obtain ⟨_, _, h⟩ := bind_eq_ok.mp h
    obtain ⟨⟨vs, as⟩, hitems, h⟩ := bind_eq_ok.mp h
    cases h
    exact length_arrivals_of_readItems hitems
  | .map _ _ _ entries, _, _, h => by
    rw [ValueForm.read] at h
    obtain ⟨_, _, h⟩ := bind_eq_ok.mp h
    obtain ⟨_, _, h⟩ := bind_eq_ok.mp h
    obtain ⟨⟨es, as⟩, hentries, h⟩ := bind_eq_ok.mp h
    cases h
    exact length_arrivals_of_readEntries hentries
  | .type _, _, _, h | .shape _, _, _, h | .reference _, _, _, h => by
    rw [ValueForm.read] at h
    obtain ⟨_, _, h⟩ := bind_eq_ok.mp h
    cases h
    rfl
  | .full _ e, _, _, h => by
    rw [ValueForm.read] at h
    obtain ⟨_, _, h⟩ := bind_eq_ok.mp h
    obtain ⟨⟨_, as⟩, he, h⟩ := bind_eq_ok.mp h
    cases h
    rw [List.length_append, EntityForm.length_arrivals he]
    rfl
termination_by structural f => f

theorem length_arrivals_of_readItems : ∀ {fs : List ValueForm} {vs : List Value}
    {as : List Arrival}, readItems c fs = .ok (vs, as) → as.length = (itemFulls fs).length
  | [], _, _, h => by cases h; rfl
  | f :: fs, _, _, h => by
    rw [readItems] at h
    obtain ⟨⟨v, here⟩, hv, h⟩ := bind_eq_ok.mp h
    obtain ⟨⟨vs, later⟩, hvs, h⟩ := bind_eq_ok.mp h
    cases h
    rw [List.length_append, ValueForm.length_arrivals hv, length_arrivals_of_readItems hvs,
      itemFulls, List.length_append]
termination_by structural fs => fs

theorem length_arrivals_of_readEntries : ∀ {fs : List (ValueForm × ValueForm)}
    {es : List (Value × Value)} {as : List Arrival}, readEntries c fs = .ok (es, as) →
      as.length = (entryFulls fs).length
  | [], _, _, h => by cases h; rfl
  | (fk, fv) :: fs, _, _, h => by
    rw [readEntries] at h
    obtain ⟨⟨k, first⟩, hk, h⟩ := bind_eq_ok.mp h
    obtain ⟨⟨v, second⟩, hv, h⟩ := bind_eq_ok.mp h
    obtain ⟨⟨es, later⟩, hes, h⟩ := bind_eq_ok.mp h
    cases h
    rw [List.length_append, List.length_append, ValueForm.length_arrivals hk,
      ValueForm.length_arrivals hv, length_arrivals_of_readEntries hes, entryFulls,
      List.length_append, List.length_append]
termination_by structural fs => fs

theorem EntityForm.length_arrivals : ∀ {f : EntityForm} {e : Entity} {as : List Arrival},
    f.read c = .ok (e, as) → as.length = f.fulls.length
  | .mk _ _ attributes populations, _, _, h => by
    rw [EntityForm.read] at h
    obtain ⟨_, _, h⟩ := bind_eq_ok.mp h
    obtain ⟨⟨_, first⟩, hattributes, h⟩ := bind_eq_ok.mp h
    obtain ⟨⟨_, second⟩, hpopulations, h⟩ := bind_eq_ok.mp h
    cases h
    rw [List.length_append, length_arrivals_of_readAttributes hattributes,
      length_arrivals_of_readPopulations hpopulations, EntityForm.fulls, List.length_append]
termination_by structural f => f

theorem length_arrivals_of_readAttributes : ∀ {fs : List (String × ValueForm)}
    {vs : List (String × Value)} {as : List Arrival}, readAttributes c fs = .ok (vs, as) →
      as.length = (attributeFulls fs).length
  | [], _, _, h => by cases h; rfl
  | (_, f) :: fs, _, _, h => by
    rw [readAttributes] at h
    obtain ⟨⟨v, here⟩, hv, h⟩ := bind_eq_ok.mp h
    obtain ⟨⟨vs, later⟩, hvs, h⟩ := bind_eq_ok.mp h
    cases h
    rw [List.length_append, ValueForm.length_arrivals hv, length_arrivals_of_readAttributes hvs,
      attributeFulls, List.length_append]
termination_by structural fs => fs

theorem length_arrivals_of_readPopulations : ∀ {fs : List (PopulationForm EntityForm)}
    {ps : List (Population Entity)} {as : List Arrival}, readPopulations c fs = .ok (ps, as) →
      as.length = (populationFulls fs).length
  | [], _, _, h => by cases h; rfl
  | ⟨_, _, members⟩ :: fs, _, _, h => by
    rw [readPopulations] at h
    obtain ⟨_, _, h⟩ := bind_eq_ok.mp h
    obtain ⟨⟨_, here⟩, hmembers, h⟩ := bind_eq_ok.mp h
    obtain ⟨⟨ps, later⟩, hps, h⟩ := bind_eq_ok.mp h
    cases h
    rw [List.length_append, length_arrivals_of_readMembers hmembers,
      length_arrivals_of_readPopulations hps, populationFulls, List.length_append]
termination_by structural fs => fs

theorem length_arrivals_of_readMembers {species : String} {nextIndex : UInt32} :
    ∀ {fs : List EntityForm} {ms : List Entity} {as : List Arrival},
      readMembers c species nextIndex fs = .ok (ms, as) → as.length = (memberFulls fs).length
  | [], _, _, h => by cases h; rfl
  | f :: fs, _, _, h => by
    rw [readMembers] at h
    split at h
    · obtain ⟨⟨m, here⟩, hm, h⟩ := bind_eq_ok.mp h
      change (if m.species = species then _ else _) = _ at h
      split at h
      · obtain ⟨⟨ms, later⟩, hms, h⟩ := bind_eq_ok.mp h
        cases h
        rw [List.length_append, EntityForm.length_arrivals hm, length_arrivals_of_readMembers hms,
          memberFulls, List.length_append]
      · cases h
    · cases h
termination_by structural fs => fs

end

end

theorem Entity.arrivals_of_read_form {root e : Entity} {c : Context} {as : List Arrival}
    (h : root.form.read c = .ok (e, as)) : as = [] := by
  refine List.eq_nil_of_length_eq_zero ?_
  rw [EntityForm.length_arrivals h, root.fulls_form]
  rfl

/-! ### Documents -/

namespace Document

/-- The values of a document, nested ones included. -/
def parts (d : Document) : List ValueForm :=
  match d.body with
  | .entity e => e.parts
  | .object f => f.parts

/-- The entities that an entity document has as members, each with the address of its place. -/
def agents (d : Document) : List (Address × EntityForm) :=
  match d.body with
  | .entity e => e.places .root
  | .object _ => []

/-- What the reader of a document leaves to be placed. -/
def arrivals (d : Document) (c : Context) : Except DecodeError (List Arrival) :=
  match d.body with
  | .entity e => (e.read c).map Prod.snd
  | .object f => (f.read c).map Prod.snd

/-- A document that has each entity of a tree once. It has no entity as a value. Its values are
as many as those of the tree, in the same order; a link among those is the path of its address,
and so is the owner of a shape. Its entities, which are as many as the tree counts, stand where
addresses lead in the tree, each as the form of the one that the address leads to. To a reader
nothing arrives that would have to be placed, so what it reads as the body, be it an error, is
what it makes of the document. -/
structure HasEachOnce (d : Document) (root : Entity) : Prop where
  no_full : ∀ f ∈ d.parts, ∀ owner e, f ≠ .full owner e
  length_parts : d.parts.length = root.parts.length
  links : ∀ (i : Nat) (p : PathForm), d.parts[i]? = some (.reference p) ↔
    ∃ a, root.parts[i]? = some (.entity a) ∧ p = a.form
  owners : ∀ (i : Nat) (s : Shape), root.parts[i]? = some (.shape s) →
    ∃ f : ShapeForm, d.parts[i]? = some (.shape f) ∧ f.owner = s.owner.map Address.form
  agents : ∀ a f, (a, f) ∈ d.agents ↔ ∃ e, root.at? a = some e ∧ f = e.form
  distinct : (d.agents.map Prod.fst).Nodup
  length_agents : d.agents.length = root.count
  arrivals : ∀ c as, d.arrivals c = .ok as → as = []
  reads : ∀ c, d.tree c = (root.form.read c).map fun r => (r.1, d.header.cycle)

variable {root : Entity}

theorem parts_ofTree (root : Entity) (cycle : UInt64) :
    (ofTree root cycle).parts = root.parts.map Value.form := root.parts_form

theorem agents_ofTree (root : Entity) (cycle : UInt64) :
    (ofTree root cycle).agents = (root.places .root).map formAt := root.places_form .root

theorem getElem?_parts_ofTree {cycle : UInt64} {i : Nat} {f : ValueForm} :
    (ofTree root cycle).parts[i]? = some f ↔ ∃ v, root.parts[i]? = some v ∧ v.form = f := by
  rw [parts_ofTree, List.getElem?_map, Option.map_eq_some_iff]

theorem map_fst_agents_ofTree (root : Entity) (cycle : UInt64) :
    ((ofTree root cycle).agents.map Prod.fst) = root.addresses .root := by
  rw [agents_ofTree, List.map_map, ← Entity.map_fst_places]
  rfl

theorem mem_agents_ofTree {cycle : UInt64} {a : Address} {f : EntityForm}
    (hsorted : root.Everywhere Entity.Sorted) :
    (a, f) ∈ (ofTree root cycle).agents ↔ ∃ e, root.at? a = some e ∧ f = e.form := by
  rw [agents_ofTree, List.mem_map]
  constructor
  · rintro ⟨⟨b, e⟩, hplace, heq⟩
    cases heq
    exact ⟨e, (Entity.mem_places_root hsorted).mp hplace, rfl⟩
  · rintro ⟨e, hat, rfl⟩
    exact ⟨(a, e), (Entity.mem_places_root hsorted).mpr hat, rfl⟩

theorem length_agents_ofTree (root : Entity) (cycle : UInt64) :
    (ofTree root cycle).agents.length = root.count := by
  rw [agents_ofTree, List.length_map, ← root.length_entities,
    ← root.map_snd_places .root, List.length_map]

theorem arrivals_ofTree {cycle : UInt64} {c : Context} {as : List Arrival}
    (h : (ofTree root cycle).arrivals c = .ok as) : as = [] := by
  change (root.form.read c).map Prod.snd = .ok as at h
  cases hread : root.form.read c with
  | error x => rw [hread] at h; cases h
  | ok r =>
    rw [hread] at h
    cases h
    exact Entity.arrivals_of_read_form hread

theorem tree_ofTree_eq (root : Entity) (cycle : UInt64) (c : Context) :
    (ofTree root cycle).tree c = (root.form.read c).map fun r => (r.1, cycle) := by
  rw [tree, check_ofTree]
  change (root.form.read c >>= fun r => r.1.placeAll r.2 >>= fun e => .ok (e, cycle)) = _
  cases hread : root.form.read c with
  | error x => rfl
  | ok r =>
    obtain ⟨e, as⟩ := r
    cases Entity.arrivals_of_read_form hread
    rfl

/-- **The document of a tree has each of its entities once**, whatever the links in it. -/
theorem hasEachOnce_ofTree (r : Recipe) (cycle : UInt64) :
    (ofTree r.tree cycle).HasEachOnce r.tree where
  no_full f hf owner e := by
    rw [parts_ofTree] at hf
    obtain ⟨v, -, rfl⟩ := List.mem_map.mp hf
    exact v.form_ne_full owner e
  length_parts := by rw [parts_ofTree, List.length_map]
  links i p := by
    rw [getElem?_parts_ofTree]
    constructor
    · rintro ⟨v, hv, hform⟩
      obtain ⟨a, rfl, rfl⟩ := Value.form_eq_reference.mp hform
      exact ⟨a, hv, rfl⟩
    · rintro ⟨a, hv, rfl⟩
      exact ⟨.entity a, hv, rfl⟩
  owners i s hs := ⟨s.form, getElem?_parts_ofTree.mpr ⟨.shape s, hs, rfl⟩, rfl⟩
  agents _ _ := mem_agents_ofTree r.shelved.sorted
  distinct := by
    rw [map_fst_agents_ofTree]
    exact Entity.nodup_addresses r.shelved.sorted
  length_agents := length_agents_ofTree r.tree cycle
  arrivals _ _ := arrivals_ofTree
  reads := tree_ofTree_eq r.tree cycle

/-- Two partners, each of whom holds the address of the other. -/
example : (ofTree Sample.pair 0).agents.map Prod.fst =
    [.root, ⟨[⟨"ant", 0⟩]⟩, ⟨[⟨"ant", 1⟩]⟩] := by decide

end Document

end Rewind
