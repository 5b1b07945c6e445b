import Rewind.Proofs.Tree.Covers
import Rewind.Proofs.Tree.Decoded

/-! Trees that come about by edits, and how one finds one's way in them.

A tree starts as a single entity and is edited at addresses, one edit after the other; a
member that is inserted, or a population that is installed, comes from a tree that came about
in the same way (`Recipe`). Nothing else is asked of the trees, not even that members have the
species of their population. Each edit keeps a tree `Shelved`, wherever in a tree it is made
(`Edit.shelved_apply`, `Entity.Shelved.changeAlong`): what is put under a species or an index has
it, and what is changed in place keeps it. In a shelved tree every address leads to the one entity
that it belongs to (`Recipe.navigable`). -/

namespace Rewind

/-! ### Counters -/

theorem le_indexAfter (i : UInt32) : i ≤ indexAfter i := by
  by_cases h : i = 0xFFFFFFFF
  · rw [indexAfter, if_pos h]
    exact UInt32.le_refl i
  · exact UInt32.le_of_lt (lt_indexAfter h)

/-- An index is below the counter of its population, or both are the largest there is, where
counters stop. -/
def Beneath (index nextIndex : UInt32) : Prop := index ≤ nextIndex ∧ BelowOrLast index nextIndex

theorem Beneath.mono {i n n' : UInt32} (h : Beneath i n) (hn : n ≤ n') : Beneath i n' :=
  ⟨UInt32.le_trans h.1 hn, h.2.mono hn⟩

theorem beneath_indexAfter (i : UInt32) : Beneath i (indexAfter i) := by
  refine ⟨le_indexAfter i, ?_⟩
  by_cases h : i = 0xFFFFFFFF
  · exact .inr h
  · exact .inl (lt_indexAfter h)

theorem Population.beneath_insert (p : Population Entity) (e : Entity) :
    Beneath e.index (p.insert e).nextIndex := by
  refine (beneath_indexAfter e.index).mono ?_
  show indexAfter e.index ≤ if _ then _ else _
  split
  · exact UInt32.le_refl _
  · next h => exact UInt32.le_of_lt (UInt32.not_le.mp h)

/-- The counter has passed every index that a member stands under, or has stopped there. -/
def Population.Counted (p : Population Entity) : Prop :=
  ∀ index ∈ p.members.keys, Beneath index p.nextIndex

namespace Population.Counted
variable {p : Population Entity} {index : UInt32}

theorem insert (h : p.Counted) (e : Entity) : (p.insert e).Counted := by
  intro i hi
  rcases Members.mem_keys_put hi with rfl | hi
  · exact p.beneath_insert e
  · exact (h i hi).mono (p.nextIndex_le_insert e)

theorem erase (h : p.Counted) : (p.erase index).Counted :=
  fun i hi => h i ((Table.drop_sublist.map Prod.fst).subset hi)

theorem setMember (h : p.Counted) (e : Entity) : (p.setMember index e).Counted := by
  intro i hi
  change i ∈ (p.members.update index _).keys at hi
  rw [Table.keys_update] at hi
  exact h i hi

theorem spawn (h : p.Counted) : p.spawn.Counted := by
  have hold : ∀ i ∈ p.members.keys, Beneath i (indexAfter p.nextIndex) := fun i hi =>
    (h i hi).mono (le_indexAfter p.nextIndex)
  unfold Population.spawn
  split
  · exact hold
  · intro i hi
    rcases Members.mem_keys_put hi with rfl | hi
    · exact beneath_indexAfter p.nextIndex
    · exact hold i hi

end Population.Counted

/-! ### Shelved trees -/

/-- How an entity keeps what it owns: attributes under distinct names, populations under their
species, and members under their indices and in the order of these, which the counters have
passed. -/
structure Entity.Shelves (e : Entity) : Prop extends e.Sorted where
  names : e.attributes.keys.Nodup
  counters : ∀ p ∈ e.populations.values, p.Counted

/-- Every entity of the tree keeps what it owns in that way. -/
def Entity.Shelved (e : Entity) : Prop := e.Everywhere Shelves

structure Population.Shelved (p : Population Entity) : Prop extends p.Sorted where
  counter : p.Counted
  members : ∀ m ∈ p.members.values, m.Shelved

theorem Entity.shelved_iff {e : Entity} : e.Shelved ↔ e.attributes.keys.Nodup ∧
    e.populations.Indexed Population.species ∧ ∀ p ∈ e.populations.values, p.Shelved := by
  refine everywhere_iff.trans ⟨fun ⟨h, hm⟩ => ?_, fun ⟨hn, hs, hp⟩ => ?_⟩
  · exact ⟨h.names, h.species, fun p hp => ⟨h.members p hp, h.counters p hp, hm p hp⟩⟩
  · exact ⟨⟨⟨hs, fun p h => (hp p h).toSorted⟩, hn, fun p h => (hp p h).counter⟩,
      fun p h => (hp p h).members⟩

theorem Entity.Shelved.sorted {e : Entity} (h : e.Shelved) : e.Everywhere Sorted :=
  fun t ht => (h t ht).toSorted

theorem Entity.Shelved.new (species : String) (index : UInt32) :
    (Entity.new species index).Shelved :=
  shelved_iff.mpr ⟨.nil, .empty _, List.forall_mem_nil _⟩

namespace Population.Shelved
variable {p : Population Entity} {e : Entity} {index : UInt32}

theorem new (species : String) : (Population.new species).Shelved :=
  ⟨.counting species 0, List.forall_mem_nil _, List.forall_mem_nil _⟩

theorem insert (hp : p.Shelved) (he : e.Shelved) : (p.insert e).Shelved :=
  ⟨hp.toSorted.insert e, hp.counter.insert e, forall_mem_insert hp.members he⟩

theorem spawn (hp : p.Shelved) : p.spawn.Shelved :=
  ⟨hp.toSorted.spawn, hp.counter.spawn, forall_mem_spawn hp.members (.new _ _)⟩

theorem erase (hp : p.Shelved) : (p.erase index).Shelved :=
  ⟨hp.toSorted.erase, hp.counter.erase, fun m hm => hp.members m (mem_erase hm)⟩

/-- What replaces a member has to have its index. -/
theorem setMember (hp : p.Shelved) (he : e.Shelved) (hi : e.index = index) :
    (p.setMember index e).Shelved :=
  ⟨hp.toSorted.setMember hi, hp.counter.setMember e, forall_mem_setMember hp.members he⟩

end Population.Shelved

namespace Entity.Shelved
variable {e : Entity} {p : Population Entity} {species name : String}

theorem set (he : e.Shelved) (v : Value) : (e.set name v).Shelved := by
  obtain ⟨hn, hps⟩ := shelved_iff.mp he
  exact shelved_iff.mpr ⟨Table.nodup_put hn, hps⟩

theorem unset (he : e.Shelved) : (e.unset name).Shelved := by
  obtain ⟨hn, hps⟩ := shelved_iff.mp he
  exact shelved_iff.mpr ⟨hn.sublist (Table.drop_sublist.map _), hps⟩

/-- What is put under a species has to have it. -/
theorem shelve (he : e.Shelved) (hp : p.Shelved) (hs : p.species = species) :
    (e.shelve species p).Shelved := by
  obtain ⟨hn, hindexed, hps⟩ := shelved_iff.mp he
  exact shelved_iff.mpr ⟨hn, hindexed.set hs, forall_mem_shelve hps hp⟩

theorem population? (he : e.Shelved) (h : e.population? species = some p) :
    p.Shelved ∧ p.species = species :=
  ⟨(shelved_iff.mp he).2.2 p (Table.mem_values_of_get? h),
    he.here.species.keyed.own_of_get? h⟩

theorem populationOf (he : e.Shelved) (species : String) : (e.populationOf species).Shelved := by
  rw [Entity.populationOf]
  cases h : e.population? species with
  | none => exact .new species
  | some p => exact (he.population? h).1

/-- What keeps an entity shelved where it stands keeps every tree shelved around it. -/
theorem changeAlong {f : Entity → Entity} {e' : Entity} {hops : List Hop}
    (hf : ∀ t, t.Shelved → (f t).Shelved) (hindex : ∀ t, (f t).index = t.index) (he : e.Shelved)
    (h : e.changeAlong f hops = some e') : e'.Shelved ∧ e'.index = e.index := by
  induction hops generalizing e e' with
  | nil =>
    cases h
    exact ⟨hf e he, hindex e⟩
  | cons hop hops ih =>
    simp only [Entity.changeAlong, Option.bind_eq_bind, Option.bind_eq_some_iff] at h
    obtain ⟨p, hp, m, hm, m', hm', h⟩ := h
    cases h
    obtain ⟨hshelved, hspecies⟩ := he.population? hp
    obtain ⟨hm', hindex⟩ := ih (hshelved.members m (Table.mem_values_of_get? hm)) hm'
    exact ⟨he.shelve (hshelved.setMember hm' (hindex.trans (hshelved.keyed.own_of_get? hm)))
      hspecies, rfl⟩

end Entity.Shelved

/-! ### Recipes -/

/-- Changes the population that stands under a species, if there is one. -/
def Entity.editPopulation (e : Entity) (species : String)
    (f : Population Entity → Population Entity) : Entity :=
  match e.population? species with
  | some p => e.shelve species (f p)
  | none => e

mutual

/-- How a tree came about: from a single entity, by edits of what stands at an address. -/
inductive Recipe where
  | new (species : String) (index : UInt32)
  | edit (before : Recipe) (a : Address) (x : Edit)

/-- What is done to an entity. -/
inductive Edit where
  | set (name : String) (v : Value)
  | unset (name : String)
  | ensurePopulation (species : String)
  | spawn (species : String)
  | insert (species : String) (member : Recipe)
  | erase (species : String) (index : UInt32)
  /-- Installs the population of a species that the top of another tree owns. -/
  | setPopulation (species : String) (owner : Recipe)

end

mutual

/-- The tree of a recipe. Nothing is done at an address that leads nowhere. -/
def Recipe.tree : Recipe → Entity
  | .new species index => .new species index
  | .edit before a x => (before.tree.modify? a x.apply).getD before.tree
termination_by structural r => r

def Edit.apply : Edit → Entity → Entity
  | .set name v, e => e.set name v
  | .unset name, e => e.unset name
  | .ensurePopulation species, e => e.ensurePopulation species
  | .spawn species, e => e.editPopulation species Population.spawn
  | .insert species member, e => e.editPopulation species (·.insert member.tree)
  | .erase species index, e => e.editPopulation species (·.erase index)
  | .setPopulation species owner, e => e.setPopulation (owner.tree.populationOf species)
termination_by structural x => x

end

theorem Entity.index_editPopulation (e : Entity) (species : String)
    (f : Population Entity → Population Entity) : (e.editPopulation species f).index = e.index := by
  unfold editPopulation
  split <;> rfl

theorem Entity.Shelved.editPopulation {e : Entity} {f : Population Entity → Population Entity}
    (he : e.Shelved) (species : String) (hf : ∀ p : Population Entity, p.Shelved → (f p).Shelved)
    (hspecies : ∀ p, (f p).species = p.species) : (e.editPopulation species f).Shelved := by
  unfold Entity.editPopulation
  split
  · next p hp =>
    obtain ⟨hshelved, hs⟩ := he.population? hp
    exact he.shelve (hf p hshelved) ((hspecies p).trans hs)
  · exact he

/-- No edit changes the index of what is edited. -/
theorem Edit.index_apply (x : Edit) (e : Entity) : (x.apply e).index = e.index := by
  cases x with
  | spawn | insert | erase => exact e.index_editPopulation _ _
  | set | unset | ensurePopulation | setPopulation => rfl

mutual

theorem Recipe.shelved : ∀ r : Recipe, r.tree.Shelved
  | .new species index => .new species index
  | .edit before a x => by
    rw [Recipe.tree]
    cases h : before.tree.modify? a x.apply with
    | none => exact before.shelved
    | some e =>
      exact (before.shelved.changeAlong (fun t ht => x.shelved_apply ht) x.index_apply h).1
termination_by structural r => r

/-- Every edit keeps what is edited shelved. -/
theorem Edit.shelved_apply : ∀ (x : Edit) {e : Entity}, e.Shelved → (x.apply e).Shelved
  | .set _ v, _, he => he.set v
  | .unset _, _, he => he.unset
  | .ensurePopulation species, _, he =>
    he.shelve (he.populationOf species) (he.here.toSorted.species_populationOf species)
  | .spawn species, _, he => he.editPopulation species (fun _ hp => hp.spawn) fun _ => rfl
  | .insert species member, _, he =>
    he.editPopulation species (fun _ hp => hp.insert member.shelved) fun _ => rfl
  | .erase species _, _, he => he.editPopulation species (fun _ hp => hp.erase) fun _ => rfl
  | .setPopulation species owner, _, he => he.shelve (owner.shelved.populationOf species) rfl
termination_by structural x => x

end

/-! ### Finding one's way -/

/-- A tree in which everything stands where one looks for it. Of an entity, attributes have
distinct names, every population stands under the species that it has of itself and every member
under the index that it has; so a population is found under its own species and no other, a member
under its own index and no other. Members stand in the order of their indices, none above the
counter and at the counter only where that has stopped. Of the tree, the address that a walk notes
for an entity leads to that entity, a walk meets whatever an address leads to, and it notes no
address twice. -/
structure Entity.Navigable (root : Entity) : Prop where
  names : root.Everywhere fun e => e.attributes.keys.Nodup
  ownSpecies : root.Everywhere fun e =>
    ∀ species p, (species, p) ∈ e.populations.entries → species = p.species
  ownIndex : root.Everywhere fun e => ∀ p ∈ e.populations.values,
    ∀ index m, (index, m) ∈ p.members.entries → index = m.index
  population : root.Everywhere fun e => ∀ species p,
    e.population? species = some p ↔ p ∈ e.populations.values ∧ p.species = species
  member : root.Everywhere fun e => ∀ p ∈ e.populations.values, ∀ index m,
    p.member? index = some m ↔ m ∈ p.members.values ∧ m.index = index
  increasing : root.Everywhere fun e => ∀ p ∈ e.populations.values,
    (p.members.values.map Entity.index).Pairwise (· < ·)
  counter : root.Everywhere fun e => ∀ p ∈ e.populations.values, ∀ m ∈ p.members.values,
    m.index ≤ p.nextIndex ∧ (m.index < p.nextIndex ∨ m.index = 0xFFFFFFFF)
  walk : (root.places .root).map Prod.snd = root.entities
  leads : ∀ a e, (a, e) ∈ root.places .root ↔ root.at? a = some e
  distinct : ((root.places .root).map Prod.fst).Nodup

theorem Entity.Navigable.of_shelved {root : Entity} (h : root.Shelved) : root.Navigable where
  names e he := (h e he).names
  ownSpecies e he _ _ hp := (h e he).species.keyed _ hp
  ownIndex e he p hp _ _ hm := ((h e he).members p hp).keyed _ hm
  population e he _ _ := (h e he).species.get?_eq_some_iff
  member e he p hp _ _ := ((h e he).members p hp).indexed.get?_eq_some_iff
  increasing e he p hp := ((h e he).members p hp).indices
  counter e he p hp m hm := by
    have hkey : m.index ∈ p.members.keys :=
      Table.mem_keys_iff.mpr ⟨m, ((h e he).members p hp).indexed.get?_of_mem hm⟩
    exact (h e he).counters p hp m.index hkey
  walk := map_snd_places .root root
  leads _ _ := mem_places_root h.sorted
  distinct := by
    rw [map_fst_places]
    exact nodup_addresses h.sorted

/-- **Trees stay navigable**, whatever edits are made to them, wherever and in whatever order. -/
theorem Recipe.navigable (r : Recipe) : r.tree.Navigable := .of_shelved r.shelved

/-- What comes in the place of a member without its index is not where one looks for it. -/
example : ¬ ((Recipe.new "simulation" 0).tree.shelve "ant"
    (((Population.new "ant").insert (.new "ant" 0)).setMember 0 (.new "ant" 7))).Navigable :=
  fun h => absurd (h.ownIndex _ (List.mem_cons_self ..) _ (List.mem_cons_self ..) 0 (.new "ant" 7)
    (List.mem_cons_self ..)) (by decide)

/-- An egg among the ants is found as the ant of its index. -/
example : (Recipe.tree (.edit (.edit (.edit (.new "simulation" 0) .root (.ensurePopulation "ant"))
    .root (.insert "ant" (.new "egg" 7))) .root (.spawn "ant"))).addresses .root =
    [.root, ⟨[⟨"ant", 7⟩]⟩, ⟨[⟨"ant", 8⟩]⟩] := by decide

end Rewind
