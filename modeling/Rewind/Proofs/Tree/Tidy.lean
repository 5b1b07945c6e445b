import Rewind.Proofs.Tree.Sorted

/-! Trees that operations build, and what all of them have.

`Value.Built` and `Entity.Built` are the values and trees that come about by the
operations of their modules, in any order and number. Every such tree is `Tidy`:
attribute names are distinct, populations and members are under their own species and
indices, and no key of a map agrees with a later one (`Entity.Built.tidy`). This is what
lets a reader put the parts of a tree together again one by one and end up with the same
tree: in a tidy list every part is put behind those before it (`foldl_eq_of_append`). -/

namespace Rewind

theorem Entries.insert_of_forall_not_agrees {key value : Value} {es : List (Value × Value)}
    (h : ∀ e ∈ es, e.1.agrees key = false) : insert key value es = es ++ [(key, value)] := by
  induction es with
  | nil => rfl
  | cons e es ih =>
    obtain ⟨he, hes⟩ := List.forall_mem_cons.mp h
    rw [insert, he, ih hes]
    rfl

/-- No key agrees with a later one. -/
def Entries.Distinct (es : List (Value × Value)) : Prop :=
  (es.map Prod.fst).Pairwise fun k k' => k.agrees k' = false

theorem Entries.ofList_eq {es : List (Value × Value)} (h : Distinct es) : ofList es = es := by
  refine foldl_eq_of_append (g := id) ?_ (List.pairwise_map.mp h)
  intro done a _ hne
  exact insert_of_forall_not_agrees hne

/-! ### Tidy values -/

/-- What a value has that is not a map, and a map that was filled by insertion. -/
def Value.Orderly : Value → Prop
  | .map _ _ _ entries => Entries.Distinct entries
  | _ => True

/-- Every map in the value has distinct keys. -/
def Value.Tidy (v : Value) : Prop := v.Throughout Orderly

/-- Values that come about by building lists and inserting into maps. -/
inductive Value.Built : Value → Prop
  /-- A value that holds no others; empty lists and maps are among them. -/
  | plain {v : Value} (h : v.inner = []) : Built v
  | list {content : TypeExpr} {items : List Value} (h : ∀ v ∈ items, Built v) :
      Built (.list content items)
  | insert {key content : TypeExpr} {ordered : Bool} {entries : List (Value × Value)} {k v : Value}
      (hm : Built (.map key content ordered entries)) (hk : Built k) (hv : Built v) :
      Built (.map key content ordered (Entries.insert k v entries))

namespace Entries
variable {key value : Value} {es : List (Value × Value)}

theorem mem_insert {e : Value × Value} (h : e ∈ insert key value es) :
    (e.1 = key ∨ e.1 ∈ es.map Prod.fst) ∧ (e.2 = value ∨ e.2 ∈ es.map Prod.snd) := by
  induction es with
  | nil =>
    rw [List.mem_singleton.mp h]
    exact ⟨.inl rfl, .inl rfl⟩
  | cons e' es ih =>
    unfold insert at h
    split at h
    · rcases List.mem_cons.mp h with rfl | h
      · exact ⟨.inr List.mem_cons_self, .inl rfl⟩
      · exact ⟨.inr (List.mem_cons_of_mem _ (List.mem_map_of_mem h)),
          .inr (List.mem_cons_of_mem _ (List.mem_map_of_mem h))⟩
    · rcases List.mem_cons.mp h with rfl | h
      · exact ⟨.inr List.mem_cons_self, .inr List.mem_cons_self⟩
      · exact ⟨(ih h).1.imp_right (List.mem_cons_of_mem _),
          (ih h).2.imp_right (List.mem_cons_of_mem _)⟩

/-- What the keys and values of a map have in common, and those inserted. -/
theorem forall_mem_insert {P : Value → Prop} (hk : P key) (hv : P value)
    (h : ∀ e ∈ es, P e.1 ∧ P e.2) : ∀ e ∈ insert key value es, P e.1 ∧ P e.2 := by
  refine fun e he => ⟨?_, ?_⟩
  · rcases (mem_insert he).1 with heq | hmem
    · rw [heq]; exact hk
    · obtain ⟨e', he', heq⟩ := List.mem_map.mp hmem
      rw [← heq]
      exact (h e' he').1
  · rcases (mem_insert he).2 with heq | hmem
    · rw [heq]; exact hv
    · obtain ⟨e', he', heq⟩ := List.mem_map.mp hmem
      rw [← heq]
      exact (h e' he').2

theorem Distinct.insert (h : Distinct es) : Distinct (Entries.insert key value es) := by
  induction es with
  | nil => exact List.pairwise_singleton _ _
  | cons e es ih =>
    obtain ⟨he, hes⟩ := List.pairwise_cons.mp h
    unfold Entries.insert
    split
    · exact h
    · next hne =>
      refine List.pairwise_cons.mpr ⟨fun k hk => ?_, ih hes⟩
      obtain ⟨e', he', rfl⟩ := List.mem_map.mp hk
      rcases (mem_insert he').1 with heq | hmem
      · rw [heq]
        simpa using hne
      · exact he _ hmem

end Entries

theorem Value.tidy_map {key content : TypeExpr} {ordered : Bool} {entries : List (Value × Value)} :
    (Value.map key content ordered entries).Tidy ↔
      Entries.Distinct entries ∧ ∀ e ∈ entries, e.1.Tidy ∧ e.2.Tidy :=
  throughout_map

theorem Value.tidy_list {content : TypeExpr} {items : List Value} :
    (Value.list content items).Tidy ↔ ∀ v ∈ items, v.Tidy :=
  throughout_list.trans (and_iff_right trivial)

theorem Value.tidy_of_inner_eq_nil {v : Value} (h : v.inner = []) : v.Tidy := by
  refine throughout_iff.mpr ⟨?_, by rw [h]; exact List.forall_mem_nil _⟩
  cases v with
  | map key content ordered entries =>
    cases entries with
    | nil => exact .nil
    | cons e es => cases h
  | _ => trivial

theorem Value.Built.tidy {v : Value} (h : v.Built) : v.Tidy := by
  induction h with
  | plain h => exact tidy_of_inner_eq_nil h
  | list _ ih => exact tidy_list.mpr ih
  | insert _ _ _ ihm ihk ihv =>
    obtain ⟨hd, hes⟩ := tidy_map.mp ihm
    exact tidy_map.mpr ⟨hd.insert, Entries.forall_mem_insert ihk ihv hes⟩

/-! ### Tidy trees -/

/-- What an entity looks like of itself, whatever its members look like. -/
structure Entity.Orderly (e : Entity) : Prop extends e.Sorted where
  names : e.attributes.keys.Nodup
  values : ∀ v ∈ e.attributes.values, v.Tidy

/-- Every entity of the tree is orderly. -/
def Entity.Tidy (e : Entity) : Prop := e.Everywhere Orderly

structure Population.Tidy (p : Population Entity) : Prop extends p.Sorted where
  members : ∀ m ∈ p.members.values, m.Tidy

theorem Entity.tidy_iff {e : Entity} :
    e.Tidy ↔ (e.attributes.keys.Nodup ∧ ∀ v ∈ e.attributes.values, v.Tidy) ∧
      e.populations.Indexed Population.species ∧ ∀ p ∈ e.populations.values, p.Tidy := by
  refine everywhere_iff.trans ⟨fun ⟨h, hm⟩ => ?_, fun ⟨⟨hn, hv⟩, hs, hp⟩ => ?_⟩
  · exact ⟨⟨h.names, h.values⟩, h.species, fun p hp => ⟨h.members p hp, hm p hp⟩⟩
  · exact ⟨⟨⟨hs, fun p h => (hp p h).toSorted⟩, hn, hv⟩, fun p h => (hp p h).members⟩

mutual

/-- Trees that come about by the operations on entities and populations. What is
changed in place is put back under its species or its index. -/
inductive Entity.Built : Entity → Prop
  | new (species : String) (index : UInt32) : Entity.Built (.new species index)
  | set {e : Entity} {name : String} {v : Value} (he : e.Built) (hv : v.Built) :
      Entity.Built (e.set name v)
  | unset {e : Entity} {name : String} (he : e.Built) : Entity.Built (e.unset name)
  | setPopulation {e : Entity} {p : Population Entity} (he : e.Built) (hp : p.Built) :
      Entity.Built (e.setPopulation p)

inductive Population.Built : Population Entity → Prop
  | new (species : String) : Population.Built (.new species)
  | insert {p : Population Entity} {e : Entity} (hp : p.Built) (he : e.Built) :
      Population.Built (p.insert e)
  | spawn {p : Population Entity} (hp : p.Built) : Population.Built p.spawn
  | erase {p : Population Entity} {index : UInt32} (hp : p.Built) :
      Population.Built (p.erase index)
  | setMember {p : Population Entity} {e : Entity} (hp : p.Built) (he : e.Built) :
      Population.Built (p.setMember e.index e)

end

/-! ### What the operations keep -/

theorem Entity.Tidy.new (species : String) (index : UInt32) : (Entity.new species index).Tidy :=
  tidy_iff.mpr ⟨⟨.nil, List.forall_mem_nil _⟩, .empty _, List.forall_mem_nil _⟩

namespace Population
variable {p : Population Entity} {e : Entity}

theorem Tidy.counting (species : String) (nextIndex : UInt32) :
    (Population.counting species nextIndex).Tidy :=
  ⟨.counting species nextIndex, List.forall_mem_nil _⟩

theorem Tidy.insert (hp : p.Tidy) (he : e.Tidy) : (p.insert e).Tidy :=
  ⟨hp.toSorted.insert e, forall_mem_insert hp.members he⟩

theorem Tidy.spawn (hp : p.Tidy) : p.spawn.Tidy :=
  ⟨hp.toSorted.spawn, forall_mem_spawn hp.members (.new p.species p.nextIndex)⟩

theorem Tidy.erase {index : UInt32} (hp : p.Tidy) : (p.erase index).Tidy :=
  ⟨hp.toSorted.erase, fun m hm => hp.members m (mem_erase hm)⟩

theorem Tidy.setMember (hp : p.Tidy) (he : e.Tidy) : (p.setMember e.index e).Tidy :=
  ⟨hp.toSorted.setMember rfl, forall_mem_setMember hp.members he⟩

end Population

namespace Entity
variable {e : Entity}

theorem Tidy.set {name : String} {v : Value} (he : e.Tidy) (hv : v.Tidy) :
    (e.set name v).Tidy := by
  obtain ⟨⟨hn, hvs⟩, hps⟩ := tidy_iff.mp he
  refine tidy_iff.mpr ⟨⟨Table.nodup_put hn, fun w hw => ?_⟩, hps⟩
  rcases Table.mem_put hw with rfl | hw
  · exact hv
  · exact hvs w hw

theorem Tidy.unset {name : String} (he : e.Tidy) : (e.unset name).Tidy := by
  obtain ⟨⟨hn, hvs⟩, hps⟩ := tidy_iff.mp he
  exact tidy_iff.mpr ⟨⟨hn.sublist (Table.drop_sublist.map _),
    fun w hw => hvs w ((Table.drop_sublist.map _).subset hw)⟩, hps⟩

theorem Tidy.setPopulation {p : Population Entity} (he : e.Tidy) (hp : p.Tidy) :
    (e.setPopulation p).Tidy := by
  obtain ⟨has, hs, hps⟩ := tidy_iff.mp he
  exact tidy_iff.mpr ⟨has, hs.set rfl, forall_mem_shelve hps hp⟩

end Entity

mutual

theorem Entity.Built.tidy : ∀ {e : Entity}, e.Built → e.Tidy
  | _, .new species index => .new species index
  | _, .set he hv => he.tidy.set hv.tidy
  | _, .unset he => he.tidy.unset
  | _, .setPopulation he hp => he.tidy.setPopulation hp.tidy

theorem Population.Built.tidy : ∀ {p : Population Entity}, p.Built → p.Tidy
  | _, .new species => .counting species 0
  | _, .insert hp he => hp.tidy.insert he.tidy
  | _, .spawn hp => hp.tidy.spawn
  | _, .erase hp => hp.tidy.erase
  | _, .setMember hp he => hp.tidy.setMember he.tidy

end

end Rewind
