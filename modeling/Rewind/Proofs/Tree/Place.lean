import Rewind.Proofs.Tree.References
import Rewind.Proofs.Tree.Sound

/-! Arrivals, and what placing them changes.

An entity that arrives at its own place in its own tree changes nothing there
(`Context.Sound.place_arrival`). One that belongs to the root of some tree is found there
under its own hop from then on, with all it owns, and every other hop leads where it led
before (`Entity.follow_insert`). -/

namespace Rewind

/-! ### Members that are put -/

namespace Population
variable {p : Population Entity} {e : Entity}

/-- A member that is put where it stands, below the counter. -/
theorem insert_of_member? (h : p.member? e.index = some e)
    (hs : p.members.keys.Pairwise (· < ·)) (hlt : e.index < p.nextIndex) :
    p.insert e = p := by
  rw [insert, max_indexAfter hlt, Members.put_of_find h hs]

theorem member?_insert (p : Population Entity) (e : Entity) (index : UInt32) :
    (p.insert e).member? index = if e.index = index then some e else p.member? index :=
  Members.find_put index p.members.entries

end Population

/-! ### Following hops -/

namespace Entity
variable {e t : Entity} {h : Hop} {hs : List Hop}

theorem follow_cons_eq_some : e.follow (h :: hs) = some t ↔
    ∃ p, e.population? h.species = some p ∧ ∃ m, p.member? h.index = some m ∧
      m.follow hs = some t := by
  simp [follow, Option.bind_eq_some_iff]

theorem follow_append (e : Entity) (hs hs' : List Hop) :
    e.follow (hs ++ hs') = (e.follow hs).bind (·.follow hs') := by
  induction hs generalizing e with
  | nil => rfl
  | cons h hs ih => simp [follow, ih, Option.bind_assoc]

/-- A population that is put where it stands. -/
theorem shelve_of_population? {p : Population Entity} {species : String}
    (h : e.population? species = some p) : e.shelve species p = e := by
  rw [shelve, Table.set_of_get? h]
  cases e
  rfl

/-- A change that leaves the entity at its place as it is leaves the tree as it is. -/
theorem changeAlong_of_follow {f : Entity → Entity} (h : e.follow hs = some t) (hf : f t = t) :
    e.changeAlong f hs = some e := by
  induction hs generalizing e with
  | nil =>
    cases h
    rw [changeAlong, hf]
  | cons hop hs ih =>
    obtain ⟨p, hp, m, hm, h⟩ := follow_cons_eq_some.mp h
    have hmember : p.setMember hop.index m = p := by
      rw [Population.setMember, Table.update_of_get? hm, Table.set_of_get? hm]
    simp only [changeAlong, hp, hm, ih h, Option.bind_eq_bind, Option.bind_some, hmember,
      shelve_of_population? hp]

theorem changeAlong_eq_none {f : Entity → Entity}
    (h : e.follow hs = none) : e.changeAlong f hs = none := by
  induction hs generalizing e with
  | nil => cases h
  | cons hop hs ih =>
    rw [changeAlong]
    rw [follow] at h
    cases hp : e.population? hop.species with
    | none => rfl
    | some p =>
      rw [hp] at h
      cases hm : p.member? hop.index with
      | none => simp [hm]
      | some m =>
        have hnone : m.follow hs = none := by simpa [hm] using h
        simp [hm, ih hnone]

/-- A population that is not there has no members. -/
theorem member?_populationOf (e : Entity) (species : String) (index : UInt32) :
    (e.populationOf species).member? index = (e.population? species).bind (·.member? index) := by
  rw [populationOf]
  cases e.population? species <;> rfl

theorem follow_cons (e : Entity) (h : Hop) (hs : List Hop) :
    e.follow (h :: hs) = ((e.populationOf h.species).member? h.index).bind (·.follow hs) := by
  rw [member?_populationOf, Option.bind_assoc]
  rfl

theorem populationOf_shelve (e : Entity) (species : String) (p : Population Entity)
    (other : String) : (e.shelve species p).populationOf other =
      if species = other then p else e.populationOf other := by
  rw [populationOf, population?, shelve, Table.get?_set]
  split <;> rfl

/-- Where the hops of a tree lead after a member was put under its root. -/
theorem follow_insert (e m : Entity) (h : Hop) (hs : List Hop) :
    (e.withPopulation m.species (·.insert m)).follow (h :: hs) =
      if h = ⟨m.species, m.index⟩ then m.follow hs else e.follow (h :: hs) := by
  obtain ⟨species, index⟩ := h
  rw [follow_cons, follow_cons, withPopulation, populationOf_shelve]
  by_cases hspecies : m.species = species
  · subst hspecies
    rw [if_pos rfl, Population.member?_insert]
    by_cases hindex : m.index = index
    · rw [if_pos hindex, if_pos (by rw [hindex])]
      rfl
    · rw [if_neg hindex, if_neg fun h => hindex (Hop.mk.inj h).2.symm]
  · rw [if_neg hspecies, if_neg fun h => hspecies (Hop.mk.inj h).1.symm]

/-! ### What is held -/

/-- What is held after a member was put is held by the member or was held before. -/
theorem Holds.of_insert {m : Entity} {a : Address}
    (h : (e.withPopulation m.species (·.insert m)).Holds a) :
    e.Holds a ∨ m.Holds a := by
  rcases h with ⟨hv, h⟩ | ⟨hp, hn, h⟩
  · exact .inl (.attribute hv h)
  · rcases mem_shelve hp with rfl | hp
    · rcases Population.mem_insert hn with rfl | hn
      · exact .inr h
      · rw [populationOf] at hn
        cases hq : e.population? m.species with
        | none =>
          rw [hq] at hn
          cases hn
        | some q =>
          rw [hq] at hn
          exact .inl (.member (Table.mem_values_of_get? hq) hn h)
    · exact .inl (.member hp hn h)

theorem Holds.of_follow {a : Address} (he : e.follow hs = some t) (h : t.Holds a) : e.Holds a := by
  induction hs generalizing e with
  | nil =>
    cases he
    exact h
  | cons hop hs ih =>
    obtain ⟨p, hp, m, hm, he⟩ := follow_cons_eq_some.mp he
    exact .member (Table.mem_values_of_get? hp) (Table.mem_values_of_get? hm) (ih he)

end Entity

theorem Entity.place_of_at?_eq_none {root e : Entity} {o : Address} (h : root.at? o = none) :
    root.place ⟨some o, e⟩ = .error (.unresolved o) := by
  simp only [place, modify?, changeAlong_eq_none h]

theorem Entity.placeAll_append (root : Entity) (as bs : List Arrival) :
    root.placeAll (as ++ bs) = root.placeAll as >>= (·.placeAll bs) := by
  induction as generalizing root with
  | nil => rfl
  | cons a as ih =>
    rw [List.cons_append, placeAll, placeAll]
    cases root.place a with
    | error e => rfl
    | ok placed => exact ih placed

/-! ### Owners and members -/

namespace Address

theorem root_or_child (a : Address) :
    a = .root ∨ ∃ (o : Address) (h : Hop), a = o.child h.species h.index := by
  obtain ⟨hs⟩ := a
  rcases List.eq_nil_or_concat hs with rfl | ⟨hs, h, rfl⟩
  · exact .inl rfl
  · exact .inr ⟨⟨hs⟩, h, by rw [child, List.concat_eq_append]⟩

theorem parent?_child (o : Address) (species : String) (index : UInt32) :
    (o.child species index).parent? = some o := by
  simp [parent?, child, isRoot]

end Address

theorem Entity.at?_child {root e : Entity} {o : Address} {species : String} {index : UInt32} :
    root.at? (o.child species index) = some e ↔ ∃ t, root.at? o = some t ∧
      ∃ p, t.population? species = some p ∧ p.member? index = some e := by
  rw [at?, Address.child, follow_append, Option.bind_eq_some_iff]
  refine exists_congr fun t => and_congr_right fun _ => follow_cons_eq_some.trans ?_
  simp [follow]

namespace Context.Sound
variable {c : Context} {fits : UInt32 → UInt32 → Prop} {root e : Entity} {a : Address}

theorem follow {hs : List Hop} (h : c.Sound fits root) (he : root.follow hs = some e) :
    c.Sound fits e := by
  induction hs generalizing root with
  | nil =>
    cases he
    exact h
  | cons hop hs ih =>
    obtain ⟨p, hp, m, hm, he⟩ := Entity.follow_cons_eq_some.mp he
    exact ih ((h.population? hp).members m (Table.mem_values_of_get? hm)).2 he

/-- A member is addressed by its own species and index. -/
theorem self_of_at?_child {o : Address} {species : String} {index : UInt32} (h : c.Sound fits root)
    (he : root.at? (o.child species index) = some e) : e.species = species ∧ e.index = index := by
  obtain ⟨t, ht, p, hp, hm⟩ := Entity.at?_child.mp he
  have hsp := (h.follow ht).population? hp
  obtain ⟨⟨hspecies, -⟩, -⟩ := hsp.members e (Table.mem_values_of_get? hm)
  exact ⟨hspecies.trans ((h.follow ht).sorted.species.keyed.own_of_get? hp),
    hsp.sorted.keyed.own_of_get? hm⟩

end Context.Sound

/-! ### Arrivals at their own place -/

/-- The arrival of an entity that stands at an address. -/
def Entity.arrival (e : Entity) (a : Address) : Arrival := ⟨a.parent?, e⟩

namespace Context.Sound
variable {c : Context} {root e : Entity} {a : Address}

theorem address_arrival (h : c.Sound (· < ·) root) (he : root.at? a = some e) :
    (e.arrival a).address = a := by
  rcases a.root_or_child with rfl | ⟨o, hop, rfl⟩
  · rfl
  · obtain ⟨hspecies, hindex⟩ := h.self_of_at?_child he
    rw [Entity.arrival, Address.parent?_child, Arrival.address, hspecies, hindex]

/-- **An entity that arrives at its own place changes nothing.** -/
theorem place_arrival (h : c.Sound (· < ·) root) (he : root.at? a = some e) :
    root.place (e.arrival a) = .ok root := by
  rcases a.root_or_child with rfl | ⟨o, hop, rfl⟩
  · cases he
    rfl
  · obtain ⟨t, ht, p, hp, hm⟩ := Entity.at?_child.mp he
    obtain ⟨hspecies, hindex⟩ := h.self_of_at?_child he
    have hsp := (h.follow ht).population? hp
    have hlt : e.index < p.nextIndex := (hsp.members e (Table.mem_values_of_get? hm)).1.2
    have hself : t.withPopulation e.species (·.insert e) = t := by
      have hof : t.populationOf e.species = p := by rw [Entity.populationOf, hspecies, hp]; rfl
      rw [Entity.withPopulation, hof,
        Population.insert_of_member? (by rw [hindex]; exact hm) hsp.sorted.increasing hlt,
        Entity.shelve_of_population? (hspecies ▸ hp)]
    rw [Entity.arrival, Address.parent?_child, Entity.place]
    have hchange := Entity.changeAlong_of_follow ht
      (f := fun t => t.withPopulation e.species (·.insert e)) hself
    simp only [Entity.modify?, hchange]

end Context.Sound

/-- The arrivals of the entities at some addresses. -/
def Entity.arrivals (root : Entity) (as : List Address) : List Arrival :=
  as.filterMap fun a => (root.at? a).map (·.arrival a)

theorem Context.Sound.placeAll_arrivals {c : Context} {root : Entity} (h : c.Sound (· < ·) root)
    (as : List Address) : root.placeAll (root.arrivals as) = .ok root := by
  induction as with
  | nil => rfl
  | cons a as ih =>
    cases he : root.at? a with
    | none => rw [Entity.arrivals, List.filterMap_cons_none (by rw [he]; rfl)]; exact ih
    | some e =>
      rw [Entity.arrivals, List.filterMap_cons_some (by rw [he]; rfl), Entity.placeAll,
        h.place_arrival he]
      exact ih

end Rewind
