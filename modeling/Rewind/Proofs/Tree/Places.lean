import Mathlib.Data.List.Basic
import Rewind.Proofs.Tree.Place

/-! Walking a tree by address.

A walk that notes at every hop the species of the population and the index of the member ends
up with an address for every entity (`Entity.places`). Where populations and members can be
told apart by these, the addresses lead back to the entities they were noted for, and the walk
has met all that any address leads to (`Entity.mem_places`). -/

namespace Rewind

namespace Entity
variable {e t : Entity} {a b : Address}

theorem Tidy.sorted (h : e.Tidy) : e.Everywhere Sorted := fun t ht => (h t ht).toSorted

/-! ### Places -/

mutual

/-- The entities of a subtree that stands at `here`, each with the address of its place. -/
def places (here : Address) : Entity → List (Address × Entity)
  | ⟨s, i, as, ⟨ps⟩⟩ => (here, ⟨s, i, as, ⟨ps⟩⟩) :: populationPlaces here ps
termination_by structural e => e

def populationPlaces (here : Address) : List (String × Population Entity) → List (Address × Entity)
  | [] => []
  | (_, ⟨species, _, ⟨ms⟩⟩) :: ps => memberPlaces here species ms ++ populationPlaces here ps
termination_by structural ps => ps

def memberPlaces (here : Address) (species : String) :
    List (UInt32 × Entity) → List (Address × Entity)
  | [] => []
  | (_, e) :: es => places (here.child species e.index) e ++ memberPlaces here species es
termination_by structural es => es

end

theorem memberPlaces_eq_flatMap (here : Address) (species : String) (ms : List (UInt32 × Entity)) :
    memberPlaces here species ms =
      (ms.map Prod.snd).flatMap fun m => m.places (here.child species m.index) := by
  induction ms with
  | nil => rfl
  | cons m ms ih => rw [memberPlaces, ih, List.map_cons, List.flatMap_cons]

theorem populationPlaces_eq_flatMap (here : Address) (ps : List (String × Population Entity)) :
    populationPlaces here ps = (ps.map Prod.snd).flatMap fun p =>
      p.members.values.flatMap fun m => m.places (here.child p.species m.index) := by
  induction ps with
  | nil => rfl
  | cons p ps ih =>
    rw [populationPlaces, ih, memberPlaces_eq_flatMap, List.map_cons, List.flatMap_cons]
    rfl

theorem places_eq (here : Address) (e : Entity) :
    e.places here = (here, e) :: e.populations.values.flatMap fun p =>
      p.members.values.flatMap fun m => m.places (here.child p.species m.index) := by
  obtain ⟨s, i, as, ⟨ps⟩⟩ := e
  rw [places, populationPlaces_eq_flatMap]
  rfl

/-- The walk meets every entity of the tree, in the order of the tree. -/
theorem map_snd_places (here : Address) (e : Entity) :
    (e.places here).map Prod.snd = e.entities := by
  induction e generalizing here with
  | owner e ih =>
    rw [places_eq, entities_eq, List.map_cons, List.map_flatMap]
    refine congrArg (e :: ·) (List.flatMap_congr fun p hp => ?_)
    rw [List.map_flatMap]
    exact List.flatMap_congr fun m hm => ih p hp m hm _

/-- The places of a sorted tree are where hops lead. -/
theorem mem_places (hsorted : e.Everywhere Sorted) :
    (b, t) ∈ e.places a ↔ ∃ hs, b.hops = a.hops ++ hs ∧ e.follow hs = some t := by
  induction e generalizing a with
  | owner e ih =>
    obtain ⟨⟨hspecies, hmembers⟩, hms⟩ := everywhere_iff.mp hsorted
    rw [places_eq, List.mem_cons]
    constructor
    · rintro (h | h)
      · cases h
        exact ⟨[], (List.append_nil _).symm, rfl⟩
      · obtain ⟨p, hp, h⟩ := List.mem_flatMap.mp h
        obtain ⟨m, hm, h⟩ := List.mem_flatMap.mp h
        obtain ⟨hs, hb, hf⟩ := (ih p hp m hm (hms p hp m hm)).mp h
        refine ⟨⟨p.species, m.index⟩ :: hs, by rw [hb, Address.child]; simp, ?_⟩
        exact follow_cons_eq_some.mpr ⟨p, hspecies.get?_of_mem hp, m,
          (hmembers p hp).indexed.get?_of_mem hm, hf⟩
    · rintro ⟨hs, hb, hf⟩
      cases hs with
      | nil =>
        obtain ⟨hs⟩ := b
        cases hb.trans (List.append_nil _)
        cases hf
        exact .inl rfl
      | cons h hs =>
        obtain ⟨p, hp, m, hm, hf⟩ := follow_cons_eq_some.mp hf
        obtain ⟨hp, hown⟩ := hspecies.get?_eq_some_iff.mp hp
        obtain ⟨hm, hindex⟩ := (hmembers p hp).indexed.get?_eq_some_iff.mp hm
        refine .inr (List.mem_flatMap.mpr ⟨p, hp, List.mem_flatMap.mpr ⟨m, hm, ?_⟩⟩)
        refine (ih p hp m hm (hms p hp m hm)).mpr ⟨hs, ?_, hf⟩
        rw [hb, hown, hindex, Address.child]
        simp

theorem mem_places_root (hsorted : e.Everywhere Sorted) :
    (a, t) ∈ e.places .root ↔ e.at? a = some t := by
  rw [mem_places hsorted]
  constructor
  · rintro ⟨hs, ha, hf⟩
    rw [at?, ha]
    exact hf
  · exact fun h => ⟨a.hops, rfl, h⟩

/-! ### Addresses -/

theorem memberAddresses_eq_flatMap (here : Address) (species : String)
    (ms : List (UInt32 × Entity)) : memberAddresses here species ms =
      (ms.map Prod.snd).flatMap fun m => m.addresses (here.child species m.index) := by
  induction ms with
  | nil => rfl
  | cons m ms ih => rw [memberAddresses, ih, List.map_cons, List.flatMap_cons]

theorem populationAddresses_eq_flatMap (here : Address) (ps : List (String × Population Entity)) :
    populationAddresses here ps = (ps.map Prod.snd).flatMap fun p =>
      p.members.values.flatMap fun m => m.addresses (here.child p.species m.index) := by
  induction ps with
  | nil => rfl
  | cons p ps ih =>
    rw [populationAddresses, ih, memberAddresses_eq_flatMap, List.map_cons, List.flatMap_cons]
    rfl

theorem addresses_eq (here : Address) (e : Entity) :
    e.addresses here = here :: e.populations.values.flatMap fun p =>
      p.members.values.flatMap fun m => m.addresses (here.child p.species m.index) := by
  obtain ⟨s, i, as, ⟨ps⟩⟩ := e
  rw [addresses, populationAddresses_eq_flatMap]
  rfl

theorem map_fst_places (here : Address) (e : Entity) :
    (e.places here).map Prod.fst = e.addresses here := by
  induction e generalizing here with
  | owner e ih =>
    rw [places_eq, addresses_eq, List.map_cons, List.map_flatMap]
    refine congrArg (here :: ·) (List.flatMap_congr fun p hp => ?_)
    rw [List.map_flatMap]
    exact List.flatMap_congr fun m hm => ih p hp m hm _

/-- In a sorted tree the addresses at and below one are those that hops lead to from there. -/
theorem mem_addresses (hsorted : e.Everywhere Sorted) :
    b ∈ e.addresses a ↔ ∃ hs t, b.hops = a.hops ++ hs ∧ e.follow hs = some t := by
  rw [← map_fst_places, List.mem_map]
  constructor
  · rintro ⟨⟨b, t⟩, h, rfl⟩
    obtain ⟨hs, hb, hf⟩ := (mem_places hsorted).mp h
    exact ⟨hs, t, hb, hf⟩
  · rintro ⟨hs, t, hb, hf⟩
    exact ⟨(b, t), (mem_places hsorted).mpr ⟨hs, hb, hf⟩, rfl⟩

end Entity
end Rewind
