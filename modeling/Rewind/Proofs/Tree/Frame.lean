import Rewind.Proofs.Tree.Covers
import Rewind.Proofs.Tree.Decoded

/-! What placing arrivals leaves alone.

An arrival is put under its owner, over the member that has its index. The tree then differs at
and below the address of the arrival only: everything else is where it was and what it was, and no
population has lost a member or counts from lower down (`Entity.Frame`). The change is made at the
owner and carried up to the root member by member (`Entity.Frame.insert`,
`Entity.Frame.setMember`), and placings compose, also where one goes through what another has
placed or replaces it (`Entity.Frame.trans`, `Entity.Frame.placeAll`). Nothing is asked of the
trees. -/

namespace Rewind

/-! ### Frames -/

/-- The other entity has the same name and the same attributes in the same order. -/
structure Entity.SameSelf (e e' : Entity) : Prop where
  species : e'.species = e.species
  index : e'.index = e.index
  attributes : e'.attributes = e.attributes

/-- A population that stands under a key in the entity at an address has not counted back, and it
has all its members still, each the same unless it stands at one of some addresses. -/
structure Population.Kept (changed : List Address) (here : Address) (key : String)
    (p p' : Population Entity) : Prop where
  species : p'.species = p.species
  nextIndex : p.nextIndex ≤ p'.nextIndex
  members : ∀ i m, p.member? i = some m → ∃ m', p'.member? i = some m' ∧
    (m.SameSelf m' ∨ here.child key i ∈ changed)

/-- The entity at an address has kept its attributes and what it owns. -/
structure Entity.Kept (changed : List Address) (here : Address) (e e' : Entity) : Prop where
  self : e.SameSelf e'
  populations : ∀ species p, e.population? species = some p →
    ∃ p', e'.population? species = some p' ∧ p.Kept changed here species p'

/-- Two trees differ only at and below some addresses. -/
structure Entity.Frame (changed : List Address) (root root' : Entity) : Prop where
  kept : ∀ a e, root.at? a = some e → (∀ r ∈ changed, ¬ r.Covers a) →
    ∃ e', root'.at? a = some e' ∧ e.Kept changed a e'
  fresh : ∀ a, root'.Resolves a → ¬ root.Resolves a → ∃ r ∈ changed, r.Covers a

variable {changed others : List Address} {here : Address}

theorem Entity.SameSelf.refl (e : Entity) : e.SameSelf e := ⟨rfl, rfl, rfl⟩

theorem Entity.SameSelf.trans {e e' e'' : Entity} (h : e.SameSelf e') (h' : e'.SameSelf e'') :
    e.SameSelf e'' :=
  ⟨h'.species.trans h.species, h'.index.trans h.index, h'.attributes.trans h.attributes⟩

namespace Population.Kept
variable {p p' p'' : Population Entity} {key : String}

theorem refl (p : Population Entity) : p.Kept changed here key p :=
  ⟨rfl, UInt32.le_refl _, fun _ m hm => ⟨m, hm, .inl (.refl m)⟩⟩

theorem trans (h : p.Kept changed here key p') (h' : p'.Kept changed here key p'') :
    p.Kept changed here key p'' := by
  refine ⟨h'.species.trans h.species, UInt32.le_trans h.nextIndex h'.nextIndex, fun i m hm => ?_⟩
  obtain ⟨m', hm', hself⟩ := h.members i m hm
  obtain ⟨m'', hm'', hself'⟩ := h'.members i m' hm'
  refine ⟨m'', hm'', ?_⟩
  rcases hself with hself | hmem
  · exact hself'.imp_left hself.trans
  · exact .inr hmem

theorem mono (h : p.Kept changed here key p') (hsub : changed ⊆ others) :
    p.Kept others here key p' := by
  refine ⟨h.species, h.nextIndex, fun i m hm => ?_⟩
  obtain ⟨m', hm', hself⟩ := h.members i m hm
  exact ⟨m', hm', hself.imp_right (hsub ·)⟩

/-- Only the member at the index of the new one is replaced. -/
theorem insert (p : Population Entity) (m : Entity) :
    p.Kept [here.child key m.index] here key (p.insert m) := by
  refine ⟨rfl, p.nextIndex_le_insert m, fun i n hn => ?_⟩
  rw [member?_insert]
  by_cases hi : m.index = i
  · exact ⟨m, if_pos hi, .inr (hi ▸ List.mem_singleton_self _)⟩
  · exact ⟨n, by rw [if_neg hi, hn], .inl (.refl n)⟩

end Population.Kept

namespace Entity
variable {root mid root' e e' e'' m m' : Entity} {p : Population Entity} {h : Hop}

namespace Kept

theorem refl (e : Entity) : e.Kept changed here e := ⟨.refl e, fun _ p hp => ⟨p, hp, .refl p⟩⟩

theorem trans (hk : e.Kept changed here e') (hk' : e'.Kept changed here e'') :
    e.Kept changed here e'' := by
  refine ⟨hk.self.trans hk'.self, fun species p hp => ?_⟩
  obtain ⟨p', hp', hkept⟩ := hk.populations species p hp
  obtain ⟨p'', hp'', hkept'⟩ := hk'.populations species p' hp'
  exact ⟨p'', hp'', hkept.trans hkept'⟩

theorem mono (hk : e.Kept changed here e') (hsub : changed ⊆ others) : e.Kept others here e' := by
  refine ⟨hk.self, fun species p hp => ?_⟩
  obtain ⟨p', hp', hkept⟩ := hk.populations species p hp
  exact ⟨p', hp', hkept.mono hsub⟩

/-- One population is put in place of what was there. -/
theorem shelve {species : String} (hp : (e.populationOf species).Kept changed here species p) :
    e.Kept changed here (e.shelve species p) := by
  refine ⟨⟨rfl, rfl, rfl⟩, fun other q hq => ?_⟩
  rw [population?, Entity.shelve, Table.get?_set]
  by_cases hs : species = other
  · subst hs
    rw [populationOf, hq] at hp
    exact ⟨p, if_pos rfl, hp⟩
  · exact ⟨q, by rw [if_neg hs]; exact hq, .refl q⟩

end Kept

namespace Frame

theorem refl (root : Entity) : root.Frame changed root :=
  ⟨fun _ e he _ => ⟨e, he, .refl e⟩, fun _ h hn => absurd h hn⟩

theorem trans (hf : root.Frame changed mid) (hf' : mid.Frame changed root') :
    root.Frame changed root' := by
  refine ⟨fun a e he hout => ?_, fun a hr hn => ?_⟩
  · obtain ⟨e', he', hk⟩ := hf.kept a e he hout
    obtain ⟨e'', he'', hk'⟩ := hf'.kept a e' he' hout
    exact ⟨e'', he'', hk.trans hk'⟩
  · by_cases hmid : mid.Resolves a
    · exact hf.fresh a hmid hn
    · exact hf'.fresh a hr hmid

theorem mono (hf : root.Frame changed root') (hsub : changed ⊆ others) :
    root.Frame others root' := by
  refine ⟨fun a e he hout => ?_, fun a hr hn => ?_⟩
  · obtain ⟨e', he', hk⟩ := hf.kept a e he fun r hr => hout r (hsub hr)
    exact ⟨e', he', hk.mono hsub⟩
  · obtain ⟨r, hr, hc⟩ := hf.fresh a hr hn
    exact ⟨r, hsub hr, hc⟩

end Frame

/-! ### A member of the root -/

theorem Frame.insert (e m : Entity) :
    e.Frame [Address.root.child m.species m.index] (e.withPopulation m.species (·.insert m)) := by
  have hcovers {a : Hop} {as : List Hop} (ha : a = ⟨m.species, m.index⟩) :
      (Address.root.child m.species m.index).Covers ⟨a :: as⟩ := ha ▸ ⟨as, rfl⟩
  refine ⟨?_, ?_⟩
  · rintro ⟨_ | ⟨a, as⟩⟩ t ht hout
    · cases ht
      exact ⟨_, rfl, .shelve (.insert (e.populationOf m.species) m)⟩
    · have hne : a ≠ ⟨m.species, m.index⟩ :=
        fun ha => hout _ (List.mem_singleton_self _) (hcovers ha)
      exact ⟨t, by rw [at?, follow_insert, if_neg hne]; exact ht, .refl t⟩
  · rintro ⟨_ | ⟨a, as⟩⟩ hr hn
    · exact absurd rfl hn
    · by_cases ha : a = ⟨m.species, m.index⟩
      · exact ⟨_, List.mem_singleton_self _, hcovers ha⟩
      · rw [Resolves, at?, follow_insert, if_neg ha] at hr
        exact absurd hr hn

end Entity

/-! ### A member of another entity -/

/-- The address in the tree of an owner, with the hop that leads there in front. -/
def Address.under (h : Hop) (a : Address) : Address := ⟨h :: a.hops⟩

theorem Population.member?_setMember {p : Population Entity} {m : Entity} {index : UInt32}
    (hm : p.member? index = some m) (m' : Entity) (other : UInt32) :
    (p.setMember index m').member? other = if index = other then some m' else p.member? other := by
  rw [member?, setMember, Table.update_of_get? hm, Table.get?_set]
  rfl

theorem Entity.Kept.under {e e' : Entity} (hk : e.Kept changed here e') (h : Hop) :
    e.Kept (changed.map (·.under h)) (here.under h) e' := by
  refine ⟨hk.self, fun species p hp => ?_⟩
  obtain ⟨p', hp', hkept⟩ := hk.populations species p hp
  refine ⟨p', hp', hkept.species, hkept.nextIndex, fun i m hm => ?_⟩
  obtain ⟨m', hm', hself⟩ := hkept.members i m hm
  exact ⟨m', hm', hself.imp_right fun hmem => List.mem_map_of_mem (f := (·.under h)) hmem⟩

namespace Entity
variable {root root' e e' m m' : Entity} {p : Population Entity} {h : Hop}

section
variable (hp : e.population? h.species = some p) (hm : p.member? h.index = some m)
include hp hm

theorem follow_setMember (m' : Entity) (k : Hop) (ks : List Hop) :
    (e.shelve h.species (p.setMember h.index m')).follow (k :: ks) =
      if k = h then m'.follow ks else e.follow (k :: ks) := by
  obtain ⟨species, index⟩ := k
  rw [follow_cons, follow_cons, populationOf_shelve]
  by_cases hspecies : h.species = species
  · have hold : e.populationOf species = p := by rw [populationOf, ← hspecies, hp]; rfl
    rw [if_pos hspecies, hold, Population.member?_setMember hm]
    by_cases hindex : h.index = index
    · rw [if_pos hindex, if_pos (by rw [← hindex, ← hspecies])]
      rfl
    · rw [if_neg hindex, if_neg fun heq => hindex (congrArg Hop.index heq).symm]
  · rw [if_neg hspecies, if_neg fun heq => hspecies (congrArg Hop.species heq).symm]

/-- Seen from the owner, a member that is changed differs at and below the same addresses. -/
theorem Frame.setMember (hself : m.SameSelf m') (hf : m.Frame changed m') :
    e.Frame (changed.map (·.under h)) (e.shelve h.species (p.setMember h.index m')) := by
  have hcovers {r : Address} {ks : List Hop} : (r.under h).Covers ⟨h :: ks⟩ ↔ r.Covers ⟨ks⟩ :=
    List.cons_prefix_cons.trans (and_iff_right rfl)
  have hold (ks : List Hop) : e.follow (h :: ks) = m.follow ks := by
    rw [follow, hp]
    show (p.member? h.index >>= _) = _
    rw [hm]
    rfl
  refine ⟨?_, ?_⟩
  · rintro ⟨_ | ⟨k, ks⟩⟩ t ht hout
    · cases ht
      refine ⟨_, rfl, .shelve ?_⟩
      rw [populationOf, hp]
      refine ⟨rfl, UInt32.le_refl _, fun i n hn => ?_⟩
      rw [Population.member?_setMember hm]
      by_cases heq : h.index = i
      · subst heq
        obtain rfl : m = n := Option.some.inj (hm.symm.trans hn)
        exact ⟨m', if_pos rfl, .inl hself⟩
      · exact ⟨n, by rw [if_neg heq]; exact hn, .inl (.refl n)⟩
    · rw [at?, follow_setMember hp hm]
      by_cases heq : k = h
      · subst heq
        rw [at?, hold] at ht
        obtain ⟨t', ht', hk⟩ := hf.kept ⟨ks⟩ t ht fun r hr hc =>
          hout _ (List.mem_map_of_mem hr) (hcovers.mpr hc)
        exact ⟨t', by rw [if_pos rfl]; exact ht', hk.under k⟩
      · exact ⟨t, by rw [if_neg heq]; exact ht, .refl t⟩
  · rintro ⟨_ | ⟨k, ks⟩⟩ hr hn
    · exact absurd rfl hn
    · rw [Resolves, at?, follow_setMember hp hm] at hr
      by_cases heq : k = h
      · subst heq
        rw [if_pos rfl] at hr
        rw [Resolves, at?, hold] at hn
        obtain ⟨r, hmem, hc⟩ := hf.fresh ⟨ks⟩ hr hn
        exact ⟨_, List.mem_map_of_mem hmem, hcovers.mpr hc⟩
      · rw [if_neg heq] at hr
        exact absurd hr hn

end

/-- Putting an entity under an owner changes nothing but at and below its address. -/
theorem Frame.changeAlong {m : Entity} {os : List Hop}
    (h : e.changeAlong (fun t => t.withPopulation m.species (·.insert m)) os = some e') :
    e.Frame [Address.child ⟨os⟩ m.species m.index] e' := by
  induction os generalizing e e' with
  | nil =>
    cases h
    exact .insert e m
  | cons o os ih =>
    simp only [Entity.changeAlong, Option.bind_eq_bind, Option.bind_eq_some_iff] at h
    obtain ⟨p, hp, t, ht, t', ht', h⟩ := h
    cases h
    have hf := ih ht'
    have hroot : ∀ r ∈ [Address.child ⟨os⟩ m.species m.index], ¬ r.Covers .root := by
      rintro r hr hc
      have hle := hc.depth_le
      rw [List.mem_singleton.mp hr, Address.depth_child] at hle
      exact absurd hle (Nat.not_succ_le_zero _)
    obtain ⟨_, hself, hk⟩ := hf.kept .root t rfl hroot
    cases hself
    exact hf.setMember hp ht hk.self

theorem Frame.place {a : Arrival} (ha : a.owner ≠ none) (h : root.place a = .ok root') :
    root.Frame [a.address] root' := by
  obtain ⟨owner, m⟩ := a
  cases owner with
  | none => exact absurd rfl ha
  | some o =>
    simp only [Entity.place] at h
    split at h
    · next hmodify =>
      cases h
      exact .changeAlong hmodify
    · cases h

theorem Frame.placeAll {as : List Arrival} (has : ∀ a ∈ as, a.owner ≠ none)
    (h : root.placeAll as = .ok root') : root.Frame (as.map Arrival.address) root' := by
  induction as generalizing root with
  | nil =>
    cases h
    exact .refl _
  | cons a as ih =>
    obtain ⟨ha, has⟩ := List.forall_mem_cons.mp has
    obtain ⟨mid, hplace, h⟩ := bind_eq_ok.mp h
    have hfirst : [a.address] ⊆ a.address :: as.map Arrival.address :=
      List.cons_subset.mpr ⟨List.mem_cons_self, List.nil_subset _⟩
    exact ((Frame.place ha hplace).mono hfirst).trans ((ih has h).mono (List.subset_cons_self _ _))

end Entity

end Rewind
