import Rewind.Proofs.Tree.Snapshot

/-! Trees that have all a reader asks for, and what keeps them so.

A tree is `Sound` in a context if it is tidy, the context knows its names, and every
member has the species of its population and an index that fits the counter. How an
index fits is left open here: a reader wants it below the counter, but an insertion
at the largest index leaves the counter there. Putting populations and members into
sound trees gives sound trees (`Sound.shelve`, `SoundPopulation.insert`), at the
top as well as deep inside (`Sound.changeAlong`). -/

namespace Rewind

/-! ### Soundness -/

/-- Every member has the species of its population and an index that fits its counter. -/
def Entity.Lodged (fits : UInt32 → UInt32 → Prop) (root : Entity) : Prop :=
  root.Everywhere fun e =>
    ∀ p ∈ e.populations.values, ∀ m ∈ p.members.values,
      m.species = p.species ∧ fits m.index p.nextIndex

structure Context.Sound (c : Context) (fits : UInt32 → UInt32 → Prop) (e : Entity) : Prop where
  tidy : e.Tidy
  lodged : e.Lodged fits
  known : c.Knows e

structure Context.SoundPopulation (c : Context) (fits : UInt32 → UInt32 → Prop)
    (p : Population Entity) : Prop where
  species : c.vocabulary.isSpecies p.species = true
  sorted : p.Sorted
  members : ∀ m ∈ p.members.values,
    (m.species = p.species ∧ fits m.index p.nextIndex) ∧ c.Sound fits m

variable {c : Context} {fits : UInt32 → UInt32 → Prop} {e : Entity} {p : Population Entity}

/-- An entity is sound if its own parts and its populations are. -/
theorem Context.sound_iff : c.Sound fits e ↔
    (c.vocabulary.isSpecies e.species = true ∧ e.attributes.keys.Nodup ∧
      ∀ v ∈ e.attributes.values, v.Tidy ∧ c.KnowsValue v) ∧
    e.populations.Indexed Population.species ∧
      ∀ p ∈ e.populations.values, c.SoundPopulation fits p := by
  constructor
  · intro ⟨ht, hl, hk⟩
    obtain ⟨⟨hn, hv⟩, hs, hp⟩ := Entity.tidy_iff.mp ht
    obtain ⟨hspecies, hvalues, hps⟩ :=
      (knows_iff fun p hp m hm => (hl.here p hp m hm).1).mp hk
    refine ⟨⟨hspecies, hn, fun v h => ⟨hv v h, hvalues v h⟩⟩, hs, fun p h => ?_⟩
    exact ⟨(hps p h).1, (hp p h).toSorted, fun m hm => ⟨hl.here p h m hm,
      (hp p h).members m hm, hl.member h hm, (hps p h).2 m hm⟩⟩
  · intro ⟨⟨hspecies, hn, hv⟩, hs, hp⟩
    refine ⟨?_, ?_, ?_⟩
    · exact Entity.tidy_iff.mpr ⟨⟨hn, fun v h => (hv v h).1⟩, hs, fun p h =>
        ⟨(hp p h).sorted, fun m hm => ((hp p h).members m hm).2.tidy⟩⟩
    · exact Entity.everywhere_iff.mpr ⟨fun p h m hm => ((hp p h).members m hm).1,
        fun p h m hm => ((hp p h).members m hm).2.lodged⟩
    · exact (knows_iff fun p h m hm => ((hp p h).members m hm).1.1).mpr ⟨hspecies,
        fun v h => (hv v h).2, fun p h => ⟨(hp p h).species,
          fun m hm => ((hp p h).members m hm).2.known⟩⟩

theorem Context.Sound.mono {fits' : UInt32 → UInt32 → Prop} (h : c.Sound fits e)
    (hfits : ∀ i n, fits i n → fits' i n) : c.Sound fits' e :=
  ⟨h.tidy, fun e he p hp m hm => (h.lodged e he p hp m hm).imp_right (hfits _ _), h.known⟩

/-! ### Populations -/

theorem Entity.Sorted.species_populationOf (h : e.Sorted) (species : String) :
    (e.populationOf species).species = species := by
  rw [populationOf]
  cases hp : e.population? species with
  | none => rfl
  | some p => exact h.species.keyed.own_of_get? hp

/-- The counter of a population only grows. -/
theorem Population.nextIndex_le_insert (p : Population Entity) (e : Entity) :
    p.nextIndex ≤ (p.insert e).nextIndex := by
  show p.nextIndex ≤ if _ then _ else _
  split
  · next h => exact h
  · exact UInt32.le_refl _

namespace Context.SoundPopulation

theorem counting {species : String} {nextIndex : UInt32}
    (h : c.vocabulary.isSpecies species = true) :
    c.SoundPopulation fits (.counting species nextIndex) :=
  ⟨h, .counting species nextIndex, List.forall_mem_nil _⟩

/-- A member that fits after the counter has moved. The others have to fit then too. -/
theorem insert (hp : c.SoundPopulation fits p) (he : c.Sound fits e) (hs : e.species = p.species)
    (hfits : fits e.index (p.insert e).nextIndex)
    (hmono : ∀ i n n', fits i n → n ≤ n' → fits i n') : c.SoundPopulation fits (p.insert e) := by
  refine ⟨hp.species, hp.sorted.insert e,
    Population.forall_mem_insert (fun m hm => ?_) ⟨⟨hs, hfits⟩, he⟩⟩
  obtain ⟨⟨hms, hmf⟩, hm⟩ := hp.members m hm
  exact ⟨⟨hms, hmono _ _ _ hmf (Population.nextIndex_le_insert p e)⟩, hm⟩

/-- A member in place of one that fits. -/
theorem setMember {m : Entity} (hp : c.SoundPopulation fits p) (hm : m ∈ p.members.values)
    (he : c.Sound fits e) (hs : e.species = m.species) (hi : e.index = m.index) :
    c.SoundPopulation fits (p.setMember m.index e) := by
  obtain ⟨⟨hms, hmf⟩, -⟩ := hp.members m hm
  exact ⟨hp.species, hp.sorted.setMember hi,
    Population.forall_mem_setMember hp.members ⟨⟨hs.trans hms, hi ▸ hmf⟩, he⟩⟩

end Context.SoundPopulation

/-! ### Entities -/

namespace Context.Sound

theorem isSpecies (h : c.Sound fits e) : c.vocabulary.isSpecies e.species = true := h.known.species

theorem sorted (he : c.Sound fits e) : e.Sorted := he.tidy.here.toSorted

theorem shelve {species : String} (he : c.Sound fits e) (hp : c.SoundPopulation fits p)
    (hs : p.species = species) : c.Sound fits (e.shelve species p) := by
  obtain ⟨hown, hindexed, hps⟩ := sound_iff.mp he
  exact sound_iff.mpr ⟨hown, hindexed.set hs, Entity.forall_mem_shelve hps hp⟩

theorem population? {species : String} (he : c.Sound fits e) (h : e.population? species = some p) :
    c.SoundPopulation fits p :=
  (sound_iff.mp he).2.2 p (Table.mem_values_of_get? h)

theorem populationOf {species : String} (he : c.Sound fits e)
    (hs : c.vocabulary.isSpecies species = true) :
    c.SoundPopulation fits (e.populationOf species) := by
  rw [Entity.populationOf]
  cases h : e.population? species with
  | none => exact .counting hs
  | some p => exact he.population? h

/-- What keeps an entity sound where it stands keeps every tree sound around it. -/
theorem changeAlong {f : Entity → Entity} {e' : Entity} {hops : List Hop}
    (hf : ∀ t, c.Sound fits t → c.Sound fits (f t))
    (hself : ∀ t, (f t).species = t.species ∧ (f t).index = t.index) (he : c.Sound fits e)
    (h : e.changeAlong f hops = some e') :
    c.Sound fits e' ∧ e'.species = e.species ∧ e'.index = e.index := by
  induction hops generalizing e e' with
  | nil =>
    cases h
    exact ⟨hf e he, hself e⟩
  | cons hop hops ih =>
    simp only [Entity.changeAlong, Option.bind_eq_bind, Option.bind_eq_some_iff] at h
    obtain ⟨p, hp, m, hm, m', hm', h⟩ := h
    cases h
    have hmem := Table.mem_values_of_get? hm
    obtain ⟨hsound, hspecies, hi⟩ := ih ((he.population? hp).members m hmem).2 hm'
    have hspecies' : p.species = hop.species := he.sorted.species.keyed.own_of_get? hp
    have hindex : m.index = hop.index := (he.population? hp).sorted.keyed.own_of_get? hm
    refine ⟨he.shelve ?_ hspecies', rfl, rfl⟩
    rw [← hindex]
    exact (he.population? hp).setMember hmem hsound hspecies hi

end Context.Sound
end Rewind
