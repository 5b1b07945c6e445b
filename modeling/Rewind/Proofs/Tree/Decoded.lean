import Rewind.Proofs.Format
import Rewind.Proofs.Tree.Sound

/-! Trees that come out of a reader.

Entities get into a tree on two ways: as members of the population they are written
in, and by being placed there after they arrived inside a value. On the first way a
reader checks indices against counters, on the second the counter moves past the index,
unless the index is the largest there is. So what is read is sound up to members at the
largest index, and it reads back exactly if there are none
(`Context.Decoded.roundTrips_iff_noLast`). -/

namespace Rewind

variable {c : Context}

/-! ### Reading -/

theorem bind_eq_ok {ε α β : Type} {x : Except ε α} {f : α → Except ε β} {b : β} :
    x >>= f = .ok b ↔ ∃ a, x = .ok a ∧ f a = .ok b := by
  cases x <;> simp [bind, Except.bind]

theorem ReadsIff.of_ok {α : Type} {r : Except DecodeError α} {p : Prop} {a b : α}
    (h : ReadsIff r p a) (hr : r = .ok b) : p := by
  refine Classical.byContradiction fun hp => ?_
  obtain ⟨e, he, -⟩ := h.2 hp
  rw [hr] at he
  cases he

namespace Context

/-- Values that the context reads back. -/
def SoundValue (c : Context) (v : Value) : Prop := v.Tidy ∧ c.KnowsValue v

/-- Arrivals that the context reads back. -/
def SoundArrivals (c : Context) (as : List Arrival) : Prop := ∀ a ∈ as, c.Sound (· < ·) a.entity

theorem SoundArrivals.nil : c.SoundArrivals [] := List.forall_mem_nil _

theorem SoundArrivals.append {as bs : List Arrival} (ha : c.SoundArrivals as)
    (hb : c.SoundArrivals bs) : c.SoundArrivals (as ++ bs) :=
  fun a h => (List.mem_append.mp h).elim (ha a) (hb a)

theorem SoundValue.plain {v : Value} (hi : v.inner = []) (ht : v.types = []) : c.SoundValue v :=
  ⟨Value.tidy_of_inner_eq_nil hi, knowsValue_of_plain hi ht⟩

theorem SoundValue.list {content : TypeExpr} {items : List Value} (hc : c.Registers content)
    (h : ∀ v ∈ items, c.SoundValue v) : c.SoundValue (.list content items) :=
  ⟨Value.tidy_list.mpr fun v hv => (h v hv).1, knowsValue_list.mpr ⟨hc, fun v hv => (h v hv).2⟩⟩

/-- Insertions bring nothing into a map but the keys and values inserted. -/
theorem SoundValue.ofList {es : List (Value × Value)}
    (h : ∀ e ∈ es, c.SoundValue e.1 ∧ c.SoundValue e.2) :
    Entries.Distinct (Entries.ofList es) ∧
      ∀ e ∈ Entries.ofList es, c.SoundValue e.1 ∧ c.SoundValue e.2 := by
  suffices ∀ done, (Entries.Distinct done ∧ ∀ e ∈ done, c.SoundValue e.1 ∧ c.SoundValue e.2) →
      Entries.Distinct (es.foldl (fun m e => Entries.insert e.1 e.2 m) done) ∧
        ∀ e ∈ es.foldl (fun m e => Entries.insert e.1 e.2 m) done,
          c.SoundValue e.1 ∧ c.SoundValue e.2 from
    this [] ⟨.nil, List.forall_mem_nil _⟩
  induction es with
  | nil => exact fun done hdone => hdone
  | cons e es ih =>
    intro done ⟨hd, hdone⟩
    obtain ⟨⟨hk, hv⟩, hes⟩ := List.forall_mem_cons.mp h
    exact ih hes _ ⟨hd.insert, Entries.forall_mem_insert hk hv hdone⟩

theorem SoundValue.map {key content : TypeExpr} {ordered : Bool} {es : List (Value × Value)}
    (hk : c.Registers key) (hc : c.Registers content)
    (h : ∀ e ∈ es, c.SoundValue e.1 ∧ c.SoundValue e.2) :
    c.SoundValue (.map key content ordered (Entries.ofList es)) := by
  obtain ⟨hd, hes⟩ := SoundValue.ofList h
  exact ⟨Value.tidy_map.mpr ⟨hd, fun e he => ⟨(hes e he).1.1, (hes e he).2.1⟩⟩,
    knowsValue_map.mpr ⟨hk, hc, fun e he => ⟨(hes e he).1.2, (hes e he).2.2⟩⟩⟩

/-- Attributes of a table that was filled one by one. -/
theorem soundValue_ofList {as : List (String × Value)} (h : ∀ v ∈ as.map Prod.snd, c.SoundValue v) :
    (Table.ofList as).keys.Nodup ∧ ∀ v ∈ (Table.ofList as).values, c.SoundValue v := by
  suffices ∀ t : Table String Value, (t.keys.Nodup ∧ ∀ v ∈ t.values, c.SoundValue v) →
      (as.foldl (fun t p => t.set p.1 p.2) t).keys.Nodup ∧
        ∀ v ∈ (as.foldl (fun t p => t.set p.1 p.2) t).values, c.SoundValue v from
    this .empty ⟨.nil, List.forall_mem_nil _⟩
  induction as with
  | nil => exact fun t ht => ht
  | cons a as ih =>
    intro t ⟨hn, hvs⟩
    rw [List.map_cons] at h
    obtain ⟨hv, has⟩ := List.forall_mem_cons.mp h
    refine ih has _ ⟨Table.nodup_put hn, fun w hw => ?_⟩
    rcases Table.mem_put hw with rfl | hw
    · exact hv
    · exact hvs w hw

/-- Members below the counter are put into a population one by one. -/
theorem SoundPopulation.foldl_insert {p : Population Entity} {ms : List Entity}
    (hp : c.SoundPopulation (· < ·) p)
    (hms : ∀ m ∈ ms, (m.species = p.species ∧ m.index < p.nextIndex) ∧ c.Sound (· < ·) m) :
    c.SoundPopulation (· < ·) (ms.foldl Population.insert p) := by
  induction ms generalizing p with
  | nil => exact hp
  | cons m ms ih =>
    obtain ⟨⟨⟨hs, hi⟩, hm⟩, hms⟩ := List.forall_mem_cons.mp hms
    have hle : p.nextIndex ≤ (p.insert m).nextIndex := Population.nextIndex_le_insert p m
    refine ih (hp.insert hm hs (UInt32.lt_of_lt_of_le hi hle)
      fun _ _ _ => UInt32.lt_of_lt_of_le) fun n hn => ?_
    obtain ⟨⟨hns, hni⟩, hn⟩ := hms n hn
    exact ⟨⟨hns, UInt32.lt_of_lt_of_le hni hle⟩, hn⟩

theorem Sound.foldl_setPopulation {e : Entity} {ps : List (Population Entity)}
    (he : c.Sound (· < ·) e) (hps : ∀ p ∈ ps, c.SoundPopulation (· < ·) p) :
    c.Sound (· < ·) (ps.foldl Entity.setPopulation e) := by
  induction ps generalizing e with
  | nil => exact he
  | cons p ps ih =>
    obtain ⟨hp, hps⟩ := List.forall_mem_cons.mp hps
    exact ih (he.shelve hp rfl) hps

end Context

theorem Entity.self_foldl_setPopulation (e : Entity) (ps : List (Population Entity)) :
    (ps.foldl setPopulation e).species = e.species ∧
      (ps.foldl setPopulation e).index = e.index := by
  induction ps generalizing e with
  | nil => exact ⟨rfl, rfl⟩
  | cons p ps ih => exact ih _

theorem Entity.species_form (e : Entity) : e.form.species = e.species := by
  rw [form_eq, EntityForm.species]

open Context

mutual

theorem ValueForm.read_sound : ∀ {f : ValueForm} {v : Value} {as : List Arrival},
    f.read c = .ok (v, as) → c.SoundValue v ∧ c.SoundArrivals as
  | .nil, _, _, h => by cases h; exact ⟨.plain rfl rfl, .nil⟩
  | .bool _, _, _, h => by cases h; exact ⟨.plain rfl rfl, .nil⟩
  | .int _, _, _, h => by cases h; exact ⟨.plain rfl rfl, .nil⟩
  | .float _, _, _, h => by cases h; exact ⟨.plain rfl rfl, .nil⟩
  | .str _, _, _, h => by cases h; exact ⟨.plain rfl rfl, .nil⟩
  | .context _, _, _, h => by cases h; exact ⟨.plain rfl rfl, .nil⟩
  | .list content items, v, as, h => by
    rw [ValueForm.read] at h
    obtain ⟨_, hc, h⟩ := bind_eq_ok.mp h
    obtain ⟨⟨vs, as⟩, hitems, h⟩ := bind_eq_ok.mp h
    cases h
    obtain ⟨hvs, has⟩ := readItems_sound hitems
    exact ⟨.list ((checkType_iff content).of_ok hc) hvs, has⟩
  | .map key content ordered entries, v, as, h => by
    rw [ValueForm.read] at h
    obtain ⟨_, hk, h⟩ := bind_eq_ok.mp h
    obtain ⟨_, hc, h⟩ := bind_eq_ok.mp h
    obtain ⟨⟨es, as⟩, hentries, h⟩ := bind_eq_ok.mp h
    cases h
    obtain ⟨hes, has⟩ := readEntries_sound hentries
    exact ⟨.map ((checkType_iff key).of_ok hk) ((checkType_iff content).of_ok hc) hes, has⟩
  | .type t, v, as, h => by
    rw [ValueForm.read] at h
    obtain ⟨_, ht, h⟩ := bind_eq_ok.mp h
    cases h
    exact ⟨⟨Value.tidy_of_inner_eq_nil rfl,
      knowsValue_type.mpr ((checkType_iff t).of_ok ht)⟩, .nil⟩
  | .shape s, v, as, h => by
    rw [ValueForm.read] at h
    obtain ⟨s, _, h⟩ := bind_eq_ok.mp h
    cases h
    exact ⟨.plain rfl rfl, .nil⟩
  | .reference p, v, as, h => by
    rw [ValueForm.read] at h
    obtain ⟨a, _, h⟩ := bind_eq_ok.mp h
    cases h
    exact ⟨.plain rfl rfl, .nil⟩
  | .full owner e, v, as, h => by
    rw [ValueForm.read] at h
    obtain ⟨owner, _, h⟩ := bind_eq_ok.mp h
    obtain ⟨⟨e', as⟩, he, h⟩ := bind_eq_ok.mp h
    cases h
    obtain ⟨⟨he', -⟩, has⟩ := EntityForm.read_sound he
    exact ⟨.plain rfl rfl, has.append fun a ha => List.mem_singleton.mp ha ▸ he'⟩
termination_by structural f => f

theorem readItems_sound : ∀ {fs : List ValueForm} {vs : List Value} {as : List Arrival},
    readItems c fs = .ok (vs, as) → (∀ v ∈ vs, c.SoundValue v) ∧ c.SoundArrivals as
  | [], _, _, h => by cases h; exact ⟨List.forall_mem_nil _, .nil⟩
  | f :: fs, vs, as, h => by
    rw [readItems] at h
    obtain ⟨⟨v, here⟩, hv, h⟩ := bind_eq_ok.mp h
    obtain ⟨⟨vs, later⟩, hvs, h⟩ := bind_eq_ok.mp h
    cases h
    obtain ⟨hv, hhere⟩ := ValueForm.read_sound hv
    obtain ⟨hvs, hlater⟩ := readItems_sound hvs
    exact ⟨List.forall_mem_cons.mpr ⟨hv, hvs⟩, hhere.append hlater⟩
termination_by structural fs => fs

theorem readEntries_sound : ∀ {fs : List (ValueForm × ValueForm)} {es : List (Value × Value)}
    {as : List Arrival}, readEntries c fs = .ok (es, as) →
      (∀ e ∈ es, c.SoundValue e.1 ∧ c.SoundValue e.2) ∧ c.SoundArrivals as
  | [], _, _, h => by cases h; exact ⟨List.forall_mem_nil _, .nil⟩
  | (fk, fv) :: fs, es, as, h => by
    rw [readEntries] at h
    obtain ⟨⟨k, first⟩, hk, h⟩ := bind_eq_ok.mp h
    obtain ⟨⟨v, second⟩, hv, h⟩ := bind_eq_ok.mp h
    obtain ⟨⟨es, later⟩, hes, h⟩ := bind_eq_ok.mp h
    cases h
    obtain ⟨hk, hfirst⟩ := ValueForm.read_sound hk
    obtain ⟨hv, hsecond⟩ := ValueForm.read_sound hv
    obtain ⟨hes, hlater⟩ := readEntries_sound hes
    exact ⟨List.forall_mem_cons.mpr ⟨⟨hk, hv⟩, hes⟩, (hfirst.append hsecond).append hlater⟩
termination_by structural fs => fs

/-- An entity is read with the species and the index that are written. -/
theorem EntityForm.read_sound : ∀ {f : EntityForm} {e : Entity} {as : List Arrival},
    f.read c = .ok (e, as) →
      (c.Sound (· < ·) e ∧ e.species = f.species ∧ e.index = f.index) ∧ c.SoundArrivals as
  | .mk index species attributes populations, e, as, h => by
    rw [EntityForm.read] at h
    obtain ⟨_, hs, h⟩ := bind_eq_ok.mp h
    obtain ⟨⟨attributes, first⟩, hattributes, h⟩ := bind_eq_ok.mp h
    obtain ⟨⟨populations, second⟩, hpopulations, h⟩ := bind_eq_ok.mp h
    cases h
    obtain ⟨hvs, hfirst⟩ := readAttributes_sound hattributes
    obtain ⟨hps, hsecond⟩ := readPopulations_sound hpopulations
    have hbare : c.Sound (· < ·)
        { Entity.new species index with attributes := Table.ofList attributes } :=
      sound_iff.mpr ⟨⟨(checkSpecies_iff species).of_ok hs, soundValue_ofList hvs⟩, .empty _,
        List.forall_mem_nil _⟩
    exact ⟨⟨hbare.foldl_setPopulation hps, Entity.self_foldl_setPopulation _ _⟩,
      hfirst.append hsecond⟩
termination_by structural f => f

theorem readAttributes_sound : ∀ {fs : List (String × ValueForm)} {vs : List (String × Value)}
    {as : List Arrival}, readAttributes c fs = .ok (vs, as) →
      (∀ v ∈ vs.map Prod.snd, c.SoundValue v) ∧ c.SoundArrivals as
  | [], _, _, h => by cases h; exact ⟨List.forall_mem_nil _, .nil⟩
  | (name, f) :: fs, vs, as, h => by
    rw [readAttributes] at h
    obtain ⟨⟨v, here⟩, hv, h⟩ := bind_eq_ok.mp h
    obtain ⟨⟨vs, later⟩, hvs, h⟩ := bind_eq_ok.mp h
    cases h
    obtain ⟨hv, hhere⟩ := ValueForm.read_sound hv
    obtain ⟨hvs, hlater⟩ := readAttributes_sound hvs
    exact ⟨List.forall_mem_cons.mpr ⟨hv, hvs⟩, hhere.append hlater⟩
termination_by structural fs => fs

theorem readPopulations_sound : ∀ {fs : List (PopulationForm EntityForm)}
    {ps : List (Population Entity)} {as : List Arrival}, readPopulations c fs = .ok (ps, as) →
      (∀ p ∈ ps, c.SoundPopulation (· < ·) p) ∧ c.SoundArrivals as
  | [], _, _, h => by cases h; exact ⟨List.forall_mem_nil _, .nil⟩
  | ⟨species, nextIndex, members⟩ :: fs, ps, as, h => by
    rw [readPopulations] at h
    obtain ⟨_, hs, h⟩ := bind_eq_ok.mp h
    obtain ⟨⟨members, here⟩, hmembers, h⟩ := bind_eq_ok.mp h
    obtain ⟨⟨ps, later⟩, hps, h⟩ := bind_eq_ok.mp h
    cases h
    obtain ⟨hms, hhere⟩ := readMembers_sound hmembers
    obtain ⟨hps, hlater⟩ := readPopulations_sound hps
    have hp := (SoundPopulation.counting ((checkSpecies_iff species).of_ok hs)).foldl_insert hms
    exact ⟨List.forall_mem_cons.mpr ⟨hp, hps⟩, hhere.append hlater⟩
termination_by structural fs => fs

theorem readMembers_sound {species : String} {nextIndex : UInt32} : ∀ {fs : List EntityForm}
    {ms : List Entity} {as : List Arrival}, readMembers c species nextIndex fs = .ok (ms, as) →
      (∀ m ∈ ms, (m.species = species ∧ m.index < nextIndex) ∧ c.Sound (· < ·) m) ∧
        c.SoundArrivals as
  | [], _, _, h => by cases h; exact ⟨List.forall_mem_nil _, .nil⟩
  | f :: fs, ms, as, h => by
    rw [readMembers] at h
    split at h
    · next hi =>
      obtain ⟨⟨m, here⟩, hm, h⟩ := bind_eq_ok.mp h
      change (if m.species = species then _ else _) = _ at h
      split at h
      · next hs =>
        obtain ⟨⟨ms, later⟩, hms, h⟩ := bind_eq_ok.mp h
        cases h
        obtain ⟨⟨hm, -, hindex⟩, hhere⟩ := EntityForm.read_sound hm
        obtain ⟨hms, hlater⟩ := readMembers_sound hms
        exact ⟨List.forall_mem_cons.mpr ⟨⟨⟨hs, hindex ▸ hi⟩, hm⟩, hms⟩, hhere.append hlater⟩
      · cases h
    · cases h
termination_by structural fs => fs

end

/-! ### Placing -/

theorem lt_indexAfter {i : UInt32} (h : i ≠ 0xFFFFFFFF) : i < indexAfter i := by
  rw [indexAfter, if_neg h]
  have hone : (1 : UInt32).toNat = 1 := rfl
  have hlast : (0xFFFFFFFF : UInt32).toNat = 4294967295 := rfl
  have hi : i.toNat < 2 ^ 32 := i.toNat_lt
  have hne : i.toNat ≠ 4294967295 := fun h' => h (UInt32.toNat_inj.mp (h'.trans hlast.symm))
  rw [UInt32.lt_iff_toNat_lt, UInt32.toNat_add, hone]
  omega

/-- An index below the counter of its population, or the largest there is. -/
def BelowOrLast (index nextIndex : UInt32) : Prop := index < nextIndex ∨ index = 0xFFFFFFFF

theorem BelowOrLast.mono {i n n' : UInt32} (h : BelowOrLast i n) (hn : n ≤ n') :
    BelowOrLast i n' :=
  h.imp_left fun h => UInt32.lt_of_lt_of_le h hn

theorem Population.belowOrLast_insert (p : Population Entity) (e : Entity) :
    BelowOrLast e.index (p.insert e).nextIndex := by
  by_cases h : e.index = 0xFFFFFFFF
  · exact .inr h
  · refine .inl (UInt32.lt_of_lt_of_le (lt_indexAfter h) ?_)
    show indexAfter e.index ≤ if _ then _ else _
    split
    · exact UInt32.le_refl _
    · next h => exact UInt32.le_of_lt (UInt32.not_le.mp h)

theorem Context.Sound.place {root root' : Entity} {a : Arrival} (hr : c.Sound BelowOrLast root)
    (ha : c.Sound (· < ·) a.entity) (h : root.place a = .ok root') :
    c.Sound BelowOrLast root' := by
  have ha : c.Sound BelowOrLast a.entity := ha.mono fun _ _ => .inl
  rw [Entity.place] at h
  cases howner : a.owner with
  | none =>
    rw [howner] at h
    cases h
    exact ha
  | some o =>
    simp only [howner] at h
    split at h
    · next root'' hroot =>
      cases h
      refine (hr.changeAlong
        (f := fun t => t.withPopulation a.entity.species fun p => p.insert a.entity)
        (fun t ht => ?_) (fun t => ⟨rfl, rfl⟩) hroot).1
      have hspecies := ht.sorted.species_populationOf a.entity.species
      refine ht.shelve ((ht.populationOf ha.isSpecies).insert ha ?_ ?_ ?_) hspecies
      · exact hspecies.symm
      · exact Population.belowOrLast_insert _ _
      · exact fun _ _ _ => BelowOrLast.mono
    · cases h

theorem Context.Sound.placeAll {root root' : Entity} {as : List Arrival}
    (hr : c.Sound BelowOrLast root) (has : c.SoundArrivals as) (h : root.placeAll as = .ok root') :
    c.Sound BelowOrLast root' := by
  induction as generalizing root with
  | nil =>
    cases h
    exact hr
  | cons a as ih =>
    obtain ⟨ha, has⟩ := List.forall_mem_cons.mp has
    rw [Entity.placeAll] at h
    obtain ⟨root'', hplace, h⟩ := bind_eq_ok.mp h
    exact ih (hr.place ha hplace) has h

/-! ### Trees that read back -/

theorem readMembers_map_ok {species : String} {nextIndex : UInt32} {ms rs : List Entity}
    {as : List Arrival} (h : readMembers c species nextIndex (ms.map Entity.form) = .ok (rs, as)) :
    ∀ m ∈ ms, (m.species = species ∧ m.index < nextIndex) ∧
      ∃ r as, m.form.read c = .ok (r, as) := by
  induction ms generalizing rs as with
  | nil => exact List.forall_mem_nil _
  | cons m ms ih =>
    rw [List.map_cons, readMembers, Entity.index_form] at h
    split at h
    · next hi =>
      obtain ⟨⟨r, here⟩, hr, h⟩ := bind_eq_ok.mp h
      change (if r.species = species then _ else _) = _ at h
      split at h
      · next hs =>
        obtain ⟨⟨rs, later⟩, hrs, h⟩ := bind_eq_ok.mp h
        have hspecies : r.species = m.species :=
          (EntityForm.read_sound hr).1.2.1.trans (Entity.species_form m)
        exact List.forall_mem_cons.mpr ⟨⟨⟨hspecies ▸ hs, hi⟩, r, here, hr⟩, ih hrs⟩
      · cases h
    · cases h

theorem readPopulations_map_ok {ps rs : List (Population Entity)} {as : List Arrival}
    (h : readPopulations c (ps.map Population.form) = .ok (rs, as)) :
    ∀ p ∈ ps, ∀ m ∈ p.members.values, (m.species = p.species ∧ m.index < p.nextIndex) ∧
      ∃ r as, m.form.read c = .ok (r, as) := by
  induction ps generalizing rs as with
  | nil => exact List.forall_mem_nil _
  | cons p ps ih =>
    rw [List.map_cons, Population.form, readPopulations] at h
    obtain ⟨_, _, h⟩ := bind_eq_ok.mp h
    obtain ⟨⟨ms, here⟩, hms, h⟩ := bind_eq_ok.mp h
    obtain ⟨⟨rs, later⟩, hrs, h⟩ := bind_eq_ok.mp h
    exact List.forall_mem_cons.mpr ⟨readMembers_map_ok hms, ih hrs⟩

/-- A form is read at all only if the tree is housed. -/
theorem Entity.housed_of_read {e r : Entity} {as : List Arrival}
    (h : e.form.read c = .ok (r, as)) : e.Housed := by
  induction e generalizing r as with
  | owner e ih =>
    rw [form_eq, EntityForm.read] at h
    obtain ⟨_, _, h⟩ := bind_eq_ok.mp h
    obtain ⟨⟨attributes, first⟩, _, h⟩ := bind_eq_ok.mp h
    obtain ⟨⟨populations, second⟩, hps, h⟩ := bind_eq_ok.mp h
    have hps := readPopulations_map_ok hps
    refine everywhere_iff.mpr ⟨fun p hp m hm => (hps p hp m hm).1, fun p hp m hm => ?_⟩
    obtain ⟨r, as, hr⟩ := (hps p hp m hm).2
    exact ih p hp m hm hr

/-- No member has the largest index. -/
def Entity.NoLast (root : Entity) : Prop :=
  root.Everywhere fun e =>
    ∀ p ∈ e.populations.values, ∀ m ∈ p.members.values, m.index ≠ 0xFFFFFFFF

instance (root : Entity) : Decidable root.NoLast :=
  inferInstanceAs
    (Decidable (∀ e ∈ root.entities, ∀ p ∈ e.populations.values, ∀ m ∈ p.members.values, _ ≠ _))

namespace Context

/-- The tree comes back from its snapshots in the binary format. -/
def RoundTrips (c : Context) (root : Entity) : Prop :=
  ∀ cycle, ∃ bs, Format.binary.encodeTree root cycle = .ok bs ∧
    Format.binary.decodeTree c bs = .ok (root, cycle)

/-- Trees that a reader gives back: those of snapshots, and those that a value was read into. -/
inductive Decoded (c : Context) : Entity → Prop
  | tree {bs : Bytes} {root : Entity} {cycle : UInt64}
      (h : Format.binary.decodeTree c bs = .ok (root, cycle)) : Decoded c root
  | value {bs : Bytes} {target root : Entity} {v : Value} (ht : c.RoundTrips target)
      (h : Format.binary.decodeValue c target bs = .ok (v, root)) : Decoded c root

theorem decodeTree_binaryBytes (d : Document) :
    Format.binary.decodeTree c d.binaryBytes = d.tree c := by
  have hread : Format.binary.read d.binaryBytes = .ok d :=
    Format.read_of_read? (Document.ofBinaryBytes?_binaryBytes d)
  rw [Format.decodeTree, hread]
  rfl

theorem roundTrips_iff_tree {root : Entity} :
    c.RoundTrips root ↔ ∀ cycle, (Document.ofTree root cycle).tree c = .ok (root, cycle) := by
  refine forall_congr' fun cycle => ?_
  rw [← decodeTree_binaryBytes]
  refine ⟨fun ⟨bs, hencode, hdecode⟩ => ?_, fun h => ⟨_, rfl, h⟩⟩
  cases hencode
  exact hdecode

theorem sound_of_tree {d : Document} {root : Entity} {cycle : UInt64}
    (h : d.tree c = .ok (root, cycle)) : c.Sound BelowOrLast root := by
  rw [Document.tree] at h
  obtain ⟨_, _, h⟩ := bind_eq_ok.mp h
  split at h
  · cases h
  · obtain ⟨⟨bare, arrivals⟩, hread, h⟩ := bind_eq_ok.mp h
    obtain ⟨placed, hplaced, h⟩ := bind_eq_ok.mp h
    cases h
    obtain ⟨⟨hbare, -⟩, harrivals⟩ := EntityForm.read_sound hread
    exact (hbare.mono fun _ _ => .inl).placeAll harrivals hplaced

theorem RoundTrips.sound {root : Entity} (h : c.RoundTrips root) : c.Sound BelowOrLast root :=
  sound_of_tree (roundTrips_iff_tree.mp h 0)

theorem Decoded.sound {root : Entity} (h : c.Decoded root) : c.Sound BelowOrLast root := by
  cases h with
  | tree h =>
    rw [Format.decodeTree] at h
    obtain ⟨d, _, h⟩ := bind_eq_ok.mp h
    exact sound_of_tree h
  | value ht h =>
    rw [Format.decodeValue] at h
    obtain ⟨d, _, h⟩ := bind_eq_ok.mp h
    rw [Document.value] at h
    obtain ⟨_, _, h⟩ := bind_eq_ok.mp h
    split at h
    · cases h
    · obtain ⟨⟨v, arrivals⟩, hread, h⟩ := bind_eq_ok.mp h
      obtain ⟨placed, hplaced, h⟩ := bind_eq_ok.mp h
      obtain ⟨_, _, h⟩ := bind_eq_ok.mp h
      cases h
      exact ht.sound.placeAll (ValueForm.read_sound hread).2 hplaced

theorem Sound.roundTrips_iff {root : Entity} (h : c.Sound BelowOrLast root) :
    c.RoundTrips root ↔ root.Housed := by
  refine roundTrips_iff_tree.trans ⟨fun hread => ?_, fun hh cycle => ?_⟩
  · have hread := hread 0
    rw [Document.tree, Document.check_ofTree] at hread
    obtain ⟨_, _, hread⟩ := bind_eq_ok.mp hread
    obtain ⟨⟨bare, arrivals⟩, hform, _⟩ := bind_eq_ok.mp hread
    exact Entity.housed_of_read hform
  · exact (Document.tree_ofTree cycle h.tidy hh).1 h.known

/-- In a sound tree the largest index is all that is in the way. -/
theorem Sound.housed_iff {root : Entity} (h : c.Sound BelowOrLast root) :
    root.Housed ↔ root.NoLast := by
  refine forall₂_congr fun e he => forall₂_congr fun p hp => forall₂_congr fun m hm => ?_
  obtain ⟨hs, hi⟩ := h.lodged e he p hp m hm
  constructor
  · rintro ⟨_, hlt⟩ heq
    have hlast : (0xFFFFFFFF : UInt32).toNat = 4294967295 := rfl
    have hnext := p.nextIndex.toNat_lt
    rw [heq, UInt32.lt_iff_toNat_lt] at hlt
    omega
  · exact fun hne => ⟨hs, hi.resolve_right hne⟩

end Context

/-- **Decoded trees read back**, as the trees they are, unless a member has the largest
index there is; all others are below the counters of their populations. -/
theorem Context.Decoded.roundTrips_iff_noLast {root : Entity} (h : c.Decoded root) :
    root.Lodged BelowOrLast ∧ (c.RoundTrips root ↔ root.NoLast) :=
  ⟨h.sound.lodged, h.sound.roundTrips_iff.trans h.sound.housed_iff⟩

namespace Sample

/-- An ant that comes in full as an attribute of the root. -/
def letterForm (index : UInt32) : EntityForm :=
  .mk 0 "simulation" [("ant", .full (some ⟨[], []⟩) (.mk index "ant" [] []))] []

/-- The tree that it is read as. -/
def letter (index : UInt32) : Entity :=
  (Entity.newRoot.set "ant" (.entity (Address.root.child "ant" index))).withPopulation "ant"
    fun p => p.insert (.new "ant" index)

theorem decoded_letter (index : UInt32) : context.Decoded (letter index) := by
  have h : Format.binary.decodeTree context (Document.ofEntity (letterForm index) 0).binaryBytes =
      .ok (letter index, 0) := by
    rw [Context.decodeTree_binaryBytes]
    rfl
  exact .tree h

end Sample

theorem Sample.roundTrips_letter : context.Decoded (letter 7) ∧ context.RoundTrips (letter 7) :=
  ⟨decoded_letter 7, (Context.Decoded.roundTrips_iff_noLast (decoded_letter 7)).2.mpr (by decide)⟩

/-- The counter cannot move past the largest index, and then the tree is not read again. -/
theorem Sample.not_roundTrips_letter :
    context.Decoded (letter 0xFFFFFFFF) ∧ ¬ context.RoundTrips (letter 0xFFFFFFFF) ∧
      ¬ (letter 0xFFFFFFFF).Housed := by
  have h := decoded_letter 0xFFFFFFFF
  have hhoused : ¬ (letter 0xFFFFFFFF).Housed := by decide
  exact ⟨h, mt h.sound.roundTrips_iff.mp hhoused, hhoused⟩

end Rewind
