import Rewind.Proofs.HeldValue
import Rewind.Proofs.Payload
import Rewind.Proofs.Tree.Frame

/-! What reading a value into a tree leaves alone.

A document tells where its entities in full will be put: under the owner that is written with
each, at its own species and index (`ValueForm.recreated`). The reader puts them there, those in
the attributes of another before that (`ValueForm.read_brought`). So whatever a payload holds, as
long as it has no entity in full without an owner, the tree that it is read into differs at most at
and below these addresses, and if it cannot be read to the end, not at all
(`Format.decodeValueInto_frame`). -/

namespace Rewind

/-! ### What a document brings -/

mutual

/-- The entities that a form has in full as values, with their owners, in the order in which they
are put into the tree: those in the attributes of another before that. -/
def ValueForm.brought : ValueForm → List (Option PathForm × EntityForm)
  | .full owner e => e.brought ++ [(owner, e)]
  | .list _ items => itemsBrought items
  | .map _ _ _ entries => entriesBrought entries
  | .nil | .bool _ | .int _ | .float _ | .str _ | .type _ | .context _ | .shape _
  | .reference _ => []
termination_by structural f => f

def itemsBrought : List ValueForm → List (Option PathForm × EntityForm)
  | [] => []
  | f :: fs => f.brought ++ itemsBrought fs
termination_by structural fs => fs

def entriesBrought : List (ValueForm × ValueForm) → List (Option PathForm × EntityForm)
  | [] => []
  | (k, v) :: fs => k.brought ++ v.brought ++ entriesBrought fs
termination_by structural fs => fs

def EntityForm.brought : EntityForm → List (Option PathForm × EntityForm)
  | .mk _ _ as ps => attributesBrought as ++ populationsBrought ps
termination_by structural e => e

def attributesBrought : List (String × ValueForm) → List (Option PathForm × EntityForm)
  | [] => []
  | (_, f) :: as => f.brought ++ attributesBrought as
termination_by structural as => as

def populationsBrought : List (PopulationForm EntityForm) → List (Option PathForm × EntityForm)
  | [] => []
  | ⟨_, _, ms⟩ :: ps => membersBrought ms ++ populationsBrought ps
termination_by structural ps => ps

def membersBrought : List EntityForm → List (Option PathForm × EntityForm)
  | [] => []
  | e :: es => e.brought ++ membersBrought es
termination_by structural es => es

end

/-- Where an entity that a form brings is put, if it has an owner. -/
def addressBrought? (b : Option PathForm × EntityForm) : Option Address := do
  let path ← b.1
  let o ← Address.ofColumns? path.species path.indices
  some (o.child b.2.species b.2.index)

/-- The addresses at which the entities of a form are put. -/
def ValueForm.recreated (f : ValueForm) : List Address := f.brought.filterMap addressBrought?

/-- The arrival is what is read of an entity that a form brings. -/
structure Arrival.Reads (b : Option PathForm × EntityForm) (a : Arrival) : Prop where
  owner : readOwner b.1 = .ok a.owner
  species : a.entity.species = b.2.species
  index : a.entity.index = b.2.index

/-- The arrivals are what is read of the entities that a form brings. -/
abbrev Arrival.ReadAll := List.Forall₂ Arrival.Reads

theorem Arrival.Reads.address {b : Option PathForm × EntityForm} {a : Arrival} (h : Reads b a)
    (hb : b.1 ≠ none) : a.owner ≠ none ∧ addressBrought? b = some a.address := by
  obtain ⟨_ | path, e⟩ := b
  · exact absurd rfl hb
  obtain ⟨owner, m⟩ := a
  obtain ⟨howner, hspecies, hindex⟩ := h
  obtain ⟨o, hread, howner⟩ := bind_eq_ok.mp howner
  cases howner
  rw [PathForm.read] at hread
  split at hread
  · next ho =>
    cases hread
    simp only at hspecies hindex
    refine ⟨Option.some_ne_none o, ?_⟩
    simp [addressBrought?, ho, Arrival.address, hspecies, hindex]
  · cases hread

theorem Arrival.ReadAll.map_address {bs : List (Option PathForm × EntityForm)} {as : List Arrival}
    (h : ReadAll bs as) (hbs : ∀ b ∈ bs, b.1 ≠ none) :
    (∀ a ∈ as, a.owner ≠ none) ∧ as.map Arrival.address = bs.filterMap addressBrought? := by
  induction h with
  | nil => exact ⟨List.forall_mem_nil _, rfl⟩
  | @cons b a bs as hba _ ih =>
    obtain ⟨hb, hbs⟩ := List.forall_mem_cons.mp hbs
    obtain ⟨ha, haddress⟩ := hba.address hb
    obtain ⟨has, hmap⟩ := ih hbs
    rw [List.filterMap_cons_some haddress, List.map_cons, hmap]
    exact ⟨List.forall_mem_cons.mpr ⟨ha, has⟩, rfl⟩

section
variable {c : Context}
open Arrival (ReadAll)

mutual

theorem ValueForm.read_brought : ∀ {f : ValueForm} {v : Value} {as : List Arrival},
    f.read c = .ok (v, as) → ReadAll f.brought as
  | .nil, _, _, h | .bool _, _, _, h | .int _, _, _, h | .float _, _, _, h | .str _, _, _, h
  | .context _, _, _, h => by cases h; exact .nil
  | .list content items, v, as, h => by
    obtain ⟨_, -, h⟩ := bind_eq_ok.mp h
    obtain ⟨⟨vs, as⟩, hitems, h⟩ := bind_eq_ok.mp h
    cases h
    exact readItems_brought hitems
  | .map key content ordered entries, v, as, h => by
    obtain ⟨_, -, h⟩ := bind_eq_ok.mp h
    obtain ⟨_, -, h⟩ := bind_eq_ok.mp h
    obtain ⟨⟨es, as⟩, hentries, h⟩ := bind_eq_ok.mp h
    cases h
    exact readEntries_brought hentries
  | .type t, v, as, h => by
    obtain ⟨_, -, h⟩ := bind_eq_ok.mp h
    cases h
    exact .nil
  | .shape s, v, as, h => by
    obtain ⟨_, -, h⟩ := bind_eq_ok.mp h
    cases h
    exact .nil
  | .reference p, v, as, h => by
    obtain ⟨_, -, h⟩ := bind_eq_ok.mp h
    cases h
    exact .nil
  | .full owner e, v, as, h => by
    obtain ⟨owner', howner, h⟩ := bind_eq_ok.mp h
    obtain ⟨⟨e', as⟩, he, h⟩ := bind_eq_ok.mp h
    cases h
    obtain ⟨⟨-, hspecies, hindex⟩, -⟩ := EntityForm.read_sound he
    exact List.rel_append (EntityForm.read_brought he) (.cons ⟨howner, hspecies, hindex⟩ .nil)
termination_by structural f => f

theorem readItems_brought : ∀ {fs : List ValueForm} {vs : List Value} {as : List Arrival},
    readItems c fs = .ok (vs, as) → ReadAll (itemsBrought fs) as
  | [], _, _, h => by cases h; exact .nil
  | f :: fs, vs, as, h => by
    obtain ⟨⟨v, here⟩, hv, h⟩ := bind_eq_ok.mp h
    obtain ⟨⟨vs, later⟩, hvs, h⟩ := bind_eq_ok.mp h
    cases h
    exact List.rel_append (ValueForm.read_brought hv) (readItems_brought hvs)
termination_by structural fs => fs

theorem readEntries_brought : ∀ {fs : List (ValueForm × ValueForm)} {es : List (Value × Value)}
    {as : List Arrival}, readEntries c fs = .ok (es, as) → ReadAll (entriesBrought fs) as
  | [], _, _, h => by cases h; exact .nil
  | (fk, fv) :: fs, es, as, h => by
    obtain ⟨⟨k, first⟩, hk, h⟩ := bind_eq_ok.mp h
    obtain ⟨⟨v, second⟩, hv, h⟩ := bind_eq_ok.mp h
    obtain ⟨⟨es, later⟩, hes, h⟩ := bind_eq_ok.mp h
    cases h
    exact List.rel_append (List.rel_append (ValueForm.read_brought hk) (ValueForm.read_brought hv))
      (readEntries_brought hes)
termination_by structural fs => fs

theorem EntityForm.read_brought : ∀ {f : EntityForm} {e : Entity} {as : List Arrival},
    f.read c = .ok (e, as) → ReadAll f.brought as
  | .mk index species attributes populations, e, as, h => by
    obtain ⟨_, -, h⟩ := bind_eq_ok.mp h
    obtain ⟨⟨attributes, first⟩, hattributes, h⟩ := bind_eq_ok.mp h
    obtain ⟨⟨populations, second⟩, hpopulations, h⟩ := bind_eq_ok.mp h
    cases h
    exact List.rel_append (readAttributes_brought hattributes)
      (readPopulations_brought hpopulations)
termination_by structural f => f

theorem readAttributes_brought : ∀ {fs : List (String × ValueForm)} {vs : List (String × Value)}
    {as : List Arrival}, readAttributes c fs = .ok (vs, as) → ReadAll (attributesBrought fs) as
  | [], _, _, h => by cases h; exact .nil
  | (name, f) :: fs, vs, as, h => by
    obtain ⟨⟨v, here⟩, hv, h⟩ := bind_eq_ok.mp h
    obtain ⟨⟨vs, later⟩, hvs, h⟩ := bind_eq_ok.mp h
    cases h
    exact List.rel_append (ValueForm.read_brought hv) (readAttributes_brought hvs)
termination_by structural fs => fs

theorem readPopulations_brought : ∀ {fs : List (PopulationForm EntityForm)}
    {ps : List (Population Entity)} {as : List Arrival}, readPopulations c fs = .ok (ps, as) →
      ReadAll (populationsBrought fs) as
  | [], _, _, h => by cases h; exact .nil
  | ⟨species, nextIndex, members⟩ :: fs, ps, as, h => by
    obtain ⟨_, -, h⟩ := bind_eq_ok.mp h
    obtain ⟨⟨members, here⟩, hmembers, h⟩ := bind_eq_ok.mp h
    obtain ⟨⟨ps, later⟩, hps, h⟩ := bind_eq_ok.mp h
    cases h
    exact List.rel_append (readMembers_brought hmembers) (readPopulations_brought hps)
termination_by structural fs => fs

theorem readMembers_brought {species : String} {nextIndex : UInt32} : ∀ {fs : List EntityForm}
    {es : List Entity} {as : List Arrival}, readMembers c species nextIndex fs = .ok (es, as) →
      ReadAll (membersBrought fs) as
  | [], _, _, h => by cases h; exact .nil
  | f :: fs, es, as, h => by
    rw [readMembers] at h
    split at h
    · obtain ⟨⟨e, here⟩, he, h⟩ := bind_eq_ok.mp h
      change (if e.species = species then _ else _) = _ at h
      split at h
      · obtain ⟨⟨es, later⟩, hes, h⟩ := bind_eq_ok.mp h
        cases h
        exact List.rel_append (EntityForm.read_brought he) (readMembers_brought hes)
      · cases h
    · cases h
termination_by structural fs => fs

end

end

/-! ### Payloads -/

theorem Document.value_eq_ok {d : Document} {c : Context} {root root' : Entity} {v : Value}
    (h : d.value c root = .ok (v, root')) : ∃ form arrivals, d.body = .object form ∧
      form.read c = .ok (v, arrivals) ∧ root.placeAll arrivals = .ok root' := by
  obtain ⟨_, -, h⟩ := bind_eq_ok.mp h
  cases hbody : d.body with
  | entity e => rw [hbody] at h; cases h
  | object form =>
    rw [hbody] at h
    obtain ⟨⟨w, arrivals⟩, hread, h⟩ := bind_eq_ok.mp h
    obtain ⟨placed, hplace, h⟩ := bind_eq_ok.mp h
    obtain ⟨_, -, h⟩ := bind_eq_ok.mp h
    cases h
    exact ⟨form, arrivals, rfl, hread, hplace⟩

/-- **What reading a value leaves alone.** If every entity that a payload has in full has an owner
written, the tree either stays as it is or changes only at and below the addresses at which these
entities are put, each one in its turn. -/
theorem Format.decodeValueInto_frame (f : Format) (c : Context) (root : Entity) (bs : Bytes)
    (howned : ∀ header form, f.read? bs = some ⟨header, .object form⟩ →
      ∀ b ∈ form.brought, b.1 ≠ none) :
    let after := f.decodeValueInto c root bs
    (∀ e, after.2 = .error e → after.1 = root) ∧
    ∀ v, after.2 = .ok v → ∃ header form arrivals, f.read? bs = some ⟨header, .object form⟩ ∧
      form.read c = .ok (v, arrivals) ∧ root.placeAll arrivals = .ok after.1 ∧
      arrivals.map Arrival.address = form.recreated ∧ root.Frame form.recreated after.1 ∧
      (form.brought = [] → after.1 = root) := by
  rw [decodeValueInto]
  cases hdecode : f.decodeValue c root bs with
  | error e => exact ⟨fun _ _ => rfl, fun v hv => by cases hv⟩
  | ok p =>
    obtain ⟨v, root'⟩ := p
    refine ⟨fun e he => ?_, fun w hw => ?_⟩
    · cases he
    cases hw
    obtain ⟨⟨header, body⟩, hread, hvalue⟩ := bind_eq_ok.mp hdecode
    obtain ⟨form, arrivals, rfl, hform, hplace⟩ := Document.value_eq_ok hvalue
    have hread := read?_of_read hread
    have hall := ValueForm.read_brought hform
    obtain ⟨howners, haddresses⟩ := hall.map_address (howned header form hread)
    refine ⟨header, form, arrivals, hread, hform, hplace, haddresses, ?_, fun hnone => ?_⟩
    · rw [ValueForm.recreated, ← haddresses]
      exact .placeAll howners hplace
    · rw [hnone] at hall
      cases hall
      cases hplace
      rfl

namespace Sample

/-- Another egg in place of the first, with an ant as a friend that is not there yet. -/
def visit : ValueForm :=
  .full (some ⟨["ant"], [0]⟩)
    (.mk 0 "egg" [("friend", .full (some ⟨[], []⟩) (.mk 7 "ant" [] []))] [])

def visitBytes : Bytes := (Document.ofValue visit).binaryBytes

end Sample

theorem Format.decodeValueInto_frame_visit :
    let after := binary.decodeValueInto Sample.context Sample.brood Sample.visitBytes
    (∃ v, after.2 = .ok v) ∧ Sample.brood.Frame [Sample.ant 7, Sample.egg] after.1 := by
  intro after
  have hread := Document.ofBinaryBytes?_binaryBytes (.ofValue Sample.visit)
  obtain ⟨-, hframe⟩ := decodeValueInto_frame binary Sample.context Sample.brood Sample.visitBytes
    fun header form h => by
      cases hread.symm.trans h
      simp [Sample.visit, ValueForm.brought, EntityForm.brought, attributesBrought,
        populationsBrought]
  have hok : after.2.isOk = true := by decide +kernel
  cases hafter : after.2 with
  | error e =>
    rw [hafter] at hok
    cases hok
  | ok v =>
    obtain ⟨header, form, -, h, -, -, -, hframe, -⟩ := hframe v hafter
    cases hread.symm.trans h
    exact ⟨⟨v, rfl⟩, hframe⟩

end Rewind
