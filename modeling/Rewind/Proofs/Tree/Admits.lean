import Rewind.Proofs.Latest
import Rewind.Proofs.Tree.Agents

/-! Which documents of entities are accepted, and as what.

The reader of a document checks and builds at once, here a name, there an index against a counter
that the members before may have moved. Apart from that, what it asks of an entity document without
entities in full is a list of conditions on what is written (`Context.Admits`), and what it makes of
one that it accepts is what is written, in which of parts with the same name the last stands in the
place of the first (`EntityForm.written`). Both are read off the document without reading it
(`Format.decodeTree_accepts`). -/

namespace Rewind

/-! ### What is written -/

/-- The address in two columns; what one of them has more than the other is dropped. -/
def PathForm.written (p : PathForm) : Address := ⟨List.zipWith Hop.mk p.species p.indices⟩

def ShapeForm.written (s : ShapeForm) : Shape where
  kind := (ShapeKind.ofTag? s.kind).getD .null
  points := s.points
  depth := s.depth
  owner := s.owner.map PathForm.written

mutual

/-- The value that a form stands for, whatever a context would say. An entity in full is not looked
at. -/
def ValueForm.written : ValueForm → Value
  | .nil => .nil
  | .bool b => .bool b
  | .int i => .int i
  | .float x => .float x
  | .str s => .str s
  | .list content items => .list content (writtenItems items)
  | .map key content ordered entries =>
    .map key content ordered (Entries.ofList (writtenEntries entries))
  | .type t => .type t
  | .context name => .context name
  | .shape s => .shape s.written
  | .full _ _ => .nil
  | .reference p => .entity p.written
termination_by structural f => f

def writtenItems : List ValueForm → List Value
  | [] => []
  | f :: fs => f.written :: writtenItems fs
termination_by structural fs => fs

def writtenEntries : List (ValueForm × ValueForm) → List (Value × Value)
  | [] => []
  | (k, v) :: fs => (k.written, v.written) :: writtenEntries fs
termination_by structural fs => fs

/-- The entity that a form stands for. Of attributes with the same name the last stands in the place
of the first, and so it is with populations of the same species. -/
def EntityForm.written : EntityForm → Entity
  | .mk index species attributes populations =>
    { species, index
      attributes := ⟨latest Prod.fst (writtenAttributes attributes)⟩
      populations := .under Population.species
        (latest Population.species (writtenPopulations populations)) }
termination_by structural e => e

def writtenAttributes : List (String × ValueForm) → List (String × Value)
  | [] => []
  | (name, f) :: fs => (name, f.written) :: writtenAttributes fs
termination_by structural fs => fs

/-- Populations with the counters they are written with. Of members with the same index the last
stays; they are in the order of their indices. -/
def writtenPopulations : List (PopulationForm EntityForm) → List (Population Entity)
  | [] => []
  | ⟨species, nextIndex, members⟩ :: fs =>
    ⟨species, nextIndex,
      .under Entity.index (Members.sorted (latest Entity.index (writtenMembers members)))⟩ ::
      writtenPopulations fs
termination_by structural fs => fs

def writtenMembers : List EntityForm → List Entity
  | [] => []
  | f :: fs => f.written :: writtenMembers fs
termination_by structural fs => fs

end

/-! ### What is asked of it -/

/-- The types that a value form declares itself. -/
def ValueForm.types : ValueForm → List TypeExpr
  | .list content _ => [content]
  | .map key content _ _ => [key, content]
  | .type t => [t]
  | _ => []

/-- The path of a link, or of the owner of a shape. -/
def ValueForm.paths : ValueForm → List PathForm
  | .reference p => [p]
  | .shape s => s.owner.toList
  | _ => []

/-- The tag of a shape. -/
def ValueForm.tags : ValueForm → List UInt8
  | .shape s => [s.kind]
  | _ => []

/-- An entity form is within itself, and with a member of one of its populations it is within the
form that has the population. -/
inductive EntityForm.Within (a : EntityForm) : EntityForm → Prop
  | self : Within a a
  | member {e m : EntityForm} {p : PopulationForm EntityForm} (hp : p ∈ e.populations)
      (hm : m ∈ p.members) (h : Within a m) : Within a e

namespace Context

/-- What a reader asks of a single value: that the names in its types are registered with their
arity, that its path has two columns of the same length, and that its tag is one of the ten. -/
@[mk_iff]
structure AdmitsPart (c : Context) (f : ValueForm) : Prop where
  types : ∀ t ∈ f.types, c.Registers t
  paths : ∀ p ∈ f.paths, p.species.length = p.indices.length
  tags : ∀ t ∈ f.tags, t.toNat ≤ 9

/-- What a reader asks of the form of an entity, at any depth: that its species and those of its
populations are registered as species, that members have the species of their population and an
index below the written counter, and that the values are in order. -/
structure Admits (c : Context) (e : EntityForm) : Prop where
  species : ∀ a : EntityForm, a.Within e → c.vocabulary.isSpecies a.species = true
  populations : ∀ a : EntityForm, a.Within e →
    ∀ p ∈ a.populations, c.vocabulary.isSpecies p.species = true
  members : ∀ a : EntityForm, a.Within e →
    ∀ p ∈ a.populations, ∀ m ∈ p.members, m.species = p.species ∧ m.index < p.nextIndex
  parts : ∀ f ∈ e.parts, c.AdmitsPart f

end Context

theorem EntityForm.within_mk {a : EntityForm} {index : UInt32} {species : String}
    {attributes : List (String × ValueForm)} {populations : List (PopulationForm EntityForm)} :
    a.Within (.mk index species attributes populations) ↔
      a = .mk index species attributes populations ∨
        ∃ p ∈ populations, ∃ m ∈ p.members, a.Within m := by
  constructor
  · rintro (_ | ⟨hp, hm, h⟩)
    · exact .inl rfl
    · exact .inr ⟨_, hp, _, hm, h⟩
  · rintro (rfl | ⟨p, hp, m, hm, h⟩)
    · exact .self
    · exact .member (e := .mk index species attributes populations) hp hm h

theorem mem_memberFormParts {f : ValueForm} {ms : List EntityForm} :
    f ∈ memberFormParts ms ↔ ∃ m ∈ ms, f ∈ m.parts := by
  induction ms with
  | nil => simp [memberFormParts]
  | cons m ms ih => rw [memberFormParts, List.mem_append, ih, List.exists_mem_cons_iff]

theorem mem_populationFormParts {f : ValueForm} {ps : List (PopulationForm EntityForm)} :
    f ∈ populationFormParts ps ↔ ∃ p ∈ ps, ∃ m ∈ p.members, f ∈ m.parts := by
  induction ps with
  | nil => simp [populationFormParts]
  | cons p ps ih =>
    rw [populationFormParts, List.mem_append, mem_memberFormParts, ih, List.exists_mem_cons_iff]

namespace Context
variable {c : Context}

/-- What is asked of an entity form, member by member. -/
theorem admits_mk {index : UInt32} {species : String} {attributes : List (String × ValueForm)}
    {populations : List (PopulationForm EntityForm)} :
    c.Admits (.mk index species attributes populations) ↔
      c.vocabulary.isSpecies species = true ∧
      (∀ f ∈ attributeFormParts attributes, c.AdmitsPart f) ∧
      ∀ p ∈ populations, c.vocabulary.isSpecies p.species = true ∧
        ∀ m ∈ p.members, (m.species = p.species ∧ m.index < p.nextIndex) ∧ c.Admits m := by
  constructor
  · intro ⟨hs, hps, hms, hparts⟩
    refine ⟨hs _ .self, fun f hf => hparts f (List.mem_append_left _ hf), fun p hp =>
      ⟨hps _ .self p hp, fun m hm => ⟨hms _ .self p hp m hm, ?_⟩⟩⟩
    have hwithin {a : EntityForm} (h : a.Within m) :
        a.Within (.mk index species attributes populations) :=
      EntityForm.within_mk.mpr (.inr ⟨p, hp, m, hm, h⟩)
    exact ⟨fun a h => hs a (hwithin h), fun a h => hps a (hwithin h), fun a h => hms a (hwithin h),
      fun f hf => hparts f (List.mem_append_right _
        (mem_populationFormParts.mpr ⟨p, hp, m, hm, hf⟩))⟩
  · intro ⟨hs, has, hps⟩
    refine ⟨fun a h => ?_, fun a h => ?_, fun a h => ?_, fun f hf => ?_⟩
    · rcases EntityForm.within_mk.mp h with rfl | ⟨p, hp, m, hm, h⟩
      · exact hs
      · exact ((hps p hp).2 m hm).2.species a h
    · rcases EntityForm.within_mk.mp h with rfl | ⟨p, hp, m, hm, h⟩
      · exact fun p hp => (hps p hp).1
      · exact ((hps p hp).2 m hm).2.populations a h
    · rcases EntityForm.within_mk.mp h with rfl | ⟨p, hp, m, hm, h⟩
      · exact fun p hp m hm => ((hps p hp).2 m hm).1
      · exact ((hps p hp).2 m hm).2.members a h
    · rcases List.mem_append.mp hf with hf | hf
      · exact has f hf
      · obtain ⟨p, hp, m, hm, hf⟩ := mem_populationFormParts.mp hf
        exact ((hps p hp).2 m hm).2.parts f hf

end Context

/-! ### Readings that hinge on a condition -/

/-- Gives `a` under a condition, and otherwise fails. -/
def AcceptsIff {α : Type} (r : Except DecodeError α) (condition : Prop) (a : α) : Prop :=
  ∀ b, r = .ok b ↔ condition ∧ b = a

namespace AcceptsIff
variable {α β : Type} {r : Except DecodeError α} {p q : Prop} {a : α}

theorem ok : AcceptsIff (.ok a) True a := fun _ => by
  rw [true_and, Except.ok.injEq, eq_comm]

theorem error {e : DecodeError} : AcceptsIff (.error e) False a := fun _ => by simp

theorem congr (h : AcceptsIff r p a) (hpq : p ↔ q) : AcceptsIff r q a :=
  fun b => (h b).trans (and_congr_left' hpq)

/-- What is done with the result may rely on the condition. -/
theorem bind {f : α → Except DecodeError β} {b : β} (h : AcceptsIff r p a)
    (hf : p → AcceptsIff (f a) q b) : AcceptsIff (r >>= f) (p ∧ q) b := fun x => by
  rw [bind_eq_ok, and_assoc]
  constructor
  · rintro ⟨a', ha', hx⟩
    obtain ⟨hp, rfl⟩ := (h a').mp ha'
    exact ⟨hp, (hf hp x).mp hx⟩
  · rintro ⟨hp, hx⟩
    exact ⟨a, (h a).mpr ⟨hp, rfl⟩, (hf hp x).mpr hx⟩

/-- What is done with the result without failing. -/
theorem andThen {f : α → Except DecodeError β} {b : β} (h : AcceptsIff r p a)
    (hf : p → f a = .ok b) : AcceptsIff (r >>= f) p b :=
  (h.bind fun hp => hf hp ▸ ok).congr (and_iff_left trivial)

/-- A check in front. -/
theorem check [Decidable p] {e : DecodeError} (h : p → AcceptsIff r q a) :
    AcceptsIff (if p then r else .error e) (p ∧ q) a := by
  split
  · next hp => exact (h hp).congr (by simp [hp])
  · next hp => exact error.congr (by simp [hp])

theorem of_readsIff (h : ReadsIff r p a) : AcceptsIff r p a := fun _ =>
  ⟨fun hr => ⟨h.of_ok hr, Except.ok.inj (hr.symm.trans (h.1 (h.of_ok hr)))⟩,
    fun ⟨hp, hb⟩ => hb ▸ h.1 hp⟩

/-- The reading succeeds under the condition and not otherwise. -/
theorem exists_ok_iff (h : AcceptsIff r p a) : (∃ b, r = .ok b) ↔ p :=
  ⟨fun ⟨b, hb⟩ => ((h b).mp hb).1, fun hp => ⟨a, (h a).mpr ⟨hp, rfl⟩⟩⟩

end AcceptsIff

/-! ### Reading -/

theorem PathForm.read_accepts (p : PathForm) :
    AcceptsIff p.read (p.species.length = p.indices.length) p.written := by
  rw [read, Address.ofColumns?]
  by_cases h : p.species.length = p.indices.length
  · rw [if_pos h]
    exact AcceptsIff.ok.congr (iff_of_true trivial h)
  · rw [if_neg h]
    exact AcceptsIff.error.congr (iff_of_false id h)

theorem readOwner_accepts (o : Option PathForm) :
    AcceptsIff (readOwner o) (∀ p ∈ o.toList, p.species.length = p.indices.length)
      (o.map PathForm.written) := by
  cases o with
  | none => exact AcceptsIff.ok.congr (by simp)
  | some p =>
    refine AcceptsIff.congr ((PathForm.read_accepts p).andThen fun _ => rfl) ?_
    rw [Option.toList_some, List.forall_mem_singleton]

theorem ShapeForm.read_accepts (s : ShapeForm) :
    AcceptsIff s.read
      ((∀ p ∈ s.owner.toList, p.species.length = p.indices.length) ∧ s.kind.toNat ≤ 9)
      s.written := by
  have htag : s.kind.toNat ≤ 9 ↔ (ShapeKind.ofTag? s.kind).isSome := by
    simp only [ShapeKind.ofTag?, ShapeKind.all, isSome_getElem?, List.length_cons, List.length_nil]
    omega
  rw [read, htag, written]
  cases ShapeKind.ofTag? s.kind with
  | none => exact AcceptsIff.error.congr (by simp)
  | some kind =>
    refine AcceptsIff.congr ((readOwner_accepts s.owner).andThen fun _ => rfl) ?_
    rw [Option.isSome_some, and_iff_left rfl]

theorem EntityForm.species_written (e : EntityForm) : e.written.species = e.species := by
  cases e
  rw [written, species]

theorem EntityForm.index_written (e : EntityForm) : e.written.index = e.index := by
  cases e
  rw [written, index]

theorem writtenMembers_eq_map (fs : List EntityForm) :
    writtenMembers fs = fs.map EntityForm.written := by
  induction fs with
  | nil => rfl
  | cons f fs ih => rw [writtenMembers, ih, List.map_cons]

section
variable {c : Context}

theorem Context.checkType_accepts (t : TypeExpr) :
    AcceptsIff (c.checkType t) (c.Registers t) () := .of_readsIff (checkType_iff t)

theorem Context.checkSpecies_accepts (s : String) :
    AcceptsIff (c.checkSpecies s) (c.vocabulary.isSpecies s = true) () :=
  .of_readsIff (checkSpecies_iff s)

mutual

theorem ValueForm.read_accepts : ∀ {f : ValueForm}, f.fulls = [] →
    AcceptsIff (f.read c) (∀ g ∈ f.parts, c.AdmitsPart g) (f.written, [])
  | .nil, _ | .bool _, _ | .int _, _ | .float _, _ | .str _, _ | .context _, _ => by
    refine AcceptsIff.ok.congr ?_
    simp [ValueForm.parts, Context.admitsPart_iff, ValueForm.types, ValueForm.paths, ValueForm.tags]
  | .list content items, hfull => by
    refine AcceptsIff.congr ((Context.checkType_accepts content).bind fun _ =>
      (readItems_accepts hfull).andThen fun _ => rfl) ?_
    simp [ValueForm.parts, Context.admitsPart_iff, ValueForm.types, ValueForm.paths, ValueForm.tags]
  | .map key content _ entries, hfull => by
    refine AcceptsIff.congr ((Context.checkType_accepts key).bind fun _ =>
      (Context.checkType_accepts content).bind fun _ =>
        (readEntries_accepts hfull).andThen fun _ => rfl) ?_
    simp [ValueForm.parts, Context.admitsPart_iff, ValueForm.types, ValueForm.paths,
      ValueForm.tags, and_assoc]
  | .type t, _ => by
    refine AcceptsIff.congr ((Context.checkType_accepts t).andThen fun _ => rfl) ?_
    simp [ValueForm.parts, Context.admitsPart_iff, ValueForm.types, ValueForm.paths, ValueForm.tags]
  | .shape s, _ => by
    refine AcceptsIff.congr ((ShapeForm.read_accepts s).andThen fun _ => rfl) ?_
    simp [ValueForm.parts, Context.admitsPart_iff, ValueForm.types, ValueForm.paths, ValueForm.tags]
  | .reference p, _ => by
    refine AcceptsIff.congr ((PathForm.read_accepts p).andThen fun _ => rfl) ?_
    simp [ValueForm.parts, Context.admitsPart_iff, ValueForm.types, ValueForm.paths, ValueForm.tags]
  | .full _ _, hfull => by cases hfull
termination_by structural f => f

theorem readItems_accepts : ∀ {fs : List ValueForm}, itemFulls fs = [] →
    AcceptsIff (readItems c fs) (∀ g ∈ itemFormParts fs, c.AdmitsPart g) (writtenItems fs, [])
  | [], _ => AcceptsIff.ok.congr (by simp [itemFormParts])
  | f :: fs, hfull => by
    obtain ⟨hf, hfs⟩ := List.append_eq_nil_iff.mp hfull
    refine AcceptsIff.congr ((ValueForm.read_accepts hf).bind fun _ =>
      (readItems_accepts hfs).andThen fun _ => rfl) ?_
    rw [itemFormParts, List.forall_mem_append]
termination_by structural fs => fs

theorem readEntries_accepts : ∀ {fs : List (ValueForm × ValueForm)}, entryFulls fs = [] →
    AcceptsIff (readEntries c fs) (∀ g ∈ entryFormParts fs, c.AdmitsPart g) (writtenEntries fs, [])
  | [], _ => AcceptsIff.ok.congr (by simp [entryFormParts])
  | (k, v) :: fs, hfull => by
    obtain ⟨hkv, hfs⟩ := List.append_eq_nil_iff.mp hfull
    obtain ⟨hk, hv⟩ := List.append_eq_nil_iff.mp hkv
    refine AcceptsIff.congr ((ValueForm.read_accepts hk).bind fun _ =>
      (ValueForm.read_accepts hv).bind fun _ => (readEntries_accepts hfs).andThen fun _ => rfl) ?_
    rw [entryFormParts, List.forall_mem_append, List.forall_mem_append, and_assoc]
termination_by structural fs => fs

theorem EntityForm.read_accepts : ∀ {e : EntityForm}, e.fulls = [] →
    AcceptsIff (e.read c) (c.Admits e) (e.written, [])
  | .mk index species attributes populations, hfull => by
    obtain ⟨has, hps⟩ := List.append_eq_nil_iff.mp hfull
    refine AcceptsIff.congr ((Context.checkSpecies_accepts species).bind fun _ =>
      (readAttributes_accepts has).bind fun _ =>
        (readPopulations_accepts hps).andThen fun _ => ?_) Context.admits_mk.symm
    show Except.ok ((writtenPopulations populations).foldl Entity.setPopulation
      ⟨species, index, Table.ofList (writtenAttributes attributes), .empty⟩, _) = _
    rw [Table.ofList_eq_latest, EntityForm.written]
    exact congrArg (fun e => Except.ok (e, [])) (Entity.foldl_setPopulation_bare
      ⟨species, index, ⟨latest Prod.fst (writtenAttributes attributes)⟩, .empty⟩ _)
termination_by structural e => e

theorem readAttributes_accepts : ∀ {fs : List (String × ValueForm)}, attributeFulls fs = [] →
    AcceptsIff (readAttributes c fs) (∀ g ∈ attributeFormParts fs, c.AdmitsPart g)
      (writtenAttributes fs, [])
  | [], _ => AcceptsIff.ok.congr (by simp [attributeFormParts])
  | (_, f) :: fs, hfull => by
    obtain ⟨hf, hfs⟩ := List.append_eq_nil_iff.mp hfull
    refine AcceptsIff.congr ((ValueForm.read_accepts hf).bind fun _ =>
      (readAttributes_accepts hfs).andThen fun _ => rfl) ?_
    rw [attributeFormParts, List.forall_mem_append]
termination_by structural fs => fs

theorem readPopulations_accepts : ∀ {fs : List (PopulationForm EntityForm)},
    populationFulls fs = [] → AcceptsIff (readPopulations c fs)
      (∀ p ∈ fs, c.vocabulary.isSpecies p.species = true ∧
        ∀ m ∈ p.members, (m.species = p.species ∧ m.index < p.nextIndex) ∧ c.Admits m)
      (writtenPopulations fs, [])
  | [], _ => AcceptsIff.ok.congr (by simp)
  | ⟨species, nextIndex, members⟩ :: fs, hfull => by
    obtain ⟨hms, hfs⟩ := List.append_eq_nil_iff.mp hfull
    refine AcceptsIff.congr ((Context.checkSpecies_accepts species).bind fun _ =>
      (readMembers_accepts hms).bind fun hmembers =>
        (readPopulations_accepts hfs).andThen fun _ => ?_)
      (by rw [List.forall_mem_cons, and_assoc])
    have hlt : ∀ m ∈ writtenMembers members, m.index < nextIndex := fun m hm => by
      rw [writtenMembers_eq_map] at hm
      obtain ⟨f, hf, rfl⟩ := List.mem_map.mp hm
      rw [EntityForm.index_written]
      exact (hmembers f hf).1.2
    show Except.ok ((writtenMembers members).foldl Population.insert _ :: _, _) = _
    rw [Population.foldl_insert_counting hlt, writtenPopulations]
    rfl
termination_by structural fs => fs

theorem readMembers_accepts {species : String} {nextIndex : UInt32} :
    ∀ {fs : List EntityForm}, memberFulls fs = [] →
      AcceptsIff (readMembers c species nextIndex fs)
        (∀ m ∈ fs, (m.species = species ∧ m.index < nextIndex) ∧ c.Admits m) (writtenMembers fs, [])
  | [], _ => AcceptsIff.ok.congr (by simp)
  | f :: fs, hfull => by
    obtain ⟨hf, hfs⟩ := List.append_eq_nil_iff.mp hfull
    refine AcceptsIff.congr (AcceptsIff.check fun _ => (EntityForm.read_accepts hf).bind fun _ =>
      AcceptsIff.check fun _ => (readMembers_accepts hfs).andThen fun _ => rfl) ?_
    rw [List.forall_mem_cons, EntityForm.species_written]
    tauto
termination_by structural fs => fs

end

end

/-! ### Accepting -/

theorem Header.check_accepts (h : Header) :
    AcceptsIff h.check (h.magic = documentMagic ∧ h.version = documentVersion) () := by
  unfold check
  split
  · next hmagic => exact AcceptsIff.error.congr (by simp [hmagic])
  · next hmagic =>
    split
    · next hlt => exact AcceptsIff.error.congr (by simp [(UInt32.ne_of_lt hlt).symm])
    · next hle =>
      split
      · next hlt => exact AcceptsIff.error.congr (by simp [UInt32.ne_of_lt hlt])
      · next hge =>
        have hversion := UInt32.le_antisymm (UInt32.not_lt.mp hle) (UInt32.not_lt.mp hge)
        exact AcceptsIff.ok.congr (iff_of_true trivial ⟨not_not.mp hmagic, hversion⟩)

theorem Document.check_accepts (d : Document) :
    AcceptsIff d.check ((d.header.magic = documentMagic ∧ d.header.version = documentVersion) ∧
      d.header.kind = d.body.kind) () :=
  (Header.check_accepts d.header).bind fun _ =>
    (AcceptsIff.check fun _ => .ok).congr (and_iff_left trivial)

theorem Document.tree_accepts {c : Context} {header : Header} {e : EntityForm}
    (hfull : e.fulls = []) :
    AcceptsIff (Document.tree ⟨header, .entity e⟩ c)
      (((header.magic = documentMagic ∧ header.version = documentVersion) ∧
        header.kind = entityKind) ∧ c.Admits e) (e.written, header.cycle) :=
  (check_accepts _).bind fun _ => (EntityForm.read_accepts hfull).andThen fun _ => rfl

/-- **Which documents of entities are accepted**: those with the right magic number, version and
kind, of which the context admits what is written. **And as what**: as the entity that is written,
at the cycle that is written. That is for documents without entities in full, in every format. -/
theorem Format.decodeTree_accepts {f : Format} {c : Context} {bs : Bytes} {header : Header}
    {e : EntityForm} (hread : f.read bs = .ok ⟨header, .entity e⟩) (hfull : e.fulls = []) :
    ((∃ r, f.decodeTree c bs = .ok r) ↔ header.magic = documentMagic ∧
      header.version = documentVersion ∧ header.kind = entityKind ∧ c.Admits e) ∧
    ∀ r, f.decodeTree c bs = .ok r → r = (e.written, header.cycle) := by
  have haccepts : AcceptsIff (Document.tree ⟨header, .entity e⟩ c) _ (e.written, header.cycle) :=
    Document.tree_accepts hfull
  have hdecode : f.decodeTree c bs = Document.tree ⟨header, .entity e⟩ c := by
    rw [decodeTree, hread]
    rfl
  rw [hdecode]
  refine ⟨?_, fun r hr => ((haccepts r).mp hr).2⟩
  rw [haccepts.exists_ok_iff, and_assoc, and_assoc]

namespace Sample

/-- An entity form that gives an attribute, a population and a member more than once. -/
def repetitive : EntityForm :=
  let ant (index : UInt32) (note : String) : EntityForm := .mk index "ant" [("note", .str note)] []
  .mk 0 rootSpecies [("a", .int 1), ("b", .reference ⟨["ant"], [7]⟩), ("a", .int 2)]
    [⟨"ant", 9, [ant 8 "gone"]⟩, ⟨"egg", 0, []⟩,
      ⟨"ant", 5, [ant 4 "first", ant 1 "only", ant 4 "last"]⟩]

theorem admits_repetitive : context.Admits repetitive := by
  have hspecies : ∀ s ∈ [rootSpecies, "ant", "egg"], context.vocabulary.isSpecies s = true := by
    decide
  simp only [List.forall_mem_cons] at hspecies
  simp [repetitive, Context.admits_mk, attributeFormParts, ValueForm.parts,
    Context.admitsPart_iff, ValueForm.types, ValueForm.paths, ValueForm.tags, EntityForm.species,
    EntityForm.index, hspecies]

end Sample

theorem Format.decodeTree_accepts_repetitive :
    let bs := Document.binaryBytes (.ofEntity Sample.repetitive 3)
    let ant (index : UInt32) (note : String) := Entity.set (.new "ant" index) "note" (.str note)
    let root : Entity :=
      { species := rootSpecies, index := 0
        attributes := ⟨[("a", .int 2), ("b", .entity (Sample.ant 7))]⟩
        populations :=
          ⟨[("ant", ⟨"ant", 5, ⟨[(1, ant 1 "only"), (4, ant 4 "last")]⟩⟩), ("egg", .new "egg")]⟩ }
    binary.read bs = .ok (.ofEntity Sample.repetitive 3) ∧ Sample.repetitive.fulls = [] ∧
      binary.decodeTree Sample.context bs = .ok (root, 3) := by
  intro bs ant root
  have hread : binary.read bs = .ok (.ofEntity Sample.repetitive 3) :=
    read_of_read? (Document.ofBinaryBytes?_binaryBytes _)
  obtain ⟨haccepts, hresult⟩ := decodeTree_accepts (c := Sample.context) hread rfl
  obtain ⟨r, hr⟩ := haccepts.mpr ⟨rfl, rfl, rfl, Sample.admits_repetitive⟩
  rw [hresult r hr] at hr
  exact ⟨hread, rfl, hr⟩

end Rewind
