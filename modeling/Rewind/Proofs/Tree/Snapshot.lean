import Rewind.Document.ToTree
import Rewind.Proofs.Tree.Tidy

/-! Trees read back from their documents.

What can stand in the way of reading a tree back is its context: a species that is
not one there, or a name in a type that is not registered with its arity. If the
context `Knows` the tree, its form reads as exactly that tree with nothing left to
place; if not, the reader says which name it is (`Entity.read_form`). For that the
tree has to be tidy, which every tree is that operations build, and `Housed`: every
member has the species of its population and lies below its counter. -/

namespace Rewind

/-! ### What a tree asks of a context -/

/-- The names in a type, each with whether it is given parameters. -/
def TypeExpr.names : TypeExpr → List (String × Bool)
  | .simple name => [(name, false)]
  | .compound name key content => (name, true) :: (key.names ++ content.names)

/-- The types that a value declares itself. -/
def Value.types : Value → List TypeExpr
  | .list content _ => [content]
  | .map key content _ _ => [key, content]
  | .type t => [t]
  | _ => []

namespace Context

/-- Every name in a type is registered as taking parameters exactly where it is given some. -/
def Registers (c : Context) (t : TypeExpr) : Prop :=
  ∀ n ∈ t.names, (c.vocabulary.lookup? n.1).map NameInfo.parametric = some n.2

instance (c : Context) (t : TypeExpr) : Decidable (c.Registers t) :=
  inferInstanceAs (Decidable (∀ n ∈ t.names, _ = _))

/-- The types in a value, however deep, are registered. -/
def KnowsValue (c : Context) (v : Value) : Prop :=
  v.Throughout fun w => ∀ t ∈ w.types, c.Registers t

instance (c : Context) (v : Value) : Decidable (c.KnowsValue v) :=
  inferInstanceAs (Decidable (∀ w ∈ v.parts, ∀ t ∈ w.types, c.Registers t))

/-- The names that a tree uses at any depth mean something in a context. -/
structure Knows (c : Context) (root : Entity) : Prop where
  species : c.vocabulary.isSpecies root.species = true
  populations : root.Everywhere fun e =>
    ∀ p ∈ e.populations.values, c.vocabulary.isSpecies p.species = true
  values : root.Everywhere fun e => ∀ v ∈ e.attributes.values, c.KnowsValue v

instance (c : Context) (root : Entity) : Decidable (c.Knows root) :=
  have : Decidable (root.Everywhere fun e =>
      ∀ p ∈ e.populations.values, c.vocabulary.isSpecies p.species = true) :=
    inferInstanceAs (Decidable (∀ e ∈ root.entities, ∀ p ∈ e.populations.values, _ = _))
  have : Decidable (root.Everywhere fun e => ∀ v ∈ e.attributes.values, c.KnowsValue v) :=
    inferInstanceAs (Decidable (∀ e ∈ root.entities, ∀ v ∈ e.attributes.values, c.KnowsValue v))
  decidable_of_iff (_ ∧ _ ∧ _) ⟨fun ⟨hs, hps, hvs⟩ => ⟨hs, hps, hvs⟩,
    fun ⟨hs, hps, hvs⟩ => ⟨hs, hps, hvs⟩⟩

end Context

/-- Every member has the species of its population and an index below its counter. -/
def Entity.Housed (root : Entity) : Prop :=
  root.Everywhere fun e =>
    ∀ p ∈ e.populations.values, ∀ m ∈ p.members.values,
      m.species = p.species ∧ m.index < p.nextIndex

instance (root : Entity) : Decidable root.Housed :=
  inferInstanceAs (Decidable
    (∀ e ∈ root.entities, ∀ p ∈ e.populations.values, ∀ m ∈ p.members.values, _ ∧ _))

/-! ### Readings that hinge on a condition -/

/-- The error is that the context does not have a name, or not as it is used. -/
def DecodeError.isUnknownName : DecodeError → Bool
  | unknownType _ _ | unknownSpecies _ _ | typeArity _ _ => true
  | _ => false

theorem DecodeError.not_isStructural_of_isUnknownName {e : DecodeError}
    (h : e.isUnknownName = true) : e.isStructural = false := by
  cases e <;> first | rfl | cases h

/-- Reads as `a` under a condition, and otherwise fails over a name. -/
def ReadsIff {α : Type} (r : Except DecodeError α) (condition : Prop) (a : α) : Prop :=
  (condition → r = .ok a) ∧ (¬ condition → ∃ e, r = .error e ∧ e.isUnknownName = true)

namespace ReadsIff
variable {α β : Type} {r : Except DecodeError α} {p q : Prop} {a : α}

theorem ok : ReadsIff (.ok a) True a := ⟨fun _ => rfl, fun h => absurd trivial h⟩

theorem congr (h : ReadsIff r p a) (hpq : p ↔ q) : ReadsIff r q a :=
  ⟨fun hq => h.1 (hpq.mpr hq), fun hq => h.2 fun hp => hq (hpq.mp hp)⟩

theorem bind {f : α → Except DecodeError β} {b : β} (h : ReadsIff r p a)
    (hf : ReadsIff (f a) q b) : ReadsIff (r >>= f) (p ∧ q) b := by
  refine ⟨fun ⟨hp, hq⟩ => ?_, fun hpq => ?_⟩
  · rw [h.1 hp]
    exact hf.1 hq
  · by_cases hp : p
    · rw [h.1 hp]
      exact hf.2 fun hq => hpq ⟨hp, hq⟩
    · obtain ⟨e, he, hclass⟩ := h.2 hp
      exact ⟨e, by rw [he]; rfl, hclass⟩

/-- What is done with the result without failing. -/
theorem andThen {f : α → Except DecodeError β} {b : β} (h : ReadsIff r p a) (hf : f a = .ok b) :
    ReadsIff (r >>= f) p b :=
  (h.bind (hf ▸ ok)).congr (and_iff_left trivial)

end ReadsIff

/-! ### Types, paths and shapes -/

variable {c : Context}

theorem Context.checkType_iff (t : TypeExpr) : ReadsIff (c.checkType t) (c.Registers t) () := by
  induction t with
  | simple name =>
    rw [checkType]
    split
    · next h => exact ⟨fun hr => by simpa [h] using hr _ List.mem_cons_self, fun _ => ⟨_, rfl, rfl⟩⟩
    · next i h =>
      split
      · next hp => exact ⟨fun hr => by simpa [h, hp] using hr _ List.mem_cons_self,
          fun _ => ⟨_, rfl, rfl⟩⟩
      · next hp => exact ReadsIff.ok.congr (by simp [Registers, TypeExpr.names, h, hp])
  | compound name key content ihk ihc =>
    rw [checkType]
    split
    · next h => exact ⟨fun hr => by simpa [h] using hr _ List.mem_cons_self, fun _ => ⟨_, rfl, rfl⟩⟩
    · next i h =>
      split
      · next hp =>
        refine (ihk.bind ihc).congr ?_
        simp [Registers, TypeExpr.names, h, hp, or_imp, forall_and]
      · next hp => exact ⟨fun hr => by simpa [h, hp] using hr _ List.mem_cons_self,
          fun _ => ⟨_, rfl, rfl⟩⟩

theorem Context.checkSpecies_iff (s : String) :
    ReadsIff (c.checkSpecies s) (c.vocabulary.isSpecies s = true) () := by
  unfold checkSpecies
  split
  · next h => exact ReadsIff.ok.congr (iff_of_true trivial h)
  · next h => exact ⟨fun hs => absurd hs h, fun _ => ⟨_, rfl, rfl⟩⟩

theorem Address.read_form (a : Address) : a.form.read = .ok a := by
  have h : List.zipWith Hop.mk (a.hops.map Hop.species) (a.hops.map Hop.index) = a.hops := by
    induction a.hops with
    | nil => rfl
    | cons h hs ih => rw [List.map_cons, List.map_cons, List.zipWith_cons_cons, ih]
  simp [PathForm.read, form, ofColumns?, species, indices, h]

theorem readOwner_form (o : Option Address) : readOwner (o.map Address.form) = .ok o := by
  cases o with
  | none => rfl
  | some a => simp [readOwner, Address.read_form, bind, Except.bind]

theorem ShapeKind.ofTag?_tag (k : ShapeKind) : ofTag? k.tag = some k := by
  cases k <;> rfl

theorem Shape.read_form (s : Shape) : s.form.read = .ok s := by
  simp [ShapeForm.read, form, ShapeKind.ofTag?_tag, readOwner_form, bind, Except.bind]

/-! ### Values -/

theorem Context.knowsValue_list {content : TypeExpr} {items : List Value} :
    c.KnowsValue (.list content items) ↔ c.Registers content ∧ ∀ v ∈ items, c.KnowsValue v := by
  refine Value.throughout_list.trans (and_congr_left fun _ => ?_)
  simp [Value.types]

theorem Context.knowsValue_map {key content : TypeExpr} {ordered : Bool}
    {entries : List (Value × Value)} :
    c.KnowsValue (.map key content ordered entries) ↔ c.Registers key ∧ c.Registers content ∧
      ∀ e ∈ entries, c.KnowsValue e.1 ∧ c.KnowsValue e.2 := by
  refine Value.throughout_map.trans ((and_congr_left fun _ => ?_).trans and_assoc)
  simp [Value.types]

theorem Context.knowsValue_type {t : TypeExpr} : c.KnowsValue (.type t) ↔ c.Registers t :=
  Value.throughout_iff.trans (by simp [Value.types, Value.inner])

theorem Context.knowsValue_of_plain {v : Value} (hi : v.inner = []) (ht : v.types = []) :
    c.KnowsValue v := by
  refine Value.throughout_iff.mpr ⟨?_, ?_⟩
  · rw [ht]
    exact List.forall_mem_nil _
  · rw [hi]
    exact List.forall_mem_nil _

theorem readItems_map {vs : List Value}
    (h : ∀ v ∈ vs, ReadsIff (v.form.read c) (c.KnowsValue v) (v, [])) :
    ReadsIff (readItems c (vs.map Value.form)) (∀ v ∈ vs, c.KnowsValue v) (vs, []) := by
  induction vs with
  | nil => exact ReadsIff.ok.congr (by simp)
  | cons v vs ih =>
    obtain ⟨hv, hvs⟩ := List.forall_mem_cons.mp h
    rw [List.map_cons, readItems]
    refine ReadsIff.congr ?_ List.forall_mem_cons.symm
    exact hv.bind ((ih hvs).andThen rfl)

theorem readEntries_map {es : List (Value × Value)}
    (h : ∀ e ∈ es, ReadsIff (e.1.form.read c) (c.KnowsValue e.1) (e.1, []) ∧
      ReadsIff (e.2.form.read c) (c.KnowsValue e.2) (e.2, [])) :
    ReadsIff (readEntries c (es.map fun e => (e.1.form, e.2.form)))
      (∀ e ∈ es, c.KnowsValue e.1 ∧ c.KnowsValue e.2) (es, []) := by
  induction es with
  | nil => exact ReadsIff.ok.congr (by simp)
  | cons e es ih =>
    obtain ⟨⟨hk, hv⟩, hes⟩ := List.forall_mem_cons.mp h
    rw [List.map_cons, readEntries]
    simp only [List.forall_mem_cons, and_assoc]
    exact hk.bind (hv.bind ((ih hes).andThen rfl))

/-- A tidy value reads back if its types are registered. -/
theorem Value.read_form {v : Value} (ht : v.Tidy) :
    ReadsIff (v.form.read c) (c.KnowsValue v) (v, []) := by
  induction v with
  | list content items ih =>
    rw [form, itemForms_eq_map, ValueForm.read]
    have hitems := readItems_map fun v hv => ih v hv (tidy_list.mp ht v hv)
    refine ReadsIff.congr ?_ Context.knowsValue_list.symm
    exact (Context.checkType_iff content).bind (hitems.andThen rfl)
  | map key content ordered entries ih =>
    obtain ⟨hd, hes⟩ := tidy_map.mp ht
    rw [form, entryForms_eq_map, ValueForm.read]
    have hentries := readEntries_map fun e he =>
      ⟨(ih e he).1 (hes e he).1, (ih e he).2 (hes e he).2⟩
    refine ReadsIff.congr ?_ Context.knowsValue_map.symm
    refine (Context.checkType_iff key).bind ((Context.checkType_iff content).bind
      (hentries.andThen ?_))
    show Except.ok (Value.map key content ordered (Entries.ofList entries), _) = _
    rw [Entries.ofList_eq hd]
  | type t =>
    refine ReadsIff.congr ?_ Context.knowsValue_type.symm
    exact (Context.checkType_iff t).andThen rfl
  | shape s =>
    refine ReadsIff.congr ?_ (iff_of_true trivial (Context.knowsValue_of_plain rfl rfl))
    rw [form, ValueForm.read, Shape.read_form]
    exact .ok
  | entity a =>
    refine ReadsIff.congr ?_ (iff_of_true trivial (Context.knowsValue_of_plain rfl rfl))
    rw [form, ValueForm.read, Address.read_form]
    exact .ok
  | _ => exact ReadsIff.ok.congr (iff_of_true trivial (Context.knowsValue_of_plain rfl rfl))

/-! ### Entities -/

theorem readAttributes_map {as : List (String × Value)} (h : ∀ v ∈ as.map Prod.snd, v.Tidy) :
    ReadsIff (readAttributes c (as.map fun a => (a.1, a.2.form)))
      (∀ v ∈ as.map Prod.snd, c.KnowsValue v) (as, []) := by
  induction as with
  | nil => exact ReadsIff.ok.congr (by simp)
  | cons a as ih =>
    rw [List.map_cons] at h
    obtain ⟨hv, hvs⟩ := List.forall_mem_cons.mp h
    rw [List.map_cons, readAttributes, List.map_cons]
    refine ReadsIff.congr ?_ List.forall_mem_cons.symm
    exact (Value.read_form hv).bind ((ih hvs).andThen rfl)

/-- What a context has to know of a tree whose members have the species of their
populations: the entity itself, and for every population its species and its members. -/
theorem Context.knows_iff {e : Entity}
    (h : ∀ p ∈ e.populations.values, ∀ m ∈ p.members.values, m.species = p.species) :
    c.Knows e ↔ c.vocabulary.isSpecies e.species = true ∧
      (∀ v ∈ e.attributes.values, c.KnowsValue v) ∧
        ∀ p ∈ e.populations.values, c.vocabulary.isSpecies p.species = true ∧
          ∀ m ∈ p.members.values, c.Knows m := by
  constructor
  · intro ⟨hs, hps, hvs⟩
    refine ⟨hs, hvs.here, fun p hp => ⟨hps.here p hp, fun m hm => ?_⟩⟩
    exact ⟨by rw [h p hp m hm]; exact hps.here p hp, hps.member hp hm, hvs.member hp hm⟩
  · intro ⟨hs, hvs, hps⟩
    exact ⟨hs,
      Entity.everywhere_iff.mpr ⟨fun p hp => (hps p hp).1,
        fun p hp m hm => ((hps p hp).2 m hm).populations⟩,
      Entity.everywhere_iff.mpr ⟨hvs, fun p hp m hm => ((hps p hp).2 m hm).values⟩⟩

theorem Entity.index_form (e : Entity) : e.form.index = e.index := by
  rw [form_eq, EntityForm.index]

theorem readMembers_map {species : String} {nextIndex : UInt32} {ms : List Entity}
    (hm : ∀ m ∈ ms, m.species = species ∧ m.index < nextIndex)
    (h : ∀ m ∈ ms, ReadsIff (m.form.read c) (c.Knows m) (m, [])) :
    ReadsIff (readMembers c species nextIndex (ms.map Entity.form)) (∀ m ∈ ms, c.Knows m)
      (ms, []) := by
  induction ms with
  | nil => exact ReadsIff.ok.congr (by simp)
  | cons m ms ih =>
    obtain ⟨⟨hs, hi⟩, hms⟩ := List.forall_mem_cons.mp hm
    obtain ⟨hread, hreads⟩ := List.forall_mem_cons.mp h
    rw [List.map_cons, readMembers, Entity.index_form, if_pos hi]
    refine ReadsIff.congr ?_ List.forall_mem_cons.symm
    refine hread.bind ?_
    show ReadsIff (if m.species = species then _ else _) _ _
    rw [if_pos hs]
    exact (ih hms hreads).andThen rfl

theorem indexAfter_le {i n : UInt32} (h : i < n) : indexAfter i ≤ n := by
  unfold indexAfter
  split
  · exact UInt32.le_of_lt h
  · rw [UInt32.lt_iff_toNat_lt] at h
    have hn : n.toNat < 2 ^ 32 := n.toNat_lt
    have hone : (1 : UInt32).toNat = 1 := rfl
    rw [UInt32.le_iff_toNat_le, UInt32.toNat_add, hone]
    omega

/-- A counter is past every index below it. -/
theorem max_indexAfter {i n : UInt32} (h : i < n) : max n (indexAfter i) = n := by
  show (if n ≤ indexAfter i then indexAfter i else n) = n
  split
  · next hle => exact UInt32.le_antisymm (indexAfter_le h) hle
  · rfl

/-- Members below a counter leave it where it is. -/
theorem Population.foldl_insert {species : String} {nextIndex : UInt32} {ms : List Entity}
    (hlt : ∀ m ∈ ms, m.index < nextIndex) (h : (ms.map Entity.index).Pairwise (· < ·)) :
    ms.foldl insert (.counting species nextIndex) =
      ⟨species, nextIndex, .under Entity.index ms⟩ := by
  refine foldl_eq_of_append (g := fun ms : List Entity =>
    (⟨species, nextIndex, .under Entity.index ms⟩ : Population Entity)) ?_
    (List.pairwise_map.mp h)
  intro done a ha hdone
  have hput : ∀ m ∈ done.map fun m => (m.index, m), m.1 < a.index := List.forall_mem_map.mpr hdone
  simp only [insert, Table.under, max_indexAfter (hlt a ha), Members.put_of_forall_lt hput,
    List.map_append, List.map_singleton]

/-- The members of a sorted population put it together again. -/
theorem Population.Sorted.foldl_insert {p : Population Entity} (h : p.Sorted)
    (hlt : ∀ m ∈ p.members.values, m.index < p.nextIndex) :
    p.members.values.foldl Population.insert (.counting p.species p.nextIndex) = p := by
  rw [Population.foldl_insert hlt h.indices, h.keyed.under_values]

theorem readPopulations_map {ps : List (Population Entity)} (ht : ∀ p ∈ ps, p.Tidy)
    (hh : ∀ p ∈ ps, ∀ m ∈ p.members.values, m.species = p.species ∧ m.index < p.nextIndex)
    (h : ∀ p ∈ ps, ∀ m ∈ p.members.values, ReadsIff (m.form.read c) (c.Knows m) (m, [])) :
    ReadsIff (readPopulations c (ps.map Population.form))
      (∀ p ∈ ps, c.vocabulary.isSpecies p.species = true ∧ ∀ m ∈ p.members.values, c.Knows m)
      (ps, []) := by
  induction ps with
  | nil => exact ReadsIff.ok.congr (by simp)
  | cons p ps ih =>
    obtain ⟨htp, htps⟩ := List.forall_mem_cons.mp ht
    obtain ⟨hhp, hhps⟩ := List.forall_mem_cons.mp hh
    obtain ⟨hp, hps⟩ := List.forall_mem_cons.mp h
    rw [List.map_cons, Population.form, readPopulations]
    simp only [List.forall_mem_cons, and_assoc]
    refine (Context.checkSpecies_iff p.species).bind ((readMembers_map hhp hp).bind
      ((ih htps hhps hps).andThen ?_))
    show Except.ok
      (p.members.values.foldl Population.insert (.counting p.species p.nextIndex) :: ps, _) = _
    rw [htp.toSorted.foldl_insert fun m hm => (hhp m hm).2]
    rfl

/-- Populations of distinct species are put back in their order. -/
theorem Entity.foldl_setPopulation {e : Entity} (h : e.populations.Indexed Population.species) :
    e.populations.values.foldl setPopulation { e with populations := .empty } = e := by
  obtain ⟨species, index, as, populations⟩ := e
  have hfold (ps : List (Population Entity)) (t : Table String (Population Entity)) :
      ps.foldl setPopulation ⟨species, index, as, t⟩ =
        ⟨species, index, as, ps.foldl (fun t p => t.set p.species p) t⟩ := by
    induction ps generalizing t with
    | nil => rfl
    | cons p ps ih => exact ih _
  rw [hfold, h.foldl_set]

/-- **A tree reads back from its form exactly if the context knows it.** -/
theorem Entity.read_form {e : Entity} (ht : e.Tidy) (hh : e.Housed) :
    ReadsIff (e.form.read c) (c.Knows e) (e, []) := by
  induction e with
  | owner e ih =>
    obtain ⟨⟨hn, hv⟩, hs, hp⟩ := tidy_iff.mp ht
    have hps := readPopulations_map (c := c) hp hh.here fun p h m hm =>
      ih p h m hm ((hp p h).members m hm) (hh.member h hm)
    rw [form_eq, EntityForm.read]
    refine ReadsIff.congr ?_ (Context.knows_iff fun p h m hm => (hh.here p h m hm).1).symm
    refine (Context.checkSpecies_iff e.species).bind ((readAttributes_map hv).bind
      (hps.andThen ?_))
    show Except.ok (e.populations.values.foldl setPopulation
      ⟨e.species, e.index, Table.ofList e.attributes.entries, .empty⟩, _) = _
    rw [Table.ofList_eq hn]
    exact congrArg (fun e => Except.ok (e, [])) (foldl_setPopulation hs)

end Rewind
