import Mathlib.Data.List.ReduceOption
import Rewind.Proofs.HeldValue

/-! Entities in full.

A document has an entity in full as a value, or as a member of one that it has in full.
Where a value names an entity, its document has the address exactly if it has had the
entity in full by then, on either way. That is not enough to have each in full only once:
an entity that is named before its owner is written with the owner again. Each is in full
at most once exactly if owners are named first (`Document.nodup_inFull_iff`). -/

namespace Rewind

/-! ### What a form has in full -/

mutual

/-- The entities that a form has in full as values, be it in the attributes of others. -/
def ValueForm.fulls : ValueForm → List EntityForm
  | .full _ e => e :: e.fulls
  | .list _ items => itemFulls items
  | .map _ _ _ entries => entryFulls entries
  | .nil | .bool _ | .int _ | .float _ | .str _ | .type _ | .context _ | .shape _
  | .reference _ => []
termination_by structural f => f

def itemFulls : List ValueForm → List EntityForm
  | [] => []
  | f :: fs => f.fulls ++ itemFulls fs
termination_by structural fs => fs

def entryFulls : List (ValueForm × ValueForm) → List EntityForm
  | [] => []
  | (k, v) :: fs => k.fulls ++ v.fulls ++ entryFulls fs
termination_by structural fs => fs

def EntityForm.fulls : EntityForm → List EntityForm
  | .mk _ _ as ps => attributeFulls as ++ populationFulls ps
termination_by structural e => e

def attributeFulls : List (String × ValueForm) → List EntityForm
  | [] => []
  | (_, f) :: as => f.fulls ++ attributeFulls as
termination_by structural as => as

def populationFulls : List (PopulationForm EntityForm) → List EntityForm
  | [] => []
  | ⟨_, _, ms⟩ :: ps => memberFulls ms ++ populationFulls ps
termination_by structural ps => ps

def memberFulls : List EntityForm → List EntityForm
  | [] => []
  | e :: es => e.fulls ++ memberFulls es
termination_by structural es => es

end

mutual

/-- The addresses of an entity in full that stands at `here`, and of its members. -/
def EntityForm.addresses (here : Address) : EntityForm → List Address
  | .mk _ _ _ ps => here :: populationFormAddresses here ps
termination_by structural e => e

def populationFormAddresses (here : Address) : List (PopulationForm EntityForm) → List Address
  | [] => []
  | ⟨species, _, ms⟩ :: ps =>
    memberFormAddresses here species ms ++ populationFormAddresses here ps
termination_by structural ps => ps

def memberFormAddresses (here : Address) (species : String) : List EntityForm → List Address
  | [] => []
  | e :: es =>
    e.addresses (here.child species e.index) ++ memberFormAddresses here species es
termination_by structural es => es

end

mutual

/-- All that a form has in full it has outside of others or inside of those. -/
theorem ValueForm.fulls_eq : ∀ f : ValueForm,
    f.fulls = f.outer.reduceOption.flatMap fun e => e :: e.fulls
  | .full _ _ => (List.append_nil _).symm
  | .list _ items => itemFulls_eq items
  | .map _ _ _ entries => entryFulls_eq entries
  | .nil | .bool _ | .int _ | .float _ | .str _ | .type _ | .context _ | .shape _
  | .reference _ => rfl
termination_by structural f => f

theorem itemFulls_eq : ∀ fs : List ValueForm,
    itemFulls fs = (itemsOuter fs).reduceOption.flatMap fun e => e :: e.fulls
  | [] => rfl
  | f :: fs => by
    rw [itemFulls, itemsOuter, f.fulls_eq, itemFulls_eq fs, List.reduceOption_append,
      List.flatMap_append]
termination_by structural fs => fs

theorem entryFulls_eq : ∀ fs : List (ValueForm × ValueForm),
    entryFulls fs = (entriesOuter fs).reduceOption.flatMap fun e => e :: e.fulls
  | [] => rfl
  | (k, v) :: fs => by
    rw [entryFulls, entriesOuter, k.fulls_eq, v.fulls_eq, entryFulls_eq fs,
      List.reduceOption_append, List.reduceOption_append, List.flatMap_append,
      List.flatMap_append]
termination_by structural fs => fs

end

/-! ### Forms of trees -/

mutual

theorem Value.fulls_form : ∀ v : Value, v.form.fulls = []
  | .list _ items => itemFulls_itemForms items
  | .map _ _ _ entries => entryFulls_entryForms entries
  | .nil | .bool _ | .int _ | .float _ | .str _ | .type _ | .context _ | .shape _
  | .entity _ => rfl
termination_by structural v => v

theorem itemFulls_itemForms : ∀ vs : List Value, itemFulls (itemForms vs) = []
  | [] => rfl
  | v :: vs => by rw [itemForms, itemFulls, v.fulls_form, itemFulls_itemForms vs]; rfl
termination_by structural vs => vs

theorem entryFulls_entryForms : ∀ es : List (Value × Value), entryFulls (entryForms es) = []
  | [] => rfl
  | (k, v) :: es => by
    rw [entryForms, entryFulls, k.fulls_form, v.fulls_form, entryFulls_entryForms es]; rfl
termination_by structural es => es

end

theorem attributeFulls_map (as : List (String × Value)) :
    attributeFulls (as.map fun a => (a.1, a.2.form)) = [] := by
  induction as with
  | nil => rfl
  | cons a as ih => rw [List.map_cons, attributeFulls, Value.fulls_form, ih]; rfl

mutual

/-- In a tree entities are in full as members only. -/
theorem Entity.fulls_form : ∀ e : Entity, e.form.fulls = []
  | ⟨_, _, as, ⟨ps⟩⟩ => by
    rw [Entity.form, EntityForm.fulls, attributeFulls_map, populationFulls_populationForms ps]; rfl
termination_by structural e => e

theorem populationFulls_populationForms : ∀ ps : List (String × Population Entity),
    populationFulls (populationForms ps) = []
  | [] => rfl
  | (_, ⟨_, _, ⟨ms⟩⟩) :: ps => by
    rw [populationForms, populationFulls, memberFulls_memberForms ms,
      populationFulls_populationForms ps]
    rfl
termination_by structural ps => ps

theorem memberFulls_memberForms : ∀ ms : List (UInt32 × Entity),
    memberFulls (memberForms ms) = []
  | [] => rfl
  | (_, m) :: ms => by rw [memberForms, memberFulls, m.fulls_form, memberFulls_memberForms ms]; rfl
termination_by structural ms => ms

end

mutual

theorem Entity.addresses_form (here : Address) : ∀ e : Entity,
    e.form.addresses here = e.addresses here
  | ⟨_, _, _, ⟨ps⟩⟩ => by
    rw [Entity.form, EntityForm.addresses, Entity.addresses,
      populationFormAddresses_populationForms here ps]
termination_by structural e => e

theorem populationFormAddresses_populationForms (here : Address) :
    ∀ ps : List (String × Population Entity),
      populationFormAddresses here (populationForms ps) = Entity.populationAddresses here ps
  | [] => rfl
  | (_, ⟨species, _, ⟨ms⟩⟩) :: ps => by
    rw [populationForms, populationFormAddresses, Entity.populationAddresses,
      memberFormAddresses_memberForms here species ms,
      populationFormAddresses_populationForms here ps]
termination_by structural ps => ps

theorem memberFormAddresses_memberForms (here : Address) (species : String) :
    ∀ ms : List (UInt32 × Entity),
      memberFormAddresses here species (memberForms ms) = Entity.memberAddresses here species ms
  | [] => rfl
  | (_, m) :: ms => by
    rw [memberForms, memberFormAddresses, Entity.memberAddresses, m.index_form,
      Entity.addresses_form _ m, memberFormAddresses_memberForms here species ms]
termination_by structural ms => ms

end

/-! ### Values -/

/-- The entities that a value names, in reading order, each with what stands for it in a
form of the value: the entity in full, or nothing but its address. -/
def Value.named (v : Value) (f : ValueForm) : List (Address × Option EntityForm) :=
  v.links.zip f.outer

/-- The addresses of the entities in full, and of their members. -/
def inFull (named : List (Address × Option EntityForm)) : List Address :=
  named.flatMap fun n => n.2.elim [] (·.addresses n.1)

namespace Entity
variable {root : Entity} {earlier as : List Address}

theorem length_marks (root : Entity) (earlier as : List Address) :
    (root.marks earlier as).length = as.length := by
  induction as generalizing earlier with
  | nil => rfl
  | cons a as ih =>
    rw [marks]
    split
    · rw [List.length_cons, List.length_cons, ih]
    · rw [List.length_cons, List.length_cons, ih]

/-- In full are the tops and what is below them. -/
theorem inFull_marks (root : Entity) (earlier as : List Address) :
    inFull (as.zip (root.marks earlier as)) = root.subtrees (Address.tops earlier as) := by
  induction as generalizing earlier with
  | nil => rfl
  | cons a as ih =>
    rw [marks]
    by_cases h : ∃ o ∈ earlier, o.Covers a
    · rw [if_pos h, Address.tops_cons_of_covered h, ← ih]
      rfl
    · rw [if_neg h, Address.tops_cons_of_not_covered h, subtrees, List.flatMap_cons]
      show inFull ((a, _) :: _) = _ ++ root.subtrees _
      rw [← ih, inFull, List.flatMap_cons, subtree]
      cases root.at? a with
      | none => rfl
      | some e => exact congrArg (· ++ _) (e.addresses_form a)

/-- Whether a link stands for an entity in full is up to the tops before it. -/
theorem zip_marks_eq_append_cons {a : Address} {o : Option EntityForm}
    {before after : List (Address × Option EntityForm)}
    (h : as.zip (root.marks earlier as) = before ++ (a, o) :: after) :
    ∃ first rest, as = first ++ a :: rest ∧ before = first.zip (root.marks earlier first) ∧
      o = if ∃ t ∈ earlier ++ Address.tops earlier first, t.Covers a then none
        else (root.at? a).map form := by
  have has : as = before.map Prod.fst ++ a :: after.map Prod.fst := by
    have hfst := congrArg (List.map Prod.fst) h
    rwa [List.map_fst_zip (root.length_marks earlier as).ge, List.map_append, List.map_cons] at hfst
  rw [has, marks_append, List.zip_append (root.length_marks _ _).symm] at h
  obtain ⟨hbefore, hrest⟩ := List.append_inj h (by simp [length_marks])
  refine ⟨_, _, has, hbefore.symm, ?_⟩
  rw [marks] at hrest
  split at hrest
  · next hc =>
    rw [if_pos hc]
    exact ((Prod.mk.inj (List.cons.inj hrest).1).2).symm
  · next hc =>
    rw [if_neg hc]
    exact ((Prod.mk.inj (List.cons.inj hrest).1).2).symm

end Entity

variable {root : Entity} {v : Value} {f : ValueForm}

namespace Value.PortrayedBy

theorem length_outer (h : v.PortrayedBy root [] f) : f.outer.length = v.links.length := by
  rw [h.outer, Entity.length_marks]

theorem named_eq (h : v.PortrayedBy root [] f) :
    v.named f = v.links.zip (root.marks [] v.links) := by
  rw [named, h.outer]

/-- What stands for a link in full is the form of the entity that it leads to. -/
theorem eq_form (h : v.PortrayedBy root [] f) {a : Address} {e : EntityForm}
    (ha : (a, some e) ∈ v.named f) : ∃ t, root.at? a = some t ∧ e = t.form := by
  obtain ⟨before, after, heq⟩ := List.append_of_mem ha
  rw [h.named_eq] at heq
  obtain ⟨first, rest, -, -, ho⟩ := Entity.zip_marks_eq_append_cons heq
  split at ho
  · cases ho
  · obtain ⟨t, hat, he⟩ := Option.map_eq_some_iff.mp ho.symm
    exact ⟨t, hat, he.symm⟩

/-- Nothing is in full inside of what is. -/
theorem fulls_eq (h : v.PortrayedBy root [] f) : f.fulls = f.outer.reduceOption := by
  have hfulls : ∀ e ∈ f.outer.reduceOption, e :: e.fulls = [e] := fun e he => by
    have hmem : some e ∈ (v.named f).map Prod.snd := by
      rw [named, List.map_snd_zip h.length_outer.le]
      exact List.reduceOption_mem_iff.mp he
    obtain ⟨⟨a, _⟩, ha, rfl⟩ := List.mem_map.mp hmem
    obtain ⟨t, -, rfl⟩ := h.eq_form ha
    rw [t.fulls_form]
  rw [f.fulls_eq, List.flatMap_congr hfulls]
  exact List.flatMap_singleton' _

theorem eq_none_iff (h : v.PortrayedBy root [] f) (ht : root.Tidy)
    (hres : ∀ a ∈ v.links, root.Resolves a) {a : Address} {o : Option EntityForm}
    {before after : List (Address × Option EntityForm)}
    (heq : v.named f = before ++ (a, o) :: after) : o = none ↔ a ∈ inFull before := by
  rw [h.named_eq] at heq
  obtain ⟨first, rest, hlinks, rfl, rfl⟩ := Entity.zip_marks_eq_append_cons heq
  have ha : root.Resolves a := hres a (by rw [hlinks]; simp)
  obtain ⟨t, hat⟩ := Entity.resolves_iff.mp ha
  rw [root.inFull_marks, Entity.mem_subtrees ht.sorted ha, List.nil_append, hat]
  by_cases hc : ∃ t ∈ Address.tops [] first, t.Covers a
  · exact iff_of_true (if_pos hc) hc
  · rw [if_neg hc]
    exact iff_of_false nofun hc

end Value.PortrayedBy

/-- **What the document of a value has in full.** Each entity that the value names is in
full, as it is, or named by its address; the latter exactly if it has been in full before,
by itself or inside of another. No other entities are in full. None is in full twice
exactly if owners are named first. -/
theorem Document.nodup_inFull_iff (ht : root.Tidy)
    (h : Document.ofHeldValue root v = .ok (.ofValue f)) :
    f.outer.length = v.links.length ∧
    (∀ a e, (a, some e) ∈ v.named f → ∃ t, root.at? a = some t ∧ e = t.form) ∧
    f.fulls = f.outer.reduceOption ∧
    (∀ before a o after, v.named f = before ++ (a, o) :: after → (o = none ↔ a ∈ inFull before)) ∧
    ((inFull (v.named f)).Nodup ↔ Address.OwnersFirst v.links) := by
  obtain ⟨hres, hportrays⟩ := portrayedBy_of_ofHeldValue ht h
  refine ⟨hportrays.length_outer, fun a e => hportrays.eq_form, hportrays.fulls_eq,
    fun before a o after => hportrays.eq_none_iff ht hres, ?_⟩
  rw [hportrays.named_eq, root.inFull_marks, Entity.nodup_subtrees_tops ht hres]

theorem Document.nodup_inFull_iff_brood :
    ∃ f, Document.ofHeldValue Sample.brood
        (.linkList (.simple "agent") [Sample.ant 0, Sample.egg, Sample.ant 0]) = .ok (.ofValue f) ∧
      (inFull ((Value.linkList (.simple "agent")
        [Sample.ant 0, Sample.egg, Sample.ant 0]).named f)).Nodup := by
  have ht := Sample.built_brood.tidy
  have hlinks : ∀ a ∈ (Value.linkList (.simple "agent")
      [Sample.ant 0, Sample.egg, Sample.ant 0]).links, Sample.brood.Resolves a := by decide
  obtain ⟨f, hf, -⟩ := ofHeldValue_of_resolves ht hlinks
  obtain ⟨-, -, -, -, hnodup⟩ := nodup_inFull_iff ht hf
  exact ⟨f, hf, hnodup.mpr (by decide)⟩

/-- An egg that is named before the ant that it belongs to is in full twice. -/
theorem Document.not_nodup_inFull_egg :
    Sample.brood.Built ∧
    ∃ f, Document.ofHeldValue Sample.brood
        (.linkList (.simple "agent") [Sample.egg, Sample.ant 0]) = .ok (.ofValue f) ∧
      ¬ (inFull ((Value.linkList (.simple "agent") [Sample.egg, Sample.ant 0]).named f)).Nodup :=
  ⟨Sample.built_brood, _, rfl, by decide⟩

end Rewind
