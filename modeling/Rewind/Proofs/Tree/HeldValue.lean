import Rewind.Proofs.Tree.Covers
import Rewind.Proofs.Tree.Decoded

/-! Values written on their own.

A value names entities by `links`. Written on its own it has an entity in full for every
top of its links and addresses for the others; where links lead nowhere it is not written,
and the first of them is named. Read in a context that knows it, it is the same value, and
the entities at the tops arrive with it. All of that is kept by one pass over the value,
whatever has been written before (`Value.writesItself`). -/

namespace Rewind

/-! ### Links -/

/-- The entities that a value names, in reading order. -/
def Value.links (v : Value) : List Address := v.parts.filterMap asEntity?

namespace Value

theorem links_list (content : TypeExpr) (items : List Value) :
    (list content items).links = items.flatMap links := by
  rw [links, parts, itemParts_eq_flatMap, List.filterMap_cons_none rfl, List.filterMap_flatMap]
  rfl

theorem links_map (key content : TypeExpr) (ordered : Bool) (entries : List (Value × Value)) :
    (map key content ordered entries).links = entries.flatMap fun e => e.1.links ++ e.2.links := by
  rw [links, parts, List.filterMap_cons_none rfl]
  induction entries with
  | nil => rfl
  | cons e es ih => rw [entryParts, List.filterMap_append, List.filterMap_append, ih]; rfl

theorem links_entity (a : Address) : (entity a).links = [a] := rfl

theorem holds_of_mem_links {v : Value} {a : Address} (h : a ∈ v.links) : v.Holds a := by
  induction v with
  | list content items ih =>
    rw [links_list] at h
    obtain ⟨v, hv, h⟩ := List.mem_flatMap.mp h
    exact .item hv (ih v hv h)
  | map key content ordered entries ih =>
    rw [links_map] at h
    obtain ⟨e, he, h⟩ := List.mem_flatMap.mp h
    rcases List.mem_append.mp h with h | h
    · exact .key he ((ih e he).1 h)
    · exact .value he ((ih e he).2 h)
  | entity b =>
    rw [List.mem_singleton.mp h]
    exact .entity b
  | _ => cases h

/-- The list of links to some entities. -/
def linkList (content : TypeExpr) (as : List Address) : Value := .list content (as.map .entity)

variable {c : Context} {content : TypeExpr} {as : List Address} {a : Address}

theorem links_linkList : (linkList content as).links = as := by
  rw [linkList, links_list, List.flatMap_map]
  exact List.flatMap_singleton' as

theorem holds_linkList : (linkList content as).Holds a ↔ a ∈ as := by
  rw [← mem_references, linkList, references, itemReferences_eq_flatMap, List.flatMap_map]
  simp [references]

theorem soundValue_linkList (h : c.Registers content) : c.SoundValue (linkList content as) := by
  refine .list h fun v hv => ?_
  obtain ⟨a, -, rfl⟩ := List.mem_map.mp hv
  exact .plain rfl rfl

end Value

/-! ### Entities in a form -/

mutual

/-- The entities that a form names outside of all others, in order: those in full, and
nothing for each that is named by its address. -/
def ValueForm.outer : ValueForm → List (Option EntityForm)
  | .full _ e => [some e]
  | .reference _ => [none]
  | .list _ items => itemsOuter items
  | .map _ _ _ entries => entriesOuter entries
  | .nil | .bool _ | .int _ | .float _ | .str _ | .type _ | .context _ | .shape _ => []
termination_by structural f => f

def itemsOuter : List ValueForm → List (Option EntityForm)
  | [] => []
  | f :: fs => f.outer ++ itemsOuter fs
termination_by structural fs => fs

def entriesOuter : List (ValueForm × ValueForm) → List (Option EntityForm)
  | [] => []
  | (k, v) :: fs => k.outer ++ v.outer ++ entriesOuter fs
termination_by structural fs => fs

end

/-- What a form has for some links: the entity in full at the tops. -/
def Entity.marks (root : Entity) (earlier : List Address) : List Address → List (Option EntityForm)
  | [] => []
  | a :: as =>
    if ∃ o ∈ earlier, o.Covers a then none :: root.marks earlier as
    else (root.at? a).map Entity.form :: root.marks (earlier ++ [a]) as

theorem Entity.marks_append (root : Entity) (earlier as bs : List Address) :
    root.marks earlier (as ++ bs) =
      root.marks earlier as ++ root.marks (earlier ++ Address.tops earlier as) bs := by
  induction as generalizing earlier with
  | nil => simp [marks, Address.tops]
  | cons a as ih =>
    rw [List.cons_append, marks, marks]
    by_cases h : ∃ o ∈ earlier, o.Covers a
    · rw [if_pos h, if_pos h, ih, Address.tops_cons_of_covered h, List.cons_append]
    · rw [if_neg h, if_neg h, ih, Address.tops_cons_of_not_covered h, List.cons_append,
        List.append_assoc, List.singleton_append]

/-! ### What comes of writing -/

/-- The outcome of writing something with some links after others: a form that is `good`,
and the subtrees written so far, or the first link that leads nowhere. -/
def Writes {α : Type} (root : Entity) (earlier links : List Address) (good : α → Prop) :
    Except EncodeError (α × List Address) → Prop
  | .ok (f, written) =>
    (∀ a ∈ links, root.Resolves a) ∧
      written = root.subtrees (earlier ++ Address.tops earlier links) ∧ good f
  | .error e => ∃ before a after, links = before ++ a :: after ∧ (∀ b ∈ before, root.Resolves b) ∧
      ¬ root.Resolves a ∧ e = .dangling a

namespace Writes
variable {α β : Type} {root : Entity} {earlier links links' : List Address} {good : α → Prop}
  {good' : β → Prop} {r : Except EncodeError (α × List Address)}

theorem ok {f : α} (h : good f) : Writes root earlier [] good (.ok (f, root.subtrees earlier)) :=
  ⟨List.forall_mem_nil _, by rw [Address.tops, List.append_nil], h⟩

theorem bind {g : α × List Address → Except EncodeError (β × List Address)}
    (h : Writes root earlier links good r)
    (hg : ∀ f, good f → Writes root (earlier ++ Address.tops earlier links) links' good'
      (g (f, root.subtrees (earlier ++ Address.tops earlier links)))) :
    Writes root earlier (links ++ links') good' (r >>= g) := by
  cases r with
  | error e =>
    obtain ⟨before, a, after, rfl, hbefore, ha, he⟩ := h
    exact ⟨before, a, after ++ links', by simp, hbefore, ha, he⟩
  | ok x =>
    obtain ⟨f, written⟩ := x
    obtain ⟨hlinks, rfl, hf⟩ := h
    have hnext := hg f hf
    show Writes root earlier (links ++ links') good' (g (f, _))
    cases hr : g (f, root.subtrees (earlier ++ Address.tops earlier links)) with
    | error e =>
      rw [hr] at hnext
      obtain ⟨before, a, after, rfl, hbefore, ha, he⟩ := hnext
      refine ⟨links ++ before, a, after, by simp, ?_, ha, he⟩
      exact fun b hb => (List.mem_append.mp hb).elim (hlinks b) (hbefore b)
    | ok y =>
      rw [hr] at hnext
      obtain ⟨hlinks', hwritten, hgood⟩ := hnext
      refine ⟨fun b hb => (List.mem_append.mp hb).elim (hlinks b) (hlinks' b), ?_, hgood⟩
      rw [hwritten, Address.tops_append, List.append_assoc]

/-- What is made of the form without failing. -/
theorem map {g : α → β} (h : Writes root earlier links good r) (hg : ∀ f, good f → good' (g f)) :
    Writes root earlier links good' (r >>= fun x => .ok (g x.1, x.2)) := by
  have hbind := h.bind (g := fun x => .ok (g x.1, x.2)) fun f hf => ok (hg f hf)
  rwa [List.append_nil] at hbind

end Writes

/-! ### Forms of values of their own -/

/-- A form of something with some links: it has in full what is at the tops of them, and
reads as the thing, and the entities at the tops arrive with it. -/
structure Portrays {α : Type} (root : Entity) (earlier links : List Address)
    (outer : List (Option EntityForm)) (read : Context → Except DecodeError (α × List Arrival))
    (known : Context → Prop) (a : α) : Prop where
  outer : outer = root.marks earlier links
  read : ∀ c, c.Sound (· < ·) root → known c →
    read c = .ok (a, root.arrivals (Address.tops earlier links))

variable {root : Entity}

theorem Entity.arrivals_append (root : Entity) (as bs : List Address) :
    root.arrivals (as ++ bs) = root.arrivals as ++ root.arrivals bs :=
  List.filterMap_append

/-- A form of a value, written after others. -/
def Value.PortrayedBy (root : Entity) (earlier : List Address) (v : Value) (f : ValueForm) : Prop :=
  Portrays root earlier v.links f.outer f.read (·.SoundValue v) v

/-- A value is written as itself after any others. -/
def Value.WritesItself (root : Entity) (v : Value) : Prop :=
  ∀ earlier, Writes root earlier v.links (v.PortrayedBy root earlier)
    (v.fullForm root (root.subtrees earlier))

theorem writes_itemFullForms {vs : List Value} (h : ∀ v ∈ vs, v.WritesItself root)
    (earlier : List Address) :
    Writes root earlier (vs.flatMap Value.links)
      (fun fs => Portrays root earlier (vs.flatMap Value.links) (itemsOuter fs)
        (fun c => readItems c fs) (fun c => ∀ v ∈ vs, c.SoundValue v) vs)
      (itemFullForms root (root.subtrees earlier) vs) := by
  induction vs generalizing earlier with
  | nil => exact .ok ⟨rfl, fun c _ _ => rfl⟩
  | cons v vs ih =>
    obtain ⟨hv, hvs⟩ := List.forall_mem_cons.mp h
    refine (hv earlier).bind fun f hf => (ih hvs _).map fun fs hfs => ⟨?_, fun c hc hknown => ?_⟩
    · rw [itemsOuter, hf.outer, hfs.outer, ← root.marks_append]
      rfl
    · obtain ⟨hkv, hkvs⟩ := List.forall_mem_cons.mp hknown
      rw [readItems, hf.read c hc hkv, hfs.read c hc hkvs, List.flatMap_cons, Address.tops_append,
        root.arrivals_append]
      rfl

theorem writes_entryFullForms {es : List (Value × Value)}
    (h : ∀ e ∈ es, e.1.WritesItself root ∧ e.2.WritesItself root) (earlier : List Address) :
    Writes root earlier (es.flatMap fun e => e.1.links ++ e.2.links)
      (fun fs => Portrays root earlier (es.flatMap fun e => e.1.links ++ e.2.links)
        (entriesOuter fs) (fun c => readEntries c fs)
        (fun c => ∀ e ∈ es, c.SoundValue e.1 ∧ c.SoundValue e.2) es)
      (entryFullForms root (root.subtrees earlier) es) := by
  induction es generalizing earlier with
  | nil => exact .ok ⟨rfl, fun c _ _ => rfl⟩
  | cons e es ih =>
    obtain ⟨⟨hk, hv⟩, hes⟩ := List.forall_mem_cons.mp h
    rw [List.flatMap_cons, List.append_assoc]
    refine (hk earlier).bind fun fk hfk => (hv _).bind fun fv hfv => (ih hes _).map fun fs hfs =>
      ⟨?_, fun c hc hknown => ?_⟩
    · rw [entriesOuter, hfk.outer, hfv.outer, hfs.outer, List.append_assoc, ← root.marks_append,
        ← root.marks_append]
    · obtain ⟨⟨hkk, hkv⟩, hkes⟩ := List.forall_mem_cons.mp hknown
      rw [readEntries, hfk.read c hc hkk, hfv.read c hc hkv, hfs.read c hc hkes,
        Address.tops_append, Address.tops_append, root.arrivals_append, root.arrivals_append,
        ← List.append_assoc]
      rfl

/-- A link that is covered is written as its address, any other with what is there. -/
theorem Value.writesItself_entity (hsorted : root.Everywhere Entity.Sorted) (a : Address) :
    (entity a).WritesItself root := by
  intro earlier
  rw [fullForm, links_entity]
  cases he : root.at? a with
  | none =>
    have hr : ¬ root.Resolves a := by simp [Entity.Resolves, he]
    -- What has been written is there, so a link that leads nowhere has not been.
    have hnot : a ∉ root.subtrees earlier := fun h => by
      obtain ⟨o, _, ha⟩ := List.mem_flatMap.mp h
      exact hr ((Entity.mem_subtree hsorted).mp ha).2
    rw [if_neg hnot]
    exact ⟨[], a, [], rfl, List.forall_mem_nil _, hr, rfl⟩
  | some e =>
    have hr : root.Resolves a := Entity.resolves_iff.mpr ⟨e, he⟩
    by_cases hc : ∃ o ∈ earlier, o.Covers a
    · rw [if_pos ((Entity.mem_subtrees hsorted hr).mpr hc)]
      have htops : Address.tops earlier [a] = [] := Address.tops_cons_of_covered hc
      refine ⟨by simpa using hr, by rw [htops, List.append_nil], ?_, fun c _ _ => ?_⟩
      · rw [links_entity, Entity.marks, if_pos hc]
        rfl
      · rw [ValueForm.read, Address.read_form, links_entity, htops]
        rfl
    · rw [if_neg (mt (Entity.mem_subtrees hsorted hr).mp hc)]
      have htops : Address.tops earlier [a] = [a] := Address.tops_cons_of_not_covered hc
      refine ⟨by simpa using hr, ?_, ?_, fun c hc _ => ?_⟩
      · show root.subtrees earlier ++ e.addresses a = (earlier ++ _).flatMap root.subtree
        rw [htops, List.flatMap_append, List.flatMap_singleton, Entity.subtree, he]
        rfl
      · rw [links_entity, Entity.marks, if_neg hc, he]
        rfl
      · have hsound : c.Sound (· < ·) e := hc.follow he
        rw [ValueForm.read, readOwner_form, (Entity.read_form hsound.tidy hsound.lodged).1
          hsound.known, links_entity, htops, Entity.arrivals, List.filterMap_cons, he]
        show Except.ok (Value.entity (e.arrival a).address, _) = _
        rw [hc.address_arrival he]
        rfl

/-- **A value is written as what it is.** The form has in full what the tops of the links
are, and reads as the value, after which the entities at the tops arrive. Where a link
leads nowhere there is no form, and the first such link is named. -/
theorem Value.writesItself (hsorted : root.Everywhere Entity.Sorted) (v : Value) :
    v.WritesItself root := by
  induction v with
  | list content items ih =>
    intro earlier
    rw [fullForm, links_list]
    refine (writes_itemFullForms ih earlier).map fun fs hfs => ⟨?_, fun c hc hknown => ?_⟩
    · rw [links_list]
      exact hfs.outer
    · obtain ⟨hcontent, hitems⟩ := Context.knowsValue_list.mp hknown.2
      have hread := hfs.read c hc fun v hv => ⟨tidy_list.mp hknown.1 v hv, hitems v hv⟩
      rw [ValueForm.read, (Context.checkType_iff content).1 hcontent, hread, links_list]
      rfl
  | map key content ordered entries ih =>
    intro earlier
    rw [fullForm, links_map]
    refine (writes_entryFullForms ih earlier).map fun fs hfs => ⟨?_, fun c hc hknown => ?_⟩
    · rw [links_map]
      exact hfs.outer
    · obtain ⟨hkey, hcontent, hentries⟩ := Context.knowsValue_map.mp hknown.2
      obtain ⟨hdistinct, htidy⟩ := tidy_map.mp hknown.1
      have hread := hfs.read c hc fun e he =>
        ⟨⟨(htidy e he).1, (hentries e he).1⟩, ⟨(htidy e he).2, (hentries e he).2⟩⟩
      rw [ValueForm.read, (Context.checkType_iff key).1 hkey,
        (Context.checkType_iff content).1 hcontent, hread, links_map]
      show Except.ok (map key content ordered (Entries.ofList entries), _) = _
      rw [Entries.ofList_eq hdistinct]
  | type t =>
    refine fun earlier => .ok ⟨rfl, fun c hc hknown => ?_⟩
    rw [ValueForm.read, (Context.checkType_iff t).1 (Context.knowsValue_type.mp hknown.2)]
    rfl
  | shape s =>
    refine fun earlier => .ok ⟨rfl, fun c hc hknown => ?_⟩
    rw [ValueForm.read, Shape.read_form]
    rfl
  | entity a => exact writesItself_entity hsorted a
  | _ => exact fun earlier => .ok ⟨rfl, fun c _ _ => rfl⟩

namespace Document
variable {v : Value}

/-- Whether a value can be written is up to its links. -/
theorem ofHeldValue_of_resolves (ht : root.Tidy) (h : ∀ a ∈ v.links, root.Resolves a) :
    ∃ f, ofHeldValue root v = .ok (.ofValue f) ∧ v.PortrayedBy root [] f := by
  have hwrites := v.writesItself ht.sorted []
  rw [ofHeldValue]
  show ∃ f, (v.fullForm root (root.subtrees []) >>= _) = _ ∧ _
  cases hform : v.fullForm root (root.subtrees []) with
  | error e =>
    rw [hform] at hwrites
    obtain ⟨before, a, after, heq, -, ha, -⟩ := hwrites
    exact absurd (h a (by rw [heq]; simp)) ha
  | ok x =>
    rw [hform] at hwrites
    exact ⟨x.1, rfl, hwrites.2.2⟩

theorem portrayedBy_of_ofHeldValue {f : ValueForm} (ht : root.Tidy)
    (h : ofHeldValue root v = .ok (.ofValue f)) :
    (∀ a ∈ v.links, root.Resolves a) ∧ v.PortrayedBy root [] f := by
  have hwrites := v.writesItself ht.sorted []
  obtain ⟨⟨f', _⟩, hform, hof⟩ := bind_eq_ok.mp h
  cases hof
  rw [Entity.subtrees, List.flatMap_nil, hform] at hwrites
  exact ⟨hwrites.1, hwrites.2.2⟩

end Document
end Rewind
