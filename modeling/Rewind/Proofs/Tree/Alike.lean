import Rewind.Proofs.Tree.Agreement
import Rewind.Proofs.Tree.Edits
import Rewind.Proofs.Table

/-! Trees that agree, and what agreement does not look at.

Trees agree when a model would call them equal. Attributes and populations are looked up by name
for that, so the order in which they came makes no difference, and neither does the sign of a zero.
Nothing else is overlooked: trees that agree and are arranged alike are the same tree
(`Entity.eq_of_agrees`). A document shows both, as different trees in which all is under its own
species and indices have different documents (`Entity.eq_of_form_eq`). -/

namespace Rewind

/-! ### Zeros -/

/-- Numbers are told by what they are without the signs of zeros, and by the zeros among them. What
comes after the zeros is told as well. -/
theorem Binary64.eq_of_zeros {xs ys rest rest' : List Binary64}
    (h : xs.map unsigned = ys.map unsigned)
    (hzeros : xs.filter isZero ++ rest = ys.filter isZero ++ rest') : xs = ys ∧ rest = rest' := by
  induction xs generalizing ys with
  | nil =>
    cases List.map_eq_nil_iff.mp h.symm
    exact ⟨rfl, hzeros⟩
  | cons x xs ih =>
    obtain _ | ⟨y, ys⟩ := ys
    · cases h
    obtain ⟨hxy, hrest⟩ := List.cons.inj h
    by_cases hx : x.isZero = true
    · have hy : y.isZero = true := isZero_of_unsigned_eq hx hxy
      rw [List.filter_cons_of_pos hx, List.filter_cons_of_pos hy] at hzeros
      obtain ⟨rfl, hbehind⟩ := List.cons.inj hzeros
      obtain ⟨rfl, hafter⟩ := ih hrest hbehind
      exact ⟨rfl, hafter⟩
    · have hy : ¬ y.isZero = true := fun hy => hx (isZero_of_unsigned_eq hy hxy.symm)
      rw [List.filter_cons_of_neg hx, List.filter_cons_of_neg hy] at hzeros
      obtain ⟨rfl, hafter⟩ := ih hrest hzeros
      rw [unsigned, unsigned, if_neg hx, if_neg hy] at hxy
      exact ⟨by rw [hxy], hafter⟩

namespace Shape
variable {s t : Shape}

theorem numbers_map_unsigned (s : Shape) :
    s.numbers.map Binary64.unsigned = s.unsigned.numbers := by
  obtain ⟨kind, points, depth, owner⟩ := s
  cases depth <;>
    simp [numbers, unsigned, List.map_flatMap, List.flatMap_map, Point.numbers, Point.unsigned]

theorem points_eq {ps qs : List Point} {rest rest' : List Binary64}
    (hlength : ps.length = qs.length)
    (h : ps.flatMap Point.numbers ++ rest = qs.flatMap Point.numbers ++ rest') :
    ps = qs ∧ rest = rest' := by
  induction ps generalizing qs with
  | nil =>
    cases List.length_eq_zero_iff.mp hlength.symm
    exact ⟨rfl, h⟩
  | cons p ps ih =>
    obtain _ | ⟨q, qs⟩ := qs
    · cases hlength
    simp only [List.flatMap_cons, Point.numbers, List.cons_append, List.nil_append,
      List.cons.injEq] at h
    obtain ⟨hx, hy, hz, h⟩ := h
    obtain ⟨rfl, hrest⟩ := ih (Nat.succ.inj hlength) h
    exact ⟨congrArg (· :: ps) (by cases p; cases q; simp_all), hrest⟩

theorem eq_of_numbers (h : s.unsigned = t.unsigned) (hnumbers : s.numbers = t.numbers) : s = t := by
  obtain ⟨kind, points, depth, owner⟩ := s
  obtain ⟨kind', points', depth', owner'⟩ := t
  simp only [unsigned, mk.injEq] at h
  obtain ⟨hkind, hpoints, hdepth, howner⟩ := h
  have hlength : points.length = points'.length := by simpa using congrArg List.length hpoints
  obtain ⟨rfl, hdepths⟩ := points_eq hlength hnumbers
  have hdepth : depth = depth' := by simpa using congrArg List.head? hdepths
  rw [hkind, hdepth, howner]

end Shape

namespace Value

/-- The zeros in a value, at whatever depth, each with its sign. -/
def zeros (v : Value) : List Binary64 := (v.parts.flatMap numbers).filter Binary64.isZero

theorem zeros_eq (v : Value) :
    v.zeros = v.numbers.filter Binary64.isZero ++ v.inner.flatMap zeros := by
  rw [zeros, parts_eq, List.flatMap_cons, List.filter_append, List.flatMap_assoc,
    List.filter_flatMap]
  rfl

theorem itemsUnsigned_eq_map (vs : List Value) : itemsUnsigned vs = vs.map unsigned := by
  induction vs with
  | nil => rfl
  | cons v vs ih => rw [itemsUnsigned, ih, List.map_cons]

theorem entriesUnsigned_eq_map (es : List (Value × Value)) :
    entriesUnsigned es = es.map fun e => (e.1.unsigned, e.2.unsigned) := by
  induction es with
  | nil => rfl
  | cons e es ih => rw [entriesUnsigned, ih, List.map_cons]

/-- A value is told by what it is without the signs of zeros, and by its zeros, also where others
follow. -/
def ToldByZeros (v : Value) : Prop := ∀ w rest rest', v.unsigned = w.unsigned →
  v.zeros ++ rest = w.zeros ++ rest' → v = w ∧ rest = rest'

theorem toldByZeros_items {vs ws : List Value} {rest rest' : List Binary64}
    (hvs : ∀ v ∈ vs, v.ToldByZeros) (h : vs.map unsigned = ws.map unsigned)
    (hzeros : vs.flatMap zeros ++ rest = ws.flatMap zeros ++ rest') : vs = ws ∧ rest = rest' := by
  induction vs generalizing ws with
  | nil =>
    cases List.map_eq_nil_iff.mp h.symm
    exact ⟨rfl, hzeros⟩
  | cons v vs ih =>
    obtain _ | ⟨w, ws⟩ := ws
    · cases h
    obtain ⟨hv, hvs⟩ := List.forall_mem_cons.mp hvs
    obtain ⟨hvw, hrest⟩ := List.cons.inj h
    rw [List.flatMap_cons, List.flatMap_cons, List.append_assoc, List.append_assoc] at hzeros
    obtain ⟨rfl, hbehind⟩ := hv w _ _ hvw hzeros
    obtain ⟨rfl, hafter⟩ := ih hvs hrest hbehind
    exact ⟨rfl, hafter⟩

theorem zeros_list (content : TypeExpr) (items : List Value) :
    (list content items).zeros = items.flatMap zeros := by
  rw [zeros_eq]
  rfl

/-- The keys and values of the entries of a map, in turn. -/
def entryValues (es : List (Value × Value)) : List Value := es.flatMap fun e => [e.1, e.2]

theorem zeros_map (key content : TypeExpr) (ordered : Bool) (entries : List (Value × Value)) :
    (map key content ordered entries).zeros = (entryValues entries).flatMap zeros := by
  rw [zeros_eq]
  rfl

theorem entryValues_map_unsigned (es : List (Value × Value)) :
    (entryValues es).map unsigned = entryValues (entriesUnsigned es) := by
  rw [entriesUnsigned_eq_map]
  simp [entryValues, List.map_flatMap, List.flatMap_map]

theorem entryValues_injective {es fs : List (Value × Value)} (h : entryValues es = entryValues fs) :
    es = fs := by
  induction es generalizing fs with
  | nil =>
    cases fs with
    | nil => rfl
    | cons f fs => cases h
  | cons e es ih =>
    obtain _ | ⟨f, fs⟩ := fs
    · cases h
    simp only [entryValues, List.flatMap_cons, List.cons_append, List.nil_append,
      List.cons.injEq] at h
    obtain ⟨hkey, hvalue, h⟩ := h
    rw [Prod.ext hkey hvalue, ih h]

theorem toldByZeros (v : Value) : v.ToldByZeros := by
  induction v with
  | list content items ih =>
    intro w rest rest' h hzeros
    cases w with
    | list content' items' =>
      simp only [unsigned, itemsUnsigned_eq_map, list.injEq] at h
      rw [zeros_list, zeros_list] at hzeros
      obtain ⟨rfl, hafter⟩ := toldByZeros_items ih h.2 hzeros
      exact ⟨by rw [h.1], hafter⟩
    | _ => cases h
  | map key content ordered entries ih =>
    intro w rest rest' h hzeros
    cases w with
    | map key' content' ordered' entries' =>
      simp only [unsigned, map.injEq] at h
      obtain ⟨rfl, rfl, rfl, h⟩ := h
      have hinner : (entryValues entries).map unsigned = (entryValues entries').map unsigned := by
        rw [entryValues_map_unsigned, entryValues_map_unsigned, h]
      have hall : ∀ v ∈ entryValues entries, v.ToldByZeros := by
        intro v hv
        obtain ⟨e, he, hv⟩ := List.mem_flatMap.mp hv
        rcases List.mem_pair.mp hv with rfl | rfl
        · exact (ih e he).1
        · exact (ih e he).2
      rw [zeros_map, zeros_map] at hzeros
      obtain ⟨hentries, hafter⟩ := toldByZeros_items hall hinner hzeros
      exact ⟨by rw [entryValues_injective hentries], hafter⟩
    | _ => cases h
  | float x =>
    intro w rest rest' h hzeros
    cases w with
    | float y =>
      have hxy : [x].map Binary64.unsigned = [y].map Binary64.unsigned := by
        simpa [unsigned] using h
      obtain ⟨hxy, hafter⟩ := Binary64.eq_of_zeros hxy hzeros
      exact ⟨by rw [List.singleton_inj.mp hxy], hafter⟩
    | _ => cases h
  | shape s =>
    intro w rest rest' h hzeros
    cases w with
    | shape t =>
      have hst : s.unsigned = t.unsigned := shape.inj h
      rw [zeros_eq, zeros_eq] at hzeros
      simp only [numbers, inner, List.flatMap_nil, List.append_nil] at hzeros
      obtain ⟨hnumbers, hafter⟩ := Binary64.eq_of_zeros
        (by rw [Shape.numbers_map_unsigned, Shape.numbers_map_unsigned, hst]) hzeros
      exact ⟨by rw [Shape.eq_of_numbers hst hnumbers], hafter⟩
    | _ => cases h
  | _ =>
    intro w rest rest' h hzeros
    cases w <;> cases h
    exact ⟨rfl, hzeros⟩

/-- Values that agree and have the same zeros are the same. -/
theorem eq_of_agrees {v w : Value} (h : v.agrees w = true) (hzeros : v.zeros = w.zeros) : v = w :=
  (toldByZeros v w [] [] ((agrees_iff v w).mp h).2 (by rw [hzeros])).1

end Value

/-! ### What is found under a name -/

/-- Lists with the same keys in the same order are the same if what the one has is in the other. -/
theorem eq_of_map_eq_of_subset {α κ : Type} {key : α → κ} {l l' : List α}
    (hkeys : l.map key = l'.map key) (hnodup : (l'.map key).Nodup) (hsub : l ⊆ l') : l = l' := by
  refine List.ext_getElem (by simpa using congrArg List.length hkeys) fun i hi hi' => ?_
  have hkey : key l[i] = key l'[i] := by
    have hat := congrArg (·[i]?) hkeys
    simpa [hi, hi'] using hat
  exact List.inj_on_of_nodup_map hnodup (hsub (List.getElem_mem hi)) (List.getElem_mem hi') hkey

namespace Entity
variable {e e' root root' : Entity}

theorem eq_of_entries_eq (hspecies : e.species = e'.species) (hindex : e.index = e'.index)
    (hattributes : e.attributes.entries = e'.attributes.entries)
    (hpopulations : e.populations.entries = e'.populations.entries) : e = e' := by
  obtain ⟨species, index, ⟨as⟩, ⟨ps⟩⟩ := e
  obtain ⟨species', index', ⟨as'⟩, ⟨ps'⟩⟩ := e'
  cases hspecies
  cases hindex
  cases hattributes
  cases hpopulations
  rfl

theorem attributesAgree_iff {as : List (String × Value)} {t : Table String Value} :
    attributesAgree as t = true ↔ ∀ a ∈ as, ∃ w, t.get? a.1 = some w ∧ a.2.agrees w = true := by
  induction as with
  | nil => simp [attributesAgree]
  | cons a as ih =>
    obtain ⟨name, v⟩ := a
    rw [attributesAgree, Bool.and_eq_true, ih, List.forall_mem_cons]
    cases t.get? name <;> simp

theorem populationsAgree_iff {ps : List (String × Population Entity)}
    {t : Table String (Population Entity)} :
    populationsAgree ps t = true ↔ ∀ p ∈ ps, ∃ q, t.get? p.1 = some q ∧
      (p.2.species = q.species ∧ p.2.nextIndex = q.nextIndex) ∧
        membersAgree p.2.members.entries q.members.entries = true := by
  induction ps with
  | nil => simp [populationsAgree]
  | cons p ps ih =>
    obtain ⟨key, species, nextIndex, ⟨members⟩⟩ := p
    rw [populationsAgree, Bool.and_eq_true, ih, List.forall_mem_cons]
    cases t.get? key <;> simp

theorem agrees_iff : e.agrees e' = true ↔
    (e.species = e'.species ∧ e.index = e'.index) ∧
      (e.attributes.size = e'.attributes.size ∧
        attributesAgree e.attributes.entries e'.attributes = true) ∧
      e.populations.size = e'.populations.size ∧
        populationsAgree e.populations.entries e'.populations = true := by
  obtain ⟨species, index, attributes, ⟨populations⟩⟩ := e
  simp only [agrees, Bool.and_eq_true, beq_iff_eq, Table.size]
  tauto

/-- Members that agree one by one, where those that agree are the same. -/
theorem eq_of_membersAgree {ms os : List (UInt32 × Entity)} (h : membersAgree ms os = true)
    (hsame : ∀ index m o, (index, m) ∈ ms → (index, o) ∈ os → m.agrees o = true → m = o) :
    ms = os := by
  induction ms generalizing os with
  | nil =>
    rw [membersAgree, List.isEmpty_iff] at h
    exact h.symm
  | cons m ms ih =>
    obtain _ | ⟨o, os⟩ := os
    · cases h
    obtain ⟨i, m⟩ := m
    obtain ⟨j, o⟩ := o
    rw [membersAgree, Bool.and_eq_true, Bool.and_eq_true, beq_iff_eq] at h
    obtain ⟨⟨rfl, hagrees⟩, h⟩ := h
    have hrest : ms = os := ih h fun index n x hn hx =>
      hsame index n x (List.mem_cons_of_mem _ hn) (List.mem_cons_of_mem _ hx)
    rw [hsame i m o List.mem_cons_self List.mem_cons_self hagrees, hrest]

/-! ### Trees that are arranged alike -/

/-- An entity keeps what it owns under distinct keys: attributes and populations under names, and
members under indices, in the order of these. Whether a key is what the element that is under it
says of itself is another matter. -/
structure Keyed (e : Entity) : Prop where
  names : e.attributes.keys.Nodup
  species : e.populations.keys.Nodup
  increasing : ∀ p ∈ e.populations.values, p.members.keys.Pairwise (· < ·)

theorem Keyed.indices {p : Population Entity} (h : e.Keyed) (hp : p ∈ e.populations.values) :
    p.members.keys.Nodup :=
  (h.increasing p hp).imp UInt32.ne_of_lt

theorem Shelved.keyed (h : e.Shelved) : e.Everywhere Keyed := fun t ht =>
  ⟨(h t ht).names, (h t ht).species.nodup, fun p hp => ((h t ht).members p hp).increasing⟩

/-- Two entities show their attributes and their populations in the same order, and the zeros in
attributes of the same name have the same signs. -/
structure ShownLike (e e' : Entity) : Prop where
  names : e.attributes.keys = e'.attributes.keys
  species : e.populations.keys = e'.populations.keys
  zeros : ∀ name v v', e.get? name = some v → e'.get? name = some v' → v.zeros = v'.zeros

/-- Entities at the same place of two trees show what they have alike. -/
def ArrangedLike (root root' : Entity) : Prop :=
  ∀ a e e', root.at? a = some e → root'.at? a = some e' → e.ShownLike e'

theorem ShownLike.refl (e : Entity) : e.ShownLike e :=
  ⟨rfl, rfl, fun _ v v' hv hv' => by rw [Option.some.inj (hv.symm.trans hv')]⟩

theorem ArrangedLike.refl (root : Entity) : root.ArrangedLike root := fun a e e' he he' => by
  rw [Option.some.inj (he.symm.trans he')]
  exact .refl e'

theorem ArrangedLike.here (h : root.ArrangedLike root') : root.ShownLike root' :=
  h .root root root' rfl rfl

/-- Members under the same index in populations under the same species are at the same place. -/
theorem ArrangedLike.member {p q : Population Entity} {m o : Entity} {species : String}
    {index : UInt32} (h : root.ArrangedLike root') (hp : root.population? species = some p)
    (hq : root'.population? species = some q) (hm : p.member? index = some m)
    (ho : q.member? index = some o) : m.ArrangedLike o := fun a e e' he he' =>
  h ⟨⟨species, index⟩ :: a.hops⟩ e e' (follow_cons_eq_some.mpr ⟨p, hp, m, hm, he⟩)
    (follow_cons_eq_some.mpr ⟨q, hq, o, ho, he'⟩)

/-- **Trees that agree and are arranged alike are the same.** -/
theorem eq_of_agrees (hroot : root.Everywhere Keyed) (hroot' : root'.Everywhere Keyed)
    (h : root.agrees root' = true) (halike : root.ArrangedLike root') : root = root' := by
  induction root generalizing root' with
  | owner root ih =>
    -- Names in the same order, with the same found under each, make the same list.
    obtain ⟨⟨hspecies, hindex⟩, ⟨-, has⟩, -, hps⟩ := agrees_iff.mp h
    have hshown := halike.here
    have hattributes : root.attributes.entries = root'.attributes.entries := by
      refine eq_of_map_eq_of_subset hshown.names hroot'.here.names ?_
      rintro ⟨name, v⟩ hv
      obtain ⟨w, hw, hagrees⟩ := attributesAgree_iff.mp has _ hv
      have hzeros := hshown.zeros name v w (Table.get?_of_mem hroot.here.names hv) hw
      have hvw : v = w := Value.eq_of_agrees hagrees hzeros
      rw [hvw]
      exact Table.mem_of_get? hw
    have hpopulations : root.populations.entries = root'.populations.entries := by
      refine eq_of_map_eq_of_subset hshown.species hroot'.here.species ?_
      rintro ⟨species, p⟩ hp
      obtain ⟨q, hq, ⟨hs, hnext⟩, hmembers⟩ := populationsAgree_iff.mp hps _ hp
      have hpmem : p ∈ root.populations.values := Table.mem_values_iff.mpr ⟨species, hp⟩
      have hqmem : q ∈ root'.populations.values := Table.mem_values_of_get? hq
      have hms : p.members.entries = q.members.entries := by
        -- Members that are compared are under the same index, so they are at the same place.
        refine eq_of_membersAgree hmembers fun index m o hm ho hagrees => ?_
        have hmmem : m ∈ p.members.values := Table.mem_values_iff.mpr ⟨index, hm⟩
        have homem : o ∈ q.members.values := Table.mem_values_iff.mpr ⟨index, ho⟩
        have hm : p.member? index = some m :=
          Table.get?_of_mem (hroot.here.indices hpmem) hm
        have ho : q.member? index = some o :=
          Table.get?_of_mem (hroot'.here.indices hqmem) ho
        exact ih p hpmem m hmmem (hroot.member hpmem hmmem) (hroot'.member hqmem homem) hagrees
          (halike.member (Table.get?_of_mem hroot.here.species hp) hq hm ho)
      have hpq : p = q := by
        obtain ⟨species, nextIndex, ⟨ms⟩⟩ := p
        obtain ⟨species', nextIndex', ⟨ms'⟩⟩ := q
        cases hs
        cases hnext
        cases hms
        rfl
      rw [hpq]
      exact Table.mem_of_get? hq
    exact eq_of_entries_eq hspecies hindex hattributes hpopulations

end Entity

/-! ### Documents -/

theorem eq_of_map_eq {α β : Type} {f : α → β} {l l' : List α}
    (hinj : ∀ a ∈ l, ∀ b ∈ l', f a = f b → a = b) (h : l.map f = l'.map f) : l = l' := by
  refine List.ext_getElem (by simpa using congrArg List.length h) fun i hi hi' => ?_
  have hat := congrArg (·[i]?) h
  exact hinj _ (List.getElem_mem hi) _ (List.getElem_mem hi') (by simpa [hi, hi'] using hat)

theorem Address.form_injective : Function.Injective form := fun a b h => by
  have hread := a.read_form
  rw [h, b.read_form] at hread
  exact (Except.ok.inj hread).symm

theorem Shape.form_injective : Function.Injective form := fun s t h => by
  have hread := s.read_form
  rw [h, t.read_form] at hread
  exact (Except.ok.inj hread).symm

/-- A value is written in one way, and no other value is written so. -/
theorem Value.form_injective : Function.Injective form := by
  intro v
  induction v with
  | list content items ih =>
    intro w h
    cases w with
    | list content' items' =>
      simp only [form, itemForms_eq_map, ValueForm.list.injEq] at h
      rw [h.1, eq_of_map_eq (f := form) (fun v hv w _ hvw => ih v hv hvw) h.2]
    | _ => cases h
  | map key content ordered entries ih =>
    intro w h
    cases w with
    | map key' content' ordered' entries' =>
      simp only [form, entryForms_eq_map, ValueForm.map.injEq] at h
      obtain ⟨rfl, rfl, rfl, h⟩ := h
      have hentries : entries = entries' := by
        refine eq_of_map_eq (fun e he f _ hef => ?_) h
        obtain ⟨hkey, hvalue⟩ := Prod.mk.inj hef
        exact Prod.ext ((ih e he).1 hkey) ((ih e he).2 hvalue)
      rw [hentries]
    | _ => cases h
  | shape s =>
    intro w h
    cases w with
    | shape t => rw [Shape.form_injective (ValueForm.shape.inj h)]
    | _ => cases h
  | entity a =>
    intro w h
    cases w with
    | entity b => rw [Address.form_injective (ValueForm.reference.inj h)]
    | _ => cases h
  | _ =>
    intro w h
    cases w <;> cases h
    rfl

/-- A tree in which everything stands under its own species or index is written in one way, and no
other such tree is written so. -/
theorem Entity.eq_of_form_eq {e e' : Entity} (he : e.Everywhere Sorted)
    (he' : e'.Everywhere Sorted) (h : e.form = e'.form) : e = e' := by
  induction e generalizing e' with
  | owner e ih =>
    rw [form_eq, form_eq, EntityForm.mk.injEq] at h
    obtain ⟨hindex, hspecies, hattributes, hpopulations⟩ := h
    have hattributes : e.attributes.entries = e'.attributes.entries := by
      refine eq_of_map_eq (fun a _ b _ hab => ?_) hattributes
      obtain ⟨hname, hvalue⟩ := Prod.mk.inj hab
      exact Prod.ext hname (Value.form_injective hvalue)
    have hpopulations : e.populations.values = e'.populations.values := by
      refine eq_of_map_eq (fun p hp q hq hpq => ?_) hpopulations
      have hsorted := (he.here.members p hp).keyed
      have hsorted' := (he'.here.members q hq).keyed
      simp only [Population.form, PopulationForm.mk.injEq] at hpq
      obtain ⟨hspecies, hnext, hms⟩ := hpq
      have hmembers : p.members = q.members := by
        refine hsorted.eq_of_values hsorted' (eq_of_map_eq (f := form) ?_ hms)
        exact fun m hm o ho hmo => ih p hp m hm (he.member hp hm) (he'.member hq ho) hmo
      obtain ⟨species, nextIndex, ms⟩ := p
      obtain ⟨species', nextIndex', ms'⟩ := q
      cases hspecies
      cases hnext
      cases hmembers
      rfl
    refine eq_of_entries_eq hspecies hindex hattributes (congrArg Table.entries ?_)
    exact he.here.species.keyed.eq_of_values he'.here.species.keyed hpopulations

end Rewind
