import Mathlib.Data.List.Infix
import Mathlib.Data.List.Nodup
import Mathlib.Data.List.Pairwise
import Rewind.Proofs.Tree.Places

/-! Subtrees by address, and which of some addresses stand for the others.

An address covers itself and all that lie below it. Of a list of addresses the `tops` are
those that no earlier one covers: with the tops all the others have been met. Two tops can
still lie in one another, the lower one first; that does not happen exactly if owners come
first in the list (`Address.ownersFirst_iff_pairwise`). -/

namespace Rewind

theorem pairwise_iff_append_cons {α : Type} {R : α → α → Prop} {l : List α} :
    l.Pairwise R ↔ ∀ before a after, l = before ++ a :: after → ∀ b ∈ before, R b a := by
  constructor
  · rintro h before a after rfl b hb
    exact (List.pairwise_append.mp h).2.2 b hb a List.mem_cons_self
  · intro h
    induction l using List.reverseRecOn with
    | nil => exact .nil
    | append_singleton l a ih =>
      refine List.pairwise_append.mpr ⟨ih fun before b after heq => ?_, List.pairwise_singleton _ _,
        fun b hb a' ha => ?_⟩
      · exact h before b (after ++ [a]) (by rw [heq]; simp)
      · rw [List.mem_singleton.mp ha]
        exact h l a [] rfl b hb

/-- Of the elements that a property does not have, the first. -/
theorem exists_first_not {α : Type} {p : α → Prop} {l : List α} (h : ¬ ∀ a ∈ l, p a) :
    ∃ before a after, l = before ++ a :: after ∧ (∀ b ∈ before, p b) ∧ ¬ p a := by
  induction l with
  | nil => exact absurd (List.forall_mem_nil _) h
  | cons a l ih =>
    by_cases ha : p a
    · obtain ⟨before, b, after, rfl, hbefore, hb⟩ :=
        ih fun hl => h (List.forall_mem_cons.mpr ⟨ha, hl⟩)
      exact ⟨a :: before, b, after, rfl, List.forall_mem_cons.mpr ⟨ha, hbefore⟩, hb⟩
    · exact ⟨[], a, l, rfl, List.forall_mem_nil _, ha⟩

namespace Address
variable {a b o x : Address} {earlier as : List Address}

/-- The other is the same address or lies below it. -/
def Covers (a b : Address) : Prop := a.hops <+: b.hops

instance (a b : Address) : Decidable (a.Covers b) := inferInstanceAs (Decidable (_ <+: _))

theorem covers_refl (a : Address) : a.Covers a := List.prefix_rfl

theorem Covers.trans (hab : a.Covers b) (hbx : b.Covers x) : a.Covers x :=
  List.IsPrefix.trans hab hbx

/-- Addresses that cover a third cover one another one way or the other. -/
theorem Covers.total (ha : a.Covers x) (hb : b.Covers x) : a.Covers b ∨ b.Covers a :=
  List.prefix_or_prefix_of_prefix ha hb

theorem Covers.depth_le (h : a.Covers b) : a.depth ≤ b.depth := h.length_le

theorem Covers.eq_of_depth (h : a.Covers b) (hd : a.depth = b.depth) : a = b := by
  obtain ⟨hs⟩ := a
  obtain ⟨hs'⟩ := b
  exact congrArg _ (List.IsPrefix.eq_of_length h hd)

theorem covers_child (a : Address) (species : String) (index : UInt32) :
    a.Covers (a.child species index) :=
  List.prefix_append _ _

theorem depth_child (a : Address) (species : String) (index : UInt32) :
    (a.child species index).depth = a.depth + 1 := by
  simp [depth, child]

theorem child_inj {s s' : String} {i i' : UInt32} (h : a.child s i = a.child s' i') :
    s = s' ∧ i = i' := by
  simpa [child] using h

/-! ### Tops -/

/-- Those that neither an earlier address covers nor one before them in the list. -/
def tops (earlier : List Address) : List Address → List Address
  | [] => []
  | a :: as =>
    if ∃ o ∈ earlier, o.Covers a then tops earlier as else a :: tops (earlier ++ [a]) as

theorem tops_cons_of_covered (h : ∃ o ∈ earlier, o.Covers a) :
    tops earlier (a :: as) = tops earlier as := by
  rw [tops, if_pos h]

theorem tops_cons_of_not_covered (h : ¬ ∃ o ∈ earlier, o.Covers a) :
    tops earlier (a :: as) = a :: tops (earlier ++ [a]) as := by
  rw [tops, if_neg h]

theorem tops_append (earlier as bs : List Address) :
    tops earlier (as ++ bs) = tops earlier as ++ tops (earlier ++ tops earlier as) bs := by
  induction as generalizing earlier with
  | nil => simp [tops]
  | cons a as ih =>
    rw [List.cons_append]
    by_cases h : ∃ o ∈ earlier, o.Covers a
    · rw [tops_cons_of_covered h, tops_cons_of_covered h, ih]
    · rw [tops_cons_of_not_covered h, tops_cons_of_not_covered h, ih]
      simp

theorem mem_of_mem_tops {t : Address} (h : t ∈ tops earlier as) : t ∈ as := by
  induction as generalizing earlier with
  | nil => exact h
  | cons a as ih =>
    rw [tops] at h
    split at h
    · exact List.mem_cons_of_mem _ (ih h)
    · rcases List.mem_cons.mp h with rfl | h
      · exact List.mem_cons_self
      · exact List.mem_cons_of_mem _ (ih h)

/-- A top covers every address of the list. -/
theorem exists_top_covers (earlier : List Address) (ha : a ∈ as) :
    ∃ t ∈ earlier ++ tops earlier as, t.Covers a := by
  induction as generalizing earlier with
  | nil => cases ha
  | cons b as ih =>
    by_cases h : ∃ o ∈ earlier, o.Covers b
    · rw [tops_cons_of_covered h]
      rcases List.mem_cons.mp ha with rfl | ha
      · obtain ⟨o, ho, hoa⟩ := h
        exact ⟨o, List.mem_append_left _ ho, hoa⟩
      · exact ih _ ha
    · rw [tops_cons_of_not_covered h, List.append_cons]
      rcases List.mem_cons.mp ha with rfl | ha
      · exact ⟨a, by simp, covers_refl a⟩
      · exact ih _ ha

/-- Where a top stands in the list, and that nothing before covers it. -/
theorem tops_eq_append_cons {t : Address} {before after : List Address}
    (h : tops earlier as = before ++ t :: after) :
    (∃ first rest, as = first ++ t :: rest ∧ tops earlier first = before) ∧
      ¬ ∃ o ∈ earlier ++ before, o.Covers t := by
  induction as generalizing earlier before with
  | nil => simp [tops] at h
  | cons a as ih =>
    by_cases hc : ∃ o ∈ earlier, o.Covers a
    · rw [tops_cons_of_covered hc] at h
      obtain ⟨⟨first, rest, rfl, hfirst⟩, ht⟩ := ih h
      exact ⟨⟨a :: first, rest, rfl, by rw [tops_cons_of_covered hc, hfirst]⟩, ht⟩
    · rw [tops_cons_of_not_covered hc] at h
      cases before with
      | nil =>
        obtain ⟨rfl, -⟩ := List.cons.inj h
        exact ⟨⟨[], as, rfl, rfl⟩, by simpa using hc⟩
      | cons b before =>
        rw [List.cons_append] at h
        obtain ⟨rfl, htail⟩ := List.cons.inj h
        obtain ⟨⟨first, rest, rfl, hfirst⟩, ht⟩ := ih htail
        exact ⟨⟨a :: first, rest, rfl, by rw [tops_cons_of_not_covered hc, hfirst]⟩,
          by simpa using ht⟩

/-- No top covers a later one. -/
theorem pairwise_tops (earlier as : List Address) :
    (tops earlier as).Pairwise fun t u => ¬ t.Covers u :=
  pairwise_iff_append_cons.mpr fun _ _ _ heq _ ht hc =>
    (tops_eq_append_cons heq).2 ⟨_, List.mem_append_right _ ht, hc⟩

/-! ### Owners first -/

/-- An address that comes after one below it comes after one that covers it, too. -/
def OwnersFirst (as : List Address) : Prop :=
  ∀ before a after, as = before ++ a :: after → (∃ m ∈ before, a.Covers m) →
    ∃ o ∈ before, o.Covers a

/-- Owners come first exactly if no top lies in a later one. -/
theorem ownersFirst_iff_pairwise :
    OwnersFirst as ↔ (tops [] as).Pairwise fun t u => ¬ u.Covers t := by
  rw [pairwise_iff_append_cons]
  constructor
  · intro h before u after heq t ht hut
    obtain ⟨⟨first, rest, rfl, rfl⟩, hu⟩ := tops_eq_append_cons heq
    obtain ⟨o, ho, hou⟩ := h first u rest rfl ⟨t, mem_of_mem_tops ht, hut⟩
    obtain ⟨t', ht', hto⟩ := exists_top_covers [] ho
    exact hu ⟨t', ht', hto.trans hou⟩
  · intro h before a after heq ⟨m, hm, ham⟩
    refine Classical.byContradiction fun hno => ?_
    have hnot : ¬ ∃ o ∈ [] ++ tops [] before, o.Covers a := by
      rintro ⟨o, ho, hoa⟩
      exact hno ⟨o, mem_of_mem_tops ho, hoa⟩
    have htops : tops [] as = tops [] before ++ a :: tops (tops [] before ++ [a]) after := by
      rw [heq, tops_append, tops_cons_of_not_covered hnot]
      rfl
    obtain ⟨t, ht, htm⟩ := exists_top_covers [] hm
    rcases htm.total ham with hta | hat
    · exact hnot ⟨t, ht, hta⟩
    · exact h _ _ _ htops t ht hat

instance (as : List Address) : Decidable (OwnersFirst as) :=
  decidable_of_iff _ ownersFirst_iff_pairwise.symm

/-- Then no top covers another. -/
theorem OwnersFirst.eq_of_covers {t u : Address} (h : OwnersFirst as) (ht : t ∈ tops [] as)
    (hu : u ∈ tops [] as) (hc : t.Covers u) : t = u := by
  have hapart := (pairwise_tops [] as).and (ownersFirst_iff_pairwise.mp h)
  have : Std.Symm fun t u : Address => ¬ t.Covers u ∧ ¬ u.Covers t := ⟨fun _ _ h => h.symm⟩
  exact Classical.byContradiction fun hne => (hapart.forall ht hu hne).1 hc

end Address

/-! ### The addresses of a subtree -/

namespace Entity
variable {root e : Entity} {a b : Address}

theorem covers_of_mem_addresses (h : b ∈ e.addresses a) : a.Covers b := by
  induction e generalizing a with
  | owner e ih =>
    rw [addresses_eq, List.mem_cons] at h
    rcases h with rfl | h
    · exact b.covers_refl
    · obtain ⟨p, hp, h⟩ := List.mem_flatMap.mp h
      obtain ⟨m, hm, h⟩ := List.mem_flatMap.mp h
      exact (a.covers_child p.species m.index).trans (ih p hp m hm h)

/-- In a sorted tree no two entities have one address. -/
theorem nodup_addresses (hsorted : e.Everywhere Sorted) : (e.addresses a).Nodup := by
  induction e generalizing a with
  | owner e ih =>
    obtain ⟨⟨hspecies, hmembers⟩, hms⟩ := everywhere_iff.mp hsorted
    rw [addresses_eq]
    -- Subtrees of members with different hops have no address in common.
    have hdisjoint {s s' : String} {m m' : Entity} (hne : ¬ (s = s' ∧ m.index = m'.index)) :
        (m.addresses (a.child s m.index)).Disjoint (m'.addresses (a.child s' m'.index)) := by
      intro x hx hx'
      have hd : (a.child s m.index).depth = (a.child s' m'.index).depth := by
        rw [Address.depth_child, Address.depth_child]
      rcases (covers_of_mem_addresses hx).total (covers_of_mem_addresses hx') with h | h
      · exact hne (Address.child_inj (h.eq_of_depth hd))
      · exact hne (Address.child_inj (h.eq_of_depth hd.symm).symm)
    refine List.nodup_cons.mpr ⟨fun h => ?_, List.nodup_flatMap.mpr ⟨fun p hp => ?_, ?_⟩⟩
    · obtain ⟨p, hp, h⟩ := List.mem_flatMap.mp h
      obtain ⟨m, hm, h⟩ := List.mem_flatMap.mp h
      have hle := (covers_of_mem_addresses h).depth_le
      rw [Address.depth_child] at hle
      omega
    · refine List.nodup_flatMap.mpr ⟨fun m hm => ih p hp m hm (hms p hp m hm), ?_⟩
      refine (List.pairwise_map.mp (hmembers p hp).indices).imp fun hlt => hdisjoint ?_
      exact fun h => UInt32.ne_of_lt hlt h.2
    · refine (List.pairwise_map.mp hspecies.nodup_values).imp fun hne x hx hx' => ?_
      obtain ⟨m, -, hx⟩ := List.mem_flatMap.mp hx
      obtain ⟨m', -, hx'⟩ := List.mem_flatMap.mp hx'
      exact hdisjoint (fun h => hne h.1) hx hx'

theorem Everywhere.follow {P : Entity → Prop} {hs : List Hop} (h : root.Everywhere P)
    (he : root.follow hs = some e) : e.Everywhere P := by
  induction hs generalizing root with
  | nil =>
    cases he
    exact h
  | cons hop hs ih =>
    obtain ⟨p, hp, m, hm, he⟩ := follow_cons_eq_some.mp he
    exact ih (h.member (Table.mem_values_of_get? hp) (Table.mem_values_of_get? hm)) he

/-- The addresses of a tree at and below one of them. -/
def subtree (root : Entity) (a : Address) : List Address :=
  match root.at? a with
  | some e => e.addresses a
  | none => []

theorem mem_subtree (hsorted : root.Everywhere Sorted) :
    b ∈ root.subtree a ↔ a.Covers b ∧ root.Resolves b := by
  have hfollow (hs : List Hop) (hb : b.hops = a.hops ++ hs) :
      root.at? b = (root.at? a).bind (·.follow hs) := by
    rw [at?, hb, follow_append]
    rfl
  rw [subtree, resolves_iff]
  constructor
  · intro h
    split at h
    · next e he =>
      obtain ⟨hs, t, hb, hf⟩ := (mem_addresses (Everywhere.follow hsorted he)).mp h
      exact ⟨⟨hs, hb.symm⟩, t, by rw [hfollow hs hb, he]; exact hf⟩
    · cases h
  · rintro ⟨⟨hs, hb⟩, t, ht'⟩
    rw [hfollow hs hb.symm] at ht'
    obtain ⟨e, he, hf⟩ := Option.bind_eq_some_iff.mp ht'
    rw [he]
    exact (mem_addresses (Everywhere.follow hsorted he)).mpr ⟨hs, t, hb.symm, hf⟩

theorem nodup_subtree (ht : root.Tidy) : (root.subtree a).Nodup := by
  rw [subtree]
  split
  · next e he => exact nodup_addresses (Everywhere.follow ht.sorted he)
  · exact .nil

/-- The addresses of a tree at and below some of them. -/
def subtrees (root : Entity) (as : List Address) : List Address := as.flatMap root.subtree

theorem mem_subtrees {as : List Address} (hsorted : root.Everywhere Sorted) (hb : root.Resolves b) :
    b ∈ root.subtrees as ↔ ∃ a ∈ as, a.Covers b := by
  rw [subtrees, List.mem_flatMap]
  exact exists_congr fun a => and_congr_right fun _ =>
    (mem_subtree hsorted).trans (and_iff_left hb)

/-- **The subtrees at the tops have no entity in common exactly if owners come first.** -/
theorem nodup_subtrees_tops {as : List Address} (ht : root.Tidy) (hr : ∀ a ∈ as, root.Resolves a) :
    (root.subtrees (Address.tops [] as)).Nodup ↔ Address.OwnersFirst as := by
  rw [Address.ownersFirst_iff_pairwise, subtrees, List.nodup_flatMap,
    and_iff_right fun a _ => nodup_subtree ht]
  constructor
  · intro hdisjoint
    refine hdisjoint.imp_of_mem fun {t u} htop _ hdis hut => ?_
    have hres := hr t (Address.mem_of_mem_tops htop)
    exact hdis ((mem_subtree ht.sorted).mpr ⟨t.covers_refl, hres⟩)
      ((mem_subtree ht.sorted).mpr ⟨hut, hres⟩)
  · intro hfirst
    refine ((Address.pairwise_tops [] as).and hfirst).imp fun ⟨htu, hut⟩ x hx hx' => ?_
    exact (((mem_subtree ht.sorted).mp hx).1.total ((mem_subtree ht.sorted).mp hx').1).elim htu hut

end Entity
end Rewind
