import Rewind.Proofs.HeldValue
import Rewind.Proofs.Tree.Frame

/-! Reading and changing at an address.

An address is a lens: a change can be made at it where something can be read at it, it is made to
what is read there, and it is read back. Nothing else is different but what lies below the address,
and the owners above it, each of which has one other member and is otherwise what it was
(`Entity.ChangedAt`). The change is made at the bottom and carried up hop by hop
(`Entity.ChangedAt.setMember`, `Entity.ChangedAt.changeAlong`).

Nothing is asked of the trees, and nothing of what comes in the place of an entity: it stays where
it was put, also if it has another species or another index. -/

namespace Rewind

/-! ### All but one member -/

/-- A population that stands under a key, as it was, but for the member that a hop of its owner
leads to. -/
structure Population.SameBut (hop : Hop) (key : String) (p p' : Population Entity) : Prop where
  species : p'.species = p.species
  nextIndex : p'.nextIndex = p.nextIndex
  indices : p'.members.keys = p.members.keys
  members : ∀ index, Hop.mk key index ≠ hop → p'.member? index = p.member? index
  other : key ≠ hop.species → p' = p

/-- An entity as it was, but for the member that a hop leads to: its populations are the same in the
same order and under the same keys, each but for that member. -/
structure Entity.SameBut (hop : Hop) (e e' : Entity) : Prop extends e.SameSelf e' where
  populations : List.Forall₂ (fun entry entry' => entry'.1 = entry.1 ∧
    entry.2.SameBut hop entry.1 entry'.2) e.populations.entries e'.populations.entries

theorem Population.SameBut.refl {hop : Hop} {key : String} (p : Population Entity) :
    p.SameBut hop key p :=
  ⟨rfl, rfl, rfl, fun _ _ => rfl, fun _ => rfl⟩

theorem Population.SameBut.setMember {hop : Hop} {p : Population Entity} {m : Entity}
    (hm : p.member? hop.index = some m) (m' : Entity) :
    p.SameBut hop hop.species (p.setMember hop.index m') where
  species := rfl
  nextIndex := rfl
  indices := Table.keys_update _
  members index hne := by
    rw [member?_setMember hm, if_neg]
    rintro rfl
    exact hne rfl
  other hne := absurd rfl hne

/-- What is set in place of what is there is the only entry that differs. -/
theorem Table.forall₂_set {κ α : Type} [DecidableEq κ] {R : κ × α → κ × α → Prop}
    {t : Table κ α} {key : κ} {a b : α} (hrefl : ∀ e, R e e) (h : t.get? key = some a)
    (hR : R (key, a) (key, b)) : List.Forall₂ R t.entries (t.set key b).entries := by
  obtain ⟨before, after, hes, hset⟩ := entries_set_of_get? h
  have hsame (es : List (κ × α)) : List.Forall₂ R es es := List.forall₂_same.mpr fun e _ => hrefl e
  rw [hes, hset]
  exact List.rel_append (hsame before) (.cons hR (hsame after))

namespace Entity
variable {root e e' m m' t : Entity} {p : Population Entity} {f g : Entity → Entity}
  {r : Address} {hop : Hop} {hops : List Hop}

theorem SameBut.setMember (hp : e.population? hop.species = some p)
    (hm : p.member? hop.index = some m) (m' : Entity) :
    e.SameBut hop (e.shelve hop.species (p.setMember hop.index m')) :=
  ⟨⟨rfl, rfl, rfl⟩, Table.forall₂_set (fun _ => ⟨rfl, .refl _⟩) hp ⟨rfl, .setMember hm m'⟩⟩

/-- A member that is replaced twice is replaced by the second. -/
theorem shelve_setMember {species : String} {index : UInt32} (hm : p.member? index = some t) :
    (e.shelve species (p.setMember index m)).shelve species
        ((p.setMember index m).setMember index m') = e.shelve species (p.setMember index m') := by
  have hfound : (p.setMember index m).member? index = some m := by
    rw [Population.member?_setMember hm, if_pos rfl]
  have hmember : (p.setMember index m).setMember index m' = p.setMember index m' := by
    rw [Population.setMember, Table.update_of_get? hfound]
    simp only [Population.setMember, Table.update_of_get? hm, Table.set_set]
  rw [hmember]
  simp only [shelve, Table.set_set]

/-! ### Changing along hops -/

theorem changeAlong_cons_eq_some : e.changeAlong f (hop :: hops) = some e' ↔
    ∃ p, e.population? hop.species = some p ∧ ∃ m, p.member? hop.index = some m ∧
      ∃ m', m.changeAlong f hops = some m' ∧
        e.shelve hop.species (p.setMember hop.index m') = e' := by
  simp [changeAlong, Option.bind_eq_some_iff]

theorem exists_changeAlong (f : Entity → Entity) (ht : e.follow hops = some t) :
    ∃ e', e.changeAlong f hops = some e' := by
  induction hops generalizing e with
  | nil => exact ⟨f e, rfl⟩
  | cons hop hops ih =>
    obtain ⟨p, hp, m, hm, ht⟩ := follow_cons_eq_some.mp ht
    obtain ⟨m', hm'⟩ := ih ht
    exact ⟨_, changeAlong_cons_eq_some.mpr ⟨p, hp, m, hm, m', hm', rfl⟩⟩

theorem changeAlong_isSome (f : Entity → Entity) (e : Entity) (hops : List Hop) :
    (e.changeAlong f hops).isSome = (e.follow hops).isSome := by
  cases ht : e.follow hops with
  | none => rw [changeAlong_eq_none ht]
  | some t =>
    obtain ⟨e', he'⟩ := exists_changeAlong f ht
    rw [he']
    rfl

/-- A change is made to what the hops lead to. -/
theorem changeAlong_congr (h : ∀ t, e.follow hops = some t → f t = g t) :
    e.changeAlong f hops = e.changeAlong g hops := by
  induction hops generalizing e with
  | nil => exact congrArg some (h e rfl)
  | cons hop hops ih =>
    rw [changeAlong, changeAlong]
    cases hp : e.population? hop.species with
    | none => rfl
    | some p =>
      cases hm : p.member? hop.index with
      | none => simp [hm]
      | some m =>
        have hsame := ih fun t ht => h t (follow_cons_eq_some.mpr ⟨p, hp, m, hm, ht⟩)
        simp only [Option.bind_eq_bind, Option.bind_some, hm, hsame]

/-- A change further down is made in one member, which is put back where it was found. -/
theorem changeAlong_cons_of_follow (ht : e.follow (hop :: hops) = some t)
    (h : e.changeAlong f (hop :: hops) = some e') :
    ∃ p m m', e.population? hop.species = some p ∧ p.member? hop.index = some m ∧
      m.follow hops = some t ∧ m.changeAlong f hops = some m' ∧
      e' = e.shelve hop.species (p.setMember hop.index m') := by
  obtain ⟨p, hp, m, hm, ht⟩ := follow_cons_eq_some.mp ht
  obtain ⟨q, hq, n, hn, m', hm', rfl⟩ := changeAlong_cons_eq_some.mp h
  cases hp.symm.trans hq
  cases hm.symm.trans hn
  exact ⟨p, m, m', hp, hm, ht, hm', rfl⟩

/-! ### What a change leaves alone -/

/-- In a tree `new` has come to stand at an address. It is found there with all it owns, whatever
stands apart from the address is what it was, and so is every owner above it but for the member
that is the next on the way down. -/
structure ChangedAt (root : Entity) (r : Address) (new root' : Entity) : Prop where
  here : root'.at? r = some new
  below : ∀ hops, root'.at? ⟨r.hops ++ hops⟩ = new.follow hops
  apart : ∀ q : Address, ¬ r.Covers q → ¬ q.Covers r → root'.at? q = root.at? q
  above : ∀ (q : Address) (hop : Hop), (q.child hop.species hop.index).Covers r →
    ∃ e e', root.at? q = some e ∧ root'.at? q = some e' ∧ e.SameBut hop e'

namespace ChangedAt
variable {new : Entity}

theorem atRoot (e new : Entity) : e.ChangedAt .root new new where
  here := rfl
  below _ := rfl
  apart _ hq _ := absurd List.nil_prefix hq
  above _ _ hc := by
    have hle := hc.depth_le
    rw [Address.depth_child] at hle
    exact absurd hle (Nat.not_succ_le_zero _)

/-- Seen from the owner, the change is one hop further down. -/
theorem setMember (hp : e.population? hop.species = some p) (hm : p.member? hop.index = some m)
    (hc : m.ChangedAt ⟨hops⟩ new m') :
    e.ChangedAt ⟨hop :: hops⟩ new (e.shelve hop.species (p.setMember hop.index m')) := by
  have hnew (k : Hop) (ks : List Hop) :
      (e.shelve hop.species (p.setMember hop.index m')).at? ⟨k :: ks⟩ =
        if k = hop then m'.at? ⟨ks⟩ else e.at? ⟨k :: ks⟩ := follow_setMember hp hm m' k ks
  have hold (ks : List Hop) : e.at? ⟨hop :: ks⟩ = m.at? ⟨ks⟩ := by
    rw [at?, follow, hp]
    show (p.member? hop.index >>= _) = _
    rw [hm]
    rfl
  refine ⟨?_, fun ks => ?_, ?_, ?_⟩
  · rw [hnew, if_pos rfl]
    exact hc.here
  · rw [List.cons_append, hnew, if_pos rfl]
    exact hc.below ks
  · rintro ⟨_ | ⟨k, ks⟩⟩ hcover hcovered
    · exact absurd List.nil_prefix hcovered
    · rw [hnew]
      -- The two part here, or both go through the same member and part further down.
      split
      · next hk =>
        subst hk
        rw [hold]
        exact hc.apart ⟨ks⟩ (fun h => hcover (List.cons_prefix_cons.mpr ⟨rfl, h⟩))
          fun h => hcovered (List.cons_prefix_cons.mpr ⟨rfl, h⟩)
      · rfl
  · rintro ⟨_ | ⟨k, ks⟩⟩ hop' hcovers
    · obtain ⟨rfl, -⟩ := List.cons_prefix_cons.mp hcovers
      exact ⟨e, _, rfl, rfl, .setMember hp hm m'⟩
    · obtain ⟨rfl, hbelow⟩ := List.cons_prefix_cons.mp hcovers
      rw [hnew, if_pos rfl, hold]
      exact hc.above ⟨ks⟩ hop' hbelow

theorem changeAlong (ht : e.follow hops = some t) (h : e.changeAlong f hops = some e') :
    e.ChangedAt ⟨hops⟩ (f t) e' := by
  induction hops generalizing e e' with
  | nil =>
    cases ht
    cases h
    exact .atRoot _ _
  | cons hop hops ih =>
    obtain ⟨p, m, m', hp, hm, ht, hm', rfl⟩ := changeAlong_cons_of_follow ht h
    exact .setMember hp hm (ih ht hm')

end ChangedAt

/-- A change after another at the same place is one change. -/
theorem changeAlong_changeAlong (ht : e.follow hops = some t)
    (h : e.changeAlong f hops = some e') :
    e'.changeAlong g hops = e.changeAlong (g ∘ f) hops := by
  induction hops generalizing e e' with
  | nil =>
    cases h
    rfl
  | cons hop hops ih =>
    obtain ⟨p, m, m', hp, hm, ht, hm', rfl⟩ := changeAlong_cons_of_follow ht h
    have hp' : (e.shelve hop.species (p.setMember hop.index m')).population? hop.species =
        some (p.setMember hop.index m') := (Table.get?_set hop.species).trans (if_pos rfl)
    have hm'' : (p.setMember hop.index m').member? hop.index = some m' := by
      rw [Population.member?_setMember hm, if_pos rfl]
    simp only [Entity.changeAlong, hp', hm'', hp, hm, Option.bind_eq_bind, Option.bind_some,
      shelve_setMember hm, ih ht hm']

/-! ### Owners -/

theorem last?_child (r : Address) (species : String) (index : UInt32) :
    (r.child species index).last? = some ⟨species, index⟩ := by
  simp [Address.last?, Address.child]

theorem owningPopulation?_child (root : Entity) (r : Address) (species : String)
    (index : UInt32) : root.owningPopulation? (r.child species index) =
      (root.at? r).bind (·.population? species) := by
  simp [owningPopulation?, last?_child, Address.parent?_child]

/-! ### The lens -/

/-- What an address is good for in a tree. -/
structure Lens (root : Entity) (r : Address) : Prop where
  /-- Something can be changed there just where something can be read there. -/
  isSome : ∀ f, (root.modify? r f).isSome = (root.at? r).isSome
  /-- What is changed is what is read. -/
  exposes : ∀ f g, (∀ e, root.at? r = some e → f e = g e) → root.modify? r f = root.modify? r g
  /-- To leave the entity as it is is to leave the tree as it is. -/
  unchanged : ∀ f e, root.at? r = some e → f e = e → root.modify? r f = some root
  /-- What was changed is read back, and nothing else is different. -/
  changed : ∀ f e, root.at? r = some e →
    ∃ root', root.modify? r f = some root' ∧ root.ChangedAt r (f e) root'
  /-- Two changes are one. -/
  twice : ∀ f g, (root.modify? r f).bind (·.modify? r g) = root.modify? r (g ∘ f)
  /-- A hop further down is a member of what is read there. -/
  child : ∀ species index,
    (root.at? (r.child species index) =
      (root.at? r).bind fun e => (e.population? species).bind (·.member? index)) ∧
    (r.child species index).parent? = some r
  /-- What is read below the root is a member of the population that the address goes through
  last. -/
  owned : ∀ e, r ≠ .root → root.at? r = some e →
    ∃ hop p, r.last? = some hop ∧ root.owningPopulation? r = some p ∧
      p.member? hop.index = some e

/-- **Every address is a lens** in every tree. -/
theorem lens (root : Entity) (r : Address) : root.Lens r where
  isSome f := changeAlong_isSome f root r.hops
  exposes f g h := changeAlong_congr h
  unchanged f e he hf := changeAlong_of_follow he hf
  changed f e he := by
    obtain ⟨root', hroot'⟩ := exists_changeAlong f he
    exact ⟨root', hroot', .changeAlong he hroot'⟩
  twice f g := by
    cases he : root.at? r with
    | none =>
      rw [modify?, modify?, changeAlong_eq_none he, changeAlong_eq_none he, Option.bind_none]
    | some e =>
      obtain ⟨root', hroot'⟩ := exists_changeAlong f he
      rw [modify?, hroot']
      exact changeAlong_changeAlong he hroot'
  child species index := by
    refine ⟨Option.ext fun m => at?_child.trans ?_, Address.parent?_child r species index⟩
    simp [Option.bind_eq_some_iff]
  owned e hr he := by
    rcases r.root_or_child with rfl | ⟨q, hop, rfl⟩
    · exact absurd rfl hr
    · obtain ⟨owner, howner, p, hp, hm⟩ := at?_child.mp he
      refine ⟨hop, p, last?_child q _ _, ?_, hm⟩
      rw [owningPopulation?_child, howner]
      exact hp

/-- An egg two hops down is overwritten with one of another index: that one is read back where the
egg was, its owners are the same but for the way down to it, and the population that the egg is in
has it under its index. -/
theorem lens_egg :
    ∃ egg root', Sample.brood.at? Sample.egg = some egg ∧
      Sample.brood.modify? Sample.egg (fun _ => .new "egg" 7) = some root' ∧
      Sample.brood.ChangedAt Sample.egg (.new "egg" 7) root' ∧
      ∃ p, Sample.brood.owningPopulation? Sample.egg = some p ∧ p.member? 0 = some egg := by
  have hsome : (Sample.brood.at? Sample.egg).isSome = true := by decide
  obtain ⟨egg, hegg⟩ := Option.isSome_iff_exists.mp hsome
  have hlens := lens Sample.brood Sample.egg
  obtain ⟨root', hmodify, hchanged⟩ := hlens.changed (fun _ => .new "egg" 7) egg hegg
  obtain ⟨hop, p, hlast, hp, hm⟩ := hlens.owned egg (by decide) hegg
  cases hlast
  exact ⟨egg, root', hegg, hmodify, hchanged, p, hp, hm⟩

end Entity
end Rewind
