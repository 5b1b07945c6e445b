import Rewind.Proofs.HeldValue

/-! Entities that are taken elsewhere.

Some entities of a tree can go where there are no members if they take along what they
need: their owners, and all that they and their members name (`Entity.SelfContained`).
Written as a list, owners first, they are put under the other root one by one, and each is
there what it was (`Entity.placeAll_firsts`). An entity that is named before its owner is
written apart from it, and when it is put there is no owner yet to put it under. So
whether such a list arrives is a question of its order only
(`StandardFormat.rebuild_iff_ownersFirst`). -/

namespace Rewind

variable {c : Context} {root target : Entity} {a b : Address} {as : List Address}

/-! ### Entities with their owners -/

/-- Some entities of a tree, none of them the root, and all their owners but the root. -/
structure Entity.WithOwners (root : Entity) (as : List Address) : Prop where
  ne_root : ∀ a ∈ as, a ≠ .root
  resolves : ∀ a ∈ as, root.Resolves a
  owners : ∀ a ∈ as, ∀ o : Address, o.Covers a → o ≠ .root → o ∈ as

/-- And what they and their members hold is the root, one of them, or inside of one. -/
structure Entity.SelfContained (root : Entity) (as : List Address) : Prop
    extends root.WithOwners as where
  held : ∀ a ∈ as, ∀ e, root.at? a = some e → ∀ b, e.Holds b → b = .root ∨ ∃ o ∈ as, o.Covers b

namespace Address

theorem ne_root_iff : a ≠ .root ↔ ∃ h hs, a = ⟨h :: hs⟩ := by
  obtain ⟨_ | ⟨h, hs⟩⟩ := a
  · exact iff_of_false (fun h => h rfl) nofun
  · exact iff_of_true nofun ⟨h, hs, rfl⟩

theorem covers_first (h : Hop) (hs : List Hop) : Covers ⟨[h]⟩ ⟨h :: hs⟩ := ⟨hs, rfl⟩

theorem eq_first_of_covers {h : Hop} {hs : List Hop} (ha : a ≠ .root) (hd : a.depth = 1)
    (hc : a.Covers ⟨h :: hs⟩) : a = ⟨[h]⟩ := by
  obtain ⟨h', hs', rfl⟩ := ne_root_iff.mp ha
  obtain rfl : hs' = [] := List.length_eq_zero_iff.mp (Nat.succ.inj hd)
  obtain ⟨_, heq⟩ := hc
  rw [(List.cons.inj heq).1]

end Address

namespace Entity.WithOwners

theorem first_mem (h : root.WithOwners as) {hop : Hop} {hs : List Hop} (ha : ⟨hop :: hs⟩ ∈ as) :
    ⟨[hop]⟩ ∈ as :=
  h.owners _ ha _ (Address.covers_first hop hs) nofun

/-- Under the root there is a top for every entity of the list. -/
theorem first_mem_tops (h : root.WithOwners as) {hop : Hop} {hs : List Hop}
    (ha : ⟨hop :: hs⟩ ∈ as) : ⟨[hop]⟩ ∈ Address.tops [] as := by
  obtain ⟨t, ht, hc⟩ := Address.exists_top_covers [] (h.first_mem ha)
  have hroot := h.ne_root t (Address.mem_of_mem_tops ht)
  have hd : t.depth = 1 := by
    obtain ⟨_, _, rfl⟩ := Address.ne_root_iff.mp hroot
    exact Nat.le_antisymm hc.depth_le (Nat.succ_le_succ (Nat.zero_le _))
  rwa [← Address.eq_first_of_covers hroot hd hc]

/-- Owners come first exactly if all tops are right under the root. -/
theorem ownersFirst_iff (h : root.WithOwners as) :
    Address.OwnersFirst as ↔ ∀ t ∈ Address.tops [] as, t.depth = 1 := by
  constructor
  · intro hfirst t ht
    obtain ⟨hop, hs, rfl⟩ :=
      Address.ne_root_iff.mp (h.ne_root t (Address.mem_of_mem_tops ht))
    have htop := h.first_mem_tops (Address.mem_of_mem_tops ht)
    rw [← hfirst.eq_of_covers htop ht (Address.covers_first hop hs)]
    rfl
  · intro hd
    refine Address.ownersFirst_iff_pairwise.mpr ((Address.pairwise_tops [] as).imp_of_mem ?_)
    intro t u ht hu hapart hut
    exact hapart (hut.eq_of_depth ((hd u hu).trans (hd t ht).symm) ▸ t.covers_refl)

end Entity.WithOwners

theorem Entity.selfContained_iff : root.SelfContained as ↔ ∀ a ∈ as, a ≠ .root ∧
    root.Resolves a ∧ (∀ hs ∈ a.hops.inits, hs ≠ [] → ⟨hs⟩ ∈ as) ∧
      ∀ e ∈ (root.at? a).toList, ∀ b ∈ e.references, b = .root ∨ ∃ o ∈ as, o.Covers b := by
  constructor
  · intro h a ha
    refine ⟨h.ne_root a ha, h.resolves a ha, fun hs hhs hne => ?_, fun e he b hb => ?_⟩
    · have hc : (⟨hs⟩ : Address).Covers a := (List.mem_inits _ _).mp hhs
      exact h.owners a ha ⟨hs⟩ hc fun heq => hne (congrArg Address.hops heq)
    · exact h.held a ha e (Option.mem_toList.mp he) b (mem_references.mp hb)
  · intro h
    refine ⟨⟨fun a ha => (h a ha).1, fun a ha => (h a ha).2.1, fun a ha o hc hne => ?_⟩,
      fun a ha e he b hb => ?_⟩
    · have hhs : o.hops ∈ a.hops.inits := (List.mem_inits _ _).mpr hc
      exact (h a ha).2.2.1 o.hops hhs fun heq => hne (congrArg Address.mk heq)
    · exact (h a ha).2.2.2 e (Option.mem_toList.mpr he) b (mem_references.mpr hb)

instance (root : Entity) (as : List Address) : Decidable (root.SelfContained as) :=
  decidable_of_iff _ Entity.selfContained_iff.symm

/-! ### Placing under a root -/

namespace Entity

theorem follow_of_populations_eq_empty (h : target.populations = .empty) (hop : Hop)
    (hs : List Hop) : target.follow (hop :: hs) = none := by
  rw [follow, population?, h]
  rfl

/-- Entities that belong right under the root of their tree are placed under any other
root, where each hides what has been there under its hop. -/
theorem placeAll_firsts (hsound : c.Sound (· < ·) root) {ts : List Address}
    (hd : ∀ t ∈ ts, t.depth = 1) (hr : ∀ t ∈ ts, root.Resolves t) (target : Entity) :
    ∃ placed, target.placeAll (root.arrivals ts) = .ok placed ∧
      (∀ h hs, placed.follow (h :: hs) =
        if ⟨[h]⟩ ∈ ts then root.follow (h :: hs) else target.follow (h :: hs)) ∧
      ∀ b, placed.Holds b → target.Holds b ∨ ∃ t ∈ ts, ∃ e, root.at? t = some e ∧ e.Holds b := by
  -- What comes first is placed first, so the target of the others already has it.
  induction ts generalizing target with
  | nil => exact ⟨target, rfl, fun _ _ => rfl, fun _ => .inl⟩
  | cons t ts ih =>
    obtain ⟨ht, hts⟩ := List.forall_mem_cons.mp hd
    obtain ⟨hrt, hrts⟩ := List.forall_mem_cons.mp hr
    obtain ⟨hops⟩ := t
    obtain ⟨hop, rfl⟩ := List.length_eq_one_iff.mp ht
    obtain ⟨e, he⟩ := resolves_iff.mp hrt
    obtain ⟨hspecies, hindex⟩ := hsound.self_of_at?_child (o := .root) he
    obtain ⟨placed, hplaced, hfollow, hholds⟩ :=
      ih hts hrts (target.withPopulation e.species (·.insert e))
    refine ⟨placed, ?_, fun h hs => ?_, fun b hb => ?_⟩
    · rw [arrivals, List.filterMap_cons, he]
      exact hplaced
    · have hinside : e.follow hs = root.follow (hop :: hs) := by
        rw [← List.singleton_append, follow_append]
        show _ = (root.at? ⟨[hop]⟩).bind _
        rw [he]
        rfl
      have hself : (⟨e.species, e.index⟩ : Hop) = hop := by rw [hspecies, hindex]
      rw [hfollow, follow_insert, hself, hinside]
      by_cases heq : h = hop
      · subst heq
        simp
      · have hmem : (⟨[h]⟩ : Address) ∈ (⟨[hop]⟩ : Address) :: ts ↔ ⟨[h]⟩ ∈ ts := by
          simp [heq]
        rw [if_neg heq, if_congr hmem rfl rfl]
    · rcases hholds b hb with hb | ⟨t, ht, e', he', hb⟩
      · rcases hb.of_insert with hb | hb
        · exact .inl hb
        · exact .inr ⟨_, List.mem_cons_self, e, he, hb⟩
      · exact .inr ⟨t, List.mem_cons_of_mem _ ht, e', he', hb⟩

/-- What is taken along is closed where it goes, and each entity is what it was. -/
theorem SelfContained.placeAll (h : root.SelfContained as) (hsound : c.Sound (· < ·) root)
    (hclosed : root.Closed) (hempty : target.populations = .empty) (htarget : target.Closed)
    (hfirst : Address.OwnersFirst as) :
    ∃ placed, target.placeAll (root.arrivals (Address.tops [] as)) = .ok placed ∧
      placed.Closed ∧ ∀ a ∈ as, placed.at? a = root.at? a := by
  have hmem (t : Address) (ht : t ∈ Address.tops [] as) : t ∈ as := Address.mem_of_mem_tops ht
  obtain ⟨placed, hplaced, hfollow, hholds⟩ := placeAll_firsts hsound
    (h.toWithOwners.ownersFirst_iff.mp hfirst) (fun t ht => h.resolves t (hmem t ht)) target
  have hat (o b : Address) (ho : o ∈ as) (hc : o.Covers b) : placed.at? b = root.at? b := by
    obtain ⟨hop, hs, rfl⟩ := Address.ne_root_iff.mp (h.ne_root o ho)
    obtain ⟨hs', hb⟩ := hc
    rw [at?, at?, ← hb, List.cons_append, hfollow, if_pos (h.toWithOwners.first_mem_tops ho)]
  refine ⟨placed, hplaced, fun b hb => ?_, fun a ha => hat a a ha a.covers_refl⟩
  rcases hholds b hb with hb | ⟨t, ht, e, he, hb⟩
  · -- The target has no members, so what it holds can only be its own root.
    have hroot : b = .root := by
      refine Classical.byContradiction fun hne => ?_
      obtain ⟨hop, hs, rfl⟩ := Address.ne_root_iff.mp hne
      have hres := htarget _ hb
      rw [Resolves, at?, follow_of_populations_eq_empty hempty] at hres
      cases hres
    exact hroot ▸ placed.resolves_root
  · rcases h.held t (hmem t ht) e he b hb with rfl | ⟨o, ho, hc⟩
    · exact placed.resolves_root
    · rw [Resolves, hat o b ho hc]
      exact hclosed b (hb.of_follow he)

/-- An entity that comes before its owner has nowhere to go. -/
theorem WithOwners.placeAll_eq_error (h : root.WithOwners as) (hsound : c.Sound (· < ·) root)
    (hempty : target.populations = .empty) (hfirst : ¬ Address.OwnersFirst as) :
    ∃ a ∈ as, ∃ o, a.parent? = some o ∧ o ≠ .root ∧
      target.placeAll (root.arrivals (Address.tops [] as)) = .error (.unresolved o) := by
  obtain ⟨before, t, after, heq, hbefore, hdeep⟩ :=
    exists_first_not (mt h.ownersFirst_iff.mpr hfirst)
  have hmem (u : Address) (hu : u ∈ before ++ t :: after) : u ∈ as :=
    Address.mem_of_mem_tops (heq ▸ hu)
  have ht : t ∈ as := hmem t (by simp)
  obtain ⟨placed, hplaced, hfollow, -⟩ := placeAll_firsts hsound hbefore
    (fun u hu => h.resolves u (hmem u (List.mem_append_left _ hu))) target
  obtain ⟨e, he⟩ := resolves_iff.mp (h.resolves t ht)
  rcases t.root_or_child with rfl | ⟨o, hop, rfl⟩
  · exact absurd rfl (h.ne_root _ ht)
  have horoot : o ≠ .root := by
    rintro rfl
    exact hdeep rfl
  have hnone : placed.at? o = none := by
    obtain ⟨first, hs, rfl⟩ := Address.ne_root_iff.mp horoot
    -- The owner right under the root would cover the top, so it has not been placed.
    have hnot : ⟨[first]⟩ ∉ before := fun hin => (Address.tops_eq_append_cons heq).2
      ⟨_, hin, (Address.covers_first first hs).trans (Address.covers_child _ _ _)⟩
    rw [at?, hfollow, if_neg hnot, follow_of_populations_eq_empty hempty]
  have hparent : (o.child hop.species hop.index).parent? = some o := Address.parent?_child _ _ _
  refine ⟨_, ht, o, hparent, horoot, ?_⟩
  have harrivals : root.arrivals (o.child hop.species hop.index :: after) =
      ⟨some o, e⟩ :: root.arrivals after := by
    rw [arrivals, List.filterMap_cons, he, ← hparent]
    rfl
  rw [heq, arrivals_append, placeAll_append, hplaced, harrivals]
  show placed.placeAll _ = _
  rw [placeAll, place_of_at?_eq_none hnone]
  rfl

end Entity

/-! ### Through a format -/

/-- **Entities with all they need are rebuilt elsewhere exactly if owners come first.** Then
the same list is read and each entity is what it was; otherwise an owner is not found. -/
theorem StandardFormat.rebuild_iff_ownersFirst {f : StandardFormat} {content : TypeExpr}
    (ht : root.Tidy) (hh : root.Housed) (hclosed : root.Closed) (hknown : c.Knows root)
    (has : root.SelfContained as) (hcontent : c.Registers content)
    (hempty : target.populations = .empty) (htarget : target.Closed) :
    ∃ d, Document.ofHeldValue root (.linkList content as) = .ok d ∧ (f.carries d = true →
      ∃ bs, f.format.encodeValue root (.linkList content as) = .ok bs ∧
        (Address.OwnersFirst as → ∃ placed,
          f.format.decodeValue c target bs = .ok (.linkList content as, placed) ∧
            ∀ a ∈ as, placed.at? a = root.at? a) ∧
        (¬ Address.OwnersFirst as → ∃ a ∈ as, ∃ o, a.parent? = some o ∧ o ≠ .root ∧
          f.format.decodeValue c target bs = .error (.unresolved o))) := by
  have hsound : c.Sound (· < ·) root := ⟨ht, hh, hknown⟩
  obtain ⟨form, hform, hportrays⟩ := Document.ofHeldValue_of_resolves
    (v := .linkList content as) ht (by rw [Value.links_linkList]; exact has.resolves)
  have hread := hportrays.read c hsound (Value.soundValue_linkList hcontent)
  rw [Value.links_linkList] at hread
  refine ⟨.ofValue form, hform, fun hcarries => ?_⟩
  obtain ⟨bs, hencode, hdecode⟩ := encodeValue_of_carries hform hcarries
  refine ⟨bs, hencode, fun hfirst => ?_, fun hfirst => ?_⟩
  · obtain ⟨placed, hplaced, hpclosed, hat⟩ :=
      has.placeAll hsound hclosed hempty htarget hfirst
    refine ⟨placed, ?_, hat⟩
    rw [hdecode]
    refine Document.value_ofValue_eq_ok hread hplaced hpclosed fun a ha => ?_
    have ha := Value.holds_linkList.mp ha
    rw [Entity.Resolves, hat a ha]
    exact has.resolves a ha
  · obtain ⟨a, ha, o, ho, horoot, herror⟩ :=
      has.toWithOwners.placeAll_eq_error hsound hempty hfirst
    refine ⟨a, ha, o, ho, horoot, ?_⟩
    rw [hdecode]
    exact Document.value_ofValue_eq_error hread herror

theorem StandardFormat.rebuild_iff_ownersFirst_brood :
    ∃ bs, json.format.encodeValue Sample.brood (.linkList (.simple "agent")
      [Sample.ant 0, Sample.egg]) = .ok bs ∧
    ∃ placed, json.format.decodeValue Sample.context .newRoot bs =
      .ok (.linkList (.simple "agent") [Sample.ant 0, Sample.egg], placed) ∧
        placed.at? Sample.egg = Sample.brood.at? Sample.egg := by
  have hself : Sample.brood.SelfContained [Sample.ant 0, Sample.egg] := by decide
  have hcontent : Sample.context.Registers (.simple "agent") := by decide
  have htarget : Entity.newRoot.Closed := by decide
  obtain ⟨d, hd, h⟩ := rebuild_iff_ownersFirst (f := json) Sample.built_brood.tidy (by decide)
    (by decide) (by decide) hself hcontent rfl htarget
  have hcarries : json.carries d = true := by
    cases hd
    decide
  obtain ⟨bs, hencode, hfirst, -⟩ := h hcarries
  obtain ⟨placed, hdecode, hat⟩ := hfirst (by decide)
  exact ⟨bs, hencode, placed, hdecode, hat _ (by simp)⟩

/-- Nothing but the order is wrong when the egg comes first. -/
theorem StandardFormat.not_rebuild_egg :
    (Sample.brood.Tidy ∧ Sample.brood.Housed ∧ Sample.brood.Closed ∧
      Sample.context.Knows Sample.brood ∧ Sample.brood.SelfContained [Sample.egg, Sample.ant 0]) ∧
    ∃ bs, binary.format.encodeValue Sample.brood (.linkList (.simple "agent")
      [Sample.egg, Sample.ant 0]) = .ok bs ∧
    binary.format.decodeValue Sample.context .newRoot bs = .error (.unresolved (Sample.ant 0)) := by
  refine ⟨⟨Sample.built_brood.tidy, by decide, by decide, by decide, by decide⟩, ?_⟩
  have hd : Document.ofHeldValue Sample.brood
      (.linkList (.simple "agent") [Sample.egg, Sample.ant 0]) = .ok _ := rfl
  obtain ⟨bs, hencode, hdecode⟩ := encodeValue_of_carries (f := binary) hd rfl
  exact ⟨bs, hencode, by rw [hdecode]; rfl⟩

end Rewind
