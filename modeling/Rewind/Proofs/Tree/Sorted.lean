import Rewind.Proofs.Table
import Rewind.Proofs.Tree.Walk

/-! Trees in which everything is where it says that it is.

A population is put under a species and a member under an index, and each has a species or an index
of itself besides. In a tree that is `Sorted` the two are the same at every place, and members stand
in the order of their indices. A population stays sorted whatever is put into it
(`Population.Sorted.insert`), and so it does when a member gives way to another one of the same
index (`Population.Sorted.setMember`). -/

namespace Rewind

/-! ### Members in their order -/

namespace Members
variable {index : UInt32} {e : Entity} {ms : List (UInt32 × Entity)}

theorem put_of_forall_lt (h : ∀ m ∈ ms, m.1 < index) : put index e ms = ms ++ [(index, e)] := by
  induction ms with
  | nil => rfl
  | cons m ms ih =>
    obtain ⟨hm, hms⟩ := List.forall_mem_cons.mp h
    have hle : ¬ index < m.1 := UInt32.not_lt.mpr (UInt32.le_of_lt hm)
    rw [put, if_neg hle, if_neg (UInt32.ne_of_lt hm), ih hms]
    rfl

theorem mem_put {m : UInt32 × Entity} (h : m ∈ put index e ms) : m = (index, e) ∨ m ∈ ms := by
  induction ms with
  | nil => exact .inl (List.mem_singleton.mp h)
  | cons n ms ih =>
    unfold put at h
    split at h
    · exact List.mem_cons.mp h
    · split at h
      · next heq => exact (List.mem_cons.mp h).imp (heq ▸ ·) (List.mem_cons_of_mem _)
      · rcases List.mem_cons.mp h with h | h
        · exact .inr (h ▸ List.mem_cons_self)
        · exact (ih h).imp_right (List.mem_cons_of_mem _)

theorem mem_keys_put {i : UInt32} (h : i ∈ (put index e ms).map Prod.fst) :
    i = index ∨ i ∈ ms.map Prod.fst := by
  obtain ⟨m, hm, rfl⟩ := List.mem_map.mp h
  rcases mem_put hm with rfl | hm
  · exact .inl rfl
  · exact .inr (List.mem_map_of_mem hm)

theorem find_put (index' : UInt32) (ms : List (UInt32 × Entity)) :
    Table.find index' (put index e ms) =
      if index = index' then some e else Table.find index' ms := by
  induction ms with
  | nil => rfl
  | cons m ms ih =>
    obtain ⟨i, m⟩ := m
    rw [put]
    split
    · rfl
    · split
      · next hi =>
        subst hi
        rw [Table.find, Table.find]
        split <;> rfl
      · next hi =>
        rw [Table.find, Table.find, ih]
        by_cases hi' : i = index'
        · subst hi'
          rw [if_pos rfl, if_pos rfl, if_neg (Ne.symm hi)]
        · rw [if_neg hi', if_neg hi']

/-- Putting a member where it is already changes nothing. -/
theorem put_of_find (h : Table.find index ms = some e) (hs : (ms.map Prod.fst).Pairwise (· < ·)) :
    put index e ms = ms := by
  induction ms with
  | nil => cases h
  | cons m ms ih =>
    obtain ⟨i, m⟩ := m
    obtain ⟨hm, hs⟩ := List.pairwise_cons.mp hs
    rw [Table.find] at h
    rw [put]
    split at h
    · next hi =>
      cases h
      rw [hi, if_neg (UInt32.lt_irrefl _), if_pos rfl]
    · next hi =>
      have hlt : i < index := hm _ (List.mem_map_of_mem (Table.mem_of_get? (t := ⟨ms⟩) h))
      rw [if_neg (UInt32.not_lt.mpr (UInt32.le_of_lt hlt)), if_neg hi, ih h hs]

theorem pairwise_put (h : (ms.map Prod.fst).Pairwise (· < ·)) :
    ((put index e ms).map Prod.fst).Pairwise (· < ·) := by
  induction ms with
  | nil => exact List.pairwise_singleton _ _
  | cons m ms ih =>
    obtain ⟨hm, hms⟩ := List.pairwise_cons.mp h
    unfold put
    split
    · next hlt =>
      refine List.pairwise_cons.mpr ⟨fun i hi => ?_, h⟩
      rcases List.mem_cons.mp hi with hi | hi
      · rw [hi]; exact hlt
      · exact UInt32.lt_trans hlt (hm i hi)
    · next hge =>
      split
      · exact h
      · next hne =>
        refine List.pairwise_cons.mpr ⟨fun i hi => ?_, ih hms⟩
        rcases mem_keys_put hi with rfl | hi
        · exact UInt32.lt_of_le_of_ne (UInt32.not_lt.mp hge) hne
        · exact hm i hi

end Members

/-! ### Populations -/

/-- The members are under their own indices, in the order of these. -/
structure Population.Sorted (p : Population Entity) : Prop where
  increasing : p.members.keys.Pairwise (· < ·)
  keyed : p.members.Keyed Entity.index

namespace Population
variable {p : Population Entity} {e m : Entity} {index : UInt32}

theorem mem_insert (h : m ∈ (p.insert e).members.values) : m = e ∨ m ∈ p.members.values := by
  obtain ⟨i, hi⟩ := Table.mem_values_iff.mp h
  rcases Members.mem_put hi with heq | hmem
  · exact .inl (congrArg Prod.snd heq)
  · exact .inr (Table.mem_values_iff.mpr ⟨i, hmem⟩)

/-- What is true of the members and of the one that is inserted is true of all then. -/
theorem forall_mem_insert {P : Entity → Prop} (h : ∀ m ∈ p.members.values, P m) (he : P e) :
    ∀ m ∈ (p.insert e).members.values, P m := by
  intro m hm
  rcases mem_insert hm with rfl | hm
  · exact he
  · exact h m hm

theorem mem_erase (h : m ∈ (p.erase index).members.values) : m ∈ p.members.values :=
  (Table.drop_sublist.map Prod.snd).subset h

theorem mem_setMember (h : m ∈ (p.setMember index e).members.values) :
    m = e ∨ m ∈ p.members.values := by
  obtain ⟨i, hi⟩ := Table.mem_values_iff.mp h
  rcases Table.mem_entries_update hi with heq | hmem
  · exact .inl (congrArg Prod.snd heq)
  · exact .inr (Table.mem_values_iff.mpr ⟨i, hmem⟩)

theorem forall_mem_setMember {P : Entity → Prop} (h : ∀ m ∈ p.members.values, P m) (he : P e) :
    ∀ m ∈ (p.setMember index e).members.values, P m := by
  intro m hm
  rcases mem_setMember hm with rfl | hm
  · exact he
  · exact h m hm

/-- Spawning leaves the members as they are, or inserts a new one. -/
theorem members_spawn (p : Population Entity) :
    p.spawn.members = p.members ∨
      p.spawn.members = (p.insert (.new p.species p.nextIndex)).members := by
  unfold spawn
  split
  · exact .inl rfl
  · exact .inr rfl

theorem mem_spawn (h : m ∈ p.spawn.members.values) :
    m = .new p.species p.nextIndex ∨ m ∈ p.members.values := by
  rcases p.members_spawn with hspawn | hspawn <;> rw [hspawn] at h
  · exact .inr h
  · exact mem_insert h

theorem forall_mem_spawn {P : Entity → Prop} (h : ∀ m ∈ p.members.values, P m)
    (hnew : P (.new p.species p.nextIndex)) : ∀ m ∈ p.spawn.members.values, P m := by
  intro m hm
  rcases mem_spawn hm with rfl | hm
  · exact hnew
  · exact h m hm

namespace Sorted

theorem counting (species : String) (nextIndex : UInt32) : (counting species nextIndex).Sorted :=
  ⟨.nil, .empty _⟩

theorem insert (h : p.Sorted) (e : Entity) : (p.insert e).Sorted := by
  refine ⟨Members.pairwise_put h.increasing, fun m hm => ?_⟩
  rcases Members.mem_put hm with rfl | hm
  · rfl
  · exact h.keyed m hm

theorem spawn (h : p.Sorted) : p.spawn.Sorted := by
  rcases p.members_spawn with hspawn | hspawn
  · exact ⟨hspawn ▸ h.increasing, hspawn ▸ h.keyed⟩
  · have hinsert := h.insert (.new p.species p.nextIndex)
    exact ⟨hspawn ▸ hinsert.increasing, hspawn ▸ hinsert.keyed⟩

theorem erase (h : p.Sorted) : (p.erase index).Sorted :=
  ⟨h.increasing.sublist (Table.drop_sublist.map _), h.keyed.erase⟩

/-- What replaces a member has to have its index. -/
theorem setMember (h : p.Sorted) (he : e.index = index) : (p.setMember index e).Sorted := by
  refine ⟨?_, h.keyed.update he⟩
  show (p.members.update index _).keys.Pairwise (· < ·)
  rw [Table.keys_update]
  exact h.increasing

theorem indexed (h : p.Sorted) : p.members.Indexed Entity.index :=
  ⟨h.increasing.imp UInt32.ne_of_lt, h.keyed⟩

theorem indices (h : p.Sorted) : (p.members.values.map Entity.index).Pairwise (· < ·) :=
  h.keyed.keys_eq ▸ h.increasing

end Sorted
end Population

/-! ### Entities -/

namespace Entity

/-- Populations are under their own species, and what is in them is sorted. -/
structure Sorted (e : Entity) : Prop where
  species : e.populations.Indexed Population.species
  members : ∀ p ∈ e.populations.values, p.Sorted

variable {e : Entity} {p q : Population Entity} {species : String}

theorem mem_shelve (h : q ∈ (e.shelve species p).populations.values) :
    q = p ∨ q ∈ e.populations.values := Table.mem_put h

theorem forall_mem_shelve {P : Population Entity → Prop} (h : ∀ q ∈ e.populations.values, P q)
    (hp : P p) : ∀ q ∈ (e.shelve species p).populations.values, P q := by
  intro q hq
  rcases mem_shelve hq with rfl | hq
  · exact hp
  · exact h q hq

end Entity
end Rewind
