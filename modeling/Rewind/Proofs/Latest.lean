import Mathlib.Data.List.Induction
import Mathlib.Data.List.Sort
import Rewind.Proofs.Table
import Rewind.Proofs.Tree.Snapshot

/-! Things written more than once.

A document may give an attribute, a population or a member several times. Whoever puts the parts
of an entity together one by one lets each supersede the one before it, where that stands: of every
name there stays the last, in the place of the first (`latest`). The populations of an entity go the
same way (`Entity.foldl_setPopulation_bare`), and so do the members of a population, except that
they stand in the order of their indices (`Members.foldl_put`). -/

namespace Rewind

section
variable {κ α : Type} [DecidableEq κ] {key : α → κ} {as bs : List α} {a b : α}

variable (key) in
/-- Of the items with the same key the last, in the place of the first. -/
def latest (as : List α) : List α :=
  (as.map key).eraseDups.filterMap fun k => as.reverse.find? fun a => key a = k

variable (key) in
/-- An item in place of those with its key, or else at the end. -/
def supersede (a : α) (as : List α) : List α :=
  if key a ∈ as.map key then as.map fun b => if key b = key a then a else b else as ++ [a]

theorem eraseDups_concat (ks : List κ) (k : κ) :
    (ks ++ [k]).eraseDups = if k ∈ ks then ks.eraseDups else ks.eraseDups ++ [k] := by
  rw [List.eraseDups_append]
  by_cases h : k ∈ ks <;> simp [List.removeAll, List.eraseDups_cons, h]

/-- What is found last under a key has that key. -/
theorem key_of_find?_reverse {k : κ} (h : (as.reverse.find? fun a => key a = k) = some a) :
    a ∈ as ∧ key a = k :=
  ⟨List.mem_reverse.mp (List.mem_of_find?_eq_some h), by simpa using List.find?_some h⟩

theorem exists_find?_reverse {k : κ} (h : k ∈ as.map key) :
    ∃ a, (as.reverse.find? fun a => key a = k) = some a := by
  obtain ⟨a, ha, hk⟩ := List.mem_map.mp h
  rw [← Option.isSome_iff_exists, List.find?_isSome]
  exact ⟨a, List.mem_reverse.mpr ha, by simpa using hk⟩

theorem mem_map_latest {k : κ} : k ∈ (latest key as).map key ↔ k ∈ as.map key := by
  constructor
  · intro h
    obtain ⟨a, ha, rfl⟩ := List.mem_map.mp h
    obtain ⟨k, -, hk⟩ := List.mem_filterMap.mp ha
    exact List.mem_map_of_mem (key_of_find?_reverse hk).1
  · intro h
    obtain ⟨a, ha⟩ := exists_find?_reverse h
    exact List.mem_map.mpr
      ⟨a, List.mem_filterMap.mpr ⟨k, List.mem_eraseDups.mpr h, ha⟩, (key_of_find?_reverse ha).2⟩

/-- One more item supersedes those with its key. -/
theorem latest_concat (as : List α) (a : α) :
    latest key (as ++ [a]) = supersede key a (latest key as) := by
  rw [supersede]
  simp only [mem_map_latest]
  rw [latest, List.map_append, List.map_singleton, eraseDups_concat]
  split
  · rw [latest, List.map_filterMap]
    refine List.filterMap_congr fun k hk => ?_
    obtain ⟨b, hb⟩ := exists_find?_reverse (List.mem_eraseDups.mp hk)
    rw [hb, Option.map_some, (key_of_find?_reverse hb).2]
    by_cases hk : key a = k
    · simp [hk]
    · simp [hk, Ne.symm hk, hb]
  · next hnew =>
    rw [List.filterMap_append, latest]
    congr 1
    · refine List.filterMap_congr fun k hk => ?_
      have hne : key a ≠ k := fun h => hnew (h ▸ List.mem_eraseDups.mp hk)
      simp [hne]
    · simp

theorem map_supersede : (supersede key a as).map key =
    if key a ∈ as.map key then as.map key else as.map key ++ [key a] := by
  rw [supersede]
  split
  · rw [List.map_map]
    refine List.map_congr_left fun b _ => ?_
    rw [Function.comp]
    split
    · next h => exact h.symm
    · rfl
  · rw [List.map_append, List.map_singleton]

theorem nodup_map_supersede (h : (as.map key).Nodup) : ((supersede key a as).map key).Nodup := by
  rw [map_supersede]
  split
  · exact h
  · next hnew =>
    refine List.nodup_append.mpr ⟨h, List.pairwise_singleton _ _, fun k hk k' hk' => ?_⟩
    rw [List.mem_singleton.mp hk']
    exact fun heq => hnew (heq ▸ hk)

theorem nodup_map_latest (as : List α) : ((latest key as).map key).Nodup := by
  induction as using List.reverseRecOn with
  | nil => exact .nil
  | append_singleton as a ih =>
    rw [latest_concat]
    exact nodup_map_supersede ih

/-- Putting items one after the other, each over the one with its key, leaves the last of each. -/
theorem foldl_eq_latest {put : List α → α → List α}
    (hput : ∀ as a, (as.map key).Nodup → put as a = supersede key a as) (as : List α) :
    as.foldl put [] = latest key as := by
  induction as using List.reverseRecOn with
  | nil => rfl
  | append_singleton as a ih =>
    rw [List.foldl_concat, ih, hput _ a (nodup_map_latest as), latest_concat]

/-- An item at the front that is not the one. -/
theorem supersede_cons_of_ne (h : key b ≠ key a) :
    supersede key a (b :: as) = b :: supersede key a as := by
  have hmem : key a ∈ (b :: as).map key ↔ key a ∈ as.map key := by simp [Ne.symm h]
  rw [supersede, supersede]
  simp only [hmem]
  split
  · rw [List.map_cons, if_neg h]
  · rfl

/-- An item at the front that is the one, and the only one. -/
theorem supersede_cons_of_eq (h : key b = key a) (hnew : key a ∉ as.map key) :
    supersede key a (b :: as) = a :: as := by
  rw [supersede, if_pos (by simp [h]), List.map_cons, if_pos h]
  refine congrArg (a :: ·) ((List.map_congr_left fun c hc => ?_).trans (List.map_id as))
  have hne : key c ≠ key a := fun heq => hnew (heq ▸ List.mem_map_of_mem hc)
  exact if_neg hne

theorem supersede_map {β : Type} (f : β → α) (b : β) (bs : List β) :
    supersede key (f b) (bs.map f) = (supersede (fun b => key (f b)) b bs).map f := by
  rw [supersede, supersede, List.map_map]
  simp only [Function.comp_def]
  split
  · rw [List.map_map, List.map_map]
    exact List.map_congr_left fun c _ => (apply_ite f _ _ _).symm
  · rw [List.map_append, List.map_singleton]

theorem latest_map {β : Type} (f : β → α) (bs : List β) :
    latest key (bs.map f) = (latest (fun b => key (f b)) bs).map f := by
  induction bs using List.reverseRecOn with
  | nil => rfl
  | append_singleton bs b ih =>
    rw [List.map_append, List.map_singleton, latest_concat, latest_concat, ih, supersede_map]

/-- The same items in another order, with one superseded. -/
theorem supersede_perm (h : as.Perm bs) : (supersede key a as).Perm (supersede key a bs) := by
  rw [supersede, supersede]
  simp only [(h.map key).mem_iff]
  split
  · exact h.map _
  · exact h.append_right _

end

/-! ### The parts of an entity -/

theorem Table.put_eq_supersede {κ α : Type} [DecidableEq κ] {a : κ × α} {as : List (κ × α)}
    (h : (as.map Prod.fst).Nodup) : put a.1 a.2 as = supersede Prod.fst a as := by
  induction as with
  | nil => rfl
  | cons b as ih =>
    obtain ⟨hb, has⟩ := List.nodup_cons.mp h
    rw [put]
    split
    · next hkey =>
      rw [supersede_cons_of_eq hkey (hkey ▸ hb), hkey]
    · next hkey => rw [supersede_cons_of_ne hkey, ih has]

/-- A table that is filled one by one has the last value of each key. -/
theorem Table.ofList_eq_latest {κ α : Type} [DecidableEq κ] (as : List (κ × α)) :
    ofList as = ⟨latest Prod.fst as⟩ := by
  have hfold : as.foldl (fun t p => t.set p.1 p.2) (empty : Table κ α) =
      ⟨as.foldl (fun es p => put p.1 p.2 es) []⟩ :=
    List.foldl_hom Table.mk fun _ _ => rfl
  rw [ofList, hfold, foldl_eq_latest fun es a h => put_eq_supersede h]

/-- The same with values under their own keys. -/
theorem Table.foldl_set_eq_latest {κ α : Type} [DecidableEq κ] (own : α → κ) (as : List α) :
    as.foldl (fun t a => t.set (own a) a) empty = under own (latest own as) := by
  have hlist : as.foldl (fun t a => t.set (own a) a) empty =
      ofList (as.map fun a => (own a, a)) := by
    rw [ofList, List.foldl_map]
  rw [hlist, ofList_eq_latest, latest_map]
  rfl

/-- An entity that is given populations one by one has the last of each species. -/
theorem Entity.foldl_setPopulation_bare (e : Entity) (ps : List (Population Entity)) :
    ps.foldl setPopulation { e with populations := .empty } =
      { e with populations := .under Population.species (latest Population.species ps) } := by
  have hfold : ps.foldl setPopulation { e with populations := .empty } =
      { e with populations := ps.foldl (fun t p => t.set p.species p) .empty } :=
    List.foldl_hom (fun t => ({ e with populations := t } : Entity)) fun _ _ => rfl
  rw [hfold, Table.foldl_set_eq_latest]

namespace Members

/-- Members in the order of their indices. -/
def sorted (ms : List Entity) : List Entity := ms.insertionSort fun m n => m.index ≤ n.index

theorem put_perm {index : UInt32} {e : Entity} {ms : List (UInt32 × Entity)}
    (h : (ms.map Prod.fst).Pairwise (· < ·)) :
    (put index e ms).Perm (supersede Prod.fst (index, e) ms) := by
  induction ms with
  | nil => exact .refl _
  | cons m ms ih =>
    obtain ⟨i, m⟩ := m
    obtain ⟨hm, hms⟩ := List.pairwise_cons.mp h
    rw [put]
    split
    · next hlt =>
      -- all members come after the new one
      have hnew : index ∉ ((i, m) :: ms).map Prod.fst := by
        rw [List.map_cons, List.mem_cons, not_or]
        exact ⟨UInt32.ne_of_lt hlt,
          fun hmem => UInt32.lt_irrefl _ (UInt32.lt_trans hlt (hm _ hmem))⟩
      rw [supersede, if_neg hnew]
      exact (List.perm_append_singleton (index, e) ((i, m) :: ms)).symm
    · split
      · next hkey =>
        subst hkey
        have hnew : i ∉ ms.map Prod.fst := fun hmem => UInt32.lt_irrefl _ (hm _ hmem)
        have hcons : supersede Prod.fst (i, e) ((i, m) :: ms) = (i, e) :: ms :=
          supersede_cons_of_eq rfl hnew
        rw [hcons]
      · next hkey =>
        rw [supersede_cons_of_ne hkey]
        exact (ih hms).cons (i, m)

theorem entries_eq_of_perm {es : List (UInt32 × Entity)} {ms : List Entity}
    (hperm : es.Perm (Table.under Entity.index ms).entries)
    (h : (es.map Prod.fst).Pairwise (· < ·)) :
    (Table.under Entity.index (sorted ms)).entries = es := by
  let le (m n : UInt32 × Entity) : Prop := m.1 ≤ n.1
  have hsorted : (Table.under Entity.index (sorted ms)).entries.Perm es :=
    ((List.perm_insertionSort _ ms).map _).trans hperm.symm
  have hdistinct (m n : UInt32 × Entity) (hm : m ∈ (Table.under Entity.index (sorted ms)).entries)
      (hn : n ∈ es) (hindex : m.1 = n.1) : m = n :=
    List.inj_on_of_nodup_map (h.imp UInt32.ne_of_lt) (hsorted.mem_iff.mp hm) hn hindex
  have htotal : Std.Total fun m n : Entity => m.index ≤ n.index :=
    ⟨fun m n => UInt32.le_total m.index n.index⟩
  have htrans : IsTrans Entity fun m n => m.index ≤ n.index := ⟨fun _ _ _ => UInt32.le_trans⟩
  have hle : (Table.under Entity.index (sorted ms)).entries.Pairwise le :=
    List.pairwise_map.mpr (List.pairwise_insertionSort _ ms)
  exact List.Perm.eq_of_pairwise
    (fun m n hm hn hmn hnm => hdistinct m n hm hn (UInt32.le_antisymm hmn hnm)) hle
    ((List.pairwise_map.mp h).imp UInt32.le_of_lt) hsorted

/-- Members that are put one by one: the last of each index, in the order of the indices. -/
theorem foldl_put (ms : List Entity) :
    ms.foldl (fun es m => put m.index m es) [] =
      (Table.under Entity.index (sorted (latest Entity.index ms))).entries := by
  suffices (ms.foldl (fun es m => put m.index m es) []).Perm
        (Table.under Entity.index (latest Entity.index ms)).entries ∧
      ((ms.foldl (fun es m => put m.index m es) []).map Prod.fst).Pairwise (· < ·) from
    (entries_eq_of_perm this.1 this.2).symm
  induction ms using List.reverseRecOn with
  | nil => exact ⟨.refl _, .nil⟩
  | append_singleton ms m ih =>
    obtain ⟨hperm, hpairwise⟩ := ih
    have hunder : (Table.under Entity.index (latest Entity.index (ms ++ [m]))).entries =
        supersede Prod.fst (m.index, m)
          (Table.under Entity.index (latest Entity.index ms)).entries := by
      rw [latest_concat]
      exact Eq.symm (supersede_map (fun m : Entity => (m.index, m)) m _)
    rw [List.foldl_concat, hunder]
    exact ⟨(put_perm hpairwise).trans (supersede_perm hperm), pairwise_put hpairwise⟩

end Members

/-- A population that is given members below its counter has the last of each index, and its
counter stays. -/
theorem Population.foldl_insert_counting {species : String} {nextIndex : UInt32}
    {ms : List Entity} (h : ∀ m ∈ ms, m.index < nextIndex) :
    ms.foldl insert (.counting species nextIndex) =
      ⟨species, nextIndex, .under Entity.index (Members.sorted (latest Entity.index ms))⟩ := by
  suffices ∀ es, ms.foldl insert ⟨species, nextIndex, ⟨es⟩⟩ =
      ⟨species, nextIndex, ⟨ms.foldl (fun es m => Members.put m.index m es) es⟩⟩ from
    (this []).trans (by rw [Members.foldl_put])
  induction ms with
  | nil => exact fun _ => rfl
  | cons m ms ih =>
    obtain ⟨hm, hms⟩ := List.forall_mem_cons.mp h
    intro es
    rw [List.foldl_cons, List.foldl_cons, insert, max_indexAfter hm, ih hms]

end Rewind
