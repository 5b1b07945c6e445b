import Mathlib.Algebra.GroupWithZero.Nat
import Mathlib.Data.List.Basic
import Rewind.Table

/-! What a table has, and what is found in it after a change.

A table whose keys are distinct and are those that its values have of themselves is as good
as the list of its values (`Table.Indexed`). -/

namespace Rewind

/-! ### Putting parts together one by one -/

/-- Steps that put each part behind those before it end up with all of them in order. -/
theorem foldl_eq_of_append {α β : Type} {R : α → α → Prop} {step : β → α → β} {g : List α → β}
    {as : List α} (h : ∀ done, ∀ a ∈ as, (∀ b ∈ done, R b a) → step (g done) a = g (done ++ [a]))
    (hR : as.Pairwise R) : as.foldl step (g []) = g as := by
  suffices ∀ done, (∀ b ∈ done, ∀ a ∈ as, R b a) → as.foldl step (g done) = g (done ++ as) from
    this [] (List.forall_mem_nil _)
  induction as with
  | nil => intro done _; simp
  | cons a as ih =>
    intro done hdone
    obtain ⟨ha, hR⟩ := List.pairwise_cons.mp hR
    rw [List.foldl_cons, h done a List.mem_cons_self fun b hb => hdone b hb a List.mem_cons_self,
      ih (fun done b hb => h done b (List.mem_cons_of_mem _ hb)) hR, List.append_assoc]
    · rfl
    · intro b hb a' ha'
      rcases List.mem_append.mp hb with hb | hb
      · exact hdone b hb a' (List.mem_cons_of_mem _ ha')
      · rw [List.mem_singleton.mp hb]
        exact ha a' ha'

namespace Table

variable {κ α : Type} [DecidableEq κ] {t : Table κ α} {key : κ} {a : α} {es : List (κ × α)}

theorem put_of_forall_ne (h : ∀ e ∈ es, e.1 ≠ key) :
    put key a es = es ++ [(key, a)] := by
  induction es with
  | nil => rfl
  | cons e es ih =>
    obtain ⟨he, hes⟩ := List.forall_mem_cons.mp h
    rw [put, if_neg he, ih hes]
    rfl

/-- Entries with distinct keys are a table by being set one after the other. -/
theorem ofList_eq (h : (es.map Prod.fst).Nodup) : ofList es = ⟨es⟩ := by
  refine foldl_eq_of_append (R := fun b a => b.1 ≠ a.1) (g := fun es => (⟨es⟩ : Table κ α)) ?_
    (List.pairwise_map.mp h)
  intro done a _ hne
  simp only [set, put_of_forall_ne hne]

/-! ### Entries after a change -/

theorem map_fst_put : (put key a es).map Prod.fst =
    if key ∈ es.map Prod.fst then es.map Prod.fst else es.map Prod.fst ++ [key] := by
  induction es with
  | nil => rfl
  | cons e es ih =>
    obtain ⟨k, b⟩ := e
    rw [put]
    by_cases hk : k = key
    · simp [hk]
    · rw [if_neg hk, List.map_cons, ih]
      simp only [List.map_cons, List.mem_cons, Ne.symm hk, false_or]
      split <;> rfl

theorem nodup_put (h : (es.map Prod.fst).Nodup) : ((put key a es).map Prod.fst).Nodup := by
  rw [map_fst_put]
  split
  · exact h
  · next hkey => exact List.nodup_append.mpr ⟨h, List.pairwise_singleton _ _, fun b hb c hc hbc =>
      hkey (by rw [← List.mem_singleton.mp hc, ← hbc]; exact hb)⟩

theorem mem_of_mem_put {e : κ × α} (h : e ∈ put key a es) : e = (key, a) ∨ e ∈ es := by
  induction es with
  | nil => exact .inl (List.mem_singleton.mp h)
  | cons e' es ih =>
    obtain ⟨k, b⟩ := e'
    unfold put at h
    split at h
    · next hk =>
      rw [hk] at h
      exact (List.mem_cons.mp h).imp_right (List.mem_cons_of_mem _)
    · rcases List.mem_cons.mp h with h | h
      · exact .inr (h ▸ List.mem_cons_self)
      · exact (ih h).imp_right (List.mem_cons_of_mem _)

theorem mem_put {b : α} (h : b ∈ (put key a es).map Prod.snd) : b = a ∨ b ∈ es.map Prod.snd := by
  obtain ⟨e, he, rfl⟩ := List.mem_map.mp h
  rcases mem_of_mem_put he with rfl | he
  · exact .inl rfl
  · exact .inr (List.mem_map_of_mem he)

theorem drop_sublist : (drop key es).Sublist es := by
  induction es with
  | nil => exact .slnil
  | cons e es ih =>
    unfold drop
    split
    · exact .cons _ (.refl _)
    · exact ih.cons_cons _

/-! ### What is found -/

theorem find_put (key' : κ) (es : List (κ × α)) :
    find key' (put key a es) = if key = key' then some a else find key' es := by
  induction es with
  | nil => rfl
  | cons e es ih =>
    obtain ⟨k, b⟩ := e
    rw [put]
    by_cases hk : k = key
    · subst hk
      rw [if_pos rfl, find, find]
      split <;> rfl
    · rw [if_neg hk, find, find, ih]
      by_cases hk' : k = key'
      · subst hk'
        rw [if_pos rfl, if_pos rfl, if_neg (Ne.symm hk)]
      · rw [if_neg hk', if_neg hk']

theorem get?_set (key' : κ) :
    (t.set key a).get? key' = if key = key' then some a else t.get? key' :=
  find_put key' t.entries

theorem get?_set_of_ne {key' : κ} (h : key ≠ key') : (t.set key a).get? key' = t.get? key' := by
  rw [get?_set, if_neg h]

theorem find_map {β : Type} (f : κ → α → β) (es : List (κ × α)) :
    find key (es.map fun e => (e.1, f e.1 e.2)) = (find key es).map (f key) := by
  induction es with
  | nil => rfl
  | cons e es ih =>
    rw [List.map_cons, find, find, ih]
    split
    · next hkey => rw [hkey, Option.map_some]
    · rfl

/-- Setting what is there already changes nothing. -/
theorem set_of_get? (h : t.get? key = some a) : t.set key a = t := by
  obtain ⟨es⟩ := t
  refine congrArg Table.mk ?_
  change find key es = some a at h
  induction es with
  | nil => cases h
  | cons e es ih =>
    obtain ⟨k, b⟩ := e
    rw [find] at h
    rw [put]
    split at h
    · next hkey => rw [if_pos hkey, Option.some.inj h]
    · next hkey => rw [if_neg hkey, ih h]

/-- The entry that is set stands among the others, which stay as they are. -/
theorem entries_set_of_get? {b : α} (h : t.get? key = some b) :
    ∃ before after, t.entries = before ++ (key, b) :: after ∧
      ∀ a, (t.set key a).entries = before ++ (key, a) :: after := by
  obtain ⟨es⟩ := t
  change find key es = some b at h
  show ∃ before after, es = before ++ (key, b) :: after ∧
    ∀ a, put key a es = before ++ (key, a) :: after
  induction es with
  | nil => cases h
  | cons e es ih =>
    obtain ⟨k, c⟩ := e
    rw [find] at h
    by_cases hkey : k = key
    · subst hkey
      rw [if_pos rfl] at h
      exact ⟨[], es, by rw [Option.some.inj h]; rfl, fun a => if_pos rfl⟩
    · rw [if_neg hkey] at h
      obtain ⟨before, after, hes, hput⟩ := ih h
      refine ⟨(k, c) :: before, after, by rw [hes]; rfl, fun a => ?_⟩
      rw [put, if_neg hkey, hput]
      rfl

theorem countP_values_set (p : α → Bool) {b : α} (h : t.get? key = some b) :
    (t.set key a).values.countP p + (if p b then 1 else 0) =
      t.values.countP p + if p a then 1 else 0 := by
  obtain ⟨before, after, hes, hset⟩ := entries_set_of_get? h
  simp only [values, hset, hes, List.map_append, List.map_cons, List.countP_append,
    List.countP_cons]
  omega

theorem sum_values_set (g : α → Nat) {b : α} (h : t.get? key = some b) :
    ((t.set key a).values.map g).sum + g b = (t.values.map g).sum + g a := by
  obtain ⟨before, after, hes, hset⟩ := entries_set_of_get? h
  simp only [values, hset, hes, List.map_append, List.map_cons, List.sum_append, List.sum_cons]
  omega

/-- Of two values that are set one after the other the second stays. -/
theorem set_set (a b : α) : (t.set key a).set key b = t.set key b := by
  obtain ⟨es⟩ := t
  refine congrArg Table.mk ?_
  show put key b (put key a es) = put key b es
  induction es with
  | nil => exact if_pos rfl
  | cons e es ih =>
    obtain ⟨k, c⟩ := e
    rw [put, put]
    by_cases hkey : k = key
    · rw [if_pos hkey, if_pos hkey, put, if_pos hkey]
    · rw [if_neg hkey, if_neg hkey, put, if_neg hkey, ih]

theorem mem_keys_iff : key ∈ t.keys ↔ ∃ a, t.get? key = some a := by
  obtain ⟨es⟩ := t
  show key ∈ es.map Prod.fst ↔ ∃ a, find key es = some a
  induction es with
  | nil => simp [find]
  | cons e es ih =>
    obtain ⟨k, b⟩ := e
    rw [List.map_cons, List.mem_cons, ih, find]
    by_cases hk : k = key
    · simp [hk]
    · simp [hk, Ne.symm hk]

theorem get?_eq_none_iff : t.get? key = none ↔ key ∉ t.keys := by
  rw [mem_keys_iff, Option.eq_none_iff_forall_ne_some, not_exists]

theorem mem_of_get? (h : t.get? key = some a) : (key, a) ∈ t.entries := by
  obtain ⟨es⟩ := t
  change find key es = some a at h
  induction es with
  | nil => cases h
  | cons e es ih =>
    obtain ⟨k, b⟩ := e
    rw [find] at h
    split at h
    · next hkey => rw [hkey, Option.some.inj h]; exact List.mem_cons_self
    · exact List.mem_cons_of_mem _ (ih h)

theorem get?_of_mem (hnodup : t.keys.Nodup) (h : (key, a) ∈ t.entries) : t.get? key = some a := by
  obtain ⟨es⟩ := t
  change (es.map Prod.fst).Nodup at hnodup
  show find key es = some a
  induction es with
  | nil => cases h
  | cons e es ih =>
    obtain ⟨hnot, hnodup⟩ := List.nodup_cons.mp hnodup
    rcases List.mem_cons.mp h with rfl | h
    · exact if_pos rfl
    · have hne : e.1 ≠ key := fun he => hnot (he ▸ List.mem_map_of_mem h)
      exact (if_neg hne).trans (ih h hnodup)

/-- Tables with the same keys in the same order are told apart by what is found in them. -/
theorem eq_of_get? {t' : Table κ α} (hkeys : t.keys = t'.keys) (hnodup : t.keys.Nodup)
    (hget : ∀ key, t.get? key = t'.get? key) : t = t' := by
  obtain ⟨es⟩ := t
  obtain ⟨es'⟩ := t'
  refine congrArg Table.mk (List.ext_getElem ?_ fun i hi hi' => ?_)
  · simpa [keys] using congrArg List.length hkeys
  · have hkey : es[i].1 = es'[i].1 := by
      have hat := congrArg (·[i]?) hkeys
      simpa [keys, hi, hi'] using hat
    have hfound : Table.get? ⟨es⟩ es[i].1 = some es[i].2 :=
      get?_of_mem hnodup (List.getElem_mem hi)
    have hfound' : Table.get? ⟨es'⟩ es'[i].1 = some es'[i].2 :=
      get?_of_mem (hkeys ▸ hnodup) (List.getElem_mem hi')
    rw [← hkey, ← hget, hfound] at hfound'
    exact Prod.ext hkey (Option.some.inj hfound')

theorem keys_set : (t.set key a).keys = if key ∈ t.keys then t.keys else t.keys ++ [key] :=
  map_fst_put

theorem nodup_keys_set (h : t.keys.Nodup) : (t.set key a).keys.Nodup := nodup_put h

/-- The keys stay as they are, in their order, where one of them is set. -/
theorem keys_set_of_get? {b : α} (h : t.get? key = some b) : (t.set key a).keys = t.keys := by
  rw [keys_set, if_pos (mem_keys_iff.mpr ⟨b, h⟩)]

theorem get?_erase (hnodup : t.keys.Nodup) (key' : κ) :
    (t.erase key).get? key' = if key = key' then none else t.get? key' := by
  obtain ⟨es⟩ := t
  change (es.map Prod.fst).Nodup at hnodup
  show find key' (drop key es) = if key = key' then none else find key' es
  induction es with
  | nil => simp [drop, find]
  | cons e es ih =>
    obtain ⟨k, b⟩ := e
    obtain ⟨hnot, hnodup⟩ := List.nodup_cons.mp hnodup
    rw [drop, find]
    by_cases hk : k = key
    · subst hk
      rw [if_pos rfl]
      by_cases hk' : k = key'
      · subst hk'
        rw [if_pos rfl]
        exact (get?_eq_none_iff (t := ⟨es⟩)).mpr hnot
      · rw [if_neg hk', if_neg hk']
    · rw [if_neg hk, find, ih hnodup]
      by_cases hk' : k = key'
      · subst hk'
        rw [if_pos rfl, if_neg (Ne.symm hk), if_pos rfl]
      · rw [if_neg hk', if_neg hk']

theorem nodup_keys_erase (h : t.keys.Nodup) : (t.erase key).keys.Nodup :=
  h.sublist (drop_sublist.map _)

/-! ### Values -/

omit [DecidableEq κ] in
theorem mem_values_iff : a ∈ t.values ↔ ∃ key, (key, a) ∈ t.entries := by
  simp [values]

theorem mem_values_of_get? (h : t.get? key = some a) : a ∈ t.values :=
  mem_values_iff.mpr ⟨key, mem_of_get? h⟩

/-! ### Updates in place -/

theorem update_of_get? {f : α → α} (h : t.get? key = some a) :
    t.update key f = t.set key (f a) := by
  rw [update, h]

theorem keys_update (f : α → α) : (t.update key f).keys = t.keys := by
  rw [update]
  split
  · next a h => exact keys_set_of_get? h
  · rfl

theorem mem_entries_update {e : κ × α} (h : e ∈ (t.update key fun _ => a).entries) :
    e = (key, a) ∨ e ∈ t.entries := by
  rw [update] at h
  split at h
  · exact mem_of_mem_put h
  · exact .inr h

/-! ### Values under their own keys -/

/-- Every value is under the key that it has of itself. -/
def Keyed (own : α → κ) (t : Table κ α) : Prop := ∀ e ∈ t.entries, e.1 = own e.2

/-- The table of some values, each under the key that it has of itself. -/
def under (own : α → κ) (as : List α) : Table κ α := ⟨as.map fun a => (own a, a)⟩

namespace Keyed
variable {own : α → κ}

omit [DecidableEq κ] in
theorem empty (own : α → κ) : (Table.empty : Table κ α).Keyed own := List.forall_mem_nil _

theorem set (h : t.Keyed own) (ha : own a = key) : (t.set key a).Keyed own := by
  intro e he
  rcases mem_of_mem_put he with rfl | he
  · exact ha.symm
  · exact h e he

theorem erase (h : t.Keyed own) : (t.erase key).Keyed own :=
  fun e he => h e (drop_sublist.subset he)

theorem update (h : t.Keyed own) (ha : own a = key) : (t.update key fun _ => a).Keyed own := by
  intro e he
  rcases mem_entries_update he with rfl | he
  · exact ha.symm
  · exact h e he

omit [DecidableEq κ] in
theorem keys_eq (h : t.Keyed own) : t.keys = t.values.map own := by
  rw [keys, values, List.map_map]
  exact List.map_congr_left fun e he => h e he

omit [DecidableEq κ] in
/-- The values make up the table. -/
theorem under_values (h : t.Keyed own) : under own t.values = t := by
  refine congrArg Table.mk ?_
  rw [values, List.map_map]
  refine (List.map_congr_left fun e he => ?_).trans (List.map_id t.entries)
  exact Prod.ext (h e he).symm rfl

omit [DecidableEq κ] in
theorem eq_of_values {t' : Table κ α} (h : t.Keyed own) (h' : t'.Keyed own)
    (heq : t.values = t'.values) : t = t' := by
  rw [← h.under_values, heq, h'.under_values]

theorem own_of_get? (h : t.Keyed own) (ha : t.get? key = some a) : own a = key :=
  (h _ (mem_of_get? ha)).symm

end Keyed

/-- The values are under their own keys, which are distinct. -/
structure Indexed (own : α → κ) (t : Table κ α) : Prop where
  nodup : t.keys.Nodup
  keyed : t.Keyed own

namespace Indexed
variable {own : α → κ}

omit [DecidableEq κ] in
theorem empty (own : α → κ) : (Table.empty : Table κ α).Indexed own := ⟨.nil, .empty own⟩

theorem set (h : t.Indexed own) (ha : own a = key) : (t.set key a).Indexed own :=
  ⟨nodup_keys_set h.nodup, h.keyed.set ha⟩

omit [DecidableEq κ] in
theorem nodup_values (h : t.Indexed own) : (t.values.map own).Nodup :=
  h.keyed.keys_eq ▸ h.nodup

theorem get?_of_mem (h : t.Indexed own) (ha : a ∈ t.values) : t.get? (own a) = some a := by
  obtain ⟨key, he⟩ := mem_values_iff.mp ha
  have hkey : key = own a := h.keyed _ he
  exact hkey ▸ Table.get?_of_mem h.nodup he

/-- The values make up the table by being set one after the other. -/
theorem foldl_set (h : t.Indexed own) :
    t.values.foldl (fun t a => t.set (own a) a) .empty = t := by
  have hlist : t.values.foldl (fun t a => t.set (own a) a) .empty =
      ofList (t.values.map fun a => (own a, a)) := by
    rw [ofList, List.foldl_map]
  have hkeys : (t.values.map fun a => (own a, a)).map Prod.fst = t.keys := by
    rw [List.map_map, h.keyed.keys_eq]
    rfl
  rw [hlist, ofList_eq (hkeys ▸ h.nodup)]
  exact h.keyed.under_values

/-- What is found under a key is the value that has this key. -/
theorem get?_eq_some_iff (h : t.Indexed own) :
    t.get? key = some a ↔ a ∈ t.values ∧ own a = key := by
  refine ⟨fun ha => ⟨mem_values_of_get? ha, h.keyed.own_of_get? ha⟩, ?_⟩
  rintro ⟨ha, rfl⟩
  exact h.get?_of_mem ha

end Indexed
end Table
end Rewind
