import Mathlib.Data.List.Induction
import Mathlib.Data.Set.Card
import Rewind.Proofs.Tree.Agreement
import Rewind.Proofs.Tree.Tidy

/-! Keys that are found by agreement.

A map is filled by insertions alone, so it is determined by the list of them: there is an entry for
every key that agreed with none before, in the order in which these came, and it has the value that
was last inserted under an agreeing key (`Entries.ofList_eq_map`). Agreement is symmetric and
transitive, and no more than this is needed for keys that agree with themselves to be looked up as
in a finite map. The others hold a NaN: they are never found, and their entries pile up as they
come. -/

namespace Rewind.Entries
variable {key value k v : Value} {es : List (Value × Value)} {e : Value × Value}

/-- The value that was last inserted under a key that agrees. -/
def lastUnder (key : Value) (es : List (Value × Value)) : Option Value :=
  (es.reverse.find? fun e => e.1.agrees key).map Prod.snd

/-- The insertions whose key agrees with none before. -/
def firsts (es : List (Value × Value)) : List (Value × Value) :=
  es.eraseDupsBy fun e e' => e.1.agrees e'.1

/-- The insertions whose key does not agree with itself. -/
def unfound (es : List (Value × Value)) : List (Value × Value) :=
  es.filter fun e => !e.1.agrees e.1

/-- The keys that agree with a key. -/
def kin (key : Value) : Set Value := {k | key.agrees k = true}

/-- The classes of keys that agree, of those that agree with themselves. -/
def classes (keys : List Value) : Set (Set Value) :=
  {c | ∃ key ∈ keys, key.agrees key = true ∧ kin key = c}

/-! ### One insertion more -/

theorem eraseDupsBy_concat {α : Type} (r : α → α → Bool) (as : List α) (a : α) :
    (as ++ [a]).eraseDupsBy r =
      if (as.eraseDupsBy r).any (r a) then as.eraseDupsBy r else as.eraseDupsBy r ++ [a] := by
  suffices ∀ done, List.eraseDupsBy.loop r (as ++ [a]) done =
      if (List.eraseDupsBy.loop r as done).any (r a) then List.eraseDupsBy.loop r as done
      else List.eraseDupsBy.loop r as done ++ [a] from this []
  induction as with
  | nil =>
    intro done
    cases h : done.any (r a) <;> simp [List.eraseDupsBy.loop, h]
  | cons b as ih =>
    intro done
    rw [List.cons_append, List.eraseDupsBy.loop, List.eraseDupsBy.loop]
    split <;> exact ih _

theorem ofList_concat (es : List (Value × Value)) (e : Value × Value) :
    ofList (es ++ [e]) = insert e.1 e.2 (ofList es) :=
  List.foldl_concat ..

theorem firsts_concat (es : List (Value × Value)) (e : Value × Value) : firsts (es ++ [e]) =
    if (firsts es).any fun e' => e.1.agrees e'.1 then firsts es else firsts es ++ [e] :=
  eraseDupsBy_concat ..

theorem lastUnder_concat (key : Value) (es : List (Value × Value)) (e : Value × Value) :
    lastUnder key (es ++ [e]) = if e.1.agrees key then some e.2 else lastUnder key es := by
  rw [lastUnder, List.reverse_concat, List.find?_cons]
  cases e.1.agrees key <;> rfl

theorem distinct_ofList (es : List (Value × Value)) : Distinct (ofList es) := by
  induction es using List.reverseRecOn with
  | nil => exact .nil
  | append_singleton es e ih =>
    rw [ofList_concat]
    exact ih.insert

theorem exchange_eq (key value : Value) (es : List (Value × Value)) :
    exchange key value es = (get? key es, insert key value es) := by
  induction es with
  | nil => rfl
  | cons e es ih =>
    rw [exchange, get?, insert, ih]
    split <;> rfl

/-- An insertion is seen under the keys that agree with its own. -/
theorem get?_insert (key value k : Value) (es : List (Value × Value)) :
    get? k (insert key value es) = if key.agrees k then some value else get? k es := by
  induction es with
  | nil => rfl
  | cons e es ih =>
    rw [insert]
    by_cases hkey : e.1.agrees key = true
    · rw [if_pos hkey, get?, get?, Value.agrees_congr hkey]
      split <;> rfl
    · rw [if_neg hkey, get?, get?, ih]
      split
      · next hk =>
        have hdiffer : ¬ key.agrees k = true := fun h =>
          hkey (Value.agrees_trans hk (Value.agrees_comm key k ▸ h))
        rw [if_neg hdiffer]
      · rfl

/-- Among distinct keys one at most agrees with that of an insertion, and its entry is changed. -/
theorem insert_of_agrees (hd : Distinct es) (h : ∃ e ∈ es, e.1.agrees key = true) :
    insert key value es = es.map fun e => (e.1, if e.1.agrees key then value else e.2) := by
  induction es with
  | nil => obtain ⟨e, he, -⟩ := h; cases he
  | cons e es ih =>
    obtain ⟨he, hes⟩ := List.pairwise_cons.mp hd
    rw [insert, List.map_cons]
    by_cases hkey : e.1.agrees key = true
    · rw [if_pos hkey, if_pos hkey]
      have hothers (e' : Value × Value) (he' : e' ∈ es) : e'.1.agrees key = false := by
        rw [Value.agrees_comm, ← Value.agrees_congr hkey]
        exact he _ (List.mem_map_of_mem he')
      have hrest : (es.map fun e' => (e'.1, if e'.1.agrees key then value else e'.2)) = es.map id :=
        List.map_congr_left fun e' he' => by rw [hothers e' he']; rfl
      rw [hrest, List.map_id]
    · rw [if_neg hkey, if_neg hkey]
      obtain ⟨e', he', hkey'⟩ := h
      obtain rfl | he' := List.mem_cons.mp he'
      · exact absurd hkey' hkey
      · rw [ih hes ⟨e', he', hkey'⟩]

/-! ### Keys that hold a NaN -/

theorem get?_of_holdsNaN (h : k.HoldsNaN) (es : List (Value × Value)) : get? k es = none := by
  induction es with
  | nil => rfl
  | cons e es ih =>
    rw [get?, Value.agrees_comm, h.agrees_eq_false, ih]
    rfl

theorem insert_of_holdsNaN (h : k.HoldsNaN) (v : Value) (es : List (Value × Value)) :
    insert k v es = es ++ [(k, v)] :=
  insert_of_forall_not_agrees fun e _ => by rw [Value.agrees_comm, h.agrees_eq_false]

theorem unfound_insert (h : key.agrees key = true) :
    unfound (insert key value es) = unfound es := by
  induction es with
  | nil => simp [insert, unfound, h]
  | cons e es ih =>
    rw [insert]
    split
    · next hkey =>
      have hself : e.1.agrees e.1 = true :=
        Value.agrees_trans hkey (Value.agrees_comm e.1 key ▸ hkey)
      simp [unfound, hself]
    · simp only [unfound, List.filter_cons] at ih ⊢
      rw [ih]

/-- Entries under keys that do not agree with themselves are kept as they come. -/
theorem unfound_ofList (es : List (Value × Value)) : unfound (ofList es) = unfound es := by
  induction es using List.reverseRecOn with
  | nil => rfl
  | append_singleton es e ih =>
    rw [ofList_concat]
    cases hself : e.1.agrees e.1 with
    | true =>
      rw [unfound_insert hself, ih]
      simp [unfound, hself]
    | false =>
      rw [insert_of_holdsNaN ((Value.agrees_self e.1).mp hself), unfound, List.filter_append,
        ← unfound, ih, unfound, ← List.filter_append, unfound]

/-! ### What insertions leave -/

/-- Looking a key up finds what was last inserted under it. -/
theorem get?_ofList (k : Value) (es : List (Value × Value)) :
    get? k (ofList es) = lastUnder k es := by
  induction es using List.reverseRecOn with
  | nil => rfl
  | append_singleton es e ih => rw [ofList_concat, get?_insert, lastUnder_concat, ih]

/-- An insertion is the last under its own key, unless nothing is found there. -/
theorem getD_lastUnder_concat (es : List (Value × Value)) (e : Value × Value) :
    (lastUnder e.1 (es ++ [e])).getD e.2 = e.2 := by
  rw [lastUnder_concat]
  split
  · rfl
  · next hself =>
    have hnan : e.1.HoldsNaN := (Value.agrees_self e.1).mp (Bool.not_eq_true _ ▸ hself)
    rw [← get?_ofList, get?_of_holdsNaN hnan]
    rfl

/-- **What insertions leave** is an entry for each of the first keys, with the last value. -/
theorem ofList_eq_map (es : List (Value × Value)) :
    ofList es = (firsts es).map fun e => (e.1, (lastUnder e.1 es).getD e.2) := by
  induction es using List.reverseRecOn with
  | nil => rfl
  | append_singleton es e ih =>
    have hstored : (∃ e' ∈ ofList es, e'.1.agrees e.1 = true) ↔
        ((firsts es).any fun e' => e.1.agrees e'.1) = true := by
      simp [ih, Value.agrees_comm e.1]
    rw [ofList_concat, firsts_concat]
    split
    · next h =>
      rw [insert_of_agrees (distinct_ofList es) (hstored.mpr h), ih, List.map_map]
      refine List.map_congr_left fun e' _ => ?_
      show (e'.1, if e'.1.agrees e.1 then e.2 else (lastUnder e'.1 es).getD e'.2) = _
      rw [lastUnder_concat, Value.agrees_comm e'.1]
      split <;> rfl
    · next h =>
      have hnone : ∀ e' ∈ ofList es, e'.1.agrees e.1 = false := by
        simpa using fun k v hmem hk => h (hstored.mp ⟨(k, v), hmem, hk⟩)
      rw [insert_of_forall_not_agrees hnone, ih, List.map_append, List.map_singleton,
        getD_lastUnder_concat]
      refine congrArg (· ++ _) (List.map_congr_left fun e' he' => ?_)
      rw [lastUnder_concat, if_neg fun hagrees => h (List.any_eq_true.mpr ⟨e', he', hagrees⟩)]

/-! ### Counting classes -/

theorem isSome_get? : (get? k es).isSome = true ↔ ∃ e ∈ es, e.1.agrees k = true := by
  induction es with
  | nil => simp [get?]
  | cons e es ih =>
    rw [get?]
    split
    · next h => simp [h]
    · next h => simp [h, ih]

theorem isSome_lastUnder : (lastUnder k es).isSome = true ↔ ∃ e ∈ es, e.1.agrees k = true := by
  simp [lastUnder]

theorem mem_keys_of_mem_ofList (he : e ∈ ofList es) : e.1 ∈ es.map Prod.fst := by
  induction es using List.reverseRecOn generalizing e with
  | nil => cases he
  | append_singleton es e' ih =>
    rw [ofList_concat] at he
    rw [List.map_append, List.mem_append]
    rcases (mem_insert he).1 with heq | hmem
    · exact .inr (List.mem_singleton.mpr heq)
    · obtain ⟨e'', he'', heq⟩ := List.mem_map.mp hmem
      rw [← heq]
      exact .inl (ih he'')

theorem kin_eq_of_agrees (h : k.agrees key = true) : kin k = kin key :=
  Set.ext fun w => by simp only [kin, Value.agrees_congr h]

theorem classes_ofList (es : List (Value × Value)) :
    classes ((ofList es).map Prod.fst) = classes (es.map Prod.fst) := by
  ext c
  constructor
  · rintro ⟨k, hk, hself, hc⟩
    obtain ⟨e, he, rfl⟩ := List.mem_map.mp hk
    exact ⟨e.1, mem_keys_of_mem_ofList he, hself, hc⟩
  · rintro ⟨k, hk, hself, hc⟩
    obtain ⟨e, he, rfl⟩ := List.mem_map.mp hk
    have hfound := isSome_lastUnder.mpr ⟨e, he, hself⟩
    rw [← get?_ofList] at hfound
    obtain ⟨e', he', hagrees⟩ := isSome_get?.mp hfound
    have hself' := Value.agrees_trans hagrees (Value.agrees_comm e'.1 e.1 ▸ hagrees)
    exact ⟨e'.1, List.mem_map_of_mem he', hself', (kin_eq_of_agrees hagrees).trans hc⟩

/-- Distinct keys are in different classes. -/
theorem ncard_classes {keys : List Value} (h : keys.Pairwise fun k k' => k.agrees k' = false) :
    (classes keys).ncard = keys.countP fun k => k.agrees k := by
  classical
  have hset : classes keys = ((keys.filter fun k => k.agrees k).map kin).toFinset := by
    ext c
    simp [classes, and_assoc]
  have hnodup : ((keys.filter fun k => k.agrees k).map kin).Nodup := by
    rw [List.Nodup, List.pairwise_map, List.pairwise_filter]
    refine h.imp fun {k k'} hne _ hself heq => ?_
    have hmem : k' ∈ kin k := heq ▸ hself
    exact absurd hmem (Bool.eq_false_iff.mp hne)
  rw [hset, Set.ncard_coe_finset, List.toFinset_card_of_nodup hnodup, List.length_map,
    List.countP_eq_length_filter]

theorem length_ofList (es : List (Value × Value)) :
    (ofList es).length = (classes (es.map Prod.fst)).ncard + (unfound es).length := by
  rw [← classes_ofList, ncard_classes (distinct_ofList es), ← unfound_ofList, unfound,
    ← List.countP_eq_length_filter, List.countP_map,
    List.length_eq_countP_add_countP fun e : Value × Value => e.1.agrees e.1]
  simp [Function.comp_def]

/-- **A map is an insertion-ordered finite map up to agreement**, whatever is inserted into it: no
two of its keys agree, looking a key up finds what was last inserted under it and an insertion
answers what was found before, entries stand in the order and under the spelling in which their keys
came first, and there are as many as classes of keys. Keys that hold a NaN are the exception: they
are never found, and each adds an entry. Inserting the entries of a map once more makes the same
map. -/
theorem insertion_ordered (es : List (Value × Value)) :
    ofList es = (firsts es).map (fun e => (e.1, (lastUnder e.1 es).getD e.2)) ∧
    ((ofList es).Pairwise fun e e' => e.1.agrees e'.1 = false ∧ e'.1.agrees e.1 = false) ∧
    (∀ k, get? k (ofList es) = lastUnder k es) ∧
    (∀ k v, exchange k v (ofList es) = (get? k (ofList es), ofList (es ++ [(k, v)]))) ∧
    (ofList es).length = (classes (es.map Prod.fst)).ncard + (unfound es).length ∧
    (∀ k : Value, k.agrees k = false ↔ k.HoldsNaN) ∧
    (∀ k, k.HoldsNaN →
      get? k (ofList es) = none ∧ ∀ v, ofList (es ++ [(k, v)]) = ofList es ++ [(k, v)]) ∧
    ofList (ofList es) = ofList es := by
  refine ⟨ofList_eq_map es, ?_, fun k => get?_ofList k es, fun k v => ?_, length_ofList es,
    Value.agrees_self, fun k hnan => ⟨get?_of_holdsNaN hnan _, fun v => ?_⟩,
    ofList_eq (distinct_ofList es)⟩
  · refine (List.pairwise_map.mp (distinct_ofList es)).imp fun hne => ⟨hne, ?_⟩
    rw [Value.agrees_comm, hne]
  · rw [exchange_eq, ofList_concat]
  · rw [ofList_concat, insert_of_holdsNaN hnan]

/-- The two zeros are one key, under which the later value is found; a NaN in a list is none. -/
theorem insertion_ordered_zeros :
    let nan := Value.list .unknown [.float ⟨0x7FF8000000000000⟩]
    let es := [(.float ⟨0⟩, .bool false), (nan, .nil), (.float ⟨0x8000000000000000⟩, .bool true)]
    ofList es = [(.float ⟨0⟩, .bool true), (nan, .nil)] ∧
    get? (.float ⟨0⟩) (ofList es) = some (.bool true) ∧
    (classes (es.map Prod.fst)).ncard = 1 ∧
    nan.HoldsNaN ∧ get? nan (ofList es) = none := by
  intro nan es
  obtain ⟨-, -, hget, -, hlength, hself, hnan, -⟩ := insertion_ordered es
  have hholds : nan.HoldsNaN := (hself nan).mp rfl
  exact ⟨rfl, hget _, (Nat.add_right_cancel hlength).symm, hholds, (hnan nan hholds).1⟩

end Rewind.Entries
