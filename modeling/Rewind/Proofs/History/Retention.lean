import Mathlib.Data.List.Range
import Rewind.Proofs.History.Copies

/-! What a stack of snapshots retains.

A push drops the nodes on top that are not older than its own. So without a limit a node stays
as long as only later cycles are pushed after it (`History.standing`). A limit takes the oldest
nodes away for good: later pushes may drop the nodes above one that was lost, and it does not come
back. What is left is therefore not the newest part of what would be there without the limit, but
of that the nodes that have never had so many others above them as the limit allows in all
(`History.retained`). -/

namespace Rewind.History

/-! ### Descending stacks -/

/-- Cycles fall from the newest node to the oldest. -/
def Descending (h : History) : Prop := h.nodes.Pairwise fun new old => old.cycle < new.cycle

variable {h : History} {limit : Option Nat}

theorem Descending.nodes_push (hd : h.Descending) (n : Node) :
    (h.push n).nodes = keep h.maxDepth (n :: h.nodes.filter fun m => m.cycle < n.cycle) := by
  rw [push, dropWhile_eq_filter n.cycle hd]

namespace Descending

theorem new (limit : Option Nat) : (History.new limit).Descending := .nil

theorem push (hd : h.Descending) (n : Node) : (h.push n).Descending := by
  have hcons : (n :: h.nodes.filter fun m => m.cycle < n.cycle).Pairwise
      fun new old => old.cycle < new.cycle := by
    refine List.pairwise_cons.mpr ⟨fun m hm => ?_, List.Pairwise.filter _ hd⟩
    exact of_decide_eq_true (List.mem_filter.mp hm).2
  rw [Descending, hd.nodes_push]
  cases h.maxDepth with
  | none => exact hcons
  | some d => exact hcons.sublist (List.take_sublist _ _)

theorem pop (hd : h.Descending) : h.pop.Descending := hd.sublist (List.tail_sublist _)

theorem clear (h : History) : h.clear.Descending := .nil

theorem cycles (hd : h.Descending) : h.cycles.Pairwise (· < ·) := by
  rw [History.cycles, List.pairwise_reverse, List.pairwise_map]
  exact hd

end Descending

/-! ### Without a limit -/

/-- The stack after the first so many of a sequence of pushes. -/
def pushed (limit : Option Nat) (f : Nat → Node) : Nat → History
  | 0 => .new limit
  | n + 1 => (pushed limit f n).push (f n)

/-- The nodes, the oldest first. -/
def oldestFirst (h : History) : List Node := h.nodes.reverse

/-- Of the first `n` pushes, those that were followed by later cycles only. -/
def standing (f : Nat → Node) (n : Nat) : List Nat :=
  (List.range n).filter fun i => ∀ j < n, i < j → (f i).cycle < (f j).cycle

/-- How many of them came after a push. -/
def above (f : Nat → Node) (n i : Nat) : Nat := ((standing f n).filter (i < ·)).length

variable {f : Nat → Node} {d n i j : Nat}

theorem descending_pushed (limit : Option Nat) (f : Nat → Node) (n : Nat) :
    (pushed limit f n).Descending := by
  induction n with
  | zero => exact .new limit
  | succ n ih => exact ih.push (f n)

theorem maxDepth_pushed (limit : Option Nat) (f : Nat → Node) (n : Nat) :
    (pushed limit f n).maxDepth = limit.map (max 1) := by
  induction n with
  | zero => rfl
  | succ n ih => exact ih

theorem mem_standing :
    i ∈ standing f n ↔ i < n ∧ ∀ j < n, i < j → (f i).cycle < (f j).cycle := by
  simp [standing]

theorem pairwise_standing (f : Nat → Node) (n : Nat) : (standing f n).Pairwise (· < ·) :=
  List.Pairwise.filter _ List.pairwise_lt_range

theorem standing_succ (f : Nat → Node) (n : Nat) :
    standing f (n + 1) = (standing f n).filter (fun i => (f i).cycle < (f n).cycle) ++ [n] := by
  have hlast : [n].filter (fun i => ∀ j < n + 1, i < j → (f i).cycle < (f j).cycle) = [n] := by
    refine List.filter_eq_self.mpr fun i hi => decide_eq_true fun j hj hij => ?_
    obtain rfl := List.mem_singleton.mp hi
    omega
  rw [standing, List.range_succ, List.filter_append, hlast, standing, List.filter_filter]
  refine congrArg (· ++ [n]) (List.filter_congr fun i hi => ?_)
  have hin : i < n := List.mem_range.mp hi
  rw [← Bool.decide_and, decide_eq_decide]
  constructor
  · intro h
    exact ⟨h n (Nat.lt_succ_self n) hin, fun j hj => h j (Nat.lt_succ_of_lt hj)⟩
  · rintro ⟨hlt, h⟩ j hj hij
    rcases Nat.lt_succ_iff_lt_or_eq.mp hj with hj | rfl
    · exact h j hj hij
    · exact hlt

/-- Without a limit, the nodes are those followed by later cycles only. -/
theorem oldestFirst_pushed_none (f : Nat → Node) (n : Nat) :
    (pushed none f n).oldestFirst = (standing f n).map f := by
  induction n with
  | zero => rfl
  | succ n ih =>
    have hnodes : (pushed none f (n + 1)).nodes =
        f n :: (pushed none f n).nodes.filter fun m => m.cycle < (f n).cycle := by
      rw [pushed, (descending_pushed none f n).nodes_push, maxDepth_pushed]
      rfl
    rw [oldestFirst, hnodes, List.reverse_cons, ← List.filter_reverse,
      show (pushed none f n).nodes.reverse = _ from ih, standing_succ, List.map_append,
      List.filter_map]
    rfl

/-! ### Within a limit -/

/-- In a list that grows, those from some element on are at its end. -/
theorem filter_suffix_of_upward {p : Nat → Bool} {is : List Nat} (hs : is.Pairwise (· < ·))
    (hup : ∀ i ∈ is, ∀ j ∈ is, i < j → p i = true → p j = true) : is.filter p <:+ is := by
  induction is with
  | nil => exact List.suffix_refl _
  | cons i is ih =>
    obtain ⟨hlt, hs⟩ := List.pairwise_cons.mp hs
    cases hi : p i with
    | true =>
      have hall : (i :: is).filter p = i :: is := List.filter_eq_self.mpr fun j hj => by
        rcases List.mem_cons.mp hj with rfl | hj
        · exact hi
        · exact hup i List.mem_cons_self j (List.mem_cons_of_mem i hj) (hlt j hj) hi
      exact ⟨[], hall⟩
    | false =>
      rw [List.filter_cons_of_neg (by rw [hi]; exact Bool.false_ne_true)]
      have hrest := ih hs fun j hj k hk =>
        hup j (List.mem_cons_of_mem i hj) k (List.mem_cons_of_mem i hk)
      exact hrest.trans (List.suffix_cons i is)

/-- In a list that grows, the last so many are those with fewer above them. -/
theorem take_reverse_eq_filter {is : List Nat} (hs : is.Pairwise (· < ·)) (d : Nat) :
    is.reverse.take d = (is.filter fun i => (is.filter (i < ·)).length < d).reverse := by
  induction is with
  | nil => simp
  | cons i is ih =>
    obtain ⟨hlt, hs⟩ := List.pairwise_cons.mp hs
    have habove : (i :: is).filter (i < ·) = is := by
      rw [List.filter_cons_of_neg (by simp)]
      exact List.filter_eq_self.mpr fun j hj => decide_eq_true (hlt j hj)
    have hrest : is.filter (fun j => ((i :: is).filter (j < ·)).length < d) =
        is.filter fun j => (is.filter (j < ·)).length < d := by
      refine List.filter_congr fun j hj => ?_
      rw [List.filter_cons_of_neg (by simpa using Nat.le_of_lt (hlt j hj))]
    rw [List.reverse_cons, List.take_append, ih hs, List.length_reverse]
    by_cases hd : is.length < d
    · rw [List.filter_cons_of_pos (by rw [habove]; exact decide_eq_true hd), hrest,
        List.reverse_cons, List.take_of_length_le (by simp; omega)]
    · rw [List.filter_cons_of_neg (by rw [habove]; exact fun h => hd (of_decide_eq_true h)), hrest,
        Nat.sub_eq_zero_of_le (Nat.le_of_not_lt hd), List.take_zero, List.append_nil]

theorem above_le_of_le (f : Nat → Node) (n : Nat) (hij : i ≤ j) : above f n j ≤ above f n i := by
  refine List.Sublist.length_le (List.monotone_filter_right _ fun k hk => ?_)
  exact decide_eq_true (Nat.lt_of_le_of_lt hij (of_decide_eq_true hk))

/-- What is above an element of a list that grows is above it at the end of the list, too. -/
theorem filter_above_of_suffix {is end' : List Nat} (hs : is.Pairwise (· < ·))
    (hsuffix : end' <:+ is) (hi : i ∈ end') : is.filter (i < ·) = end'.filter (i < ·) := by
  obtain ⟨start, rfl⟩ := hsuffix
  have hstart : start.filter (i < ·) = [] := List.filter_eq_nil_iff.mpr fun j hj => by
    simpa using Nat.le_of_lt ((List.pairwise_append.mp hs).2.2 j hj i hi)
  rw [List.filter_append, hstart, List.nil_append]

/-- It has not had so many others above it, up to some moment. -/
def Uncrowded (f : Nat → Node) (d n i : Nat) : Prop := ∀ m ≤ n, i < m → above f m i < d

instance : Decidable (Uncrowded f d n i) := inferInstanceAs (Decidable (∀ m ≤ n, _ → _))

/-- Nor have those above it. -/
theorem Uncrowded.of_lt (h : Uncrowded f d n i) (hij : i < j) : Uncrowded f d n j := fun m hm hjm =>
  Nat.lt_of_le_of_lt (above_le_of_le f m (Nat.le_of_lt hij)) (h m hm (Nat.lt_trans hij hjm))

/-- Of the nodes without a limit, those that have never had so many others above them. -/
def lasting (f : Nat → Node) (d n : Nat) : List Nat := (standing f n).filter (Uncrowded f d n ·)

theorem suffix_standing (f : Nat → Node) (d m n : Nat) :
    (standing f m).filter (Uncrowded f d n ·) <:+ standing f m :=
  filter_suffix_of_upward (pairwise_standing f m) fun _ _ _ _ hij hi =>
    decide_eq_true ((of_decide_eq_true hi).of_lt hij)

/-- A push leaves, of what lasts, the nodes older than the new one, and puts that on top. -/
theorem filter_lasting (f : Nat → Node) (d n : Nat) :
    (lasting f d n).filter (fun i => (f i).cycle < (f n).cycle) ++ [n] =
      (standing f (n + 1)).filter (Uncrowded f d n ·) := by
  have hlast : Uncrowded f d n n := fun m hm hnm => absurd hm (Nat.not_le_of_lt hnm)
  have hnew : [n].filter (Uncrowded f d n ·) = [n] := List.filter_eq_self.mpr fun i hi =>
    decide_eq_true (List.mem_singleton.mp hi ▸ hlast)
  rw [standing_succ, List.filter_append, hnew, lasting, List.filter_comm]

theorem uncrowded_succ (hi : i < n + 1) :
    Uncrowded f d (n + 1) i ↔ above f (n + 1) i < d ∧ Uncrowded f d n i := by
  constructor
  · intro h
    exact ⟨h (n + 1) (Nat.le_refl _) hi, fun m hm => h m (Nat.le_succ_of_le hm)⟩
  · rintro ⟨hlast, h⟩ m hm him
    rcases Nat.le_succ_iff.mp hm with hm | rfl
    · exact h m hm him
    · exact hlast

/-- The limit takes those away that now have too many above them. -/
theorem reverse_lasting_succ (f : Nat → Node) (d n : Nat) :
    (lasting f d (n + 1)).reverse =
      ((lasting f d n).filter (fun i => (f i).cycle < (f n).cycle) ++ [n]).reverse.take d := by
  rw [filter_lasting, take_reverse_eq_filter ((pairwise_standing f (n + 1)).filter _), lasting]
  refine congrArg List.reverse ?_
  have hsplit : (standing f (n + 1)).filter (Uncrowded f d (n + 1) ·) =
      ((standing f (n + 1)).filter (Uncrowded f d n ·)).filter (above f (n + 1) · < d) := by
    rw [List.filter_filter]
    refine List.filter_congr fun i hi => ?_
    rw [← Bool.decide_and, decide_eq_decide]
    exact uncrowded_succ (mem_standing.mp hi).1
  rw [hsplit]
  refine List.filter_congr fun i hi => ?_
  rw [above, filter_above_of_suffix (pairwise_standing f (n + 1))
    (suffix_standing f d (n + 1) n) hi]

/-- Within a limit, the nodes are those that have never had so many others above them. -/
theorem oldestFirst_pushed_some (f : Nat → Node) (d n : Nat) :
    (pushed (some d) f n).oldestFirst = (lasting f (max 1 d) n).map f := by
  suffices (pushed (some d) f n).nodes = ((lasting f (max 1 d) n).map f).reverse by
    rw [oldestFirst, this, List.reverse_reverse]
  induction n with
  | zero => rfl
  | succ n ih =>
    have hnodes : (pushed (some d) f (n + 1)).nodes =
        (f n :: (pushed (some d) f n).nodes.filter fun m => m.cycle < (f n).cycle).take
          (max 1 d) := by
      rw [pushed, (descending_pushed (some d) f n).nodes_push, maxDepth_pushed]
      rfl
    have hfilter : ((lasting f (max 1 d) n).map f).reverse.filter (fun m => m.cycle < (f n).cycle) =
        (((lasting f (max 1 d) n).filter fun i => (f i).cycle < (f n).cycle).map f).reverse := by
      rw [List.filter_reverse, List.filter_map]
      rfl
    rw [hnodes, ih, hfilter, ← List.map_reverse, ← List.map_reverse, reverse_lasting_succ,
      List.map_take, List.reverse_append]
    rfl

/-! ### Any operations -/

/-- What can be done to a stack. -/
inductive Op where
  | push (n : Node)
  | pop
  | clear

def apply (h : History) : Op → History
  | .push n => h.push n
  | .pop => h.pop
  | .clear => h.clear

def run (h : History) (ops : List Op) : History := ops.foldl apply h

/-- The stack is in order and within its limit. -/
structure InOrder (limit : Option Nat) (h : History) : Prop where
  descending : h.Descending
  maxDepth : h.maxDepth = limit.map (max 1)
  within : ∀ d, limit = some d → h.size ≤ max 1 d

namespace InOrder

theorem new (limit : Option Nat) : InOrder limit (.new limit) :=
  ⟨.new limit, rfl, fun _ _ => Nat.zero_le _⟩

theorem apply (hin : InOrder limit h) (op : Op) : InOrder limit (h.apply op) := by
  cases op with
  | push n =>
    refine ⟨hin.descending.push n, hin.maxDepth, fun d hd => ?_⟩
    have hmax : h.maxDepth = some (max 1 d) := by rw [hin.maxDepth, hd]; rfl
    show (keep h.maxDepth _).length ≤ max 1 d
    rw [hmax]
    exact List.length_take_le _ _
  | pop =>
    refine ⟨hin.descending.pop, hin.maxDepth, fun d hd => Nat.le_trans ?_ (hin.within d hd)⟩
    exact (List.tail_sublist h.nodes).length_le
  | clear => exact ⟨.clear h, hin.maxDepth, fun _ _ => Nat.zero_le _⟩

theorem run (hin : InOrder limit h) (ops : List Op) : InOrder limit (h.run ops) := by
  induction ops generalizing h with
  | nil => exact hin
  | cons op ops ih => exact ih (hin.apply op)

/-- There is always room for the node that is pushed. -/
theorem top?_push (hin : InOrder limit h) (n : Node) : (h.push n).top? = some n := by
  rw [top?, push, hin.maxDepth]
  cases limit with
  | none => rfl
  | some d =>
    obtain ⟨e, he⟩ : ∃ e, max 1 d = e + 1 := ⟨max 1 d - 1, by omega⟩
    rw [Option.map_some, he]
    rfl

end InOrder

/-- **What is retained.** For any pushes `f 0`, …, `f (n - 1)`:

* without a limit the nodes are, in that order, those that were followed by later cycles only;
* with a limit of `d`, where zero counts as one, they are the newest of those: the ones that at no
  moment since they were pushed have had `d` or more nodes above them on the stack without a limit.

Whatever is done to a stack, its cycles grow, it stays within its limit, and what is pushed is on
top. -/
theorem retained (f : Nat → Node) (n d : Nat) (limit : Option Nat) (ops : List Op) :
    (∀ m, (pushed none f m).oldestFirst = (standing f m).map f) ∧
    (pushed (some d) f n).oldestFirst <:+ (pushed none f n).oldestFirst ∧
    (pushed (some d) f n).oldestFirst =
      ((standing f n).filter fun i => ∀ m ≤ n, i < m →
        ((standing f m).filter (i < ·)).length < max 1 d).map f ∧
    let h := (History.new limit).run ops
    h.cycles.Pairwise (· < ·) ∧ (∀ d, limit = some d → h.size ≤ max 1 d) ∧
      ∀ m, (h.push m).top? = some m := by
  refine ⟨oldestFirst_pushed_none f, ?_, oldestFirst_pushed_some f d n, ?_⟩
  · rw [oldestFirst_pushed_some, oldestFirst_pushed_none]
    exact (suffix_standing f (max 1 d) n n).map f
  · intro h
    have hin : InOrder limit h := (InOrder.new limit).run ops
    exact ⟨hin.descending.cycles, hin.within, hin.top?_push⟩

/-- Three cycles are pushed onto a stack for two, and then a push drops the two on top: the first
does not come back. -/
example :
    let f (i : Nat) : Node := .new ([1, 3, 4, 2].getD i 0) []
    standing f 4 = [0, 3] ∧ (pushed none f 4).cycles = [1, 2] ∧
      (pushed (some 2) f 4).cycles = [2] := by
  decide

end Rewind.History
