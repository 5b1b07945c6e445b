import Rewind.Proofs.Tree.Walk

/-! Values that agree.

Agreement compares numbers, and carries the comparison through values that nest. It is equality but
for two things: no comparison tells the two zeros apart, and a NaN passes none. So values agree
exactly when neither holds a NaN and they become the same once zeros have no sign
(`Value.agrees_iff`). Hence agreement is symmetric and transitive, and the values that do not agree
with themselves are those that hold a NaN (`Value.agrees_self`). -/

namespace Rewind

/-! ### Numbers and shapes -/

namespace Binary64
variable {x y : Binary64}

/-- The number, or the positive zero for either zero. -/
def unsigned (x : Binary64) : Binary64 := if x.isZero then ⟨0⟩ else x

theorem isZero_of_unsigned_eq (hx : x.isZero = true) (h : x.unsigned = y.unsigned) :
    y.isZero = true := by
  unfold unsigned at h
  rw [if_pos hx] at h
  split at h
  · assumption
  · rw [← h]; rfl

theorem agrees_iff :
    x.agrees y = true ↔ (x.isNaN = false ∧ y.isNaN = false) ∧ x.unsigned = y.unsigned := by
  constructor
  · intro h
    obtain ⟨hnan, hbits | ⟨hx, hy⟩⟩ : (x.isNaN = false ∧ y.isNaN = false) ∧
        (x.bits = y.bits ∨ x.isZero = true ∧ y.isZero = true) := by simpa [agrees] using h
    · have hxy : x = y := congrArg Binary64.mk hbits
      exact ⟨hnan, congrArg unsigned hxy⟩
    · exact ⟨hnan, by simp only [unsigned, hx, hy, if_true]⟩
  · rintro ⟨⟨hx, hy⟩, h⟩
    by_cases hzero : x.isZero = true
    · simp [agrees, hx, hy, hzero, isZero_of_unsigned_eq hzero h]
    · have hzero' : ¬ y.isZero = true := fun hy => hzero (isZero_of_unsigned_eq hy h.symm)
      have hxy : x = y := by rwa [unsigned, unsigned, if_neg hzero, if_neg hzero'] at h
      simp [agrees, hy, hxy]

end Binary64

def Point.unsigned (p : Point) : Point := ⟨p.x.unsigned, p.y.unsigned, p.z.unsigned⟩

def Point.numbers (p : Point) : List Binary64 := [p.x, p.y, p.z]

namespace Shape

def unsigned (s : Shape) : Shape :=
  { s with points := s.points.map Point.unsigned, depth := s.depth.map Binary64.unsigned }

def numbers (s : Shape) : List Binary64 := s.points.flatMap Point.numbers ++ s.depth.toList

end Shape

/-- One of the numbers is a NaN. -/
def AnyNaN (xs : List Binary64) : Prop := ∃ x ∈ xs, x.isNaN = true

theorem anyNaN_append {xs ys : List Binary64} : AnyNaN (xs ++ ys) ↔ AnyNaN xs ∨ AnyNaN ys := by
  simp only [AnyNaN, List.mem_append, or_and_right, exists_or]

theorem Point.agrees_iff {p q : Point} : p.agrees q = true ↔
    (¬ AnyNaN p.numbers ∧ ¬ AnyNaN q.numbers) ∧ p.unsigned = q.unsigned := by
  simp only [agrees, Bool.and_eq_true, Binary64.agrees_iff, AnyNaN, numbers, unsigned, mk.injEq,
    List.mem_cons, List.not_mem_nil, or_false, exists_eq_or_imp, exists_eq_left]
  grind

theorem Shape.pointsAgree_iff {ps qs : List Point} : pointsAgree ps qs = true ↔
    (¬ AnyNaN (ps.flatMap Point.numbers) ∧ ¬ AnyNaN (qs.flatMap Point.numbers)) ∧
      ps.map Point.unsigned = qs.map Point.unsigned := by
  induction ps generalizing qs with
  | nil => cases qs <;> simp [pointsAgree, AnyNaN]
  | cons p ps ih =>
    cases qs with
    | nil => simp [pointsAgree]
    | cons q qs =>
      simp only [pointsAgree, Bool.and_eq_true, Point.agrees_iff, ih, List.flatMap_cons,
        anyNaN_append, List.map_cons, List.cons.injEq]
      grind

theorem Shape.depthsAgree_iff {d d' : Option Binary64} : depthsAgree d d' = true ↔
    (¬ AnyNaN d.toList ∧ ¬ AnyNaN d'.toList) ∧
      d.map Binary64.unsigned = d'.map Binary64.unsigned := by
  cases d <;> cases d' <;> simp [depthsAgree, AnyNaN, Binary64.agrees_iff]

theorem Shape.agrees_iff {s t : Shape} : s.agrees t = true ↔
    (¬ AnyNaN s.numbers ∧ ¬ AnyNaN t.numbers) ∧ s.unsigned = t.unsigned := by
  simp only [agrees, Bool.and_eq_true, beq_iff_eq, pointsAgree_iff, depthsAgree_iff, numbers,
    anyNaN_append, unsigned, mk.injEq]
  grind

/-! ### Values -/

namespace Value

mutual

/-- The value, no zero in it having a sign. -/
def unsigned : Value → Value
  | float x => float x.unsigned
  | shape s => shape s.unsigned
  | list content items => list content (itemsUnsigned items)
  | map key content ordered entries => map key content ordered (entriesUnsigned entries)
  | nil => nil
  | bool b => bool b
  | int i => int i
  | str s => str s
  | type t => type t
  | context name => context name
  | entity a => entity a
termination_by structural v => v

def itemsUnsigned : List Value → List Value
  | [] => []
  | v :: vs => v.unsigned :: itemsUnsigned vs
termination_by structural vs => vs

def entriesUnsigned : List (Value × Value) → List (Value × Value)
  | [] => []
  | (k, v) :: es => (k.unsigned, v.unsigned) :: entriesUnsigned es
termination_by structural es => es

end

/-- The numbers that a value is made of, those of the values in it aside. -/
def numbers : Value → List Binary64
  | float x => [x]
  | shape s => s.numbers
  | _ => []

/-- There is a NaN in the value, at whatever depth. -/
def HoldsNaN (v : Value) : Prop := ∃ w ∈ v.parts, AnyNaN w.numbers

theorem holdsNaN_iff {v : Value} :
    v.HoldsNaN ↔ AnyNaN v.numbers ∨ ∃ w ∈ v.inner, w.HoldsNaN := by
  simp only [HoldsNaN, parts_eq v, List.mem_cons, List.mem_flatMap, exists_eq_or_imp]
  refine or_congr_right ⟨?_, ?_⟩
  · rintro ⟨x, ⟨w, hw, hx⟩, hnan⟩
    exact ⟨w, hw, x, hx, hnan⟩
  · rintro ⟨w, hw, x, hx, hnan⟩
    exact ⟨x, ⟨w, hw, hx⟩, hnan⟩

theorem holdsNaN_list {content : TypeExpr} {items : List Value} :
    (list content items).HoldsNaN ↔ ∃ v ∈ items, v.HoldsNaN := by
  rw [holdsNaN_iff]
  simp [numbers, AnyNaN, inner]

theorem holdsNaN_map {key content : TypeExpr} {ordered : Bool} {entries : List (Value × Value)} :
    (map key content ordered entries).HoldsNaN ↔ ∃ e ∈ entries, e.1.HoldsNaN ∨ e.2.HoldsNaN := by
  rw [holdsNaN_iff]
  constructor
  · rintro (⟨x, hx, -⟩ | ⟨w, hw, hnan⟩)
    · cases hx
    · obtain ⟨e, he, hw⟩ := List.mem_flatMap.mp hw
      refine ⟨e, he, ?_⟩
      simp only [List.mem_cons, List.not_mem_nil, or_false] at hw
      rcases hw with rfl | rfl
      · exact .inl hnan
      · exact .inr hnan
  · rintro ⟨e, he, hnan⟩
    refine .inr (hnan.elim (fun hnan => ⟨e.1, ?_, hnan⟩) fun hnan => ⟨e.2, ?_, hnan⟩)
    · exact List.mem_flatMap.mpr ⟨e, he, List.mem_cons_self⟩
    · exact List.mem_flatMap.mpr ⟨e, he, List.mem_cons_of_mem _ List.mem_cons_self⟩

/-- What agreement comes to for a value, whatever it is compared with. -/
def Compares (v : Value) : Prop :=
  ∀ w, v.agrees w = true ↔ (¬ v.HoldsNaN ∧ ¬ w.HoldsNaN) ∧ v.unsigned = w.unsigned

theorem itemsAgree_iff {vs ws : List Value} (h : ∀ v ∈ vs, v.Compares) :
    itemsAgree vs ws = true ↔
      ((¬ ∃ v ∈ vs, v.HoldsNaN) ∧ ¬ ∃ w ∈ ws, w.HoldsNaN) ∧
        itemsUnsigned vs = itemsUnsigned ws := by
  induction vs generalizing ws with
  | nil => cases ws <;> simp [itemsAgree, itemsUnsigned]
  | cons v vs ih =>
    obtain ⟨hv, hvs⟩ := List.forall_mem_cons.mp h
    cases ws with
    | nil => simp [itemsAgree, itemsUnsigned]
    | cons w ws =>
      simp only [itemsAgree, Bool.and_eq_true, hv w, ih hvs, List.mem_cons, exists_eq_or_imp,
        itemsUnsigned, List.cons.injEq]
      grind

theorem entriesAgree_iff {es fs : List (Value × Value)}
    (h : ∀ e ∈ es, e.1.Compares ∧ e.2.Compares) :
    entriesAgree es fs = true ↔
      ((¬ ∃ e ∈ es, e.1.HoldsNaN ∨ e.2.HoldsNaN) ∧ ¬ ∃ f ∈ fs, f.1.HoldsNaN ∨ f.2.HoldsNaN) ∧
        entriesUnsigned es = entriesUnsigned fs := by
  induction es generalizing fs with
  | nil => cases fs <;> simp [entriesAgree, entriesUnsigned]
  | cons e es ih =>
    obtain ⟨he, hes⟩ := List.forall_mem_cons.mp h
    cases fs with
    | nil => simp [entriesAgree, entriesUnsigned]
    | cons f fs =>
      simp only [entriesAgree, Bool.and_eq_true, he.1 f.1, he.2 f.2, ih hes, List.mem_cons,
        exists_eq_or_imp, entriesUnsigned, List.cons.injEq, Prod.mk.injEq]
      grind

/-- **Two values agree** when neither holds a NaN and they differ in the signs of zeros only. -/
theorem agrees_iff (v w : Value) :
    v.agrees w = true ↔ (¬ v.HoldsNaN ∧ ¬ w.HoldsNaN) ∧ v.unsigned = w.unsigned := by
  suffices v.Compares from this w
  clear w
  induction v with
  | list content items ih =>
    intro w
    cases w with
    | list content' items' =>
      simp only [agrees, Bool.and_eq_true, beq_iff_eq, itemsAgree_iff ih, holdsNaN_list, unsigned,
        list.injEq]
      grind
    | _ => simp [agrees, unsigned]
  | map key content ordered entries ih =>
    intro w
    cases w with
    | map key' content' ordered' entries' =>
      simp only [agrees, Bool.and_eq_true, beq_iff_eq, entriesAgree_iff ih, holdsNaN_map, unsigned,
        map.injEq]
      grind
    | _ => simp [agrees, unsigned]
  | float x =>
    intro w
    cases w <;> simp [agrees, unsigned, HoldsNaN, parts, numbers, AnyNaN, Binary64.agrees_iff]
  | shape s =>
    intro w
    cases w <;> simp [agrees, unsigned, HoldsNaN, parts, numbers, Shape.agrees_iff]
  | _ => intro w; cases w <;> simp [agrees, unsigned, HoldsNaN, parts, numbers, AnyNaN]

theorem agrees_comm (v w : Value) : v.agrees w = w.agrees v := by
  rw [Bool.eq_iff_iff, agrees_iff, agrees_iff, and_comm (a := ¬ v.HoldsNaN), eq_comm]

theorem agrees_trans {u v w : Value} (huv : u.agrees v = true) (hvw : v.agrees w = true) :
    u.agrees w = true := by
  obtain ⟨⟨hu, -⟩, huv⟩ := (agrees_iff u v).mp huv
  obtain ⟨⟨-, hw⟩, hvw⟩ := (agrees_iff v w).mp hvw
  exact (agrees_iff u w).mpr ⟨⟨hu, hw⟩, huv.trans hvw⟩

/-- Only what holds a NaN does not agree with itself. -/
theorem agrees_self (v : Value) : v.agrees v = false ↔ v.HoldsNaN := by
  rw [← Bool.not_eq_true, agrees_iff, and_self, and_iff_left rfl, Classical.not_not]

theorem HoldsNaN.agrees_eq_false {v : Value} (h : v.HoldsNaN) (w : Value) :
    v.agrees w = false := by
  rw [← Bool.not_eq_true, agrees_iff]
  exact fun hagrees => hagrees.1.1 h

/-- Values that agree agree with the same values. -/
theorem agrees_congr {u v : Value} (h : u.agrees v = true) (w : Value) :
    u.agrees w = v.agrees w := by
  rw [Bool.eq_iff_iff]
  exact ⟨agrees_trans (agrees_comm u v ▸ h), agrees_trans h⟩

end Value
end Rewind
