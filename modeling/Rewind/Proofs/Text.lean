import Mathlib.Algebra.Group.Nat.Defs
import Rewind.Text.Bytes

/-! Strings and numbers come back from their text.

A string is what its UTF-8 decodes to, and a number is what its decimal digits say;
they never start with a zero that could be left out (`digitsOnto_eq`). -/

namespace Rewind

/-! ### Strings -/

theorem toList_loop (bs : ByteArray) (i : Nat) (r : Bytes) :
    ByteArray.toList.loop bs i r = r.reverse ++ bs.data.toList.drop i := by
  fun_induction ByteArray.toList.loop bs i r with
  | case1 i r h ih =>
    have hi : i < bs.data.toList.length := h
    rw [ih, List.drop_eq_getElem_cons hi]
    simp [ByteArray.get!, getElem!_pos bs.data i h]
  | case2 i r h =>
    have hi : bs.data.toList.length ≤ i := Nat.le_of_not_lt h
    rw [List.drop_eq_nil_of_le hi, List.append_nil]

/-- The UTF-8 of a string as the string itself carries it. -/
theorem utf8_eq (s : String) : utf8 s = s.toByteArray.data.toList := by
  simp [utf8, ByteArray.toList, toList_loop]

theorem ofUtf8?_utf8 (s : String) : ofUtf8? (utf8 s) = some s := by
  have h : (⟨(utf8 s).toArray⟩ : ByteArray) = s.toByteArray := by
    simp [utf8_eq]
  rw [ofUtf8?, h, String.fromUTF8?, dif_pos s.isValidUTF8]
  rfl

/-! ### Decimal digits -/

theorem ofDecimalDigits_append (ds es : List Nat) :
    ofDecimalDigits (ds ++ es) = ofDecimalDigits ds * 10 ^ es.length + ofDecimalDigits es := by
  have h (n : Nat) : es.foldl (fun n d => 10 * n + d) n =
      n * 10 ^ es.length + es.foldl (fun n d => 10 * n + d) 0 := by
    induction es generalizing n with
    | nil => simp
    | cons e es ih =>
      rw [List.foldl_cons, List.foldl_cons, ih, ih (10 * 0 + e), List.length_cons, Nat.pow_succ]
      grind
  rw [ofDecimalDigits, List.foldl_append, h]
  rfl

theorem ofDecimalDigits_cons (d : Nat) (ds : List Nat) :
    ofDecimalDigits (d :: ds) = d * 10 ^ ds.length + ofDecimalDigits ds := by
  have h := ofDecimalDigits_append [d] ds
  simpa [ofDecimalDigits] using h

theorem ofDecimalDigits_lt {ds : List Nat} (h : ∀ d ∈ ds, d < 10) :
    ofDecimalDigits ds < 10 ^ ds.length := by
  induction ds with
  | nil => decide
  | cons d ds ih =>
    obtain ⟨hd, hds⟩ := List.forall_mem_cons.mp h
    have hle : (d + 1) * 10 ^ ds.length ≤ 10 * 10 ^ ds.length := Nat.mul_le_mul_right _ hd
    have := ih hds
    rw [ofDecimalDigits_cons, List.length_cons, Nat.pow_succ]
    rw [Nat.add_mul] at hle
    omega

theorem le_ofDecimalDigits {d : Nat} (ds : List Nat) (h : d ≠ 0) :
    10 ^ ds.length ≤ ofDecimalDigits (d :: ds) := by
  have := Nat.mul_le_mul_right (10 ^ ds.length) (Nat.one_le_iff_ne_zero.mpr h)
  rw [ofDecimalDigits_cons]
  omega

theorem ofDecimalDigits_replicate_zero (n : Nat) : ofDecimalDigits (List.replicate n 0) = 0 := by
  induction n with
  | zero => rfl
  | succ n ih => rw [List.replicate_succ, ofDecimalDigits_cons, ih, Nat.zero_mul]

/-- Zeros in front count for nothing. -/
theorem ofDecimalDigits_dropWhile (ds : List Nat) :
    ofDecimalDigits (ds.dropWhile (· == 0)) = ofDecimalDigits ds := by
  induction ds with
  | nil => rfl
  | cons d ds ih =>
    by_cases h : d = 0
    · rw [h, List.dropWhile_cons_of_pos rfl, ih, ofDecimalDigits_cons, Nat.zero_mul, Nat.zero_add]
    · rw [List.dropWhile_cons_of_neg (by simpa using h)]

/-- Digits as a number is written with: some, each below ten, and no idle zero in front. -/
structure Written (ds : List Nat) : Prop where
  ne_nil : ds ≠ []
  small : ∀ d ∈ ds, d < 10
  lead : ds = [0] ∨ ds.head? ≠ some 0

theorem digitsOnto_eq {fuel n : Nat} (known : List Nat) (h : n < fuel) :
    ∃ ds, digitsOnto known fuel n = ds ++ known ∧ Written ds ∧ ofDecimalDigits ds = n := by
  induction fuel generalizing n known with
  | zero => cases h
  | succ fuel ih =>
    rw [digitsOnto]
    split
    · next hn =>
      refine ⟨[n], rfl, ⟨by simp, by simpa using hn, ?_⟩, by simp [ofDecimalDigits]⟩
      rcases Nat.eq_zero_or_pos n with rfl | hpos
      · exact .inl rfl
      · exact .inr (by simp; omega)
    · next hn =>
      obtain ⟨ds, heq, hw, hval⟩ := ih (n := n / 10) (n % 10 :: known) (by omega)
      refine ⟨ds ++ [n % 10], by rw [heq, List.append_assoc]; rfl, ⟨by simp, ?_, .inr ?_⟩, ?_⟩
      · intro d hd
        rcases List.mem_append.mp hd with hd | hd
        · exact hw.small d hd
        · rw [List.mem_singleton.mp hd]
          exact Nat.mod_lt _ (by decide)
      · rw [List.head?_append, Option.or_of_isSome (by simp [hw.ne_nil])]
        rcases hw.lead with rfl | hlead
        · simp [ofDecimalDigits] at hval
          omega
        · exact hlead
      · rw [ofDecimalDigits_append, hval]
        simp [ofDecimalDigits]
        omega

theorem written_decimalDigits (n : Nat) : Written (decimalDigits n) := by
  obtain ⟨ds, heq, hw, -⟩ := digitsOnto_eq [] (Nat.lt_succ_self n)
  rw [decimalDigits, heq, List.append_nil]
  exact hw

theorem ofDecimalDigits_decimalDigits (n : Nat) : ofDecimalDigits (decimalDigits n) = n := by
  obtain ⟨ds, heq, -, hval⟩ := digitsOnto_eq [] (Nat.lt_succ_self n)
  rw [decimalDigits, heq, List.append_nil]
  exact hval

/-! ### Digits as bytes -/

theorem digitByte_spec {d : Nat} (h : d < 10) :
    isDigitByte (digitByte d) = true ∧ digitOf (digitByte d) = d := by
  have : ∀ d < 10, isDigitByte (digitByte d) = true ∧ digitOf (digitByte d) = d := by decide
  exact this d h

end Rewind
