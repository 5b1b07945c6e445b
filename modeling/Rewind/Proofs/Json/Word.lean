import Rewind.Json.Token
import Rewind.Proofs.Text

/-! Number literals come back from their bytes.

A literal that keeps to the grammar (`Numeral.Wellformed`) is one word, with either mark of an
exponent, and that word is the literal and no other token (`Token.ofWord?_of_spelled`). -/

namespace Rewind.Json

/-! ### Lists of bytes with an end in sight -/

/-- What follows does not go on with a digit. -/
def NoDigit (bs : Bytes) : Prop := ∀ b ∈ bs.head?, isDigitByte b = false

theorem takeWhile_digits {ds : List Nat} {rest : Bytes} (hd : ∀ d ∈ ds, d < 10)
    (hr : NoDigit rest) :
    (ds.map digitByte ++ rest).takeWhile isDigitByte = ds.map digitByte ∧
      (ds.map digitByte ++ rest).dropWhile isDigitByte = rest := by
  induction ds with
  | nil =>
    cases rest with
    | nil => exact ⟨rfl, rfl⟩
    | cons b bs =>
      have hb : isDigitByte b = false := hr b rfl
      simp [hb]
  | cons d ds ih =>
    obtain ⟨hdig, hds⟩ := List.forall_mem_cons.mp hd
    obtain ⟨ht, hdr⟩ := ih hds
    simp [(digitByte_spec hdig).1, ht, hdr]

theorem digitByte_ne_sign {d : Nat} (h : d < 10) : digitByte d ≠ 43 ∧ digitByte d ≠ 45 := by
  have : ∀ d < 10, digitByte d ≠ 43 ∧ digitByte d ≠ 45 := by decide
  exact this d h

theorem map_digitOf {ds : List Nat} (hd : ∀ d ∈ ds, d < 10) :
    (ds.map digitByte).map digitOf = ds := by
  rw [List.map_map]
  exact (List.map_congr_left fun d h => (digitByte_spec (hd d h)).2).trans (List.map_id ds)

namespace Numeral

/-- A literal that keeps to the grammar. -/
structure Wellformed (n : Numeral) : Prop where
  whole : Written n.whole
  fraction : ∀ d ∈ n.fraction, d < 10
  exponent : ∀ e ∈ n.exponent, e.2 ≠ [] ∧ ∀ d ∈ e.2, d < 10

/-! ### The parts of a literal -/

theorem takeDigits?_digits {ds : List Nat} {rest : Bytes} (hne : ds ≠ []) (hd : ∀ d ∈ ds, d < 10)
    (hr : NoDigit rest) : takeDigits? (ds.map digitByte ++ rest) = some (ds, rest) := by
  obtain ⟨ht, hdr⟩ := takeWhile_digits hd hr
  unfold takeDigits?
  rw [ht, hdr]
  cases ds with
  | nil => exact absurd rfl hne
  | cons d ds => exact congrArg (fun ds => some (ds, rest)) (map_digitOf hd)

theorem takeWhole?_digits {ds : List Nat} {rest : Bytes} (h : Written ds) (hr : NoDigit rest) :
    takeWhole? (ds.map digitByte ++ rest) = some (ds, rest) := by
  unfold takeWhole?
  rw [takeDigits?_digits h.ne_nil h.small hr]
  split
  · next heq =>
    simp only [Option.some.injEq, Prod.mk.injEq] at heq
    rcases h.lead with hz | hl
    · simp [hz] at heq
    · simp [heq.1] at hl
  · rfl

theorem noDigit_exponentBytes (e : Option (ExponentSign × List Nat)) :
    NoDigit (exponentBytes e) := by
  rcases e with _ | ⟨_ | _ | _, _⟩ <;> simp [NoDigit, exponentBytes] <;> decide

theorem noDigit_fractionBytes (ds : List Nat) {rest : Bytes} (hr : NoDigit rest) :
    NoDigit (fractionBytes ds ++ rest) := by
  cases ds with
  | nil => exact hr
  | cons d ds =>
    intro b hb
    simp only [fractionBytes, List.isEmpty_cons, Bool.false_eq_true, if_false, List.cons_append,
      List.head?_cons, Option.mem_def, Option.some.injEq] at hb
    rw [← hb]
    decide

theorem takeExponent?_exponentBytes {e : Option (ExponentSign × List Nat)}
    (h : ∀ p ∈ e, p.2 ≠ [] ∧ ∀ d ∈ p.2, d < 10) : takeExponent? (exponentBytes e) = some e := by
  have hend : NoDigit [] := fun _ hb => nomatch hb
  rcases e with _ | ⟨sign, ds⟩
  · rfl
  · obtain ⟨hne, hd⟩ := h _ rfl
    have htake := takeDigits?_digits hne hd hend
    rw [List.append_nil] at htake
    cases sign with
    | plus => simp [exponentBytes, takeExponent?, ascii, htake]
    | minus => simp [exponentBytes, takeExponent?, ascii, htake]
    | unsigned =>
      obtain ⟨d, ds, rfl⟩ := List.exists_cons_of_ne_nil hne
      obtain ⟨hplus, hminus⟩ := digitByte_ne_sign (hd d List.mem_cons_self)
      rw [List.map_cons] at htake
      simp [exponentBytes, takeExponent?, ascii, htake, hplus, hminus]

theorem takeFraction?_fractionBytes {ds : List Nat} {rest : Bytes} (hd : ∀ d ∈ ds, d < 10)
    (hr : NoDigit rest) (hp : rest.head? ≠ some 46) :
    takeFraction? (fractionBytes ds ++ rest) = some (ds, rest) := by
  cases ds with
  | nil =>
    cases rest with
    | nil => rfl
    | cons b bs =>
      have hb : b ≠ 46 := fun h => hp (congrArg some h)
      simp [fractionBytes, takeFraction?, hb]
  | cons d ds =>
    have htake := takeDigits?_digits (List.cons_ne_nil d ds) hd hr
    rw [List.map_cons, List.cons_append] at htake
    simp [fractionBytes, takeFraction?, ascii, htake]

/-- The parts of a literal in front of its exponent. -/
def front (n : Numeral) : Bytes :=
  (if n.negative then [ascii '-'] else []) ++ n.whole.map digitByte ++ fractionBytes n.fraction

theorem ofBytes?_front_append {n : Numeral} {e : Bytes} (h : n.Wellformed)
    (he : takeExponent? e = some n.exponent) (hdigit : NoDigit e) (hpoint : e.head? ≠ some 46) :
    ofBytes? (n.front ++ e) = some n := by
  obtain ⟨negative, whole, fraction, exponent⟩ := n
  have hwhole := takeWhole?_digits h.whole (noDigit_fractionBytes fraction hdigit)
  have hfraction := takeFraction?_fractionBytes h.fraction hdigit hpoint
  obtain ⟨d, ds, rfl⟩ := List.exists_cons_of_ne_nil h.whole.ne_nil
  have hminus := (digitByte_ne_sign (h.whole.small d List.mem_cons_self)).2
  rw [List.map_cons, List.cons_append] at hwhole
  cases negative with
  | true => simp [ofBytes?, front, ascii, hwhole, hfraction, he]
  | false => simp [ofBytes?, front, hminus, hwhole, hfraction, he]

/-- How the exponent of a literal may be spelled: its mark is of either case. -/
def ExponentSpelled (e : Option (ExponentSign × List Nat)) (w : Bytes) : Prop :=
  w = exponentBytes e ∨ ∃ rest, exponentBytes e = ascii 'e' :: rest ∧ w = ascii 'E' :: rest

/-- How a literal may be spelled. -/
def Spelled (n : Numeral) (w : Bytes) : Prop :=
  ∃ e, ExponentSpelled n.exponent e ∧ w = n.front ++ e

theorem spelled_bytes (n : Numeral) : n.Spelled n.bytes := ⟨_, .inl rfl, rfl⟩

theorem takeExponent?_of_spelled {e : Option (ExponentSign × List Nat)} {w : Bytes}
    (h : ∀ p ∈ e, p.2 ≠ [] ∧ ∀ d ∈ p.2, d < 10) (hw : ExponentSpelled e w) :
    takeExponent? w = some e ∧ NoDigit w ∧ w.head? ≠ some 46 := by
  have hbytes := takeExponent?_exponentBytes h
  rcases hw with rfl | ⟨rest, hrest, rfl⟩
  · refine ⟨hbytes, noDigit_exponentBytes e, ?_⟩
    rcases e with _ | ⟨_ | _ | _, _⟩ <;> simp [exponentBytes, ascii]
  · rw [hrest] at hbytes
    have hmark : takeExponent? (ascii 'E' :: rest) = takeExponent? (ascii 'e' :: rest) := rfl
    refine ⟨hmark.trans hbytes, fun b hb => ?_, by simp [ascii]⟩
    rw [← Option.some.inj hb]
    decide

/-- **A literal is read back however it is spelled.** -/
theorem ofBytes?_of_spelled {n : Numeral} {w : Bytes} (h : n.Wellformed) (hw : n.Spelled w) :
    ofBytes? w = some n := by
  obtain ⟨e, he, rfl⟩ := hw
  obtain ⟨htake, hdigit, hpoint⟩ := takeExponent?_of_spelled h.exponent he
  exact ofBytes?_front_append h htake hdigit hpoint

/-! ### Literals as words -/

theorem isWordByte_digits {ds : List Nat} (hd : ∀ d ∈ ds, d < 10) :
    ∀ b ∈ ds.map digitByte, Lexer.isWordByte b = true := by
  intro b hb
  obtain ⟨d, hmem, rfl⟩ := List.mem_map.mp hb
  simp [Lexer.isWordByte, (digitByte_spec (hd d hmem)).1]

theorem isWordByte_front {n : Numeral} (h : n.Wellformed) :
    ∀ b ∈ n.front, Lexer.isWordByte b = true := by
  intro b hb
  rw [front, List.mem_append, List.mem_append] at hb
  rcases hb with (hsign | hwhole) | hfraction
  · split at hsign
    · rw [List.mem_singleton.mp hsign]
      decide
    · cases hsign
  · exact isWordByte_digits h.whole.small b hwhole
  · unfold fractionBytes at hfraction
    split at hfraction
    · cases hfraction
    · rcases List.mem_cons.mp hfraction with rfl | hfraction
      · decide
      · exact isWordByte_digits h.fraction b hfraction

theorem isWordByte_exponentBytes {e : Option (ExponentSign × List Nat)}
    (h : ∀ p ∈ e, p.2 ≠ [] ∧ ∀ d ∈ p.2, d < 10) :
    ∀ b ∈ exponentBytes e, Lexer.isWordByte b = true := by
  intro b hb
  rcases e with _ | ⟨sign, ds⟩
  · cases hb
  · have hds := isWordByte_digits (h _ rfl).2
    cases sign with
    | unsigned =>
      rcases List.mem_cons.mp hb with rfl | hb
      · decide
      · exact hds b hb
    | plus | minus =>
      rcases List.mem_cons.mp hb with rfl | hb
      · decide
      · rcases List.mem_cons.mp hb with rfl | hb
        · decide
        · exact hds b hb

theorem isWordByte_of_spelled {n : Numeral} {w : Bytes} (h : n.Wellformed) (hw : n.Spelled w) :
    ∀ b ∈ w, Lexer.isWordByte b = true := by
  have hexponent := isWordByte_exponentBytes h.exponent
  obtain ⟨e, he, rfl⟩ := hw
  refine List.forall_mem_append.mpr ⟨isWordByte_front h, ?_⟩
  rcases he with rfl | ⟨rest, hrest, rfl⟩
  · exact hexponent
  · rw [hrest] at hexponent
    exact List.forall_mem_cons.mpr ⟨by decide, (List.forall_mem_cons.mp hexponent).2⟩

theorem isWordByte_bytes {n : Numeral} (h : n.Wellformed) :
    ∀ b ∈ n.bytes, Lexer.isWordByte b = true :=
  isWordByte_of_spelled h n.spelled_bytes

/-- The first byte of a literal is a minus or a digit. -/
theorem head?_of_spelled {n : Numeral} {w : Bytes} (h : n.Wellformed) (hw : n.Spelled w) :
    ∃ b bs, w = b :: bs ∧ (b = 45 ∨ isDigitByte b = true) := by
  obtain ⟨e, -, rfl⟩ := hw
  obtain ⟨d, ds, hwhole⟩ := List.exists_cons_of_ne_nil h.whole.ne_nil
  have hd := (digitByte_spec (h.whole.small d (hwhole ▸ List.mem_cons_self))).1
  cases hneg : n.negative with
  | true => exact ⟨_, _, by rw [front, hneg]; rfl, .inl rfl⟩
  | false => exact ⟨_, _, by rw [front, hneg, hwhole]; rfl, .inr hd⟩

end Numeral

/-! ### Words -/

theorem utf8_null : utf8 "null" = [110, 117, 108, 108] := by rw [utf8_eq]; rfl

theorem utf8_true : utf8 "true" = [116, 114, 117, 101] := by rw [utf8_eq]; rfl

theorem utf8_false : utf8 "false" = [102, 97, 108, 115, 101] := by rw [utf8_eq]; rfl

theorem Token.ofWord?_of_spelled {n : Numeral} {w : Bytes} (h : n.Wellformed) (hw : n.Spelled w) :
    Token.ofWord? w = some (.number n) := by
  obtain ⟨b, bs, hbytes, hb⟩ := Numeral.head?_of_spelled h hw
  have hne (c : UInt8) (cs : Bytes) (hc : c ≠ 45) (hd : isDigitByte c = false) : w ≠ c :: cs := by
    intro heq
    rw [hbytes, List.cons.injEq] at heq
    rcases hb with hb | hb
    · exact hc (heq.1 ▸ hb)
    · rw [heq.1, hd] at hb
      cases hb
  rw [ofWord?, utf8_null, utf8_true, utf8_false, if_neg (hne _ _ (by decide) (by decide)),
    if_neg (hne _ _ (by decide) (by decide)), if_neg (hne _ _ (by decide) (by decide)),
    Numeral.ofBytes?_of_spelled h hw]
  rfl

end Rewind.Json
