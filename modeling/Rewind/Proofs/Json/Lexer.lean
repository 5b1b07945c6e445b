import Mathlib.Data.List.Chain
import Rewind.Proofs.Json.Word

/-! Tokens come back from their bytes.

Some tokens can be spelled in more than one way: a string may have any of its bytes behind a
backslash that can stand there, the digits of a code unit and the mark of an exponent are of either
case. And there may be blanks between tokens. The lexer finds the end of punctuation and of strings
by itself. It finds the end of a word only at a byte that no word contains, so two words must not
follow each other, which no tree does. With that a list of tokens in the grammar is read back
however they are spelled and laid out (`tokens?_of_laid`). The bytes that a writer gives them, one
behind the other, are one of these texts (`laid_flatMap`). -/

namespace Rewind.Json

/-! ### Tokens in the grammar -/

/-- A byte that may stand in a string, or the four digits of a code unit. -/
def Piece.Wellformed : Piece → Prop
  | .byte b => 32 ≤ b ∨ escapeLetter? b ≠ none
  | .unit u => u < 65536

/-- The letters that may follow a backslash, and the bytes they stand for. -/
def escapes : List (UInt8 × UInt8) :=
  [(34, 34), (92, 92), (ascii '/', ascii '/'), (ascii 'b', 8), (ascii 'f', 12), (ascii 'n', 10),
    (ascii 'r', 13), (ascii 't', 9)]

/-- The hexadecimal digit of a value, of either case. -/
def IsHexByte (b : UInt8) (d : Nat) : Prop :=
  d < 16 ∧ (b = hexByte d ∨ 10 ≤ d ∧ b = hexByte d - 32)

/-- How a piece of a string may be spelled. -/
inductive Piece.Spelled : Piece → Bytes → Prop
  | raw {b : UInt8} (hlow : 32 ≤ b) (hquote : b ≠ 34) (hslash : b ≠ 92) : Spelled (.byte b) [b]
  | letter {l b : UInt8} (h : (l, b) ∈ escapes) : Spelled (.byte b) [92, l]
  | unit {a b c d : UInt8} {i j k l : Nat} (ha : IsHexByte a i) (hb : IsHexByte b j)
      (hc : IsHexByte c k) (hd : IsHexByte d l) :
      Spelled (.unit (4096 * i + 256 * j + 16 * k + l)) [92, ascii 'u', a, b, c, d]

namespace Token

def Wellformed : Token → Prop
  | .number n => n.Wellformed
  | .text t => ∀ p ∈ t, p.Wellformed
  | _ => True

/-- Tokens without a mark at their end. -/
def IsWord : Token → Prop
  | .null | .bool _ | .number _ => True
  | _ => False

/-- How a token may be spelled. -/
def Spelled : Token → Bytes → Prop
  | .number n, w => n.Spelled w
  | .text t, w => ∃ ws, List.Forall₂ Piece.Spelled t ws ∧ w = 34 :: ws.flatten ++ [34]
  | t, w => w = t.bytes

end Token

/-- The white space of JSON: space, tab, line feed, carriage return. -/
def blanks : Bytes := [0x20, 0x09, 0x0A, 0x0D]

theorem all_isBlank {bs : Bytes} : bs.all Lexer.isBlank = true ↔ bs ⊆ blanks := by
  simp [List.subset_def, blanks, Lexer.isBlank, or_assoc]

/-- A text of some tokens: each of them spelled in one way or another, with any blanks before and
behind them. -/
inductive Laid : List Token → Bytes → Prop
  | nil {white : Bytes} (h : white ⊆ blanks) : Laid [] white
  | cons {t : Token} {ts : List Token} {white w bs : Bytes} (h : white ⊆ blanks) (hw : t.Spelled w)
      (hbs : Laid ts bs) : Laid (t :: ts) (white ++ w ++ bs)

namespace Lexer

theorem run_append (s : Lexer) (bs cs : Bytes) :
    s.run (bs ++ cs) = (s.run bs).bind fun s => s.run cs := by
  induction bs generalizing s with
  | nil => rfl
  | cons b bs ih =>
    rw [List.cons_append, run, run]
    cases s.step b with
    | none => rfl
    | some s => exact ih s

/-! ### Strings -/

variable {ts : List Token} {ps : List Piece}

theorem run_letter {l b : UInt8} (h : (l, b) ∈ escapes) :
    run ⟨ts, .text ps⟩ [92, l] = some ⟨ts, .text (.byte b :: ps)⟩ := by
  have hall : (escapes.all fun e => e.1 ≠ ascii 'u' ∧ escapedByte? e.1 = some e.2) = true := by
    decide
  obtain ⟨hu, hback⟩ := of_decide_eq_true (List.all_eq_true.mp hall _ h)
  simp [run, step, hu, hback]

theorem hexDigit?_of_isHexByte {b : UInt8} {d : Nat} (h : IsHexByte b d) :
    hexDigit? b = some d := by
  have hlower : ∀ d < 16, hexDigit? (hexByte d) = some d := by decide
  have hupper : ∀ d < 16, 10 ≤ d → hexDigit? (hexByte d - 32) = some d := by decide
  obtain ⟨hd, rfl | ⟨hten, rfl⟩⟩ := h
  · exact hlower d hd
  · exact hupper d hd hten

theorem run_piece {p : Piece} {w : Bytes} (h : p.Spelled w) :
    run ⟨ts, .text ps⟩ w = some ⟨ts, .text (p :: ps)⟩ := by
  cases h with
  | raw hlow hquote hslash =>
    simp [run, step, hquote, hslash, UInt8.not_lt.mpr hlow]
  | letter h => exact run_letter h
  | unit ha hb hc hd =>
    simp [run, step, ascii, hexDigit?_of_isHexByte ha, hexDigit?_of_isHexByte hb,
      hexDigit?_of_isHexByte hc, hexDigit?_of_isHexByte hd]
    omega

theorem run_text {t : Text} {w : List Bytes} (h : List.Forall₂ Piece.Spelled t w) :
    run ⟨ts, .text ps⟩ (w.flatten ++ [34]) = some ⟨.text (ps.reverse ++ t) :: ts, .between⟩ := by
  induction h generalizing ps with
  | nil => simp [run, step]
  | cons hp _ ih =>
    rw [List.flatten_cons, List.append_assoc, run_append, run_piece hp, Option.bind_some, ih]
    simp

/-! ### Words -/

/-- What follows does not go on with a word. -/
def EndsWord (bs : Bytes) : Prop := ∀ b ∈ bs.head?, isWordByte b = false

theorem endsWord_nil : EndsWord [] := by
  intro b hb
  cases hb

theorem not_isBlank_of_isWordByte {b : UInt8} (h : isWordByte b = true) :
    isBlank b = false ∧ b ≠ 34 := by
  constructor
  · cases hb : isBlank b with
    | false => rfl
    | true =>
      simp only [isBlank, Bool.or_eq_true, beq_iff_eq] at hb
      rcases hb with ((rfl | rfl) | rfl) | rfl <;> revert h <;> decide
  · rintro rfl
    revert h
    decide

theorem run_word {w bs : Bytes} (h : ∀ b ∈ w, isWordByte b = true) :
    run ⟨ts, .word bs⟩ w = some ⟨ts, .word (w.reverse ++ bs)⟩ := by
  induction w generalizing bs with
  | nil => rfl
  | cons b w ih =>
    obtain ⟨hb, hw⟩ := List.forall_mem_cons.mp h
    rw [run, step]
    simp [hb, ih hw]

theorem run_start_word {w : Bytes} (h : ∀ b ∈ w, isWordByte b = true) (hne : w ≠ []) :
    run ⟨ts, .between⟩ w = some ⟨ts, .word w.reverse⟩ := by
  obtain ⟨b, w, rfl⟩ := List.exists_cons_of_ne_nil hne
  obtain ⟨hb, hw⟩ := List.forall_mem_cons.mp h
  obtain ⟨hblank, hquote⟩ := not_isBlank_of_isWordByte hb
  rw [run, step]
  simp [fresh, hblank, hquote, hb, run_word hw]

/-- The tokens that come of some bytes. -/
def result? (s : Lexer) (bs : Bytes) : Option (List Token) := (s.run bs).bind finish

theorem result?_append {s s' : Lexer} {bs cs : Bytes} (h : s.run bs = some s') :
    s.result? (bs ++ cs) = s'.result? cs := by
  rw [result?, run_append, h]
  rfl

/-- At its end a word is the token that it is. -/
theorem result?_word {bs rest : Bytes} {t : Token} (h : Token.ofWord? bs.reverse = some t)
    (hr : EndsWord rest) : result? ⟨ts, .word bs⟩ rest = result? ⟨t :: ts, .between⟩ rest := by
  cases rest with
  | nil => simp [result?, run, finish, h]
  | cons b rest =>
    have hb : isWordByte b = false := hr b rfl
    have hstep : step ⟨ts, .word bs⟩ b = step ⟨t :: ts, .between⟩ b := by
      simp [step, hb, h]
    rw [result?, result?, run, run, hstep]

/-- Between two tokens blanks leave no trace. -/
theorem run_blanks {white : Bytes} (h : white ⊆ blanks) :
    run ⟨ts, .between⟩ white = some ⟨ts, .between⟩ := by
  induction white with
  | nil => rfl
  | cons b white ih =>
    obtain ⟨hb, hwhite⟩ := List.cons_subset.mp h
    have hblank : isBlank b = true :=
      List.all_eq_true.mp (all_isBlank.mpr (List.Subset.refl blanks)) b hb
    have hstep : step ⟨ts, .between⟩ b = some ⟨ts, .between⟩ := by rw [step, fresh, if_pos hblank]
    rw [run, hstep]
    exact ih hwhite

theorem result?_blanks {white : Bytes} (h : white ⊆ blanks) :
    result? ⟨ts, .between⟩ white = some ts.reverse := by
  rw [result?, run_blanks h]
  rfl

/-! ### Lists of tokens -/

/-- A blank ends a word, and so does a token that is none. -/
theorem endsWord_of_laid {ts : List Token} {bs : Bytes} (h : Laid ts bs)
    (ht : ∀ t ∈ ts.head?, ¬ t.IsWord) : EndsWord bs := by
  have white {w rest : Bytes} (hw : w ⊆ blanks) (hrest : EndsWord rest) : EndsWord (w ++ rest) := by
    cases w with
    | nil => exact hrest
    | cons b w =>
      have hall : (blanks.all fun b => !isWordByte b) = true := by decide
      have hb := List.all_eq_true.mp hall b (List.cons_subset.mp hw).1
      exact fun c hc => Option.some.inj hc ▸ (Bool.not_eq_true' _).mp hb
  cases h with
  | nil h => exact List.append_nil bs ▸ white h endsWord_nil
  | @cons t _ _ w rest h hw _ =>
    rw [List.append_assoc]
    refine white h ?_
    cases t with
    | null | bool | number => exact absurd trivial (ht _ rfl)
    | text t =>
      obtain ⟨ws, -, rfl⟩ := hw
      intro b hb
      rw [← Option.some.inj hb]
      decide
    | openArray | closeArray | openObject | closeObject | comma | colon =>
      obtain rfl : w = _ := hw
      intro b hb
      rw [← Option.some.inj hb]
      decide

theorem result?_spelled {t : Token} {w rest : Bytes} (h : t.Wellformed) (hw : t.Spelled w)
    (hr : t.IsWord → EndsWord rest) :
    result? ⟨ts, .between⟩ (w ++ rest) = result? ⟨t :: ts, .between⟩ rest := by
  have word {w : Bytes} (hw : ∀ b ∈ w, isWordByte b = true) (hne : w ≠ [])
      (ht : Token.ofWord? w = some t) (hr : EndsWord rest) :
      result? ⟨ts, .between⟩ (w ++ rest) = result? ⟨t :: ts, .between⟩ rest := by
    rw [result?_append (run_start_word hw hne), result?_word (by rw [List.reverse_reverse, ht]) hr]
  cases t with
  | null =>
    obtain rfl : w = utf8 "null" := hw
    rw [utf8_null]
    exact word (List.all_eq_true.mp (by decide)) (by decide)
      (by rw [Token.ofWord?, utf8_null]; rfl) (hr trivial)
  | bool b =>
    obtain rfl : w = (Token.bool b).bytes := hw
    cases b with
    | true =>
      rw [Token.bytes, utf8_true]
      exact word (List.all_eq_true.mp (by decide)) (by decide)
        (by rw [Token.ofWord?, utf8_null, utf8_true]; rfl) (hr trivial)
    | false =>
      rw [Token.bytes, utf8_false]
      exact word (List.all_eq_true.mp (by decide)) (by decide)
        (by rw [Token.ofWord?, utf8_null, utf8_true, utf8_false]; rfl) (hr trivial)
  | number n =>
    obtain ⟨b, bs, hb, -⟩ := Numeral.head?_of_spelled h hw
    have hne : w ≠ [] := by simp [hb]
    exact word (Numeral.isWordByte_of_spelled h hw) hne (Token.ofWord?_of_spelled h hw) (hr trivial)
  | text t =>
    obtain ⟨ws, hws, rfl⟩ := hw
    refine result?_append ?_
    show run ⟨ts, .text []⟩ (ws.flatten ++ [34]) = _
    rw [run_text hws, List.reverse_nil, List.nil_append]
  | openArray | closeArray | openObject | closeObject | comma | colon =>
    obtain rfl : w = _ := hw
    rfl

end Lexer

/-- Tokens of the grammar of which no two words stand side by side. -/
structure Lexable (ts : List Token) : Prop where
  tokens : ∀ t ∈ ts, t.Wellformed
  apart : ts.IsChain fun t u => t.IsWord → ¬ u.IsWord

theorem Lexable.nil : Lexable [] := ⟨List.forall_mem_nil _, .nil⟩

theorem Lexable.cons {t : Token} {ts : List Token} (h : Lexable ts) (ht : t.Wellformed)
    (hw : t.IsWord → ∀ u ∈ ts.head?, ¬ u.IsWord) : Lexable (t :: ts) :=
  ⟨List.forall_mem_cons.mpr ⟨ht, h.tokens⟩,
    List.isChain_cons.mpr ⟨fun u hu hword => hw hword u hu, h.apart⟩⟩

/-- **Tokens are read back from their texts** if no word follows a word. -/
theorem tokens?_of_laid {ts : List Token} {bs : Bytes} (h : Lexable ts) (hl : Laid ts bs) :
    tokens? bs = some ts := by
  suffices ∀ done, Lexer.result? ⟨done, .between⟩ bs = some (done.reverse ++ ts) from this []
  induction hl with
  | nil hwhite =>
    intro done
    rw [Lexer.result?_blanks hwhite, List.append_nil]
  | @cons t ts white w bs hwhite hw hbs ih =>
    intro done
    obtain ⟨ht, hts⟩ := List.forall_mem_cons.mp h.tokens
    have hend : t.IsWord → Lexer.EndsWord bs := fun hword =>
      Lexer.endsWord_of_laid hbs fun u hu => (List.isChain_cons.mp h.apart).1 u hu hword
    rw [List.append_assoc, Lexer.result?_append (Lexer.run_blanks hwhite),
      Lexer.result?_spelled ht hw hend, ih ⟨hts, h.apart.tail⟩]
    simp

/-! ### The writer's spelling -/

theorem Piece.spelled_bytes {p : Piece} (h : p.Wellformed) : p.Spelled p.bytes := by
  cases p with
  | byte b =>
    rw [bytes]
    split
    · next letter hl =>
      refine .letter ?_
      unfold escapeLetter? at hl
      split at hl
      · next hb =>
        cases hl
        rcases hb with rfl | rfl <;> decide
      · iterate 5
          split at hl
          · next hb =>
            subst hb
            cases hl
            decide
        cases hl
    · next hl =>
      refine .raw (h.resolve_right (absurd hl)) ?_ ?_ <;> rintro rfl <;> revert hl <;> decide
  | unit u =>
    have hdigit (n : Nat) : IsHexByte (hexByte (n % 16)) (n % 16) :=
      ⟨Nat.mod_lt _ (by decide), .inl rfl⟩
    have hvalue : 4096 * (u / 4096 % 16) + 256 * (u / 256 % 16) + 16 * (u / 16 % 16) + u % 16 =
        u := by
      change u < 65536 at h
      omega
    have hspelled := Piece.Spelled.unit (hdigit (u / 4096)) (hdigit (u / 256)) (hdigit (u / 16))
      (hdigit u)
    rwa [hvalue] at hspelled

theorem Token.spelled_bytes {t : Token} (h : t.Wellformed) : t.Spelled t.bytes := by
  cases t with
  | number n => exact n.spelled_bytes
  | text t =>
    refine ⟨t.map Piece.bytes, ?_, by rw [bytes, List.flatMap_def]⟩
    rw [List.forall₂_map_right_iff]
    exact List.forall₂_same.mpr fun p hp => Piece.spelled_bytes (h p hp)
  | _ => rfl

/-- Tokens with the same blanks before each of them. -/
theorem laid_flatMap {ts : List Token} {white : Bytes} (h : ∀ t ∈ ts, t.Wellformed)
    (hwhite : white ⊆ blanks) : Laid ts (ts.flatMap fun t => white ++ t.bytes) := by
  induction ts with
  | nil => exact .nil (List.nil_subset _)
  | cons t ts ih =>
    obtain ⟨ht, hts⟩ := List.forall_mem_cons.mp h
    exact .cons hwhite (Token.spelled_bytes ht) (ih hts)

end Rewind.Json
