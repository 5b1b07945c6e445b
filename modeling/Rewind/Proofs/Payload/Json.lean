import Rewind.Proofs.JsonFormat

/-! Where a JSON text ends.

The last token of an array or an object is its bracket, and a bracket is complete by itself.
So blanks behind such a text leave no trace, and anything else makes another token, which the
parser has no use for (`Json.parse?_append`). Documents are objects, and their texts end with a
bracket themselves: no text of a document is the beginning of another one
(`Document.ofJsonBytes?_of_append`). -/

namespace Rewind
namespace Json

/-! ### Tokens behind tokens -/

namespace Lexer
variable {ts : List Token}

/-- Beyond some tokens: another one is there already, or one has been started. -/
def Beyond (ts : List Token) (s : Lexer) : Prop :=
  ∃ more, s.tokens = more ++ ts ∧ (s.doing = .between → more ≠ [])

/-- A byte that is no blank goes beyond the tokens before it. -/
theorem beyond_of_fresh {s : Lexer} {b : UInt8} (hb : isBlank b = false)
    (hs : fresh ts b = some s) : Beyond ts s := by
  rw [fresh, hb, if_neg Bool.false_ne_true] at hs
  split at hs
  · cases hs
    exact ⟨[], rfl, by rintro ⟨⟩⟩
  · split at hs
    · cases hs
      exact ⟨[], rfl, by rintro ⟨⟩⟩
    · obtain ⟨t, -, rfl⟩ := Option.map_eq_some_iff.mp hs
      exact ⟨[t], rfl, fun _ => List.cons_ne_nil _ _⟩

/-- Going on past a token that is complete stays beyond what stood before it. -/
theorem Beyond.of_fresh {s : Lexer} {b : UInt8} (more : List Token) (hne : more ≠ [])
    (hs : fresh (more ++ ts) b = some s) : Beyond ts s := by
  cases hb : isBlank b with
  | true =>
    rw [fresh, hb, if_pos rfl] at hs
    cases hs
    exact ⟨more, rfl, fun _ => hne⟩
  | false =>
    obtain ⟨new, htokens, -⟩ := beyond_of_fresh hb hs
    exact ⟨new ++ more, by rw [htokens, List.append_assoc], fun _ =>
      List.append_ne_nil_of_right_ne_nil new hne⟩

theorem Beyond.step {s s' : Lexer} {b : UInt8} (h : Beyond ts s) (hs : s.step b = some s') :
    Beyond ts s' := by
  obtain ⟨tokens, doing⟩ := s
  obtain ⟨more, rfl, hbetween⟩ := h
  unfold Lexer.step at hs
  cases doing with
  | between => exact .of_fresh more (hbetween rfl) hs
  | word bs =>
    simp only at hs
    split at hs
    · cases hs
      exact ⟨more, rfl, by rintro ⟨⟩⟩
    · split at hs
      · exact .of_fresh (_ :: more) (List.cons_ne_nil _ _) hs
      · cases hs
  | text ps =>
    simp only at hs
    repeat' split at hs
    all_goals cases hs
    · exact ⟨.text ps.reverse :: more, rfl, fun _ => List.cons_ne_nil _ _⟩
    · exact ⟨more, rfl, by rintro ⟨⟩⟩
    · exact ⟨more, rfl, by rintro ⟨⟩⟩
  | escape ps =>
    simp only at hs
    split at hs
    · cases hs
      exact ⟨more, rfl, by rintro ⟨⟩⟩
    · obtain ⟨c, -, rfl⟩ := Option.map_eq_some_iff.mp hs
      exact ⟨more, rfl, by rintro ⟨⟩⟩
  | unit ps left value =>
    obtain ⟨d, -, rfl⟩ := Option.map_eq_some_iff.mp hs
    split <;> exact ⟨more, rfl, by rintro ⟨⟩⟩

theorem Beyond.run {s s' : Lexer} {bs : Bytes} (h : Beyond ts s) (hs : s.run bs = some s') :
    Beyond ts s' := by
  induction bs generalizing s with
  | nil =>
    cases hs
    exact h
  | cons b bs ih =>
    rw [Lexer.run] at hs
    split at hs
    · next hstep => exact ih (h.step hstep) hs
    · cases hs

/-- What is finished beyond some tokens has one more behind them. -/
theorem Beyond.finish {s : Lexer} {us : List Token} (h : Beyond ts s) (hs : s.finish = some us) :
    ∃ t new, us = ts.reverse ++ t :: new := by
  suffices ∃ more, more ≠ [] ∧ us = (more ++ ts).reverse by
    obtain ⟨more, hne, rfl⟩ := this
    obtain ⟨t, new, hnew⟩ := List.exists_cons_of_ne_nil (mt List.reverse_eq_nil_iff.mp hne)
    exact ⟨t, new, by rw [List.reverse_append, hnew]⟩
  obtain ⟨tokens, doing⟩ := s
  obtain ⟨more, rfl, hbetween⟩ := h
  cases doing with
  | between =>
    cases hs
    exact ⟨more, hbetween rfl, rfl⟩
  | word bs =>
    obtain ⟨t, -, rfl⟩ := Option.map_eq_some_iff.mp hs
    exact ⟨t :: more, List.cons_ne_nil _ _, rfl⟩
  | text | escape | unit => cases hs

/-- Anything but blanks makes for another token, if it makes tokens at all. -/
theorem result?_not_blanks {more : Bytes} {us : List Token} (hmore : more.all isBlank = false)
    (h : result? ⟨ts, .between⟩ more = some us) : ∃ t new, us = ts.reverse ++ t :: new := by
  induction more with
  | nil => cases hmore
  | cons b more ih =>
    obtain ⟨s, hrun, hfinish⟩ := Option.bind_eq_some_iff.mp h
    rw [run] at hrun
    split at hrun
    · next s' hstep =>
      have hfresh : fresh ts b = some s' := hstep
      cases hb : isBlank b with
      | true =>
        rw [fresh, if_pos hb] at hfresh
        cases hfresh
        rw [List.all_cons, hb, Bool.true_and] at hmore
        exact ih hmore (Option.bind_eq_some_iff.mpr ⟨s, hrun, hfinish⟩)
      | false => exact ((beyond_of_fresh hb hfresh).run hrun).finish hfinish
    · cases hrun

theorem isWord_of_ofWord? {w : Bytes} {t : Token} (h : Token.ofWord? w = some t) : t.IsWord := by
  unfold Token.ofWord? at h
  repeat' split at h
  · cases h
    trivial
  · cases h
    trivial
  · cases h
    trivial
  · obtain ⟨n, -, rfl⟩ := Option.map_eq_some_iff.mp h
    trivial

/-- Where the last token is no word, nothing is open at the end. -/
theorem between_of_finish {s : Lexer} {t : Token} (hs : s.finish = some (ts ++ [t]))
    (ht : ¬ t.IsWord) : s = ⟨(ts ++ [t]).reverse, .between⟩ := by
  obtain ⟨tokens, doing⟩ := s
  cases doing with
  | between =>
    have h : tokens.reverse = ts ++ [t] := Option.some.inj hs
    rw [← h, List.reverse_reverse]
  | word bs =>
    obtain ⟨u, hu, h⟩ := Option.map_eq_some_iff.mp hs
    rw [List.reverse_cons] at h
    obtain rfl := List.singleton_inj.mp (List.append_inj_right' h rfl)
    exact absurd (isWord_of_ofWord? hu) ht
  | text | escape | unit => cases hs

end Lexer

/-! ### A tree that is done -/

namespace Parsing

theorem run_append (s : Parsing) (ts us : List Token) :
    s.run (ts ++ us) = (s.run ts).bind fun s => s.run us := by
  induction ts generalizing s with
  | nil => rfl
  | cons t ts ih =>
    rw [List.cons_append, run, run]
    cases s.step t with
    | none => rfl
    | some s => exact ih s

end Parsing

/-- An array or an object. -/
def IsContainer : Json → Prop
  | .array _ | .object _ => True
  | _ => False

namespace Parsing
variable {j : Json} {stack : List Open}

theorem eq_of_deliver {j' : Json} (h : deliver j' stack = done j) : j' = j := by
  cases stack with
  | nil =>
    cases h
    rfl
  | cons top stack => cases top <;> cases h

theorem open?_ne_done {t : Token} (hj : j.IsContainer) : open? stack t ≠ some (done j) := by
  intro h
  cases t with
  | openArray | openObject | closeArray | closeObject | comma | colon => cases h
  | null | bool | number | text =>
    obtain rfl := eq_of_deliver (Option.some.inj h)
    exact hj

/-- No array or object is done with a word. -/
theorem not_isWord_of_step {s : Parsing} {t : Token} (h : s.step t = some (done j))
    (hj : j.IsContainer) : ¬ t.IsWord := by
  have hvalue (stack : List Open) : s ≠ .value stack := by
    rintro rfl
    exact open?_ne_done hj h
  intro ht
  cases t with
  | openArray | closeArray | openObject | closeObject | comma | colon | text => cases ht
  | null | bool | number =>
    cases s with
    | value stack => exact hvalue stack rfl
    | next top => cases top <;> cases h
    | firstItem | firstKey | key | colon | done => cases h

end Parsing

theorem ofTokens?_eq_some {j : Json} {ts : List Token} :
    ofTokens? ts = some j ↔ (Parsing.value []).run ts = some (.done j) := by
  unfold ofTokens?
  split <;> simp_all

/-- The tokens of a tree end where they end. -/
theorem ofTokens?_append {j : Json} {ts new : List Token} {t : Token} (h : ofTokens? ts = some j) :
    ofTokens? (ts ++ t :: new) = none := by
  rw [ofTokens?, Parsing.run_append, ofTokens?_eq_some.mp h]
  rfl

/-- The last token of an array or an object is no word. -/
theorem exists_last_of_ofTokens? {j : Json} {ts : List Token} (h : ofTokens? ts = some j)
    (hj : j.IsContainer) : ∃ init t, ts = init ++ [t] ∧ ¬ t.IsWord := by
  have hrun := ofTokens?_eq_some.mp h
  obtain rfl | ⟨init, t, rfl⟩ := List.eq_nil_or_concat' ts
  · cases hrun
  · rw [Parsing.run_append] at hrun
    obtain ⟨s, -, hlast⟩ := Option.bind_eq_some_iff.mp hrun
    refine ⟨init, t, rfl, Parsing.not_isWord_of_step (s := s) ?_ hj⟩
    rw [Parsing.run] at hlast
    split at hlast
    · next hstep =>
      rw [hstep]
      exact hlast
    · cases hlast

/-! ### Texts -/

/-- The text of an array or an object ends with its bracket: behind it there may be blanks and
nothing else. -/
theorem parse?_append {bs : Bytes} {j : Json} (h : parse? bs = some j) (hj : j.IsContainer)
    (more : Bytes) : parse? (bs ++ more) = if more.all Lexer.isBlank then some j else none := by
  obtain ⟨ts, hlex, hparse⟩ := Option.bind_eq_some_iff.mp h
  obtain ⟨s, hrun, hfinish⟩ := Option.bind_eq_some_iff.mp hlex
  obtain ⟨init, t, hts, ht⟩ := exists_last_of_ofTokens? hparse hj
  have hs : s = ⟨ts.reverse, .between⟩ := by
    rw [hts] at hfinish ⊢
    exact Lexer.between_of_finish hfinish ht
  have hmore :
      parse? (bs ++ more) = (Lexer.result? ⟨ts.reverse, .between⟩ more).bind ofTokens? := by
    rw [← hs, ← Lexer.result?_append hrun]
    rfl
  rw [hmore]
  split
  · next hblank =>
    rw [Lexer.result?_blanks (all_isBlank.mp hblank), List.reverse_reverse]
    exact hparse
  · next hblank =>
    refine Option.bind_eq_none_iff.mpr fun us hus => ?_
    obtain ⟨t, new, rfl⟩ := Lexer.result?_not_blanks (Bool.eq_false_iff.mpr hblank) hus
    rw [List.reverse_reverse]
    exact ofTokens?_append hparse

/-- The last byte of an array or an object is no blank. -/
theorem exists_last_of_bytes {j : Json} (hj : j.IsContainer) :
    ∃ init b, j.bytes = init ++ [b] ∧ Lexer.isBlank b = false := by
  obtain ⟨ts, t, htokens, ht⟩ := exists_last_of_ofTokens? (ofTokens?_tokens j) hj
  suffices ∃ init b, t.bytes = init ++ [b] ∧ Lexer.isBlank b = false by
    obtain ⟨init, b, hb, hblank⟩ := this
    refine ⟨ts.flatMap Token.bytes ++ init, b, ?_, hblank⟩
    rw [bytes, htokens, List.flatMap_append, List.flatMap_singleton, hb, List.append_assoc]
  cases t with
  | null | bool | number => exact absurd trivial ht
  | text t => exact ⟨34 :: t.flatMap Piece.bytes, 34, rfl, rfl⟩
  | openArray | closeArray | openObject | closeObject | comma | colon =>
    exact ⟨[], _, rfl, by decide⟩

/-- No text of an array or an object is the beginning of another one. -/
theorem not_isContainer_of_append {j j' : Json} {bs rest : Bytes} (hw : j.Wellformed)
    (hj : j.IsContainer) (hbytes : bs ++ rest = j.bytes) (hrest : rest ≠ [])
    (h : parse? bs = some j') : ¬ j'.IsContainer := by
  intro hj'
  have happend := parse?_append h hj' rest
  rw [hbytes, parse?_bytes hw] at happend
  split at happend
  · next hblank =>
    obtain ⟨init, b, hlast, hb⟩ := exists_last_of_bytes hj
    obtain ⟨front, c, rfl⟩ := List.eq_nil_or_concat' rest |>.resolve_left hrest
    rw [hlast, ← List.append_assoc] at hbytes
    obtain rfl := List.singleton_inj.mp (List.append_inj_right' hbytes rfl)
    rw [List.all_eq_true.mp hblank c (by simp)] at hb
    cases hb
  · cases happend

theorem isContainer_of_known? {j : Json} {names : List String} {values : List (Option Json)}
    (h : j.known? names = some values) : j.IsContainer := by
  cases j with
  | array | object => trivial
  | null | bool | number | text => cases h

theorem isContainer_of_toDocument? {j : Json} {d : Document} (h : j.toDocument? = some d) :
    j.IsContainer := by
  unfold toDocument? at h
  split at h
  · next hknown => exact isContainer_of_known? hknown
  · cases h

/-! ### A word that is no token -/

namespace Lexer

/-- No word starts with a capital `R`; words in the making stand backwards. -/
theorem ofWord?_capital (w : Bytes) : Token.ofWord? (w ++ [0x52]).reverse = none := by
  have hnumber : Numeral.ofBytes? (0x52 :: w.reverse) = none := rfl
  simp [Token.ofWord?, utf8_null, utf8_true, utf8_false, hnumber]

theorem result?_capital (ts : List Token) (w bs : Bytes) :
    result? ⟨ts, .word (w ++ [0x52])⟩ bs = none := by
  induction bs generalizing w with
  | nil =>
    show (Token.ofWord? (w ++ [0x52]).reverse).map _ = none
    rw [ofWord?_capital]
    rfl
  | cons b bs ih =>
    rw [result?, run, step]
    cases hb : isWordByte b with
    | true => exact ih (b :: w)
    | false =>
      simp only [Bool.false_eq_true, if_false, ofWord?_capital]
      rfl

end Lexer

/-- A text that starts with a capital `R` is no tree. -/
theorem parse?_capital (bs : Bytes) : parse? (0x52 :: bs) = none := by
  have hlex : tokens? (0x52 :: bs) = none := Lexer.result?_capital [] [] bs
  rw [parse?, hlex]
  rfl

end Json

namespace Document

theorem ofJsonBytes?_append (d : Document) (more : Bytes) :
    ofJsonBytes? (d.jsonBytes ++ more) =
      if more.all Json.Lexer.isBlank then ofJsonBytes? d.jsonBytes else none := by
  have hparse := Json.parse?_bytes (Json.wellformed_document d)
  have happend := Json.parse?_append hparse trivial more
  rw [ofJsonBytes?, ofJsonBytes?, jsonBytes, happend, hparse]
  split <;> rfl

theorem ofJsonBytes?_of_append {d : Document} {bs rest : Bytes}
    (h : bs ++ rest = d.jsonBytes) (hrest : rest ≠ []) : ofJsonBytes? bs = none := by
  refine Option.bind_eq_none_iff.mpr fun j hj => ?_
  have hcontainer := Json.not_isContainer_of_append (Json.wellformed_document d) trivial h hrest hj
  exact Option.eq_none_iff_forall_ne_some.mpr fun d' hd' =>
    hcontainer (Json.isContainer_of_toDocument? hd')

end Document
end Rewind
