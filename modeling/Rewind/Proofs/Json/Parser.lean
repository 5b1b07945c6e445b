import Rewind.Json.Tree
import Rewind.Proofs.Json.Lexer

/-! Trees come back from their text.

The tokens of a tree take the parser from waiting for a value to having delivered the
tree, whatever stands on its stack and whatever follows (`Parsing.run_tokensOnto`).
With the lexer that makes `parse?` give the tree back from any of its texts, if it keeps to the
grammar in its numbers and strings (`parse?_of_isText`), and so from its bytes. -/

namespace Rewind

@[induction_eliminator]
theorem Json.induction {motive : Json → Prop} (null : motive .null)
    (bool : ∀ b, motive (.bool b)) (number : ∀ n, motive (.number n))
    (text : ∀ t, motive (.text t))
    (array : ∀ items, (∀ j ∈ items, motive j) → motive (.array items))
    (object : ∀ fields, (∀ f ∈ fields, motive f.2) → motive (.object fields)) : ∀ j, motive j :=
  fun j =>
    @Json.rec motive (fun js => ∀ j ∈ js, motive j) (fun fs => ∀ f ∈ fs, motive f.2)
      (fun f => motive f.2) null bool number text array object (List.forall_mem_nil _)
      (fun _ _ hj hjs => List.forall_mem_cons.mpr ⟨hj, hjs⟩) (List.forall_mem_nil _)
      (fun _ _ hf hfs => List.forall_mem_cons.mpr ⟨hf, hfs⟩) (fun _ _ hj => hj) j

namespace Json

/-! ### Parsing -/

namespace Parsing
variable {stack : List Open} {rest : List Token}

/-- What a list of items leads to if each of them is delivered. -/
theorem run_itemsOnto {js : List Json}
    (h : ∀ j ∈ js, ∀ stack rest, (value stack).run (j.tokensOnto rest) = (deliver j stack).run rest)
    (done : List Json) (hne : js ≠ []) :
    (value (.array done :: stack)).run (itemsOnto js (.closeArray :: rest)) =
      (deliver (.array (done.reverse ++ js)) stack).run rest := by
  induction js generalizing done with
  | nil => exact absurd rfl hne
  | cons j js ih =>
    obtain ⟨hj, hjs⟩ := List.forall_mem_cons.mp h
    rw [itemsOnto, hj]
    cases js with
    | nil => simp [deliver, run, step]
    | cons j' js =>
      have hrest := ih hjs (j :: done) (List.cons_ne_nil j' js)
      rw [List.reverse_cons, List.append_assoc] at hrest
      exact hrest

theorem run_fieldsOnto {fs : List (Text × Json)}
    (h : ∀ f ∈ fs, ∀ stack rest,
      (value stack).run (f.2.tokensOnto rest) = (deliver f.2 stack).run rest)
    (done : List (Text × Json)) (hne : fs ≠ []) :
    (key done stack).run (fieldsOnto fs (.closeObject :: rest)) =
      (deliver (.object (done.reverse ++ fs)) stack).run rest := by
  induction fs generalizing done with
  | nil => exact absurd rfl hne
  | cons f fs ih =>
    obtain ⟨hf, hfs⟩ := List.forall_mem_cons.mp h
    show (value (.field done f.1 :: stack)).run _ = _
    rw [hf]
    cases fs with
    | nil => simp [deliver, run, step]
    | cons f' fs =>
      have hrest := ih hfs (f :: done) (List.cons_ne_nil f' fs)
      rw [List.reverse_cons, List.append_assoc] at hrest
      exact hrest

/-- A first item is taken like any other. -/
theorem run_firstItem (j : Json) :
    (firstItem stack).run (j.tokensOnto rest) =
      (value (.array [] :: stack)).run (j.tokensOnto rest) := by
  cases j <;> rfl

/-- **The tokens of a tree deliver it.** -/
theorem run_tokensOnto (j : Json) (stack : List Open) (rest : List Token) :
    (value stack).run (j.tokensOnto rest) = (deliver j stack).run rest := by
  induction j generalizing stack rest with
  | null | bool | number | text => rfl
  | array items ih =>
    cases items with
    | nil => rfl
    | cons j js =>
      show (firstItem stack).run (j.tokensOnto _) = _
      rw [run_firstItem]
      exact run_itemsOnto ih [] (List.cons_ne_nil j js)
  | object fields ih =>
    cases fields with
    | nil => rfl
    | cons f fs => exact run_fieldsOnto ih [] (List.cons_ne_nil f fs)

end Parsing

theorem ofTokens?_tokens (j : Json) : ofTokens? j.tokens = some j := by
  rw [ofTokens?, tokens, Parsing.run_tokensOnto]
  rfl

/-! ### Text -/

/-- A tree whose numbers and strings keep to the grammar. -/
inductive Wellformed : Json → Prop
  | null : Wellformed .null
  | bool (b : Bool) : Wellformed (.bool b)
  | number {n : Numeral} (h : n.Wellformed) : Wellformed (.number n)
  | text {t : Text} (h : ∀ p ∈ t, p.Wellformed) : Wellformed (.text t)
  | array {items : List Json} (h : ∀ j ∈ items, Wellformed j) : Wellformed (.array items)
  | object {fields : List (Text × Json)} (hk : ∀ f ∈ fields, ∀ p ∈ f.1, p.Wellformed)
      (hv : ∀ f ∈ fields, Wellformed f.2) : Wellformed (.object fields)

/-- What follows a tree does not start with a word. -/
abbrev Closed (rest : List Token) : Prop := ∀ t ∈ rest.head?, ¬ t.IsWord

theorem closed_cons {t : Token} {rest : List Token} (h : ¬ t.IsWord) : Closed (t :: rest) :=
  fun _ hu => Option.some.inj hu ▸ h

theorem lexable_itemsOnto {js : List Json} {rest : List Token}
    (h : ∀ j ∈ js, ∀ rest, Lexable rest → Closed rest → Lexable (j.tokensOnto rest))
    (hr : Lexable rest) (hc : Closed rest) : Lexable (itemsOnto js rest) := by
  induction js with
  | nil => exact hr
  | cons j js ih =>
    obtain ⟨hj, hjs⟩ := List.forall_mem_cons.mp h
    refine hj _ ?_ ?_
    · split
      · exact hr
      · exact (ih hjs).cons trivial (fun hw => nomatch hw)
    · split
      · exact hc
      · exact closed_cons fun hw => nomatch hw

theorem lexable_fieldsOnto {fs : List (Text × Json)} {rest : List Token}
    (hk : ∀ f ∈ fs, ∀ p ∈ f.1, p.Wellformed)
    (h : ∀ f ∈ fs, ∀ rest, Lexable rest → Closed rest → Lexable (f.2.tokensOnto rest))
    (hr : Lexable rest) (hc : Closed rest) : Lexable (fieldsOnto fs rest) := by
  induction fs with
  | nil => exact hr
  | cons f fs ih =>
    obtain ⟨hkey, hkeys⟩ := List.forall_mem_cons.mp hk
    obtain ⟨hf, hfs⟩ := List.forall_mem_cons.mp h
    refine Lexable.cons (t := .text f.1) (Lexable.cons (t := .colon) (hf _ ?_ ?_) trivial
      fun hw => nomatch hw) hkey fun hw => nomatch hw
    · split
      · exact hr
      · exact (ih hkeys hfs).cons trivial (fun hw => nomatch hw)
    · split
      · exact hc
      · exact closed_cons fun hw => nomatch hw

theorem lexable_tokensOnto {j : Json} (h : j.Wellformed) {rest : List Token} (hr : Lexable rest)
    (hc : Closed rest) : Lexable (j.tokensOnto rest) := by
  induction h generalizing rest with
  | null | bool => exact hr.cons trivial fun _ => hc
  | number h => exact hr.cons h fun _ => hc
  | text h => exact hr.cons h fun _ => hc
  | array _ ih =>
    have hclose : Lexable (.closeArray :: rest) := hr.cons trivial fun hw => nomatch hw
    exact (lexable_itemsOnto (fun j hj _ => ih j hj) hclose (closed_cons fun hw => nomatch hw)).cons
      trivial fun hw => nomatch hw
  | object hk _ ih =>
    have hclose : Lexable (.closeObject :: rest) := hr.cons trivial fun hw => nomatch hw
    exact (lexable_fieldsOnto hk (fun f hf _ => ih f hf) hclose
      (closed_cons fun hw => nomatch hw)).cons trivial fun hw => nomatch hw

theorem lexable_tokens {j : Json} (h : j.Wellformed) : Lexable j.tokens :=
  lexable_tokensOnto h Lexable.nil fun _ ht => nomatch ht

/-- A text of a tree: its tokens, however spelled, with blanks anywhere between them. -/
structure IsText (j : Json) (bs : Bytes) : Prop where
  wellformed : j.Wellformed
  laid : Laid j.tokens bs

theorem isText_bytes {j : Json} (h : j.Wellformed) : j.IsText j.bytes :=
  ⟨h, laid_flatMap (lexable_tokens h).tokens (List.nil_subset _)⟩

/-- **A tree is read back from its texts.** -/
theorem parse?_of_isText {j : Json} {bs : Bytes} (h : j.IsText bs) : parse? bs = some j := by
  rw [parse?, tokens?_of_laid (lexable_tokens h.wellformed) h.laid]
  exact ofTokens?_tokens j

theorem parse?_bytes {j : Json} (h : j.Wellformed) : parse? j.bytes = some j :=
  parse?_of_isText (isText_bytes h)

end Json
end Rewind
