import Rewind.Proofs.Format

/-! Documents as texts, and how deep a text nests.

The limit of the JSON format is one of texts: how many arrays and objects are open at once.
A reader who counts brackets and knows where strings begin and end finds that number without
understanding the text (`Json.textNesting`), and on the text of a tree it finds how deep the
tree nests (`Json.textNesting_bytes`). So a document with finite floats is written, and its
text is read back as the same document as long as it stays within the limit
(`Format.json_read_of_write`). -/

namespace Rewind
namespace Json

/-! ### Counting brackets -/

/-- Where a reader is with regard to strings. -/
inductive Quoting where
  | outside
  | inside
  /-- In a string, after a backslash. -/
  | escaped

/-- A reader that counts the brackets which are not part of a string. -/
structure Brackets where
  opened : Nat
  /-- The most that have been open at once. -/
  deepest : Nat
  quoting : Quoting

namespace Brackets

def step (s : Brackets) (b : UInt8) : Brackets :=
  match s.quoting with
  | .outside =>
    if b = ascii '[' ∨ b = 0x7B then
      { s with opened := s.opened + 1, deepest := max s.deepest (s.opened + 1) }
    else if b = ascii ']' ∨ b = 0x7D then { s with opened := s.opened - 1 }
    else if b = 34 then { s with quoting := .inside }
    else s
  | .inside =>
    if b = 34 then { s with quoting := .outside }
    else if b = 92 then { s with quoting := .escaped }
    else s
  | .escaped => { s with quoting := .inside }

def run (s : Brackets) (bs : Bytes) : Brackets := bs.foldl step s

end Brackets

/-- How many arrays and objects of a text are open at once at most. -/
def textNesting (bs : Bytes) : Nat := (Brackets.run ⟨0, 0, .outside⟩ bs).deepest

namespace Brackets

theorem run_append (s : Brackets) (bs cs : Bytes) : s.run (bs ++ cs) = (s.run bs).run cs :=
  List.foldl_append

variable {opened deepest : Nat}

/-- Bytes that change nothing one by one change nothing together. -/
theorem run_eq_self {s : Brackets} {bs : Bytes} (h : ∀ b ∈ bs, s.step b = s) : s.run bs = s := by
  induction bs with
  | nil => rfl
  | cons b bs ih =>
    obtain ⟨hb, hbs⟩ := List.forall_mem_cons.mp h
    show (s.step b).run bs = s
    rw [hb, ih hbs]

/-! ### Strings -/

theorem hexByte_ne (n : Nat) : hexByte (n % 16) ≠ 34 ∧ hexByte (n % 16) ≠ 92 := by
  have hall : ∀ d < 16, hexByte d ≠ 34 ∧ hexByte d ≠ 92 := by decide
  exact hall _ (Nat.mod_lt _ (by decide))

/-- A piece of a string begins and ends inside of it. -/
theorem run_piece (p : Piece) :
    run ⟨opened, deepest, .inside⟩ p.bytes = ⟨opened, deepest, .inside⟩ := by
  cases p with
  | byte b =>
    rw [Piece.bytes]
    split
    · rfl
    · next hletter =>
      have hquote : b ≠ 34 := by rintro rfl; revert hletter; decide
      have hslash : b ≠ 92 := by rintro rfl; revert hletter; decide
      simp [run, step, hquote, hslash]
  | unit u => simp [run, step, Piece.bytes, Piece.hexBytes, ascii, hexByte_ne]

theorem run_pieces (t : Text) :
    run ⟨opened, deepest, .inside⟩ (t.flatMap Piece.bytes) = ⟨opened, deepest, .inside⟩ := by
  induction t with
  | nil => rfl
  | cons p t ih => rw [List.flatMap_cons, run_append, run_piece, ih]

/-! ### Trees -/

theorem step_of_isWordByte {b : UInt8} (h : Lexer.isWordByte b = true) :
    step ⟨opened, deepest, .outside⟩ b = ⟨opened, deepest, .outside⟩ := by
  have hne (c : UInt8) (hc : Lexer.isWordByte c = false) : b ≠ c := by
    rintro rfl
    rw [h] at hc
    cases hc
  simp [step, hne _ (show Lexer.isWordByte (ascii '[') = false by decide),
    hne _ (show Lexer.isWordByte (ascii ']') = false by decide),
    hne _ (show Lexer.isWordByte 0x7B = false by decide),
    hne _ (show Lexer.isWordByte 0x7D = false by decide),
    hne _ (show Lexer.isWordByte 34 = false by decide)]

/-- Tokens that are no brackets leave the count as it is. -/
theorem run_leaf {t : Token} (h : t.Wellformed)
    (ht : t ∉ [.openArray, .closeArray, .openObject, .closeObject]) :
    run ⟨opened, deepest, .outside⟩ t.bytes = ⟨opened, deepest, .outside⟩ := by
  have word {bs : Bytes} (hbs : bs.all Lexer.isWordByte = true) :
      run ⟨opened, deepest, .outside⟩ bs = ⟨opened, deepest, .outside⟩ :=
    run_eq_self fun b hb => step_of_isWordByte (List.all_eq_true.mp hbs b hb)
  cases t with
  | openArray | closeArray | openObject | closeObject => simp at ht
  | comma | colon => rfl
  | null =>
    rw [Token.bytes, utf8_null]
    exact word (by decide)
  | bool b =>
    cases b with
    | true =>
      rw [Token.bytes, utf8_true]
      exact word (by decide)
    | false =>
      rw [Token.bytes, utf8_false]
      exact word (by decide)
  | number n => exact word (List.all_eq_true.mpr (Numeral.isWordByte_bytes h))
  | text t =>
    show run ⟨opened, deepest, .inside⟩ (t.flatMap Piece.bytes ++ [34]) = _
    rw [run_append, run_pieces]
    rfl

/-- The count over the bytes of tokens. -/
abbrev runAll (s : Brackets) (ts : List Token) : Brackets := s.run (ts.flatMap Token.bytes)

theorem runAll_cons (s : Brackets) (t : Token) (ts : List Token) :
    s.runAll (t :: ts) = (s.run t.bytes).runAll ts := by
  rw [runAll, List.flatMap_cons, run_append]

theorem runAll_leaf {t : Token} (ts : List Token) (h : t.Wellformed)
    (ht : t ∉ [.openArray, .closeArray, .openObject, .closeObject]) :
    runAll ⟨opened, deepest, .outside⟩ (t :: ts) = runAll ⟨opened, deepest, .outside⟩ ts := by
  rw [runAll_cons, run_leaf h ht]

/-- What a tree does to the count: it is as deep as it nests above what is open already. -/
def Deepens (j : Json) : Prop :=
  ∀ {opened deepest : Nat} (rest : List Token), opened ≤ deepest →
    runAll ⟨opened, deepest, .outside⟩ (j.tokensOnto rest) =
      runAll ⟨opened, max deepest (opened + j.nesting), .outside⟩ rest

theorem runAll_itemsOnto {js : List Json} (h : ∀ j ∈ js, Deepens j) (rest : List Token)
    (hle : opened ≤ deepest) :
    runAll ⟨opened, deepest, .outside⟩ (itemsOnto js rest) =
      runAll ⟨opened, max deepest (opened + itemsNesting js), .outside⟩ rest := by
  induction js generalizing deepest with
  | nil =>
    rw [itemsOnto, itemsNesting, Nat.add_zero, Nat.max_eq_left hle]
  | cons j js ih =>
    obtain ⟨hj, hjs⟩ := List.forall_mem_cons.mp h
    have hdeeper : opened ≤ max deepest (opened + j.nesting) := le_max_of_le_left hle
    have hmax : max (max deepest (opened + j.nesting)) (opened + itemsNesting js) =
        max deepest (opened + itemsNesting (j :: js)) := by
      rw [itemsNesting]
      omega
    rw [itemsOnto, hj _ hle, ← hmax, ← ih hjs hdeeper]
    cases js with
    | nil => rfl
    | cons j' js => exact runAll_leaf _ trivial (by simp)

theorem runAll_fieldsOnto {fs : List (Text × Json)} (hk : ∀ f ∈ fs, ∀ p ∈ f.1, p.Wellformed)
    (h : ∀ f ∈ fs, Deepens f.2) (rest : List Token) (hle : opened ≤ deepest) :
    runAll ⟨opened, deepest, .outside⟩ (fieldsOnto fs rest) =
      runAll ⟨opened, max deepest (opened + fieldsNesting fs), .outside⟩ rest := by
  induction fs generalizing deepest with
  | nil =>
    rw [fieldsOnto, fieldsNesting, Nat.add_zero, Nat.max_eq_left hle]
  | cons f fs ih =>
    obtain ⟨key, j⟩ := f
    obtain ⟨hkey, hkeys⟩ := List.forall_mem_cons.mp hk
    obtain ⟨hj, hfs⟩ := List.forall_mem_cons.mp h
    have hdeeper : opened ≤ max deepest (opened + j.nesting) := le_max_of_le_left hle
    have hmax : max (max deepest (opened + j.nesting)) (opened + fieldsNesting fs) =
        max deepest (opened + fieldsNesting ((key, j) :: fs)) := by
      rw [fieldsNesting]
      omega
    rw [fieldsOnto, runAll_leaf (t := .text key) _ hkey (by simp),
      runAll_leaf (t := .colon) _ trivial (by simp), hj _ hle, ← hmax, ← ih hkeys hfs hdeeper]
    cases fs with
    | nil => rfl
    | cons f' fs => exact runAll_leaf _ trivial (by simp)

theorem deepens {j : Json} (h : j.Wellformed) : Deepens j := by
  induction h with
  | null | bool =>
    intro opened deepest rest hle
    rw [nesting, Nat.add_zero, Nat.max_eq_left hle]
    exact runAll_leaf _ trivial (by simp)
  | number h | text h =>
    intro opened deepest rest hle
    rw [nesting, Nat.add_zero, Nat.max_eq_left hle]
    exact runAll_leaf _ h (by simp)
  | @array items _ ih =>
    intro opened deepest rest hle
    have hmax : max (max deepest (opened + 1)) (opened + 1 + itemsNesting items) =
        max deepest (opened + (1 + itemsNesting items)) := by omega
    show runAll ⟨opened + 1, max deepest (opened + 1), .outside⟩
      (itemsOnto items (.closeArray :: rest)) = _
    rw [runAll_itemsOnto ih _ (Nat.le_max_right _ _), hmax, nesting]
    rfl
  | @object fields hk _ ih =>
    intro opened deepest rest hle
    have hmax : max (max deepest (opened + 1)) (opened + 1 + fieldsNesting fields) =
        max deepest (opened + (1 + fieldsNesting fields)) := by omega
    show runAll ⟨opened + 1, max deepest (opened + 1), .outside⟩
      (fieldsOnto fields (.closeObject :: rest)) = _
    rw [runAll_fieldsOnto hk ih _ (Nat.le_max_right _ _), hmax, nesting]
    rfl

end Brackets

/-- The text of a tree nests as deep as the tree. -/
theorem textNesting_bytes {j : Json} (h : j.Wellformed) : textNesting j.bytes = j.nesting := by
  have hrun : Brackets.run ⟨0, 0, .outside⟩ j.bytes = ⟨0, max 0 (0 + j.nesting), .outside⟩ :=
    Brackets.deepens h [] (Nat.le_refl 0)
  rw [textNesting, hrun]
  show max 0 (0 + j.nesting) = j.nesting
  omega

end Json

theorem Document.textNesting_jsonBytes (d : Document) :
    Json.textNesting d.jsonBytes = d.json.nesting :=
  Json.textNesting_bytes (Json.wellformed_document d)

/-- **JSON brings documents back.** A document with finite floats is written, whatever else it
holds, and its text is read as that very document if it nests at most 127 levels. Deeper texts
are not read at all. -/
theorem Format.json_read_of_write {d : Document} (hf : Json.Finite d.floats) :
    ∃ bs, json.write d = .ok bs ∧
      (Json.textNesting bs ≤ 127 → json.read bs = .ok d) ∧
      (127 < Json.textNesting bs → json.read bs = .error (.malformed json.name)) := by
  obtain ⟨hread, hrefuse⟩ := Document.ofJsonBytes?_jsonBytes hf
  refine ⟨d.jsonBytes, json_write_of_finite (Document.firstNonFinite?_eq_none.mpr hf),
    fun hn => ?_, fun hn => ?_⟩
  · rw [Document.textNesting_jsonBytes] at hn
    exact read_of_read? (hread hn)
  · rw [Document.textNesting_jsonBytes] at hn
    exact read_of_read?_eq_none (hrefuse (Nat.not_le.mpr hn))

namespace Sample

/-- A document of things that are hard to write: a header that nobody checks, control
characters and quotes in names, characters beyond the basic plane, the ends of the number ranges,
and floats from minus zero to the largest. -/
def oddities : Document where
  header := ⟨0, 0xFFFFFFFF, 255, 0xFFFFFFFFFFFFFFFF⟩
  body := .entity <| .mk 0xFFFFFFFF "\x00\t\n\x1f\"\\/" [
    ("🐜", .list (.listOf (.simple "")) [.int Int64.minValue, .int Int64.maxValue, .nil]),
    ("", .map (.simple "float") (.simple "[\x7b\"") true [
      (.float ⟨0x8000000000000000⟩, .float ⟨1⟩),
      (.float ⟨0x7FEFFFFFFFFFFFFF⟩, .float ⟨0xFFEFFFFFFFFFFFFF⟩)]),
    ("]\x7d", .shape ⟨some ⟨0x3FB999999999999A⟩, 200, [⟨⟨1⟩, ⟨2⟩, ⟨0x4340000000000001⟩⟩],
      some ⟨["ant"], []⟩⟩),
    ("full", .full none (.mk 0 "ant" [("self", .reference ⟨["ant", "egg"], [7]⟩)] []))]
    [⟨"egg", 0, [.mk 3 "" [] []]⟩]

end Sample

theorem Format.json_read_of_write_oddities :
    Json.Finite Sample.oddities.floats ∧
      ∃ bs, json.write Sample.oddities = .ok bs ∧ json.read bs = .ok Sample.oddities := by
  have hf : Json.Finite Sample.oddities.floats := by decide
  obtain ⟨bs, hwrite, hread, -⟩ := json_read_of_write hf
  refine ⟨hf, bs, hwrite, hread ?_⟩
  have hbs : json.write Sample.oddities = .ok Sample.oddities.jsonBytes :=
    json_write_of_finite (Document.firstNonFinite?_eq_none.mpr hf)
  rw [hbs] at hwrite
  rw [← Except.ok.inj hwrite, Document.textNesting_jsonBytes]
  decide

end Rewind
