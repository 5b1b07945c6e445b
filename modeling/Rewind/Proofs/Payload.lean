import Rewind.Proofs.Format
import Rewind.Proofs.JsonText
import Rewind.Proofs.Payload.Binary
import Rewind.Proofs.Payload.Json

/-! What is written is read, and what was damaged is not.

The binary format brings every document back (`Format.binary_read_of_write`). In both formats a
payload that was cut short or that goes on behind its end is refused, by everything that reads
payloads and for the same reason, and a tree that it was to go into stays as it is
(`StandardFormat.refuses_of_write`). -/

namespace Rewind

/-- **The binary format brings every document back**, whatever it holds and however deep, and it
takes all of the bytes to say it: with others behind them they are no document. -/
theorem Format.binary_read_of_write (d : Document) :
    ∃ bs, binary.write d = .ok bs ∧ binary.read bs = .ok d ∧
      ∀ more, more ≠ [] → binary.read (bs ++ more) = .error (.malformed binary.name) := by
  have hread := Document.ofBinaryBytes?_binaryBytes d
  refine ⟨d.binaryBytes, rfl, read_of_read? hread, fun more hmore => ?_⟩
  exact read_of_read?_eq_none (Document.ofBinaryBytes?_append hread hmore)

/-! ### Refusals -/

/-- Bytes that are no document of the format. The bytes themselves are at fault, whatever they
were wanted for, and a tree that something was to be read into stays as it is. -/
structure Format.Refuses (f : Format) (bs : Bytes) : Prop where
  isStructural : (DecodeError.malformed f.name).isStructural = true
  read : f.read bs = .error (.malformed f.name)
  decodeTree (c : Context) : f.decodeTree c bs = .error (.malformed f.name)
  decodeClosedTree (c : Context) : f.decodeClosedTree c bs = .error (.malformed f.name)
  decodeInto (c : Context) (root : Entity) :
    f.decodeInto c root bs = (root, .error (.malformed f.name))
  decodeValueInto (c : Context) (root : Entity) :
    f.decodeValueInto c root bs = (root, .error (.malformed f.name))

theorem Format.refuses_of_read? {f : Format} {bs : Bytes} (h : f.read? bs = none) :
    f.Refuses bs := by
  have hread := read_of_read?_eq_none h
  have hclosed (c : Context) : f.decodeClosedTree c bs = .error (.malformed f.name) := by
    rw [decodeClosedTree, hread]
    rfl
  refine ⟨rfl, hread, fun c => ?_, hclosed, fun c root => ?_, fun c root => ?_⟩
  · rw [decodeTree, hread]
    rfl
  · rw [decodeInto, hclosed]
  · rw [decodeValueInto, decodeValue, hread]
    rfl

theorem Format.read?_of_read {f : Format} {bs : Bytes} {d : Document} (h : f.read bs = .ok d) :
    f.read? bs = some d := by
  rw [read] at h
  split at h
  · next hd =>
    cases h
    exact hd
  · cases h

namespace StandardFormat
variable {f : StandardFormat} {d : Document} {bs : Bytes}

theorem finite_of_json_write (h : Format.json.write d = .ok bs) :
    Json.Finite d.floats ∧ bs = d.jsonBytes := by
  cases hfinite : d.firstNonFinite? with
  | none =>
    rw [Format.json_write_of_finite hfinite] at h
    exact ⟨Document.firstNonFinite?_eq_none.mp hfinite, (Except.ok.inj h).symm⟩
  | some x =>
    rw [Format.json_write_of_nonFinite hfinite] at h
    cases h

/-- A payload is read; texts are limited in depth. -/
theorem read_of_write (h : f.format.write d = .ok bs)
    (hdeep : f = json → Json.textNesting bs ≤ 127) : f.format.read bs = .ok d := by
  cases f with
  | binary =>
    cases h
    exact Format.read_of_read? (Document.ofBinaryBytes?_binaryBytes d)
  | json =>
    obtain ⟨bs', hwrite, hread, -⟩ := Format.json_read_of_write (finite_of_json_write h).1
    cases h.symm.trans hwrite
    exact hread (hdeep rfl)

/-- The beginning of a payload is no payload. -/
theorem read?_front (h : f.format.write d = .ok bs) {front : Bytes} (hfront : front <+: bs)
    (hne : front ≠ bs) : f.format.read? front = none := by
  obtain ⟨rest, hrest⟩ := hfront
  have hnonempty : rest ≠ [] := fun hnil => hne (by rw [← hrest, hnil, List.append_nil])
  cases f with
  | binary =>
    cases h
    refine Option.eq_none_iff_forall_ne_some.mpr fun d' hd' => ?_
    have hnone := Document.ofBinaryBytes?_append hd' hnonempty
    rw [hrest, Document.ofBinaryBytes?_binaryBytes] at hnone
    cases hnone
  | json =>
    obtain ⟨-, rfl⟩ := finite_of_json_write h
    exact Document.ofJsonBytes?_of_append hrest hnonempty

/-- A payload with more behind it is no payload. -/
theorem read?_append (h : f.format.write d = .ok bs) {more : Bytes} (hne : more ≠ [])
    (hmore : f = json → ¬ more ⊆ Json.blanks) : f.format.read? (bs ++ more) = none := by
  cases f with
  | binary =>
    cases h
    exact Document.ofBinaryBytes?_append (Document.ofBinaryBytes?_binaryBytes d) hne
  | json =>
    obtain ⟨-, rfl⟩ := finite_of_json_write h
    have happend := Document.ofJsonBytes?_append d more
    rw [if_neg (mt Json.all_isBlank.mp (hmore rfl))] at happend
    exact happend

theorem json_read_append (h : Format.json.write d = .ok bs) {more : Bytes}
    (hmore : more ⊆ Json.blanks) : Format.json.read (bs ++ more) = Format.json.read bs := by
  obtain ⟨-, rfl⟩ := finite_of_json_write h
  have happend := Document.ofJsonBytes?_append d more
  rw [if_pos (Json.all_isBlank.mpr hmore)] at happend
  have hread : Format.json.read? (d.jsonBytes ++ more) = Format.json.read? d.jsonBytes := happend
  rw [Format.read, Format.read, hread]

/-- Texts do not start with the signature. -/
theorem binary_read?_of_json_write (h : Format.json.write d = .ok bs) :
    Format.binary.read? bs = none := by
  obtain ⟨-, rfl⟩ := finite_of_json_write h
  rfl

theorem binary_read?_of_json_read? (h : Format.json.read? bs = some d) :
    Format.binary.read? bs = none := by
  refine Option.eq_none_iff_forall_ne_some.mpr fun d' hd' => ?_
  obtain ⟨rest, -, rfl, -⟩ := Document.ofBinaryBytes?_eq_some hd'
  have hparse : Json.parse? (Binary.signature ++ rest) = none := Json.parse?_capital _
  have hnone : Document.ofJsonBytes? (Binary.signature ++ rest) = none := by
    rw [Document.ofJsonBytes?, hparse]
    rfl
  cases h.symm.trans hnone

/-- **A payload that was cut short or that goes on is refused.** A payload is read, but no
beginning of it, and not with more bytes behind it, up to white space behind a text, which makes
no difference. No text is taken for a binary payload. -/
theorem refuses_of_write (h : f.format.write d = .ok bs) :
    ((f = json → Json.textNesting bs ≤ 127) → f.format.read bs = .ok d) ∧
      (∀ front, front <+: bs → front ≠ bs → f.format.Refuses front) ∧
      (∀ more, more ≠ [] → (f = json → ¬ more ⊆ Json.blanks) → f.format.Refuses (bs ++ more)) ∧
      (f = json → ∀ more, more ⊆ Json.blanks → f.format.read (bs ++ more) = f.format.read bs) ∧
      (f = json → Format.binary.Refuses bs) ∧
      ∀ text, (∃ d', Format.json.read text = .ok d') → Format.binary.Refuses text := by
  refine ⟨read_of_write h, fun front hfront hne => ?_, fun more hne hmore => ?_, ?_, ?_, ?_⟩
  · exact Format.refuses_of_read? (read?_front h hfront hne)
  · exact Format.refuses_of_read? (read?_append h hne hmore)
  · rintro rfl more hmore
    exact json_read_append h hmore
  · rintro rfl
    exact Format.refuses_of_read? (binary_read?_of_json_write h)
  · rintro text ⟨d', hread⟩
    exact Format.refuses_of_read? (binary_read?_of_json_read? (Format.read?_of_read hread))

theorem refuses_of_write_oddities :
    ∃ bs, json.format.write Sample.oddities = .ok bs ∧
      (∀ front, front <+: bs → front ≠ bs → json.format.Refuses front) ∧
      json.format.Refuses (bs ++ [0x0A, 0x7D]) ∧
      json.format.read (bs ++ [0x0D, 0x0A]) = json.format.read bs ∧
      binary.format.Refuses bs := by
  have hf : Json.Finite Sample.oddities.floats := by decide
  have hwrite := Format.json_write_of_finite (Document.firstNonFinite?_eq_none.mpr hf)
  obtain ⟨-, hfront, hmore, hblank, hbinary, -⟩ := refuses_of_write (f := json) hwrite
  exact ⟨_, hwrite, hfront, hmore _ (by decide) fun _ => by decide, hblank rfl _ (by decide),
    hbinary rfl⟩

end StandardFormat
end Rewind
