import Rewind.Proofs.Tree.HeldValue

/-! Values through a format, and back into their own tree.

A value that is written on its own takes the entities with it that it names, and when it
is read these are put back under their owners. Where they came from that changes nothing
(`StandardFormat.decodeValue_encodeValue`): not the order of anything, and no counter,
whatever the value names, how often and in which order. -/

namespace Rewind

variable {c : Context} {root target placed : Entity} {v : Value}

/-! ### Documents through a format -/

namespace StandardFormat

/-- The format gives the document back that it was given: JSON texts have finite floats
only and are limited in depth. -/
def carries (f : StandardFormat) (d : Document) : Bool :=
  match f with
  | binary => true
  | json => d.floats.all Binary64.isFinite && decide (d.json.nesting ≤ Json.depthLimit)

variable {f : StandardFormat} {d : Document}

theorem read_of_carries (h : f.carries d = true) :
    ∃ bs, f.format.write d = .ok bs ∧ f.format.read bs = .ok d := by
  cases f with
  | binary =>
    exact ⟨d.binaryBytes, rfl, Format.read_of_read? (Document.ofBinaryBytes?_binaryBytes d)⟩
  | json =>
    rw [carries, Bool.and_eq_true, decide_eq_true_iff] at h
    have hfinite : Json.Finite d.floats := List.all_eq_true.mp h.1
    exact ⟨d.jsonBytes, Format.json_write_of_finite (Document.firstNonFinite?_eq_none.mpr hfinite),
      Format.read_of_read? ((Document.ofJsonBytes?_jsonBytes hfinite).1 h.2)⟩

/-- What a value is read as from its snapshot is what it is read as from its document. -/
theorem encodeValue_of_carries (hd : Document.ofHeldValue root v = .ok d) (h : f.carries d = true) :
    ∃ bs, f.format.encodeValue root v = .ok bs ∧
      ∀ c target, f.format.decodeValue c target bs = d.value c target := by
  obtain ⟨bs, hwrite, hread⟩ := read_of_carries h
  refine ⟨bs, ?_, fun c target => ?_⟩
  · rw [Format.encodeValue, hd]
    exact hwrite
  · rw [Format.decodeValue, hread]
    rfl

end StandardFormat

/-! ### Reading a value -/

namespace Document
variable {f : ValueForm} {arrivals : List Arrival}

/-- Once the form is read, what is left is to place the arrivals and to check the tree. -/
theorem value_ofValue (hread : f.read c = .ok (v, arrivals)) :
    (ofValue f).value c target = (do
      let placed ← target.placeAll arrivals
      placed.checkResolved (placed.references ++ v.references)
      .ok (v, placed)) := by
  show (f.read c >>= _) = _
  rw [hread]
  rfl

theorem value_ofValue_eq_ok (hread : f.read c = .ok (v, arrivals))
    (hplace : target.placeAll arrivals = .ok placed) (hclosed : placed.Closed)
    (hv : ∀ a, v.Holds a → placed.Resolves a) :
    (ofValue f).value c target = .ok (v, placed) := by
  have hcheck : placed.checkResolved (placed.references ++ v.references) = .ok () := by
    refine Entity.checkResolved_eq_ok.mpr fun a ha => ?_
    rcases List.mem_append.mp ha with ha | ha
    · exact Entity.closed_iff.mp hclosed a ha
    · exact hv a (Value.mem_references.mp ha)
  rw [value_ofValue hread, hplace]
  show (placed.checkResolved _ >>= _) = _
  rw [hcheck]
  rfl

theorem value_ofValue_eq_error {e : DecodeError} (hread : f.read c = .ok (v, arrivals))
    (hplace : target.placeAll arrivals = .error e) : (ofValue f).value c target = .error e := by
  rw [value_ofValue hread, hplace]
  rfl

end Document

/-- **A value that is read into its own tree leaves it as it is.** -/
theorem StandardFormat.decodeValue_encodeValue {f : StandardFormat} (ht : root.Tidy)
    (hh : root.Housed) (hclosed : root.Closed) (hknown : c.Knows root) (htv : v.Tidy)
    (hknownv : c.KnowsValue v) (hv : ∀ a, v.Holds a → root.Resolves a) :
    ∃ d, Document.ofHeldValue root v = .ok d ∧ (f.carries d = true →
      ∃ bs, f.format.encodeValue root v = .ok bs ∧
        f.format.decodeValue c root bs = .ok (v, root)) := by
  have hsound : c.Sound (· < ·) root := ⟨ht, hh, hknown⟩
  obtain ⟨form, hform, hportrays⟩ := Document.ofHeldValue_of_resolves ht
    fun a ha => hv a (Value.holds_of_mem_links ha)
  refine ⟨.ofValue form, hform, fun hcarries => ?_⟩
  obtain ⟨bs, hencode, hdecode⟩ := encodeValue_of_carries hform hcarries
  refine ⟨bs, hencode, ?_⟩
  rw [hdecode]
  exact Document.value_ofValue_eq_ok (hportrays.read c hsound ⟨htv, hknownv⟩)
    (hsound.placeAll_arrivals _) hclosed hv

namespace Sample

/-- An ant with an egg that knows its mother. -/
def brood : Entity :=
  Entity.newRoot.withPopulation "ant" fun p =>
    p.spawn.update 0 fun a =>
      a.withPopulation "egg" fun p => p.spawn.update 0 (·.set "mother" (.entity (ant 0)))

def egg : Address := (ant 0).child "egg" 0

/-- The egg before its owner, then the owner twice, the egg again, and the root. -/
def kin : Value :=
  .list (.simple "agent") [.entity egg, .map (.simple "agent") (.simple "agent") true
    (Entries.insert (.entity .root) (.entity (ant 0))
      (Entries.insert (.entity (ant 0)) (.entity egg) []))]

theorem built_brood : brood.Built := by
  have hegg : (Entity.set (.new "egg" 0) "mother" (.entity (ant 0))).Built :=
    .set (.new "egg" 0) (.plain rfl)
  exact .setPopulation (.new _ _) (.setMember (.spawn (.new "ant"))
    (.setPopulation (.new "ant" 0) (.setMember (.spawn (.new "egg")) hegg)))

theorem built_kin : kin.Built := by
  refine .list (List.forall_mem_cons.mpr ⟨.plain rfl, List.forall_mem_singleton.mpr ?_⟩)
  exact .insert (.insert (.plain rfl) (.plain rfl) (.plain rfl)) (.plain rfl) (.plain rfl)

end Sample

theorem StandardFormat.decodeValue_encodeValue_kin :
    ∃ bs, json.format.encodeValue Sample.brood Sample.kin = .ok bs ∧
      json.format.decodeValue Sample.context Sample.brood bs = .ok (Sample.kin, Sample.brood) := by
  have hkin : ∀ a ∈ Sample.kin.references, Sample.brood.Resolves a := by decide
  obtain ⟨d, hd, h⟩ := decodeValue_encodeValue (f := json) (c := Sample.context)
    Sample.built_brood.tidy (by decide) (by decide) (by decide) Sample.built_kin.tidy (by decide)
    fun a ha => hkin a (Value.mem_references.mpr ha)
  have hcarries : json.carries d = true := by
    cases hd
    decide
  exact h hcarries

end Rewind
