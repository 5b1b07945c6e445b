import Rewind.Proofs.BinaryFormat

/-! Where a binary document ends.

A reader that gave something back gives the same back when more bytes stand behind, and
leaves them (`Extends`). That holds of every piece of a document, so a document is never the
beginning of another one, and bytes behind it are noticed (`Document.ofBinaryBytes?_append`). -/

namespace Rewind
namespace Binary

/-- The second reader reads what the first one reads, whatever stands behind it. -/
def Extends {α : Type} (read read' : Reader α) : Prop :=
  ∀ bs a rest more, read bs = some (a, rest) → read' (bs ++ more) = some (a, rest ++ more)

namespace Extends
variable {α β : Type} {read read' : Reader α} {bs rest more : Bytes} {b : β}

/-- Nothing more is read. -/
theorem done {b' : β} (h : some (b, bs) = some (b', rest)) :
    some (b, bs ++ more) = some (b', rest ++ more) := by
  cases h
  rfl

/-- Reading one thing and then going on, where the first thing is read the same and what comes
next is read the same. -/
theorem bind {next next' : α × Bytes → Option (β × Bytes)} (h : Extends read read')
    (hb : (read bs).bind next = some (b, rest))
    (hn : ∀ a left, next (a, left) = some (b, rest) →
      next' (a, left ++ more) = some (b, rest ++ more)) :
    (read' (bs ++ more)).bind next' = some (b, rest ++ more) := by
  obtain ⟨⟨a, left⟩, ha, hb⟩ := Option.bind_eq_some_iff.mp hb
  rw [h bs a left more ha]
  exact hn a left hb

end Extends

/-! ### Numbers and texts -/

theorem readByte_extends : Extends readByte readByte := by
  intro bs c rest more h
  cases bs with
  | nil => cases h
  | cons c bs =>
    cases h
    rfl

theorem readNat_extends : Extends readNat readNat := by
  intro bs n rest more h
  induction bs generalizing n with
  | nil => cases h
  | cons b bs ih =>
    rw [List.cons_append, readNat]
    rw [readNat] at h
    split at h
    · next hb =>
      cases h
      rw [if_pos hb]
    · next hb =>
      rw [if_neg hb]
      split at h
      · next k left hk =>
        simp only [Option.some.injEq, Prod.mk.injEq] at h
        obtain ⟨rfl, rfl⟩ := h
        rw [ih k hk]
      · cases h

theorem readBelow_extends (bound : Nat) : Extends (readBelow bound) (readBelow bound) := by
  intro bs n rest more h
  rw [readBelow] at h ⊢
  split at h
  · next k left hk =>
    rw [readNat_extends bs k left more hk]
    split at h
    · next hlt =>
      cases h
      exact if_pos hlt
    · cases h
  · cases h

theorem readBool_extends : Extends readBool readBool := by
  intro bs b rest more h
  unfold readBool at h
  split at h
  · cases h
    rfl
  · cases h
    rfl
  · cases h

theorem takeOnto_extends (taken : Bytes) (n : Nat) :
    Extends (takeOnto taken n) (takeOnto taken n) := by
  intro bs taken' rest more h
  induction n generalizing taken bs with
  | zero =>
    rw [takeOnto] at h ⊢
    cases h
    rfl
  | succ n ih =>
    cases bs with
    | nil => cases h
    | cons b bs => exact ih _ _ h

theorem readUInt32_extends : Extends readUInt32 readUInt32 := fun _ _ _ _ h =>
  (readBelow_extends _).bind h fun _ _ => Extends.done

theorem readUInt64_extends : Extends readUInt64 readUInt64 := fun _ _ _ _ h =>
  (readBelow_extends _).bind h fun _ _ => Extends.done

theorem readFloat_extends : Extends readFloat readFloat := fun _ _ _ _ h =>
  (readBelow_extends _).bind h fun _ _ => Extends.done

theorem readString_extends : Extends readString readString := by
  intro bs s rest more h
  refine readNat_extends.bind h fun n left h =>
    (takeOnto_extends [] n).bind h fun taken left h => ?_
  obtain ⟨t, ht, h⟩ := Option.bind_eq_some_iff.mp h
  cases h
  show (ofUtf8? taken.reverse).bind _ = _
  rw [ht]
  rfl

/-! ### Options, lists and pairs of what can be read -/

theorem readOption_extends {α : Type} {read read' : Reader α} (h : Extends read read') :
    Extends (readOption read) (readOption read') := by
  intro bs o rest more ho
  unfold readOption at ho
  split at ho
  · cases ho
    rfl
  · next bs =>
    obtain ⟨⟨a, left⟩, ha, heq⟩ := Option.map_eq_some_iff.mp ho
    cases heq
    show (read' (bs ++ more)).map _ = _
    rw [h _ _ _ more ha]
    rfl
  · cases ho

theorem readOnto_extends {α : Type} {read read' : Reader α} (h : Extends read read')
    (done : List α) (n : Nat) : Extends (readOnto read done n) (readOnto read' done n) := by
  intro bs as rest more has
  induction n generalizing done bs with
  | zero =>
    rw [readOnto] at has ⊢
    cases has
    rfl
  | succ n ih =>
    rw [readOnto] at has ⊢
    split at has
    · next a left ha =>
      rw [h bs a left more ha]
      exact ih _ _ has
    · cases has

theorem readList_extends {α : Type} {read read' : Reader α} (h : Extends read read') :
    Extends (readList read) (readList read') := fun _ _ _ _ hl =>
  readNat_extends.bind hl fun n _ => readOnto_extends h [] n _ _ _ _

theorem readPair_extends {α β : Type} {first first' : Reader α} {second second' : Reader β}
    (hf : Extends first first') (hs : Extends second second') :
    Extends (readPair first second) (readPair first' second') := fun _ _ _ _ h =>
  hf.bind h fun _ _ h => hs.bind h fun _ _ => Extends.done

/-! ### Pieces of documents -/

theorem readPath_extends : Extends readPath readPath := fun _ _ _ _ h =>
  (readList_extends readString_extends).bind h fun _ _ h =>
    (readList_extends readUInt32_extends).bind h fun _ _ => Extends.done

theorem readPoint_extends : Extends readPoint readPoint := fun _ _ _ _ h =>
  readFloat_extends.bind h fun _ _ h => readFloat_extends.bind h fun _ _ h =>
    readFloat_extends.bind h fun _ _ => Extends.done

theorem readShape_extends : Extends readShape readShape := fun _ _ _ _ h =>
  (readOption_extends readFloat_extends).bind h fun _ _ h => readByte_extends.bind h fun _ _ h =>
    (readList_extends readPoint_extends).bind h fun _ _ h =>
      (readOption_extends readPath_extends).bind h fun _ _ => Extends.done

theorem readHeader_extends : Extends readHeader readHeader := fun _ _ _ _ h =>
  readUInt32_extends.bind h fun _ _ h => readUInt32_extends.bind h fun _ _ h =>
    readByte_extends.bind h fun _ _ h => readUInt64_extends.bind h fun _ _ => Extends.done

/-! ### Types, values and entities

Fuel is counted from the bytes that are there, so with more bytes there is more of it. -/

theorem readType_extends {fuel fuel' : Nat} (hle : fuel ≤ fuel') :
    Extends (readType fuel) (readType fuel') := by
  induction fuel generalizing fuel' with
  | zero => nofun
  | succ fuel ih =>
    cases fuel' with
    | zero => cases hle
    | succ fuel' =>
      have hparam := ih (Nat.le_of_succ_le_succ hle)
      intro bs t rest more h
      refine readBool_extends.bind h fun compound left h =>
        readString_extends.bind h fun name left h => ?_
      cases compound with
      | false => exact Extends.done h
      | true => exact hparam.bind h fun _ _ h => hparam.bind h fun _ _ => Extends.done

theorem readPopulation_extends_of {fuel fuel' : Nat}
    (hentity : Extends (readEntity fuel) (readEntity fuel')) :
    Extends (readPopulation (fuel + 1)) (readPopulation (fuel' + 1)) := fun _ _ _ _ h =>
  readString_extends.bind h fun _ _ h => readUInt32_extends.bind h fun _ _ h =>
    (readList_extends hentity).bind h fun _ _ => Extends.done

theorem readEntity_extends_of {fuel fuel' : Nat}
    (hvalue : Extends (readValue fuel) (readValue fuel'))
    (hpopulation : Extends (readPopulation fuel) (readPopulation fuel')) :
    Extends (readEntity (fuel + 1)) (readEntity (fuel' + 1)) := fun _ _ _ _ h =>
  readUInt32_extends.bind h fun _ _ h => readString_extends.bind h fun _ _ h =>
    (readList_extends (readPair_extends readString_extends hvalue)).bind h fun _ _ h =>
      (readList_extends hpopulation).bind h fun _ _ => Extends.done

/-- A value is read like its parts, whatever its tag is. -/
theorem readValue_extends_of {fuel fuel' : Nat} (hle : fuel ≤ fuel')
    (hvalue : Extends (readValue fuel) (readValue fuel'))
    (hentity : Extends (readEntity fuel) (readEntity fuel')) :
    Extends (readValue (fuel + 1)) (readValue (fuel' + 1)) := by
  have htype := readType_extends (Nat.succ_le_succ hle)
  intro bs v rest more h
  refine readByte_extends.bind h fun tag left h => ?_
  dsimp only at h ⊢
  split at h
  · exact Extends.done h
  · exact readBool_extends.bind h fun _ _ => Extends.done
  · exact readUInt64_extends.bind h fun _ _ => Extends.done
  · exact readFloat_extends.bind h fun _ _ => Extends.done
  · exact readString_extends.bind h fun _ _ => Extends.done
  · exact htype.bind h fun _ _ h => (readList_extends hvalue).bind h fun _ _ => Extends.done
  · exact htype.bind h fun _ _ h => htype.bind h fun _ _ h => readBool_extends.bind h fun _ _ h =>
      (readList_extends (readPair_extends hvalue hvalue)).bind h fun _ _ => Extends.done
  · exact htype.bind h fun _ _ => Extends.done
  · exact readString_extends.bind h fun _ _ => Extends.done
  · exact readShape_extends.bind h fun _ _ => Extends.done
  · exact (readOption_extends readPath_extends).bind h fun _ _ h =>
      hentity.bind h fun _ _ => Extends.done
  · exact readPath_extends.bind h fun _ _ => Extends.done
  · cases h

/-- What is read with some fuel is read the same with more. -/
theorem reads_extend {fuel fuel' : Nat} (hle : fuel ≤ fuel') :
    Extends (readValue fuel) (readValue fuel') ∧ Extends (readEntity fuel) (readEntity fuel') ∧
      Extends (readPopulation fuel) (readPopulation fuel') := by
  induction fuel generalizing fuel' with
  | zero => exact ⟨nofun, nofun, nofun⟩
  | succ fuel ih =>
    cases fuel' with
    | zero => cases hle
    | succ fuel' =>
      have hle := Nat.le_of_succ_le_succ hle
      obtain ⟨hvalue, hentity, hpopulation⟩ := ih hle
      exact ⟨readValue_extends_of hle hvalue hentity, readEntity_extends_of hvalue hpopulation,
        readPopulation_extends_of hentity⟩

/-! ### Documents -/

theorem readBody_extends {fuel fuel' : Nat} (hle : fuel ≤ fuel') :
    Extends (readBody fuel) (readBody fuel') := by
  obtain ⟨hvalue, hentity, -⟩ := reads_extend hle
  intro bs body rest more h
  unfold readBody at h
  split at h
  · next bs =>
    obtain ⟨⟨e, left⟩, he, heq⟩ := Option.map_eq_some_iff.mp h
    cases heq
    show (readEntity fuel' (bs ++ more)).map _ = _
    rw [hentity _ _ _ more he]
    rfl
  · next bs =>
    obtain ⟨⟨v, left⟩, hv, heq⟩ := Option.map_eq_some_iff.mp h
    cases heq
    show (readValue fuel' (bs ++ more)).map _ = _
    rw [hvalue _ _ _ more hv]
    rfl
  · cases h

theorem strip?_eq_some {as bs rest : Bytes} (h : strip? as bs = some rest) : bs = as ++ rest := by
  induction as generalizing bs with
  | nil =>
    cases h
    rfl
  | cons a as ih =>
    cases bs with
    | nil => cases h
    | cons b bs =>
      rw [strip?] at h
      split at h
      · next hab => rw [hab, ih h, List.cons_append]
      · cases h

end Binary

namespace Document
open Binary

/-- The pieces of a document that was read: the signature, a header, and a body with nothing
after it. -/
theorem ofBinaryBytes?_eq_some {bs : Bytes} {d : Document} (h : ofBinaryBytes? bs = some d) :
    ∃ rest body, bs = signature ++ rest ∧ readHeader rest = some (d.header, body) ∧
      readBody (body.length + 1) body = some (d.body, []) := by
  obtain ⟨rest, hrest, h⟩ := Option.bind_eq_some_iff.mp h
  obtain ⟨⟨header, body⟩, hheader, h⟩ := Option.bind_eq_some_iff.mp h
  obtain ⟨⟨b, left⟩, hbody, h⟩ := Option.bind_eq_some_iff.mp h
  cases left with
  | cons _ _ => cases h
  | nil =>
    cases h
    exact ⟨rest, body, strip?_eq_some hrest, hheader, hbody⟩

/-- A document ends where it ends: with more bytes behind it, it is none. -/
theorem ofBinaryBytes?_append {bs more : Bytes} {d : Document} (h : ofBinaryBytes? bs = some d)
    (hmore : more ≠ []) : ofBinaryBytes? (bs ++ more) = none := by
  obtain ⟨rest, body, rfl, hheader, hbody⟩ := ofBinaryBytes?_eq_some h
  have hle : body.length + 1 ≤ (body ++ more).length + 1 := by
    rw [List.length_append]
    omega
  have hheader := readHeader_extends _ _ _ more hheader
  have hbody := readBody_extends hle _ _ _ more hbody
  obtain ⟨b, more, rfl⟩ := List.exists_cons_of_ne_nil hmore
  rw [ofBinaryBytes?, List.append_assoc, strip?_append]
  show (readHeader (rest ++ b :: more)).bind _ = none
  rw [hheader]
  show (readBody ((body ++ b :: more).length + 1) (body ++ b :: more)).bind _ = none
  rw [hbody]
  rfl

end Document

end Rewind
