import Rewind.Format
import Rewind.Proofs.Text

/-! Binary documents read back.

Every piece of a document says by itself where it ends, so each reader is shown to
give back what its writer put in front of some rest, and the rest with it
(`readValue_valueOnto` and its companions). Fuel never runs out because a level of
nesting takes at least a byte: a reader with as much fuel as there are bytes in
front of the rest is enough. `ofBinaryBytes?_binaryBytes` puts the pieces together,
for every document whatsoever. -/

namespace Rewind
namespace Binary

/-! ### Numbers and texts -/

theorem toNat_toUInt8 {n : Nat} (h : n < 256) : n.toUInt8.toNat = n := by
  simp
  omega

theorem readNat_natBytesUpTo (fuel n : Nat) (rest : Bytes) (h : n < 128 * 2 ^ fuel) :
    readNat (natBytesUpTo fuel n ++ rest) = some (n, rest) := by
  induction fuel generalizing n with
  | zero =>
    have hn : n < 128 := by simpa using h
    have hb := toNat_toUInt8 (n := n) (by omega)
    have hlt : n.toUInt8 < 128 := UInt8.lt_iff_toNat_lt.mpr (by rw [hb]; exact hn)
    simp [natBytesUpTo, readNat, hlt, hb]
  | succ fuel ih =>
    by_cases hn : n < 128
    · have hb := toNat_toUInt8 (n := n) (by omega)
      have hlt : n.toUInt8 < 128 := UInt8.lt_iff_toNat_lt.mpr (by rw [hb]; exact hn)
      simp [natBytesUpTo, hn, readNat, hlt, hb]
    · have hb := toNat_toUInt8 (n := n % 128 + 128) (by omega)
      have hge : ¬ (n % 128 + 128).toUInt8 < 128 := by
        intro hlt
        have hlt : (n % 128 + 128).toUInt8.toNat < 128 := UInt8.lt_iff_toNat_lt.mp hlt
        omega
      have hdiv : n / 128 < 128 * 2 ^ fuel := by
        rw [Nat.pow_succ] at h
        omega
      have hsum : 128 * (n / 128) + (n % 128 + 128 - 128) = n := by omega
      simp only [natBytesUpTo, hn, if_false, List.cons_append, readNat, hge, ih _ hdiv, hb, hsum]

theorem readNat_natBytes (n : Nat) (rest : Bytes) :
    readNat (natBytes n ++ rest) = some (n, rest) :=
  readNat_natBytesUpTo n n rest (by have := Nat.lt_two_pow_self (n := n); omega)

theorem natBytes_length_pos (n : Nat) : 0 < (natBytes n).length := by
  cases n with
  | zero => decide
  | succ n =>
    unfold natBytes natBytesUpTo
    split <;> simp

theorem readUInt32_natBytes (i : UInt32) (rest : Bytes) :
    readUInt32 (natBytes i.toNat ++ rest) = some (i, rest) := by
  simp [readUInt32, readBelow, readNat_natBytes, i.toNat_lt_size]

theorem readUInt64_natBytes (i : UInt64) (rest : Bytes) :
    readUInt64 (natBytes i.toNat ++ rest) = some (i, rest) := by
  simp [readUInt64, readBelow, readNat_natBytes, i.toNat_lt_size]

theorem readFloat_floatBytes (x : Binary64) (rest : Bytes) :
    readFloat (floatBytes x ++ rest) = some (x, rest) := by
  simp [readFloat, floatBytes, readBelow, readNat_natBytes, x.bits.toNat_lt_size]

theorem readBool_boolBytes (b : Bool) (rest : Bytes) :
    readBool (boolBytes b ++ rest) = some (b, rest) := by
  cases b <;> rfl

theorem takeOnto_append (taken bs rest : Bytes) :
    takeOnto taken bs.length (bs ++ rest) = some (bs.reverse ++ taken, rest) := by
  induction bs generalizing taken with
  | nil => simp [takeOnto]
  | cons b bs ih => simp [takeOnto, ih]

theorem readString_stringBytes (s : String) (rest : Bytes) :
    readString (stringBytes s ++ rest) = some (s, rest) := by
  simp [readString, stringBytes, readNat_natBytes, takeOnto_append, ofUtf8?_utf8]

/-! ### Options, lists and pairs of what can be read -/

section
variable {α : Type} {read : Reader α} {write : α → Bytes}

theorem readOption_optionBytes (h : ∀ a rest, read (write a ++ rest) = some (a, rest))
    (o : Option α) (rest : Bytes) :
    readOption read (optionBytes write o ++ rest) = some (o, rest) := by
  cases o with
  | none => rfl
  | some a => simp [optionBytes, readOption, h]

theorem readOnto_flatMap (h : ∀ a rest, read (write a ++ rest) = some (a, rest)) (done as : List α)
    (rest : Bytes) :
    readOnto read done as.length (as.flatMap write ++ rest) = some (done.reverse ++ as, rest) := by
  induction as generalizing done with
  | nil => simp [readOnto]
  | cons a as ih => simp [readOnto, h, ih]

theorem readList_listBytes (h : ∀ a rest, read (write a ++ rest) = some (a, rest)) (as : List α)
    (rest : Bytes) : readList read (listBytes write as ++ rest) = some (as, rest) := by
  simp [readList, listBytes, readNat_natBytes, readOnto_flatMap h]

end

theorem readPath_pathBytes (p : PathForm) (rest : Bytes) :
    readPath (pathBytes p ++ rest) = some (p, rest) := by
  simp [readPath, pathBytes, readList_listBytes readString_stringBytes,
    readList_listBytes readUInt32_natBytes]

theorem readPoint_pointBytes (p : Point) (rest : Bytes) :
    readPoint (pointBytes p ++ rest) = some (p, rest) := by
  simp [readPoint, pointBytes, readFloat_floatBytes]

theorem readShape_shapeBytes (s : ShapeForm) (rest : Bytes) :
    readShape (shapeBytes s ++ rest) = some (s, rest) := by
  simp [readShape, shapeBytes, readByte, readOption_optionBytes readFloat_floatBytes,
    readList_listBytes readPoint_pointBytes, readOption_optionBytes readPath_pathBytes]

theorem readHeader_headerBytes (h : Header) (rest : Bytes) :
    readHeader (headerBytes h ++ rest) = some (h, rest) := by
  simp [readHeader, headerBytes, readByte, readUInt32_natBytes, readUInt64_natBytes]

/-! ### Types -/

theorem typeOnto_length (t : TypeExpr) (rest : Bytes) :
    rest.length < (typeOnto t rest).length := by
  induction t generalizing rest with
  | simple name =>
    simp only [typeOnto, List.length_cons, List.length_append]
    omega
  | compound name key content ihk ihc =>
    have hk := ihk (typeOnto content rest)
    have hc := ihc rest
    simp only [typeOnto, List.length_cons, List.length_append]
    omega

theorem readType_typeOnto (t : TypeExpr) (fuel : Nat) (rest : Bytes)
    (h : (typeOnto t rest).length ≤ fuel + rest.length) :
    readType fuel (typeOnto t rest) = some (t, rest) := by
  induction t generalizing fuel rest with
  | simple name =>
    cases fuel with
    | zero => exact absurd h (by have := typeOnto_length (.simple name) rest; omega)
    | succ fuel => simp [typeOnto, readType, readBool, readString_stringBytes]
  | compound name key content ihk ihc =>
    cases fuel with
    | zero => exact absurd h (by have := typeOnto_length (.compound name key content) rest; omega)
    | succ fuel =>
      simp only [typeOnto, List.length_cons, List.length_append] at h
      have hk := typeOnto_length key (typeOnto content rest)
      have hc := typeOnto_length content rest
      simp [typeOnto, readType, readBool, readString_stringBytes,
        ihk fuel (typeOnto content rest) (by omega), ihc fuel rest (by omega)]

/-! ### Values and entities -/

theorem length_lt_cons_append (b : UInt8) (bs rest : Bytes) :
    rest.length < (b :: (bs ++ rest)).length := by
  rw [List.length_cons, List.length_append]
  omega

mutual

theorem valueOnto_length : ∀ (v : ValueForm) (rest : Bytes),
    rest.length < (valueOnto v rest).length
  | .nil, rest => by rw [valueOnto]; exact Nat.lt_succ_self _
  | .bool b, rest => by rw [valueOnto]; exact length_lt_cons_append _ _ _
  | .int i, rest => by rw [valueOnto]; exact length_lt_cons_append _ _ _
  | .float x, rest => by rw [valueOnto]; exact length_lt_cons_append _ _ _
  | .str s, rest => by rw [valueOnto]; exact length_lt_cons_append _ _ _
  | .list content items, rest => by
    have hi := itemsOnto_length items rest
    have hc := typeOnto_length content (natBytes items.length ++ itemsOnto items rest)
    simp only [valueOnto, List.length_cons, List.length_append] at hc ⊢
    omega
  | .map key content ordered entries, rest => by
    have he := entriesOnto_length entries rest
    have hc := typeOnto_length content
      (boolBytes ordered ++ (natBytes entries.length ++ entriesOnto entries rest))
    have hk := typeOnto_length key (typeOnto content
      (boolBytes ordered ++ (natBytes entries.length ++ entriesOnto entries rest)))
    simp only [valueOnto, List.length_cons, List.length_append] at hc hk ⊢
    omega
  | .type t, rest => by
    have := typeOnto_length t rest
    simp only [valueOnto, List.length_cons]
    omega
  | .context name, rest => by rw [valueOnto]; exact length_lt_cons_append _ _ _
  | .shape s, rest => by rw [valueOnto]; exact length_lt_cons_append _ _ _
  | .full owner e, rest => by
    have := entityOnto_length e rest
    simp only [valueOnto, List.length_cons, List.length_append]
    omega
  | .reference p, rest => by rw [valueOnto]; exact length_lt_cons_append _ _ _
termination_by structural v => v

theorem itemsOnto_length : ∀ (vs : List ValueForm) (rest : Bytes),
    rest.length ≤ (itemsOnto vs rest).length
  | [], rest => Nat.le_refl _
  | v :: vs, rest => by
    have hv := valueOnto_length v (itemsOnto vs rest)
    have hvs := itemsOnto_length vs rest
    simp only [itemsOnto]
    omega
termination_by structural vs => vs

theorem entriesOnto_length : ∀ (es : List (ValueForm × ValueForm)) (rest : Bytes),
    rest.length ≤ (entriesOnto es rest).length
  | [], rest => Nat.le_refl _
  | (k, v) :: es, rest => by
    have hk := valueOnto_length k (valueOnto v (entriesOnto es rest))
    have hv := valueOnto_length v (entriesOnto es rest)
    have hes := entriesOnto_length es rest
    simp only [entriesOnto]
    omega
termination_by structural es => es

theorem entityOnto_length : ∀ (e : EntityForm) (rest : Bytes),
    rest.length < (entityOnto e rest).length
  | .mk index species attributes populations, rest => by
    have hi := natBytes_length_pos index.toNat
    have hp := populationsOnto_length populations rest
    have ha := attributesOnto_length attributes
      (natBytes populations.length ++ populationsOnto populations rest)
    simp only [entityOnto, List.length_append] at ha ⊢
    omega
termination_by structural e => e

theorem attributesOnto_length : ∀ (as : List (String × ValueForm)) (rest : Bytes),
    rest.length ≤ (attributesOnto as rest).length
  | [], rest => Nat.le_refl _
  | (name, v) :: as, rest => by
    have hv := valueOnto_length v (attributesOnto as rest)
    have has := attributesOnto_length as rest
    simp only [attributesOnto, List.length_append]
    omega
termination_by structural as => as

theorem populationsOnto_length : ∀ (ps : List (PopulationForm EntityForm)) (rest : Bytes),
    rest.length ≤ (populationsOnto ps rest).length
  | [], rest => Nat.le_refl _
  | ⟨species, nextIndex, members⟩ :: ps, rest => by
    have hm := membersOnto_length members (populationsOnto ps rest)
    have hps := populationsOnto_length ps rest
    simp only [populationsOnto, List.length_append]
    omega
termination_by structural ps => ps

theorem membersOnto_length : ∀ (es : List EntityForm) (rest : Bytes),
    rest.length ≤ (membersOnto es rest).length
  | [], rest => Nat.le_refl _
  | e :: es, rest => by
    have he := entityOnto_length e (membersOnto es rest)
    have hes := membersOnto_length es rest
    simp only [membersOnto]
    omega
termination_by structural es => es

end

mutual

theorem readValue_valueOnto : ∀ (v : ValueForm) (fuel : Nat) (rest : Bytes),
    (valueOnto v rest).length ≤ fuel + rest.length →
      readValue fuel (valueOnto v rest) = some (v, rest)
  | v, 0, rest, h => absurd h (by have := valueOnto_length v rest; omega)
  | .nil, fuel + 1, rest, _ => by simp [valueOnto, readValue, readByte]
  | .bool b, fuel + 1, rest, _ => by simp [valueOnto, readValue, readByte, readBool_boolBytes]
  | .int i, fuel + 1, rest, _ => by simp [valueOnto, readValue, readByte, readUInt64_natBytes]
  | .float x, fuel + 1, rest, _ => by simp [valueOnto, readValue, readByte, readFloat_floatBytes]
  | .str s, fuel + 1, rest, _ => by simp [valueOnto, readValue, readByte, readString_stringBytes]
  | .list content items, fuel + 1, rest, h => by
    have hi := itemsOnto_length items rest
    have hc := typeOnto_length content (natBytes items.length ++ itemsOnto items rest)
    simp only [valueOnto, List.length_cons, List.length_append] at h hc
    have htype := readType_typeOnto content (fuel + 1)
      (natBytes items.length ++ itemsOnto items rest) (by simp only [List.length_append]; omega)
    have hitems := readItems_itemsOnto items fuel [] rest (by omega)
    simp [valueOnto, readValue, readByte, htype, readList, readNat_natBytes, hitems]
  | .map key content ordered entries, fuel + 1, rest, h => by
    have he := entriesOnto_length entries rest
    let tail := boolBytes ordered ++ (natBytes entries.length ++ entriesOnto entries rest)
    have hc := typeOnto_length content tail
    have hk := typeOnto_length key (typeOnto content tail)
    have htail : tail.length = (boolBytes ordered).length + ((natBytes entries.length).length +
        (entriesOnto entries rest).length) := by simp [tail]
    have h : (typeOnto key (typeOnto content tail)).length + 1 ≤ fuel + 1 + rest.length := by
      simpa only [valueOnto, List.length_cons] using h
    have hkey := readType_typeOnto key (fuel + 1) (typeOnto content tail) (by omega)
    have hcontent := readType_typeOnto content (fuel + 1) tail (by omega)
    have hentries := readEntries_entriesOnto entries fuel [] rest (by omega)
    simp [valueOnto, readValue, readByte, hkey, hcontent, tail, readBool_boolBytes, readList,
      readNat_natBytes, hentries]
  | .type t, fuel + 1, rest, h => by
    simp only [valueOnto, List.length_cons] at h
    simp [valueOnto, readValue, readByte, readType_typeOnto t (fuel + 1) rest (by omega)]
  | .context name, fuel + 1, rest, _ => by
    simp [valueOnto, readValue, readByte, readString_stringBytes]
  | .shape s, fuel + 1, rest, _ => by simp [valueOnto, readValue, readByte, readShape_shapeBytes]
  | .full owner e, fuel + 1, rest, h => by
    simp only [valueOnto, List.length_cons, List.length_append] at h
    have hentity := readEntity_entityOnto e fuel rest (by omega)
    simp [valueOnto, readValue, readByte, readOption_optionBytes readPath_pathBytes, hentity]
  | .reference p, fuel + 1, rest, _ => by
    simp [valueOnto, readValue, readByte, readPath_pathBytes]
termination_by structural v => v

theorem readItems_itemsOnto : ∀ (vs : List ValueForm) (fuel : Nat) (done : List ValueForm)
    (rest : Bytes), (itemsOnto vs rest).length ≤ fuel + rest.length →
      readOnto (readValue fuel) done vs.length (itemsOnto vs rest) =
        some (done.reverse ++ vs, rest)
  | [], fuel, done, rest, _ => by simp [itemsOnto, readOnto]
  | v :: vs, fuel, done, rest, h => by
    have hlen := itemsOnto_length vs rest
    have hv := valueOnto_length v (itemsOnto vs rest)
    simp only [itemsOnto] at h
    have hvalue := readValue_valueOnto v fuel (itemsOnto vs rest) (by omega)
    have hitems := readItems_itemsOnto vs fuel (v :: done) rest (by omega)
    simp [itemsOnto, readOnto, hvalue, hitems]
termination_by structural vs => vs

theorem readEntries_entriesOnto : ∀ (es : List (ValueForm × ValueForm)) (fuel : Nat)
    (done : List (ValueForm × ValueForm)) (rest : Bytes),
    (entriesOnto es rest).length ≤ fuel + rest.length →
      readOnto (readPair (readValue fuel) (readValue fuel)) done es.length (entriesOnto es rest) =
        some (done.reverse ++ es, rest)
  | [], fuel, done, rest, _ => by simp [entriesOnto, readOnto]
  | (k, v) :: es, fuel, done, rest, h => by
    have hlen := entriesOnto_length es rest
    have hv := valueOnto_length v (entriesOnto es rest)
    have hk := valueOnto_length k (valueOnto v (entriesOnto es rest))
    simp only [entriesOnto] at h
    have hkey := readValue_valueOnto k fuel (valueOnto v (entriesOnto es rest)) (by omega)
    have hvalue := readValue_valueOnto v fuel (entriesOnto es rest) (by omega)
    have hentries := readEntries_entriesOnto es fuel ((k, v) :: done) rest (by omega)
    simp [entriesOnto, readOnto, readPair, hkey, hvalue, hentries]
termination_by structural es => es

theorem readEntity_entityOnto : ∀ (e : EntityForm) (fuel : Nat) (rest : Bytes),
    (entityOnto e rest).length ≤ fuel + rest.length →
      readEntity fuel (entityOnto e rest) = some (e, rest)
  | e, 0, rest, h => absurd h (by have := entityOnto_length e rest; omega)
  | .mk index species attributes populations, fuel + 1, rest, h => by
    have hi := natBytes_length_pos index.toNat
    have hp := populationsOnto_length populations rest
    have ha := attributesOnto_length attributes
      (natBytes populations.length ++ populationsOnto populations rest)
    simp only [entityOnto, List.length_append] at h ha
    have hattributes := readAttributes_attributesOnto attributes fuel []
      (natBytes populations.length ++ populationsOnto populations rest)
      (by simp only [List.length_append]; omega)
    have hpopulations := readPopulations_populationsOnto populations fuel [] rest (by omega)
    simp [entityOnto, readEntity, readUInt32_natBytes, readString_stringBytes, readList,
      readNat_natBytes, hattributes, hpopulations]
termination_by structural e => e

theorem readAttributes_attributesOnto : ∀ (as : List (String × ValueForm)) (fuel : Nat)
    (done : List (String × ValueForm)) (rest : Bytes),
    (attributesOnto as rest).length ≤ fuel + rest.length →
      readOnto (readPair readString (readValue fuel)) done as.length (attributesOnto as rest) =
        some (done.reverse ++ as, rest)
  | [], fuel, done, rest, _ => by simp [attributesOnto, readOnto]
  | (name, v) :: as, fuel, done, rest, h => by
    have hlen := attributesOnto_length as rest
    have hv := valueOnto_length v (attributesOnto as rest)
    simp only [attributesOnto, List.length_append] at h
    have hvalue := readValue_valueOnto v fuel (attributesOnto as rest) (by omega)
    have hattributes := readAttributes_attributesOnto as fuel ((name, v) :: done) rest (by omega)
    simp [attributesOnto, readOnto, readPair, readString_stringBytes, hvalue, hattributes]
termination_by structural as => as

theorem readPopulations_populationsOnto : ∀ (ps : List (PopulationForm EntityForm)) (fuel : Nat)
    (done : List (PopulationForm EntityForm)) (rest : Bytes),
    (populationsOnto ps rest).length ≤ fuel + rest.length →
      readOnto (readPopulation fuel) done ps.length (populationsOnto ps rest) =
        some (done.reverse ++ ps, rest)
  | [], fuel, done, rest, _ => by simp [populationsOnto, readOnto]
  | ⟨species, nextIndex, members⟩ :: ps, 0, done, rest, h => by
    have hn := natBytes_length_pos nextIndex.toNat
    have hlen := populationsOnto_length ps rest
    have hm := membersOnto_length members (populationsOnto ps rest)
    simp only [populationsOnto, List.length_append] at h
    omega
  | ⟨species, nextIndex, members⟩ :: ps, fuel + 1, done, rest, h => by
    have hn := natBytes_length_pos nextIndex.toNat
    have hlen := populationsOnto_length ps rest
    have hm := membersOnto_length members (populationsOnto ps rest)
    simp only [populationsOnto, List.length_append] at h
    have hmembers := readMembers_membersOnto members fuel [] (populationsOnto ps rest) (by omega)
    have hpopulations := readPopulations_populationsOnto ps (fuel + 1)
      (⟨species, nextIndex, members⟩ :: done) rest (by omega)
    have hpopulation : readPopulation (fuel + 1)
        (populationsOnto (⟨species, nextIndex, members⟩ :: ps) rest) =
          some (⟨species, nextIndex, members⟩, populationsOnto ps rest) := by
      simp [populationsOnto, readPopulation, readString_stringBytes, readUInt32_natBytes,
        readList, readNat_natBytes, hmembers]
    simp [readOnto, hpopulation, hpopulations]
termination_by structural ps => ps

theorem readMembers_membersOnto : ∀ (es : List EntityForm) (fuel : Nat) (done : List EntityForm)
    (rest : Bytes), (membersOnto es rest).length ≤ fuel + rest.length →
      readOnto (readEntity fuel) done es.length (membersOnto es rest) =
        some (done.reverse ++ es, rest)
  | [], fuel, done, rest, _ => by simp [membersOnto, readOnto]
  | e :: es, fuel, done, rest, h => by
    have hlen := membersOnto_length es rest
    have he := entityOnto_length e (membersOnto es rest)
    simp only [membersOnto] at h
    have hentity := readEntity_entityOnto e fuel (membersOnto es rest) (by omega)
    have hmembers := readMembers_membersOnto es fuel (e :: done) rest (by omega)
    simp [membersOnto, readOnto, hentity, hmembers]
termination_by structural es => es

end

/-! ### Documents -/

theorem strip?_append (as bs : Bytes) : strip? as (as ++ bs) = some bs := by
  induction as with
  | nil => rfl
  | cons a as ih => simp [strip?, ih]

theorem readBody_bodyBytes (b : Body) :
    readBody ((bodyBytes b).length + 1) (bodyBytes b) = some (b, []) := by
  cases b with
  | entity e =>
    have h := readEntity_entityOnto e ((bodyBytes (.entity e)).length + 1) []
      (by simp only [bodyBytes, List.length_cons, List.length_nil]; omega)
    simp only [bodyBytes, List.length_cons] at h
    simp [bodyBytes, readBody, h]
  | object v =>
    have h := readValue_valueOnto v ((bodyBytes (.object v)).length + 1) []
      (by simp only [bodyBytes, List.length_cons, List.length_nil]; omega)
    simp only [bodyBytes, List.length_cons] at h
    simp [bodyBytes, readBody, h]

end Binary

/-- Every document is what its bytes say. -/
theorem Document.ofBinaryBytes?_binaryBytes (d : Document) :
    Document.ofBinaryBytes? d.binaryBytes = some d := by
  simp [Document.ofBinaryBytes?, Document.binaryBytes, Binary.strip?_append,
    Binary.readHeader_headerBytes, Binary.readBody_bodyBytes]

end Rewind
