import Rewind.Proofs.Json.Float

/-! The JSON format reads what it writes, up to its limit in depth.

Every level that the reader spends is an array or an object of the text, so a document
with finite floats is read back exactly if its text nests no deeper than the limit,
and is not read at all if it does (`Document.ofJsonBytes?_jsonBytes`). -/

namespace Rewind

/-! ### Readings that hinge on a condition -/

/-- Gives `a` under a condition, and otherwise nothing. -/
def GivesIff {α : Type} (o : Option α) (condition : Prop) (a : α) : Prop :=
  (condition → o = some a) ∧ (¬ condition → o = none)

namespace GivesIff
variable {α β : Type} {o : Option α} {p q : Prop} {a : α}

theorem some : GivesIff (some a) True a := ⟨fun _ => rfl, fun h => absurd trivial h⟩

theorem of_eq (h : o = Option.some a) (hp : p) : GivesIff o p a :=
  ⟨fun _ => h, fun hn => absurd hp hn⟩

theorem congr (h : GivesIff o p a) (hpq : p ↔ q) : GivesIff o q a :=
  ⟨fun hq => h.1 (hpq.mpr hq), fun hq => h.2 fun hp => hq (hpq.mp hp)⟩

theorem bind {f : α → Option β} {b : β} (h : GivesIff o p a) (hf : GivesIff (f a) q b) :
    GivesIff (o >>= f) (p ∧ q) b := by
  refine ⟨fun ⟨hp, hq⟩ => ?_, fun hpq => ?_⟩
  · rw [h.1 hp]
    exact hf.1 hq
  · by_cases hp : p
    · rw [h.1 hp]
      exact hf.2 fun hq => hpq ⟨hp, hq⟩
    · rw [h.2 hp]
      rfl

/-- What is done with the result without failing. -/
theorem andThen {f : α → Option β} {b : β} (h : GivesIff o p a) (hf : f a = Option.some b) :
    GivesIff (o >>= f) p b :=
  (h.bind (hf ▸ some)).congr (and_iff_left trivial)

theorem map {f : α → β} (h : GivesIff o p a) : GivesIff (o.map f) p (f a) :=
  ⟨fun hp => by rw [h.1 hp]; rfl, fun hp => by rw [h.2 hp]; rfl⟩

/-- A reader that takes a level before it goes on. -/
theorem level {o : Nat → Option α} {n : Nat} (hzero : o 0 = none)
    (h : ∀ level, GivesIff (o (level + 1)) (n ≤ level) a) (level : Nat) :
    GivesIff (o level) (1 + n ≤ level) a := by
  cases level with
  | zero => exact ⟨fun hn => absurd hn (by omega), fun _ => hzero⟩
  | succ level => exact (h level).congr (by omega)

end GivesIff

namespace Json

/-! ### Records and choices -/

@[simp]
theorem case?_variant (name : String) (p : Json) :
    (variant name p).case? = some (name, some p) := by
  simp [variant, record, case?]

theorem named?_record (fields : List (String × Json)) :
    named? (fields.map fun f => (Text.ofString f.1, f.2)) = some fields := by
  induction fields with
  | nil => rfl
  | cons f fs ih => simp [named?, ih]

theorem mapM_single? {all fields : List (String × Json)}
    (h : ∀ f ∈ fields, all.filter (·.1 = f.1) = [f]) :
    (fields.map Prod.fst).mapM (single? all) = some (fields.map fun f => some f.2) := by
  induction fields with
  | nil => rfl
  | cons f fs ih =>
    obtain ⟨hf, hfs⟩ := List.forall_mem_cons.mp h
    rw [List.map_cons, List.mapM_cons, ih hfs, single?, hf]
    rfl

theorem filter_name {fields : List (String × Json)} (h : (fields.map Prod.fst).Nodup) :
    ∀ f ∈ fields, fields.filter (·.1 = f.1) = [f] := by
  induction fields with
  | nil => exact List.forall_mem_nil _
  | cons g gs ih =>
    obtain ⟨hg, hgs⟩ := List.nodup_cons.mp h
    have hne : ∀ f ∈ gs, g.1 ≠ f.1 := fun f hf heq => hg (heq ▸ List.mem_map_of_mem hf)
    intro f hf
    rcases List.mem_cons.mp hf with rfl | hf
    · have hnone : gs.filter (·.1 = f.1) = [] := by
        refine List.filter_eq_nil_iff.mpr fun f' hf' => ?_
        simpa using (hne f' hf').symm
      rw [List.filter_cons_of_pos (by simp), hnone]
    · rw [List.filter_cons_of_neg (by simpa using hne f hf), ih hgs f hf]

/-- A record is read with exactly its fields. -/
theorem known?_record (fields : List (String × Json)) (h : (fields.map Prod.fst).Nodup) :
    (record fields).known? (fields.map Prod.fst) = some (fields.map fun f => some f.2) := by
  rw [record, known?, named?_record]
  exact mapM_single? (filter_name h)

theorem fieldsNesting_le {fields : List (String × Json)} {level : Nat} :
    fieldsNesting (fields.map fun f => (Text.ofString f.1, f.2)) ≤ level ↔
      ∀ f ∈ fields, f.2.nesting ≤ level := by
  induction fields with
  | nil => simp [fieldsNesting]
  | cons f fs ih => rw [List.map_cons, fieldsNesting, Nat.max_le, ih, List.forall_mem_cons]

/-- A reader that takes a level for a record. -/
theorem record_givesIff {α : Type} {o : Nat → Option α} {a : α}
    (fields : List (String × Json)) (hzero : o 0 = none)
    (h : ∀ level, GivesIff (o (level + 1)) (∀ f ∈ fields, f.2.nesting ≤ level) a) (level : Nat) :
    GivesIff (o level) ((Json.record fields).nesting ≤ level) a := by
  rw [Json.record, nesting]
  exact GivesIff.level hzero (fun level => (h level).congr fieldsNesting_le.symm) level

theorem variant_ne_text {name : String} {p : Json} (t : Text) : variant name p ≠ .text t := by
  intro h
  cases h

/-- A reader that takes a level for a case of a choice. -/
theorem variant_givesIff {α : Type} {o : Nat → Option α} {a : α} {name : String} {p : Json}
    (hzero : o 0 = none) (h : ∀ level, GivesIff (o (level + 1)) (p.nesting ≤ level) a)
    (level : Nat) :
    GivesIff (o level) ((variant name p).nesting ≤ level) a :=
  record_givesIff _ hzero (fun level => (h level).congr (by simp)) level

/-- The items of an array are read if each of them is. -/
theorem mapM_givesIff {α : Type} {read : Json → Option α} {write : α → Json} {level : Nat}
    {as : List α} (h : ∀ a ∈ as, GivesIff (read (write a)) ((write a).nesting ≤ level) a) :
    GivesIff ((as.map write).mapM read) (itemsNesting (as.map write) ≤ level) as := by
  induction as with
  | nil => exact GivesIff.some.congr (by simp [itemsNesting])
  | cons a as ih =>
    obtain ⟨ha, has⟩ := List.forall_mem_cons.mp h
    rw [List.map_cons, List.mapM_cons, itemsNesting, Nat.max_le]
    exact ha.bind ((ih has).andThen rfl)

theorem elements?_array {α : Type} (read : Nat → Json → Option α) (write : α → Json) (as : List α)
    (h : ∀ a ∈ as, ∀ level, GivesIff (read level (write a)) ((write a).nesting ≤ level) a)
    (level : Nat) :
    GivesIff (elements? read level (.array (as.map write)))
      ((Json.array (as.map write)).nesting ≤ level) as := by
  rw [nesting]
  exact GivesIff.level (o := fun level => elements? read level (.array (as.map write))) rfl
    (fun level => mapM_givesIff fun a ha => h a ha level) level

/-! ### Types, paths and shapes -/

@[simp]
theorem toStr?_str (s : String) : (str s).toStr? = some s := Text.toString?_ofString s

theorem toType?_json (t : TypeExpr) (level : Nat) :
    GivesIff (toType? level t.json) (t.json.nesting ≤ level) t := by
  induction t generalizing level with
  | simple name =>
    have hk : (TypeExpr.simple name).json.known? ["name", "params"] =
        some [some (str name), some null] := known?_record [_, _] (by simp)
    refine record_givesIff _ (o := fun level => toType? level (TypeExpr.simple name).json) rfl
      (fun level => ?_) level
    rw [toType?, hk]
    refine GivesIff.of_eq ?_ (by simp [nesting, str])
    simp
  | compound name key content ihk ihc =>
    have hk : (TypeExpr.compound name key content).json.known? ["name", "params"] =
        some [some (str name), some (.array [key.json, content.json])] :=
      known?_record [_, _] (by simp)
    refine record_givesIff _
      (o := fun level => toType? level (TypeExpr.compound name key content).json)
      rfl (fun level => ?_) level
    rw [toType?, hk]
    simp only [toStr?_str]
    cases level with
    | zero => exact ⟨fun h => by simp [nesting] at h, fun _ => rfl⟩
    | succ level =>
      refine GivesIff.congr ((ihk level).bind ((ihc level).andThen rfl)) ?_
      simp [nesting, itemsNesting, str]
      omega

theorem toPath?_json (p : PathForm) (level : Nat) :
    GivesIff (toPath? level p.json) (p.json.nesting ≤ level) p := by
  have hk : p.json.known? ["species", "indices"] =
      some [some (.array (p.species.map .str)),
        some (.array (p.indices.map fun i => .nat i.toNat))] :=
    known?_record [_, _] (by simp)
  refine record_givesIff _ (o := fun level => toPath? level p.json) rfl (fun level => ?_) level
  have hspecies := elements?_array (fun _ => toStr?) str p.species
    (fun s _ level => GivesIff.of_eq (toStr?_str s) (Nat.zero_le level)) level
  have hindices := elements?_array (fun _ => toUInt32?) (fun i => Json.nat i.toNat) p.indices
    (fun i _ level => GivesIff.of_eq (toUInt32?_nat i) (Nat.zero_le level)) level
  rw [toPath?, hk]
  exact GivesIff.congr (hspecies.bind (hindices.andThen rfl)) (by simp)

theorem toOwner?_json (o : Option PathForm) (level : Nat) :
    GivesIff (toOption? (toPath? level) (some (ownerJson o)))
      ((ownerJson o).nesting ≤ level) o := by
  cases o with
  | none => exact GivesIff.of_eq rfl (Nat.zero_le level)
  | some p => exact (toPath?_json p level).map

theorem toPoint?_json {p : Point} (hx : p.x.isFinite = true) (hy : p.y.isFinite = true)
    (hz : p.z.isFinite = true) (level : Nat) :
    GivesIff (toPoint? level p.json) (p.json.nesting ≤ level) p := by
  refine GivesIff.level (o := fun level => toPoint? level p.json) rfl (fun level => ?_) level
  refine GivesIff.of_eq ?_ (by simp [itemsNesting, nesting, float])
  simp [Point.json, toPoint?, hx, hy, hz]

theorem finite_coordinates {ps : List Point} (h : ∀ x ∈ coordinates ps, x.isFinite = true) :
    ∀ p ∈ ps, p.x.isFinite = true ∧ p.y.isFinite = true ∧ p.z.isFinite = true := by
  induction ps with
  | nil => exact List.forall_mem_nil _
  | cons p ps ih =>
    simp only [coordinates, List.forall_mem_cons] at h ⊢
    exact ⟨⟨h.1, h.2.1, h.2.2.1⟩, ih h.2.2.2⟩

def depthJson : Option Binary64 → Json
  | none => .null
  | some x => .float x

theorem toDepth?_json {d : Option Binary64} (h : ∀ x ∈ d.toList, x.isFinite = true) :
    toOption? toFloat? (some (depthJson d)) = some d := by
  cases d with
  | none => rfl
  | some x =>
    show ((float x).toFloat?).map some = _
    rw [toFloat?_float (h x List.mem_cons_self)]
    rfl

theorem nesting_depthJson (d : Option Binary64) : (depthJson d).nesting = 0 := by
  cases d <;> rfl

theorem toShape?_json {s : ShapeForm} (h : ∀ x ∈ s.floats, x.isFinite = true) (level : Nat) :
    GivesIff (toShape? level s.json) (s.json.nesting ≤ level) s := by
  obtain ⟨hdepth, hpoints⟩ := List.forall_mem_append.mp h
  have hk : s.json.known? ["depth", "kind", "points", "owner"] =
      some [some (depthJson s.depth), some (.nat s.kind.toNat),
        some (.array (s.points.map Point.json)), some (ownerJson s.owner)] :=
    known?_record [("depth", depthJson s.depth), _, _, _] (by simp)
  refine record_givesIff [("depth", depthJson s.depth), _, _, _]
    (o := fun level => toShape? level s.json) rfl (fun level => ?_) level
  have hps := elements?_array toPoint? Point.json s.points
    (fun p hp level => by
      obtain ⟨hx, hy, hz⟩ := finite_coordinates hpoints p hp
      exact toPoint?_json hx hy hz level) level
  rw [toShape?, hk]
  simp only [toDepth?_json hdepth, toUInt8?_nat]
  refine GivesIff.congr (hps.bind ((toOwner?_json s.owner level).andThen rfl)) ?_
  simp [nesting, nat, nesting_depthJson]

/-! ### Values and entities -/

/-- All floats of a list have a literal. -/
def Finite (xs : List Binary64) : Prop := ∀ x ∈ xs, x.isFinite = true

instance (xs : List Binary64) : Decidable (Finite xs) :=
  inferInstanceAs (Decidable (∀ x ∈ xs, x.isFinite = true))

theorem finite_append {xs ys : List Binary64} : Finite (xs ++ ys) ↔ Finite xs ∧ Finite ys :=
  List.forall_mem_append

/-! What stands in a list, a map or an entity is read if its parts are. -/

section
variable (level : Nat)

theorem toList?_json {content : TypeExpr} {items : List ValueForm}
    (h : ∀ level, GivesIff ((itemsJson items).mapM (toValue? level))
      (itemsNesting (itemsJson items) ≤ level) items) :
    let j := record [("content", content.json), ("items", .array (itemsJson items))]
    GivesIff (toList? level j) (j.nesting ≤ level) (.list content items) := by
  intro j
  have hk : j.known? ["content", "items"] =
      some [some content.json, some (.array (itemsJson items))] :=
    known?_record [_, _] (by simp)
  refine record_givesIff _ (o := fun level => toList? level j) rfl (fun level => ?_) level
  have hitems := GivesIff.level (o := fun level => toValues? level (.array (itemsJson items))) rfl
    h level
  rw [toList?, hk]
  refine GivesIff.congr ((toType?_json content level).bind (hitems.andThen rfl)) ?_
  simp [nesting]

theorem toMap?_json {key content : TypeExpr} {ordered : Bool}
    {entries : List (ValueForm × ValueForm)}
    (h : ∀ level, GivesIff ((entriesJson entries).mapM (toKeyed? level))
      (itemsNesting (entriesJson entries) ≤ level) entries) :
    let j := record [("key", key.json), ("content", content.json), ("ordered", .bool ordered),
      ("entries", .array (entriesJson entries))]
    GivesIff (toMap? level j) (j.nesting ≤ level) (.map key content ordered entries) := by
  intro j
  have hk : j.known? ["key", "content", "ordered", "entries"] =
      some [some key.json, some content.json, some (.bool ordered),
        some (.array (entriesJson entries))] :=
    known?_record [_, _, _, _] (by simp)
  refine record_givesIff _ (o := fun level => toMap? level j) rfl (fun level => ?_) level
  have hentries := GivesIff.level
    (o := fun level => toEntries? level (.array (entriesJson entries))) rfl h level
  rw [toMap?, hk]
  refine GivesIff.congr ((toType?_json key level).bind ((toType?_json content level).bind
    (hentries.andThen rfl))) ?_
  simp [nesting]

theorem toFull?_json {owner : Option PathForm} {e : EntityForm}
    (h : ∀ level, GivesIff (toEntity? level e.json) (e.json.nesting ≤ level) e) :
    let j := record [("owner", ownerJson owner), ("agent", e.json)]
    GivesIff (toFull? level j) (j.nesting ≤ level) (.full owner e) := by
  intro j
  have hk : j.known? ["owner", "agent"] = some [some (ownerJson owner), some e.json] :=
    known?_record [_, _] (by simp)
  refine record_givesIff _ (o := fun level => toFull? level j) rfl (fun level => ?_) level
  rw [toFull?, hk]
  refine GivesIff.congr ((toOwner?_json owner level).bind ((h level).andThen rfl)) ?_
  simp

theorem toPopulation?_json {species : String} {nextIndex : UInt32} {ms : List EntityForm}
    (h : ∀ level, GivesIff ((membersJson ms).mapM (toEntity? level))
      (itemsNesting (membersJson ms) ≤ level) ms) :
    let j := record [("species", str species), ("next_index", .nat nextIndex.toNat),
      ("members", .array (membersJson ms))]
    GivesIff (toPopulation? level j) (j.nesting ≤ level) ⟨species, nextIndex, ms⟩ := by
  intro j
  have hk : j.known? ["species", "next_index", "members"] =
      some [some (str species), some (.nat nextIndex.toNat), some (.array (membersJson ms))] :=
    known?_record [_, _, _] (by simp)
  refine record_givesIff _ (o := fun level => toPopulation? level j) rfl (fun level => ?_) level
  have hmembers := GivesIff.level (o := fun level => toMembers? level (.array (membersJson ms))) rfl
    h level
  rw [toPopulation?, hk]
  simp only [toStr?_str, toUInt32?_nat]
  refine GivesIff.congr (hmembers.andThen rfl) ?_
  simp [nesting, nat, str]

theorem toEntity?_record {index : UInt32} {species : String}
    {attributes : List (String × ValueForm)} {populations : List (PopulationForm EntityForm)}
    (has : ∀ level, GivesIff ((attributesJson attributes).mapM (toAttribute? level))
      (itemsNesting (attributesJson attributes) ≤ level) attributes)
    (hps : ∀ level, GivesIff ((populationsJson populations).mapM (toPopulation? level))
      (itemsNesting (populationsJson populations) ≤ level) populations) :
    let e := EntityForm.mk index species attributes populations
    GivesIff (toEntity? level e.json) (e.json.nesting ≤ level) e := by
  intro e
  have hk : e.json.known? ["index", "species", "attributes", "populations"] =
      some [some (.nat index.toNat), some (str species), some (.array (attributesJson attributes)),
        some (.array (populationsJson populations))] :=
    known?_record [("index", .nat index.toNat), _, _, _] (by simp)
  refine record_givesIff [("index", .nat index.toNat), _, _, _]
    (o := fun level => toEntity? level e.json) rfl (fun level => ?_) level
  have hattributes := GivesIff.level
    (o := fun level => toAttributes? level (.array (attributesJson attributes))) rfl has level
  have hpopulations := GivesIff.level
    (o := fun level => toPopulations? level (.array (populationsJson populations))) rfl hps level
  rw [toEntity?, hk]
  simp only [toUInt32?_nat, toStr?_str]
  refine GivesIff.congr (hattributes.bind (hpopulations.andThen rfl)) ?_
  simp [nesting, nat, str]

/-- Entities are written in full or as a path to them. -/
theorem toLink?_variant {name : String} {j : Json} {v : ValueForm}
    (h : ∀ level, GivesIff (toLink? (level + 1) (variant name j)) (j.nesting ≤ level) v) :
    GivesIff (toLink? level (variant name j)) ((variant name j).nesting ≤ level) v :=
  variant_givesIff (o := fun level => toLink? level (variant name j)) rfl h level

theorem toValue?_variant {name : String} {j : Json} {v : ValueForm}
    (h : ∀ level, GivesIff (toValue? (level + 1) (variant name j)) (j.nesting ≤ level) v) :
    GivesIff (toValue? level (variant name j)) ((variant name j).nesting ≤ level) v :=
  variant_givesIff (o := fun level => toValue? level (variant name j)) rfl h level

end

mutual

theorem toValue?_json : ∀ {v : ValueForm}, Finite v.floats → ∀ level,
    GivesIff (toValue? level v.json) (v.json.nesting ≤ level) v
  | .nil, _, level => GivesIff.of_eq (by simp [ValueForm.json, str, toValue?]) (Nat.zero_le level)
  | .bool b, _, level => by
    refine toValue?_variant level fun level => ?_
    rw [toValue?, case?_variant]
    · exact GivesIff.of_eq rfl (Nat.zero_le level)
    · exact variant_ne_text
  | .int i, _, level => by
    refine toValue?_variant level fun level => ?_
    rw [toValue?, case?_variant]
    · exact GivesIff.of_eq (by simp) (Nat.zero_le level)
    · exact variant_ne_text
  | .float x, hf, level => by
    refine toValue?_variant level fun level => ?_
    rw [toValue?, case?_variant]
    · exact GivesIff.of_eq (by simp [toFloat?_float (hf x List.mem_cons_self)]) (Nat.zero_le level)
    · exact variant_ne_text
  | .str s, _, level => by
    refine toValue?_variant level fun level => ?_
    rw [toValue?, case?_variant]
    · exact GivesIff.of_eq (by simp) (Nat.zero_le level)
    · exact variant_ne_text
  | .list content items, hf, level => by
    refine toValue?_variant level fun level => ?_
    rw [toValue?, case?_variant]
    · exact toList?_json level (toItems?_json hf)
    · exact variant_ne_text
  | .map key content ordered entries, hf, level => by
    refine toValue?_variant level fun level => ?_
    rw [toValue?, case?_variant]
    · exact toMap?_json level (toEntries?_json hf)
    · exact variant_ne_text
  | .type t, _, level => by
    refine toValue?_variant level fun level => ?_
    rw [toValue?, case?_variant]
    · exact (toType?_json t level).andThen rfl
    · exact variant_ne_text
  | .context name, _, level => by
    refine toValue?_variant level fun level => ?_
    rw [toValue?, case?_variant]
    · exact GivesIff.of_eq (by simp) (Nat.zero_le level)
    · exact variant_ne_text
  | .shape s, hf, level => by
    refine toValue?_variant level fun level => ?_
    rw [toValue?, case?_variant]
    · exact (toShape?_json hf level).andThen rfl
    · exact variant_ne_text
  | .full owner e, hf, level => by
    refine toValue?_variant level fun level => ?_
    rw [toValue?, case?_variant]
    · refine toLink?_variant level fun level => ?_
      rw [toLink?, case?_variant]
      exact toFull?_json level (toEntity?_json hf)
    · exact variant_ne_text
  | .reference p, _, level => by
    refine toValue?_variant level fun level => ?_
    rw [toValue?, case?_variant]
    · refine toLink?_variant level fun level => ?_
      rw [toLink?, case?_variant]
      exact (toPath?_json p level).andThen rfl
    · exact variant_ne_text
termination_by structural v => v

theorem toItems?_json : ∀ {vs : List ValueForm}, Finite (itemFloats vs) → ∀ level,
    GivesIff ((itemsJson vs).mapM (toValue? level)) (itemsNesting (itemsJson vs) ≤ level) vs
  | [], _, level => GivesIff.of_eq rfl (Nat.zero_le level)
  | v :: vs, hf, level => by
    obtain ⟨hv, hvs⟩ := finite_append.mp hf
    rw [itemsJson, List.mapM_cons, itemsNesting, Nat.max_le]
    exact (toValue?_json hv level).bind ((toItems?_json hvs level).andThen rfl)
termination_by structural vs => vs

theorem toEntries?_json : ∀ {es : List (ValueForm × ValueForm)}, Finite (entryFloats es) → ∀ level,
    GivesIff ((entriesJson es).mapM (toKeyed? level)) (itemsNesting (entriesJson es) ≤ level) es
  | [], _, level => GivesIff.of_eq rfl (Nat.zero_le level)
  | (k, v) :: es, hf, level => by
    obtain ⟨hkv, hes⟩ := finite_append.mp hf
    obtain ⟨hk, hv⟩ := finite_append.mp hkv
    have hpair := GivesIff.level (o := fun level => toKeyed? level (.array [k.json, v.json]))
      (n := max k.json.nesting (max v.json.nesting 0)) rfl (fun level => GivesIff.congr
        ((toValue?_json hk level).bind ((toValue?_json hv level).andThen rfl)) (by omega)) level
    rw [entriesJson, List.mapM_cons, itemsNesting, Nat.max_le]
    exact hpair.bind ((toEntries?_json hes level).andThen rfl)
termination_by structural es => es

theorem toEntity?_json : ∀ {e : EntityForm}, Finite e.floats → ∀ level,
    GivesIff (toEntity? level e.json) (e.json.nesting ≤ level) e
  | .mk index species attributes populations, hf, level => by
    obtain ⟨has, hps⟩ := finite_append.mp hf
    exact toEntity?_record level (toAttributes?_json has) (toPopulations?_json hps)
termination_by structural e => e

theorem toAttributes?_json : ∀ {as : List (String × ValueForm)}, Finite (attributeFloats as) →
    ∀ level, GivesIff ((attributesJson as).mapM (toAttribute? level))
      (itemsNesting (attributesJson as) ≤ level) as
  | [], _, level => GivesIff.of_eq rfl (Nat.zero_le level)
  | (name, v) :: as, hf, level => by
    obtain ⟨hv, has⟩ := finite_append.mp hf
    have hpair := GivesIff.level (o := fun level => toAttribute? level (.array [str name, v.json]))
      (n := max (str name).nesting (max v.json.nesting 0)) rfl (fun level => by
        rw [toAttribute?]
        simp only [toStr?_str]
        exact GivesIff.congr ((toValue?_json hv level).andThen rfl) (by simp [str, nesting])) level
    rw [attributesJson, List.mapM_cons, itemsNesting, Nat.max_le]
    exact hpair.bind ((toAttributes?_json has level).andThen rfl)
termination_by structural as => as

theorem toPopulations?_json : ∀ {ps : List (PopulationForm EntityForm)},
    Finite (populationFloats ps) → ∀ level,
      GivesIff ((populationsJson ps).mapM (toPopulation? level))
        (itemsNesting (populationsJson ps) ≤ level) ps
  | [], _, level => GivesIff.of_eq rfl (Nat.zero_le level)
  | ⟨species, nextIndex, ms⟩ :: ps, hf, level => by
    obtain ⟨hms, hps⟩ := finite_append.mp hf
    rw [populationsJson, List.mapM_cons, itemsNesting, Nat.max_le]
    exact (toPopulation?_json level (toMembers?_json hms)).bind
      ((toPopulations?_json hps level).andThen rfl)
termination_by structural ps => ps

theorem toMembers?_json : ∀ {ms : List EntityForm}, Finite (memberFloats ms) → ∀ level,
    GivesIff ((membersJson ms).mapM (toEntity? level)) (itemsNesting (membersJson ms) ≤ level) ms
  | [], _, level => GivesIff.of_eq rfl (Nat.zero_le level)
  | m :: ms, hf, level => by
    obtain ⟨hm, hms⟩ := finite_append.mp hf
    rw [membersJson, List.mapM_cons, itemsNesting, Nat.max_le]
    exact (toEntity?_json hm level).bind ((toMembers?_json hms level).andThen rfl)
termination_by structural ms => ms

end

/-! ### Headers and documents -/

theorem toHeader?_json (h : Header) : h.json.toHeader? = some h := by
  have hk : h.json.known? ["magic", "version", "kind", "cycle"] =
      some [some (.nat h.magic.toNat), some (.nat h.version.toNat), some (.nat h.kind.toNat),
        some (.nat h.cycle.toNat)] :=
    known?_record [_, _, _, _] (by simp)
  rw [toHeader?, hk]
  simp

theorem toBody?_json {b : Body} (hf : Finite b.floats) (level : Nat) :
    GivesIff (b.json.toBody? level) (b.json.nesting ≤ level + 1) b := by
  have hnest (name : String) (p : Json) :
      p.nesting ≤ level ↔ (variant name p).nesting ≤ level + 1 := by
    simp [variant, record, nesting, fieldsNesting]
    omega
  cases b with
  | entity e =>
    rw [Body.json, toBody?, case?_variant]
    exact GivesIff.congr ((toEntity?_json hf level).andThen rfl) (hnest "Entity" e.json)
  | object v =>
    rw [Body.json, toBody?, case?_variant]
    exact GivesIff.congr ((toValue?_json hf level).andThen rfl) (hnest "Object" v.json)

theorem toDocument?_json {d : Document} (hf : Finite d.floats) :
    GivesIff d.json.toDocument? (d.json.nesting ≤ depthLimit) d := by
  have hk : d.json.known? ["header", "body"] = some [some d.header.json, some d.body.json] :=
    known?_record [_, _] (by simp)
  have hnest : d.json.nesting = 1 + max 1 d.body.json.nesting := by
    simp [Document.json, Header.json, record, nesting, fieldsNesting, nat]
  rw [toDocument?, hk]
  simp only [toHeader?_json]
  refine GivesIff.congr ((toBody?_json hf (depthLimit - 2)).andThen rfl) ?_
  rw [hnest, depthLimit]
  omega

/-! ### Text -/

theorem wellformed_str (s : String) : (str s).Wellformed := .text (Text.wellformed_ofString s)

theorem wellformed_int (i : Int) : (int i).Wellformed := .number (Numeral.wellformed_ofInt i)

theorem wellformed_nat (n : Nat) : (nat n).Wellformed := wellformed_int n

theorem wellformed_record (fields : List (String × Json)) (h : ∀ f ∈ fields, f.2.Wellformed) :
    (record fields).Wellformed := by
  refine .object (fun f hf => ?_) fun f hf => ?_
  · obtain ⟨g, -, rfl⟩ := List.mem_map.mp hf
    exact Text.wellformed_ofString g.1
  · obtain ⟨g, hg, rfl⟩ := List.mem_map.mp hf
    exact h g hg

theorem wellformed_variant (name : String) {p : Json} (h : p.Wellformed) :
    (variant name p).Wellformed :=
  wellformed_record _ (by simpa using h)

theorem wellformed_type (t : TypeExpr) : t.json.Wellformed := by
  induction t with
  | simple name => exact wellformed_record _ (by simp [wellformed_str, Wellformed.null])
  | compound name key content ihk ihc =>
    have hparams : (Json.array [key.json, content.json]).Wellformed := .array (by simp [ihk, ihc])
    exact wellformed_record _ (by simp [wellformed_str, hparams])

theorem wellformed_path (p : PathForm) : p.json.Wellformed := by
  have hs : (Json.array (p.species.map .str)).Wellformed := .array (by simp [wellformed_str])
  have hi : (Json.array (p.indices.map fun i => .nat i.toNat)).Wellformed :=
    .array (by simp [wellformed_nat])
  exact wellformed_record _ (by simp [hs, hi])

theorem wellformed_owner (o : Option PathForm) : (ownerJson o).Wellformed := by
  cases o with
  | none => exact .null
  | some p => exact wellformed_path p

theorem wellformed_float (x : Binary64) : (float x).Wellformed :=
  .number (Numeral.wellformed_ofFloat x)

theorem wellformed_shape (s : ShapeForm) : s.json.Wellformed := by
  have hd : (depthJson s.depth).Wellformed := by
    cases s.depth with
    | none => exact .null
    | some x => exact wellformed_float x
  have hps : (Json.array (s.points.map Point.json)).Wellformed := by
    refine .array fun j hj => ?_
    obtain ⟨p, -, rfl⟩ := List.mem_map.mp hj
    exact .array (by simp [wellformed_float])
  exact wellformed_record [("depth", depthJson s.depth), _, _, _]
    (by simp [hd, hps, wellformed_nat, wellformed_owner])

mutual

theorem wellformed_value : ∀ v : ValueForm, v.json.Wellformed
  | .nil => wellformed_str "Nil"
  | .bool b => wellformed_variant "Bool" (.bool b)
  | .int i => wellformed_variant "Int" (wellformed_int i.toInt)
  | .float x => wellformed_variant "Float" (wellformed_float x)
  | .str s => wellformed_variant "Str" (wellformed_str s)
  | .list content items => by
    have hitems := Wellformed.array (wellformed_items items)
    exact wellformed_variant "List" (wellformed_record _ (by simp [wellformed_type, hitems]))
  | .map key content ordered entries => by
    have hentries := Wellformed.array (wellformed_entries entries)
    exact wellformed_variant "Map"
      (wellformed_record _ (by simp [wellformed_type, hentries, Wellformed.bool]))
  | .type t => wellformed_variant "Type" (wellformed_type t)
  | .context name => wellformed_variant "Context" (wellformed_str name)
  | .shape s => wellformed_variant "Shape" (wellformed_shape s)
  | .full owner e => by
    have he := wellformed_entity e
    exact wellformed_variant "Entity" (wellformed_variant "Full"
      (wellformed_record _ (by simp [wellformed_owner, he])))
  | .reference p => wellformed_variant "Entity" (wellformed_variant "Ref" (wellformed_path p))
termination_by structural v => v

theorem wellformed_items : ∀ vs : List ValueForm, ∀ j ∈ itemsJson vs, j.Wellformed
  | [] => List.forall_mem_nil _
  | v :: vs => List.forall_mem_cons.mpr ⟨wellformed_value v, wellformed_items vs⟩
termination_by structural vs => vs

theorem wellformed_entries : ∀ es : List (ValueForm × ValueForm), ∀ j ∈ entriesJson es, j.Wellformed
  | [] => List.forall_mem_nil _
  | (k, v) :: es => by
    have hpair : ∀ j ∈ [k.json, v.json], j.Wellformed :=
      List.forall_mem_cons.mpr ⟨wellformed_value k,
        List.forall_mem_cons.mpr ⟨wellformed_value v, List.forall_mem_nil _⟩⟩
    exact List.forall_mem_cons.mpr ⟨.array hpair, wellformed_entries es⟩
termination_by structural es => es

theorem wellformed_entity : ∀ e : EntityForm, e.json.Wellformed
  | .mk index species attributes populations => by
    have hattributes := Wellformed.array (wellformed_attributes attributes)
    have hpopulations := Wellformed.array (wellformed_populations populations)
    exact wellformed_record [("index", .nat index.toNat), ("species", .str species),
      ("attributes", .array (attributesJson attributes)),
      ("populations", .array (populationsJson populations))]
      (by simp [wellformed_nat, wellformed_str, hattributes, hpopulations])
termination_by structural e => e

theorem wellformed_attributes : ∀ as : List (String × ValueForm),
    ∀ j ∈ attributesJson as, j.Wellformed
  | [] => List.forall_mem_nil _
  | (name, v) :: as => by
    have hpair : ∀ j ∈ [str name, v.json], j.Wellformed :=
      List.forall_mem_cons.mpr ⟨wellformed_str name,
        List.forall_mem_cons.mpr ⟨wellformed_value v, List.forall_mem_nil _⟩⟩
    exact List.forall_mem_cons.mpr ⟨.array hpair, wellformed_attributes as⟩
termination_by structural as => as

theorem wellformed_populations : ∀ ps : List (PopulationForm EntityForm),
    ∀ j ∈ populationsJson ps, j.Wellformed
  | [] => List.forall_mem_nil _
  | ⟨species, nextIndex, ms⟩ :: ps => by
    have hmembers := Wellformed.array (wellformed_members ms)
    exact List.forall_mem_cons.mpr ⟨wellformed_record [("species", .str species),
      ("next_index", .nat nextIndex.toNat), ("members", .array (membersJson ms))]
      (by simp [wellformed_nat, wellformed_str, hmembers]), wellformed_populations ps⟩
termination_by structural ps => ps

theorem wellformed_members : ∀ ms : List EntityForm, ∀ j ∈ membersJson ms, j.Wellformed
  | [] => List.forall_mem_nil _
  | m :: ms => List.forall_mem_cons.mpr ⟨wellformed_entity m, wellformed_members ms⟩
termination_by structural ms => ms

end

theorem wellformed_document (d : Document) : d.json.Wellformed := by
  have hh : d.header.json.Wellformed := wellformed_record _ (by simp [wellformed_nat])
  have hb : d.body.json.Wellformed := by
    cases d.body with
    | entity e => exact wellformed_variant "Entity" (wellformed_entity e)
    | object v => exact wellformed_variant "Object" (wellformed_value v)
  exact wellformed_record _ (by simp [hh, hb])

end Json

/-! ### The format -/

namespace Document

/-- **A document with finite floats reads back from its text** if that nests no deeper
than the limit, and else it does not read at all. -/
theorem ofJsonBytes?_jsonBytes {d : Document} (hf : Json.Finite d.floats) :
    GivesIff (ofJsonBytes? d.jsonBytes) (d.json.nesting ≤ Json.depthLimit) d := by
  rw [ofJsonBytes?, jsonBytes, Json.parse?_bytes (Json.wellformed_document d),
    Option.bind_eq_bind, Option.bind_some]
  exact Json.toDocument?_json hf

theorem firstNonFinite?_eq_none {d : Document} :
    d.firstNonFinite? = none ↔ Json.Finite d.floats := by
  simp [firstNonFinite?, Json.Finite]

end Document
end Rewind
