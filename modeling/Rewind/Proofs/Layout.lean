import Rewind.Proofs.Json.Layout
import Rewind.Proofs.Payload

/-! The layout of a JSON document is free.

Every reader is steady on what the writer makes of its form (`Json.steady_document`). So the reader
of documents does not mind in which order fields stand, fields of other names among them, or blanks
between the tokens; but a text with a field twice, or without one that it needs, it refuses
(`Format.json_read_layout`). -/

namespace Rewind
namespace Json

/-! ### Types, paths and shapes -/

theorem steady_type (t : TypeExpr) (level : Nat) : Steady (toType? level) t.json := by
  induction t generalizing level with
  | simple name =>
    cases level with
    | zero => exact steady_none fun _ => rfl
    | succ level =>
      refine steady_record ["name", "params"] [str name, .null] (by decide) rfl ?_ ?_
      · rintro i j _ hi hj (_ | ⟨hname, _ | ⟨hparams, _ | _⟩⟩)
        rw [toType?, toType?, hi, hj, (rigid_str name).relaid hname, rigid_null.relaid hparams]
      · intro j a hread
        rw [toType?] at hread
        -- the parameters are not there, null, or given
        split at hread
        · next hk =>
          exact ⟨_, hk, .cons (rigid_str name).sound (.cons (by decide : "params" ∈ _) .nil)⟩
        · next hk => exact ⟨_, hk, .cons (rigid_str name).sound (.cons rigid_null.sound .nil)⟩
        · next hk => exact ⟨_, hk, .cons (rigid_str name).sound (.cons rigid_null.sound .nil)⟩
        · cases hread
  | compound name key content ihk ihc =>
    cases level with
    | zero => exact steady_none fun _ => rfl
    | succ level =>
      refine steady_record ["name", "params"] [str name, .array [key.json, content.json]]
        (by decide) rfl ?_ ?_
      · rintro i j _ hi hj (_ | ⟨hname, _ | ⟨hparams, _ | _⟩⟩)
        obtain ⟨key', content', rfl, hkey, hcontent⟩ := relaid_pair hparams
        rw [toType?, toType?, hi, hj, (rigid_str name).relaid hname]
        cases level with
        | zero => rfl
        | succ level =>
          simp only [List.map_cons, List.map_nil, (ihk level).relaid hkey,
            (ihc level).relaid hcontent]
      · intro j a hread
        rw [toType?] at hread
        split at hread
        · next hk =>
          exact ⟨_, hk, .cons (rigid_str name).sound (.cons (by decide : "params" ∈ _) .nil)⟩
        · next hk =>
          exact ⟨_, hk, .cons (rigid_str name).sound (.cons (fun h => h.ne_null rfl) .nil)⟩
        · next hk =>
          refine ⟨_, hk, .cons (rigid_str name).sound (.cons ?_ .nil)⟩
          obtain ⟨_, -, hread⟩ := Option.bind_eq_some_iff.mp hread
          cases level with
          | zero => cases hread
          | succ level =>
            obtain ⟨_, hkey, hread⟩ := Option.bind_eq_some_iff.mp hread
            obtain ⟨_, hcontent, -⟩ := Option.bind_eq_some_iff.mp hread
            exact not_spoiled_pair ((ihk level).sound hkey) ((ihc level).sound hcontent)
        · cases hread

theorem steady_path (p : PathForm) (level : Nat) : Steady (toPath? level) p.json := by
  have hspecies : Rigid (.array (p.species.map .str)) :=
    rigid_array (List.forall_mem_map.mpr fun s _ => rigid_str s)
  have hindices : Rigid (.array (p.indices.map fun i => .nat i.toNat)) :=
    rigid_array (List.forall_mem_map.mpr fun i _ => rigid_number _)
  cases level with
  | zero => exact steady_none fun _ => rfl
  | succ level =>
    refine steady_record ["species", "indices"] [_, _] (by decide) rfl ?_ ?_
    · rintro i j _ hi hj (_ | ⟨hs, _ | ⟨hx, _ | _⟩⟩)
      rw [toPath?, toPath?, hi, hj, hspecies.relaid hs, hindices.relaid hx]
    · intro j a hread
      rw [toPath?] at hread
      split at hread
      · next hk => exact ⟨_, hk, .cons hspecies.sound (.cons hindices.sound .nil)⟩
      · cases hread

theorem steady_owner (o : Option PathForm) (level : Nat) :
    Steady (toPath? level) (ownerJson o) := by
  cases o with
  | none => exact rigid_null.steady _
  | some p => exact steady_path p level

theorem steady_shape (s : ShapeForm) (level : Nat) : Steady (toShape? level) s.json := by
  have hdepth : Rigid (depthJson s.depth) := by
    cases s.depth with
    | none => exact rigid_null
    | some x => exact rigid_number _
  have hkind : Rigid (.nat s.kind.toNat) := rigid_number _
  have hpoints : Rigid (.array (s.points.map Point.json)) :=
    rigid_array (List.forall_mem_map.mpr fun p _ => rigid_array (by simp [float, rigid_number]))
  cases level with
  | zero => exact steady_none fun _ => rfl
  | succ level =>
    have howner := steady_owner s.owner level
    refine steady_record ["depth", "kind", "points", "owner"]
      [depthJson s.depth, .nat s.kind.toNat, .array (s.points.map Point.json), ownerJson s.owner]
      (by decide) rfl ?_ ?_
    · rintro i j _ hi hj (_ | ⟨hd, _ | ⟨hk, _ | ⟨hps, _ | ⟨ho, _ | _⟩⟩⟩⟩)
      have ho := howner.option.relaid ho
      rw [toShape?, toShape?, hi, hj, hdepth.relaid hd, hkind.relaid hk, hpoints.relaid hps]
      simp only [List.map_cons, List.map_nil, ho]
    · intro j a hread
      rw [toShape?] at hread
      split at hread
      · next hk =>
        obtain ⟨_, hd, hread⟩ := Option.bind_eq_some_iff.mp hread
        obtain ⟨_, -, hread⟩ := Option.bind_eq_some_iff.mp hread
        obtain ⟨_, -, hread⟩ := Option.bind_eq_some_iff.mp hread
        obtain ⟨_, ho, -⟩ := Option.bind_eq_some_iff.mp hread
        exact ⟨_, hk, .cons ((hdepth.steady _).intact_of_toOption? (by decide) hd)
          (.cons hkind.sound (.cons hpoints.sound
            (.cons (howner.intact_of_toOption? (by decide) ho) .nil)))⟩
      · cases hread

/-! ### Values and entities -/

/-! A reader of a record or of a pair is steady if those of its parts are. -/

section
variable (level : Nat)

theorem steady_list {content : TypeExpr} {items : List Json}
    (h : ∀ level, Steady (toValues? level) (.array items)) :
    Steady (toList? level) (record [("content", content.json), ("items", .array items)]) := by
  cases level with
  | zero => exact steady_none fun _ => rfl
  | succ level =>
    have hcontent := steady_type content level
    refine steady_record ["content", "items"] [_, _] (by decide) rfl ?_ ?_
    · rintro i j _ hi hj (_ | ⟨hc, _ | ⟨his, _ | _⟩⟩)
      rw [toList?, toList?, hi, hj]
      simp only [List.map_cons, List.map_nil, hcontent.relaid hc, (h level).relaid his]
    · intro j a hread
      rw [toList?] at hread
      split at hread
      · next hk =>
        obtain ⟨_, hc, hread⟩ := Option.bind_eq_some_iff.mp hread
        obtain ⟨_, his, -⟩ := Option.bind_eq_some_iff.mp hread
        exact ⟨_, hk, .cons (hcontent.sound hc) (.cons ((h level).sound his) .nil)⟩
      · cases hread

theorem steady_map {key content : TypeExpr} {ordered : Bool} {entries : List Json}
    (h : ∀ level, Steady (toEntries? level) (.array entries)) :
    Steady (toMap? level) (record [("key", key.json), ("content", content.json),
      ("ordered", .bool ordered), ("entries", .array entries)]) := by
  cases level with
  | zero => exact steady_none fun _ => rfl
  | succ level =>
    have hkey := steady_type key level
    have hcontent := steady_type content level
    have hordered := rigid_bool ordered
    refine steady_record ["key", "content", "ordered", "entries"] [_, _, _, _] (by decide) rfl ?_ ?_
    · rintro i j _ hi hj (_ | ⟨hk, _ | ⟨hc, _ | ⟨ho, _ | ⟨hes, _ | _⟩⟩⟩⟩)
      rw [toMap?, toMap?, hi, hj, hordered.relaid ho]
      simp only [List.map_cons, List.map_nil, hkey.relaid hk, hcontent.relaid hc,
        (h level).relaid hes]
    · intro j a hread
      rw [toMap?] at hread
      split at hread
      · next hknown =>
        obtain ⟨_, hk, hread⟩ := Option.bind_eq_some_iff.mp hread
        obtain ⟨_, hc, hread⟩ := Option.bind_eq_some_iff.mp hread
        obtain ⟨_, -, hread⟩ := Option.bind_eq_some_iff.mp hread
        obtain ⟨_, hes, -⟩ := Option.bind_eq_some_iff.mp hread
        exact ⟨_, hknown, .cons (hkey.sound hk) (.cons (hcontent.sound hc)
          (.cons hordered.sound (.cons ((h level).sound hes) .nil)))⟩
      · cases hread

theorem steady_full {owner : Option PathForm} {entity : Json}
    (h : ∀ level, Steady (toEntity? level) entity) :
    Steady (toFull? level) (record [("owner", ownerJson owner), ("agent", entity)]) := by
  cases level with
  | zero => exact steady_none fun _ => rfl
  | succ level =>
    have howner := steady_owner owner level
    refine steady_record ["owner", "agent"] [_, _] (by decide) rfl ?_ ?_
    · rintro i j _ hi hj (_ | ⟨ho, _ | ⟨he, _ | _⟩⟩)
      have ho := howner.option.relaid ho
      rw [toFull?, toFull?, hi, hj]
      simp only [List.map_cons, List.map_nil, ho, (h level).relaid he]
    · intro j a hread
      rw [toFull?] at hread
      split at hread
      · next hk =>
        obtain ⟨_, ho, hread⟩ := Option.bind_eq_some_iff.mp hread
        obtain ⟨_, he, -⟩ := Option.bind_eq_some_iff.mp hread
        exact ⟨_, hk, .cons (howner.intact_of_toOption? (by decide) ho)
          (.cons ((h level).sound he) .nil)⟩
      · cases hread

theorem steady_record_entity {index : UInt32} {species : String}
    {attributes populations : List Json}
    (ha : ∀ level, Steady (toAttributes? level) (.array attributes))
    (hp : ∀ level, Steady (toPopulations? level) (.array populations)) :
    Steady (toEntity? level) (record [("index", .nat index.toNat), ("species", .str species),
      ("attributes", .array attributes), ("populations", .array populations)]) := by
  cases level with
  | zero => exact steady_none fun _ => rfl
  | succ level =>
    have hindex : Rigid (.nat index.toNat) := rigid_number _
    have hspecies := rigid_str species
    refine steady_record ["index", "species", "attributes", "populations"] [_, _, _, _] (by decide)
      rfl ?_ ?_
    · rintro i j _ hi hj (_ | ⟨hx, _ | ⟨hs, _ | ⟨has, _ | ⟨hps, _ | _⟩⟩⟩⟩)
      rw [toEntity?, toEntity?, hi, hj, hindex.relaid hx, hspecies.relaid hs]
      simp only [List.map_cons, List.map_nil, (ha level).relaid has, (hp level).relaid hps]
    · intro j a hread
      rw [toEntity?] at hread
      split at hread
      · next hk =>
        obtain ⟨_, -, hread⟩ := Option.bind_eq_some_iff.mp hread
        obtain ⟨_, -, hread⟩ := Option.bind_eq_some_iff.mp hread
        obtain ⟨_, has, hread⟩ := Option.bind_eq_some_iff.mp hread
        obtain ⟨_, hps, -⟩ := Option.bind_eq_some_iff.mp hread
        exact ⟨_, hk, .cons hindex.sound (.cons hspecies.sound
          (.cons ((ha level).sound has) (.cons ((hp level).sound hps) .nil)))⟩
      · cases hread

theorem steady_population {species : String} {nextIndex : UInt32} {members : List Json}
    (h : ∀ level, Steady (toMembers? level) (.array members)) :
    Steady (toPopulation? level) (record [("species", .str species),
      ("next_index", .nat nextIndex.toNat), ("members", .array members)]) := by
  cases level with
  | zero => exact steady_none fun _ => rfl
  | succ level =>
    have hspecies := rigid_str species
    have hnext : Rigid (.nat nextIndex.toNat) := rigid_number _
    refine steady_record ["species", "next_index", "members"] [_, _, _] (by decide) rfl ?_ ?_
    · rintro i j _ hi hj (_ | ⟨hs, _ | ⟨hn, _ | ⟨hms, _ | _⟩⟩⟩)
      rw [toPopulation?, toPopulation?, hi, hj, hspecies.relaid hs, hnext.relaid hn]
      simp only [List.map_cons, List.map_nil, (h level).relaid hms]
    · intro j a hread
      rw [toPopulation?] at hread
      split at hread
      · next hk =>
        obtain ⟨_, -, hread⟩ := Option.bind_eq_some_iff.mp hread
        obtain ⟨_, -, hread⟩ := Option.bind_eq_some_iff.mp hread
        obtain ⟨_, hms, -⟩ := Option.bind_eq_some_iff.mp hread
        exact ⟨_, hk, .cons hspecies.sound (.cons hnext.sound
          (.cons ((h level).sound hms) .nil))⟩
      · cases hread

theorem steady_keyed {k v : Json} (hk : ∀ level, Steady (toValue? level) k)
    (hv : ∀ level, Steady (toValue? level) v) : Steady (toKeyed? level) (.array [k, v]) := by
  cases level with
  | zero => exact steady_none fun _ => rfl
  | succ level =>
    refine steady_pair Prod.mk (fun _ _ => rfl) (fun items c hread => ?_) (hk level) (hv level)
    unfold toKeyed? at hread
    split at hread
    · next h => exact ⟨_, _, Json.array.inj h⟩
    · cases hread

theorem steady_attribute {name : String} {v : Json} (hv : ∀ level, Steady (toValue? level) v) :
    Steady (toAttribute? level) (.array [str name, v]) := by
  cases level with
  | zero => exact steady_none fun _ => rfl
  | succ level =>
    refine steady_pair Prod.mk (fun _ _ => rfl) (fun items c hread => ?_)
      ((rigid_str name).steady toStr?) (hv level)
    unfold toAttribute? at hread
    split at hread
    · next h => exact ⟨_, _, Json.array.inj h⟩
    · cases hread

/-- A case of a value is read steadily if what belongs to it is. -/
theorem steady_value_variant {name : String} {p : Json} (payload : Nat → Json → Option ValueForm)
    (h : ∀ level, Steady (payload level) p)
    (hcase : ∀ level object p, (Json.object object).case? = some (name, some p) →
      toValue? (level + 1) (.object object) = payload level p) :
    Steady (toValue? level) (variant name p) := by
  cases level with
  | zero =>
    have hnone : Steady (fun _ => (none : Option ValueForm)) p := steady_none fun _ => rfl
    exact steady_variant hnone (fun _ _ _ => rfl) fun _ _ => rfl
  | succ level =>
    refine steady_variant (h level) (hcase level) fun object hnone => ?_
    simp only [toValue?, hnone]

theorem steady_link_variant {name : String} {p : Json} (payload : Nat → Json → Option ValueForm)
    (h : ∀ level, Steady (payload level) p)
    (hcase : ∀ level object p, (Json.object object).case? = some (name, some p) →
      toLink? (level + 1) (.object object) = payload level p) :
    Steady (toLink? level) (variant name p) := by
  cases level with
  | zero => exact steady_none fun _ => rfl
  | succ level =>
    refine steady_variant (h level) (hcase level) fun object hnone => ?_
    simp only [toLink?, hnone]

end

mutual

theorem steady_value : ∀ (v : ValueForm) (level : Nat), Steady (toValue? level) v.json
  | .nil, level => (rigid_str "Nil").steady _
  | .bool b, level =>
    steady_value_variant level (fun _ p => do some (.bool (← p.toBool?)))
      (fun _ => (rigid_bool b).steady _) fun _ _ _ h => by simp only [toValue?, h]
  | .int i, level =>
    steady_value_variant level (fun _ p => do some (.int (← p.toInt64?)))
      (fun _ => (rigid_number (.ofInt i.toInt)).steady _) fun _ _ _ h => by simp only [toValue?, h]
  | .float x, level =>
    steady_value_variant level (fun _ p => do some (.float (← p.toFloat?)))
      (fun _ => (rigid_number (.ofFloat x)).steady _) fun _ _ _ h => by simp only [toValue?, h]
  | .str s, level =>
    steady_value_variant level (fun _ p => do some (.str (← p.toStr?)))
      (fun _ => (rigid_str s).steady _) fun _ _ _ h => by simp only [toValue?, h]
  | .list content items, level =>
    steady_value_variant level toList? (fun level => steady_list level fun level =>
      steady_array (fun _ => rfl) (fun _ _ => rfl) (steady_items items) level)
      fun _ _ _ h => by simp only [toValue?, h]
  | .map key content ordered entries, level =>
    steady_value_variant level toMap? (fun level => steady_map level fun level =>
      steady_array (fun _ => rfl) (fun _ _ => rfl) (steady_entries entries) level)
      fun _ _ _ h => by simp only [toValue?, h]
  | .type t, level =>
    steady_value_variant level (fun level p => do some (.type (← toType? level p)))
      (fun level => (steady_type t level).bind _) fun _ _ _ h => by simp only [toValue?, h]
  | .context name, level =>
    steady_value_variant level (fun _ p => do some (.context (← p.toStr?)))
      (fun _ => (rigid_str name).steady _) fun _ _ _ h => by simp only [toValue?, h]
  | .shape s, level =>
    steady_value_variant level (fun level p => do some (.shape (← toShape? level p)))
      (fun level => (steady_shape s level).bind _) fun _ _ _ h => by simp only [toValue?, h]
  | .full owner e, level =>
    steady_value_variant level toLink? (fun level =>
      steady_link_variant level toFull? (fun level => steady_full level (steady_entity e))
        fun _ _ _ h => by simp only [toLink?, h])
      fun _ _ _ h => by simp only [toValue?, h]
  | .reference p, level =>
    steady_value_variant level toLink? (fun level =>
      steady_link_variant level (fun level p => do some (.reference (← toPath? level p)))
        (fun level => (steady_path p level).bind _) fun _ _ _ h => by simp only [toLink?, h])
      fun _ _ _ h => by simp only [toValue?, h]
termination_by structural v => v

theorem steady_items : ∀ (vs : List ValueForm) (level : Nat),
    ∀ j ∈ itemsJson vs, Steady (toValue? level) j
  | [], _ => List.forall_mem_nil _
  | v :: vs, level => List.forall_mem_cons.mpr ⟨steady_value v level, steady_items vs level⟩
termination_by structural vs => vs

theorem steady_entries : ∀ (es : List (ValueForm × ValueForm)) (level : Nat),
    ∀ j ∈ entriesJson es, Steady (toKeyed? level) j
  | [], _ => List.forall_mem_nil _
  | (k, v) :: es, level => List.forall_mem_cons.mpr
    ⟨steady_keyed level (steady_value k) (steady_value v), steady_entries es level⟩
termination_by structural es => es

theorem steady_entity : ∀ (e : EntityForm) (level : Nat), Steady (toEntity? level) e.json
  | .mk _ _ attributes populations, level =>
    steady_record_entity level
      (steady_array (fun _ => rfl) (fun _ _ => rfl) (steady_attributes attributes))
      (steady_array (fun _ => rfl) (fun _ _ => rfl) (steady_populations populations))
termination_by structural e => e

theorem steady_attributes : ∀ (as : List (String × ValueForm)) (level : Nat),
    ∀ j ∈ attributesJson as, Steady (toAttribute? level) j
  | [], _ => List.forall_mem_nil _
  | (_, v) :: as, level => List.forall_mem_cons.mpr
    ⟨steady_attribute level (steady_value v), steady_attributes as level⟩
termination_by structural as => as

theorem steady_populations : ∀ (ps : List (PopulationForm EntityForm)) (level : Nat),
    ∀ j ∈ populationsJson ps, Steady (toPopulation? level) j
  | [], _ => List.forall_mem_nil _
  | ⟨_, _, members⟩ :: ps, level => List.forall_mem_cons.mpr
    ⟨steady_population level
      (steady_array (fun _ => rfl) (fun _ _ => rfl) (steady_members members)),
      steady_populations ps level⟩
termination_by structural ps => ps

theorem steady_members : ∀ (ms : List EntityForm) (level : Nat),
    ∀ j ∈ membersJson ms, Steady (toEntity? level) j
  | [], _ => List.forall_mem_nil _
  | m :: ms, level => List.forall_mem_cons.mpr ⟨steady_entity m level, steady_members ms level⟩
termination_by structural ms => ms

end

/-! ### Documents -/

theorem steady_header (h : Header) : Steady toHeader? h.json := by
  have hmagic : Rigid (.nat h.magic.toNat) := rigid_number _
  have hversion : Rigid (.nat h.version.toNat) := rigid_number _
  have hkind : Rigid (.nat h.kind.toNat) := rigid_number _
  have hcycle : Rigid (.nat h.cycle.toNat) := rigid_number _
  refine steady_record ["magic", "version", "kind", "cycle"] [_, _, _, _] (by decide) rfl ?_ ?_
  · rintro i j _ hi hj (_ | ⟨hm, _ | ⟨hv, _ | ⟨hk, _ | ⟨hc, _ | _⟩⟩⟩⟩)
    rw [toHeader?, toHeader?, hi, hj, hmagic.relaid hm, hversion.relaid hv, hkind.relaid hk,
      hcycle.relaid hc]
  · intro j a hread
    rw [toHeader?] at hread
    split at hread
    · next hk =>
      exact ⟨_, hk, .cons hmagic.sound (.cons hversion.sound (.cons hkind.sound
        (.cons hcycle.sound .nil)))⟩
    · cases hread

theorem steady_body (b : Body) (level : Nat) : Steady (toBody? level) b.json := by
  have hnone (object : List (Text × Json)) (h : (Json.object object).case? = none) :
      toBody? level (.object object) = none := by rw [toBody?, h]
  cases b with
  | entity e =>
    exact steady_variant ((steady_entity e level).bind fun e => some (.entity e))
      (fun _ _ h => by simp only [toBody?, h]) hnone
  | object v =>
    exact steady_variant ((steady_value v level).bind fun v => some (.object v))
      (fun _ _ h => by simp only [toBody?, h]) hnone

/-- **The reader of documents is steady** on what the writer makes of one. -/
theorem steady_document (d : Document) : Steady toDocument? d.json := by
  have hheader := steady_header d.header
  have hbody := steady_body d.body (depthLimit - 2)
  refine steady_record ["header", "body"] [_, _] (by decide) rfl ?_ ?_
  · rintro i j _ hi hj (_ | ⟨hh, _ | ⟨hb, _ | _⟩⟩)
    rw [toDocument?, toDocument?, hi, hj]
    simp only [List.map_cons, List.map_nil, hheader.relaid hh, hbody.relaid hb]
  · intro j a hread
    rw [toDocument?] at hread
    split at hread
    · next hk =>
      obtain ⟨_, hh, hread⟩ := Option.bind_eq_some_iff.mp hread
      obtain ⟨_, hb, -⟩ := Option.bind_eq_some_iff.mp hread
      exact ⟨_, hk, .cons (hheader.sound hh) (.cons (hbody.sound hb) .nil)⟩
    · cases hread

theorem IsText.read? {j : Json} {bs : Bytes} (h : IsText j bs) :
    Format.json.read? bs = j.toDocument? := by
  show Document.ofJsonBytes? bs = _
  rw [Document.ofJsonBytes?, parse?_of_isText h]
  rfl

end Json

/-- **The layout of a JSON document is free.** If a document is written and read back then it is
read from any text of its tree in any layout, with blanks wherever tokens meet and with fields of
any other name in its records. But a text in which a record repeats a field of its own, or lacks one
that is not optional, is not a document. -/
theorem Format.json_read_layout {d : Document} {bs : Bytes} (hwrite : json.write d = .ok bs)
    (hread : json.read bs = .ok d) {j : Json} {text : Bytes} (htext : j.IsText text) :
    (Json.Relaid d.json j → json.read text = .ok d) ∧
      (Json.Spoiled d.json j → json.read text = .error (.malformed json.name)) := by
  obtain ⟨-, rfl⟩ := StandardFormat.finite_of_json_write hwrite
  have hself : Json.IsText d.json d.jsonBytes := Json.isText_bytes (Json.wellformed_document d)
  have hsteady := Json.steady_document d
  refine ⟨fun hrelaid => read_of_read? ?_, fun hspoiled => read_of_read?_eq_none ?_⟩
  · rw [htext.read?, hsteady.relaid hrelaid, ← hself.read?]
    exact read?_of_read hread
  · rw [htext.read?, hsteady.spoiled hspoiled]

namespace Sample

def note : Document := ⟨⟨1, 2, 3, 4⟩, .object .nil⟩

/-- The header of the note back to front. -/
def noteHeader : Json :=
  .record [("cycle", .nat 4), ("kind", .nat 3), ("version", .nat 2), ("magic", .nat 1)]

def noteComment : Json := .array [.record [("by", .null)]]

/-- The note back to front, with a comment. -/
def noteRelaid : Json :=
  .record [("comment", noteComment), ("body", (Body.object .nil).json), ("header", noteHeader)]

/-- The note with a header that lacks the cycle. -/
def noteCut : Json :=
  .record [("header", .record [("magic", .nat 1), ("version", .nat 2), ("kind", .nat 3)]),
    ("body", (Body.object .nil).json)]

/-- Every token on a line of its own. -/
def lines (j : Json) : Bytes := j.tokens.flatMap fun t => [10] ++ t.bytes

theorem wellformed_noteRelaid : noteRelaid.Wellformed := by
  have hheader : noteHeader.Wellformed := Json.wellformed_record _ (by simp [Json.wellformed_nat])
  have hcomment : noteComment.Wellformed :=
    .array (by simp [Json.wellformed_record _, Json.Wellformed.null])
  have hbody : (Body.object .nil).json.Wellformed :=
    Json.wellformed_variant _ (Json.wellformed_str "Nil")
  exact Json.wellformed_record _ (by simp [hheader, hcomment, hbody])

theorem relaid_note : Json.Relaid note.json noteRelaid := by
  have hheader : Json.Relaid note.header.json noteHeader :=
    Json.relaid_record
      [("magic", .nat 1), ("version", .nat 2), ("kind", .nat 3), ("cycle", .nat 4)] []
      (by decide) rfl
      (.cons (.number _) (.cons (.number _) (.cons (.number _) (.cons (.number _) .nil))))
      (List.forall_mem_nil _)
      (List.reverse_perm [("magic", Json.nat 1), ("version", Json.nat 2), ("kind", Json.nat 3),
        ("cycle", Json.nat 4)])
  exact Json.relaid_record [("header", noteHeader), ("body", (Body.object .nil).json)]
    [("comment", noteComment)] (by decide) rfl (.cons hheader (.cons (.variant (.text _)) .nil))
    (by simp)
    (List.reverse_perm [("header", noteHeader), ("body", (Body.object .nil).json),
      ("comment", noteComment)])

theorem wellformed_noteCut : noteCut.Wellformed := by
  have hheader := Json.wellformed_record
    [("magic", .nat 1), ("version", .nat 2), ("kind", .nat 3)] (by simp [Json.wellformed_nat])
  have hbody : (Body.object .nil).json.Wellformed :=
    Json.wellformed_variant _ (Json.wellformed_str "Nil")
  exact Json.wellformed_record _ (by simp [hheader, hbody])

theorem spoiled_note : Json.Spoiled note.json noteCut := by
  refine .field (Json.named?_record [("header", note.header.json), ("body", _)])
    (Json.named?_record _) (.head _) (.head _) ?_
  exact .missing
    ⟨Json.named?_record [("magic", _), ("version", _), ("kind", _), ("cycle", _)], by decide⟩
    (List.mem_map_of_mem (.tail _ (.tail _ (.tail _ (.head _))))) (by decide)
    (Json.named?_record _) (by decide)

end Sample

theorem Format.json_read_layout_note :
    json.write Sample.note = .ok Sample.note.jsonBytes ∧
      json.read Sample.note.jsonBytes = .ok Sample.note ∧
      json.read (Sample.lines Sample.noteRelaid) = .ok Sample.note ∧
      json.read (Sample.lines Sample.noteCut) = .error (.malformed json.name) := by
  have hf : Json.Finite Sample.note.floats := by decide
  have hwrite := json_write_of_finite (Document.firstNonFinite?_eq_none.mpr hf)
  have hread : json.read Sample.note.jsonBytes = .ok Sample.note :=
    read_of_read? ((Document.ofJsonBytes?_jsonBytes hf).1 (by decide))
  have htext {j : Json} (h : j.Wellformed) : j.IsText (Sample.lines j) :=
    ⟨h, Json.laid_flatMap (Json.lexable_tokens h).tokens (by decide)⟩
  refine ⟨hwrite, hread, ?_, ?_⟩
  · exact (json_read_layout hwrite hread (htext Sample.wellformed_noteRelaid)).1 Sample.relaid_note
  · exact (json_read_layout hwrite hread (htext Sample.wellformed_noteCut)).2 Sample.spoiled_note

end Rewind
