import Rewind.Proofs.Format

/-! What JSON refuses to write.

Before a document becomes text its floats are looked through, apart from the writing itself.
Nothing that is written escapes the look: the floats that are looked at are those of all places that
can hold one (`Document.mem_floats`), and they come in the order in which the writer puts their
literals into the text (`Document.filterMap_tokens`). So a document is refused for the first float
in writing order that has no literal, and for nothing else (`Format.json_write_refuses`). -/

namespace Rewind

/-! ### The places of floats -/

mutual

/-- A value form holds a float as itself, in an item, key or value of any depth, as the depth or a
coordinate of a shape, or in an entity written out in full. -/
inductive ValueForm.Holds : ValueForm → Binary64 → Prop
  | float (x : Binary64) : ValueForm.Holds (.float x) x
  | item {content : TypeExpr} {items : List ValueForm} {v : ValueForm} {x : Binary64}
      (hv : v ∈ items) (h : ValueForm.Holds v x) : ValueForm.Holds (.list content items) x
  | key {key content : TypeExpr} {ordered : Bool} {entries : List (ValueForm × ValueForm)}
      {e : ValueForm × ValueForm} {x : Binary64} (he : e ∈ entries) (h : ValueForm.Holds e.1 x) :
      ValueForm.Holds (.map key content ordered entries) x
  | value {key content : TypeExpr} {ordered : Bool} {entries : List (ValueForm × ValueForm)}
      {e : ValueForm × ValueForm} {x : Binary64} (he : e ∈ entries) (h : ValueForm.Holds e.2 x) :
      ValueForm.Holds (.map key content ordered entries) x
  | depth {s : ShapeForm} {x : Binary64} (h : s.depth = some x) : ValueForm.Holds (.shape s) x
  | coordinate {s : ShapeForm} {p : Point} {x : Binary64} (hp : p ∈ s.points)
      (h : x = p.x ∨ x = p.y ∨ x = p.z) : ValueForm.Holds (.shape s) x
  | full {owner : Option PathForm} {e : EntityForm} {x : Binary64} (h : EntityForm.Holds e x) :
      ValueForm.Holds (.full owner e) x

/-- An entity form holds a float in an attribute, or in a member of any of its populations. -/
inductive EntityForm.Holds : EntityForm → Binary64 → Prop
  | attribute {index : UInt32} {species : String} {attributes : List (String × ValueForm)}
      {populations : List (PopulationForm EntityForm)} {a : String × ValueForm} {x : Binary64}
      (ha : a ∈ attributes) (h : ValueForm.Holds a.2 x) :
      EntityForm.Holds (.mk index species attributes populations) x
  | member {index : UInt32} {species : String} {attributes : List (String × ValueForm)}
      {populations : List (PopulationForm EntityForm)} {p : PopulationForm EntityForm}
      {m : EntityForm} {x : Binary64} (hp : p ∈ populations) (hm : m ∈ p.members)
      (h : EntityForm.Holds m x) :
      EntityForm.Holds (.mk index species attributes populations) x

end

def Body.Holds : Body → Binary64 → Prop
  | .entity e, x => e.Holds x
  | .object v, x => v.Holds x

def Document.Holds (d : Document) (x : Binary64) : Prop := d.body.Holds x

theorem mem_coordinates {ps : List Point} {x : Binary64} :
    x ∈ coordinates ps ↔ ∃ p ∈ ps, x = p.x ∨ x = p.y ∨ x = p.z := by
  induction ps with
  | nil => simp [coordinates]
  | cons p ps ih => simp [coordinates, ih, or_assoc]

theorem ShapeForm.mem_floats {s : ShapeForm} {x : Binary64} :
    x ∈ s.floats ↔ (ValueForm.shape s).Holds x := by
  rw [floats, List.mem_append, Option.mem_toList, mem_coordinates]
  constructor
  · rintro (h | ⟨p, hp, h⟩)
    · exact .depth h
    · exact .coordinate hp h
  · rintro (_ | _ | _ | _ | h | ⟨hp, h⟩)
    · exact .inl h
    · exact .inr ⟨_, hp, h⟩

mutual

theorem ValueForm.mem_floats {x : Binary64} : ∀ {v : ValueForm}, x ∈ v.floats ↔ v.Holds x
  | .nil | .bool _ | .int _ | .str _ | .type _ | .context _ | .reference _ =>
    iff_of_false List.not_mem_nil nofun
  | .float y => by
    rw [ValueForm.floats, List.mem_singleton]
    constructor
    · rintro rfl
      exact .float x
    · rintro ⟨⟩
      rfl
  | .list _ items => by
    rw [ValueForm.floats, mem_itemFloats]
    constructor
    · rintro ⟨v, hv, h⟩
      exact .item hv h
    · rintro (_ | ⟨hv, h⟩)
      exact ⟨_, hv, h⟩
  | .map _ _ _ entries => by
    rw [ValueForm.floats, mem_entryFloats]
    constructor
    · rintro ⟨e, he, h | h⟩
      · exact .key he h
      · exact .value he h
    · rintro (_ | _ | ⟨he, h⟩ | ⟨he, h⟩)
      · exact ⟨_, he, .inl h⟩
      · exact ⟨_, he, .inr h⟩
  | .shape s => by rw [ValueForm.floats, ShapeForm.mem_floats]
  | .full _ e => by
    rw [ValueForm.floats, EntityForm.mem_floats]
    exact ⟨.full, fun | .full h => h⟩
termination_by structural v => v

theorem mem_itemFloats {x : Binary64} : ∀ {vs : List ValueForm},
    x ∈ itemFloats vs ↔ ∃ v ∈ vs, v.Holds x
  | [] => by simp [itemFloats]
  | v :: vs => by
    rw [itemFloats, List.mem_append, ValueForm.mem_floats, mem_itemFloats, List.exists_mem_cons_iff]
termination_by structural vs => vs

theorem mem_entryFloats {x : Binary64} : ∀ {es : List (ValueForm × ValueForm)},
    x ∈ entryFloats es ↔ ∃ e ∈ es, e.1.Holds x ∨ e.2.Holds x
  | [] => by simp [entryFloats]
  | (k, v) :: es => by
    rw [entryFloats, List.mem_append, List.mem_append, ValueForm.mem_floats, ValueForm.mem_floats,
      mem_entryFloats, List.exists_mem_cons_iff]
termination_by structural es => es

theorem EntityForm.mem_floats {x : Binary64} : ∀ {e : EntityForm}, x ∈ e.floats ↔ e.Holds x
  | .mk _ _ attributes populations => by
    rw [EntityForm.floats, List.mem_append, mem_attributeFloats, mem_populationFloats]
    constructor
    · rintro (⟨a, ha, h⟩ | ⟨p, hp, m, hm, h⟩)
      · exact .attribute ha h
      · exact .member hp hm h
    · rintro (⟨ha, h⟩ | ⟨hp, hm, h⟩)
      · exact .inl ⟨_, ha, h⟩
      · exact .inr ⟨_, hp, _, hm, h⟩
termination_by structural e => e

theorem mem_attributeFloats {x : Binary64} : ∀ {as : List (String × ValueForm)},
    x ∈ attributeFloats as ↔ ∃ a ∈ as, a.2.Holds x
  | [] => by simp [attributeFloats]
  | (_, v) :: as => by
    rw [attributeFloats, List.mem_append, ValueForm.mem_floats, mem_attributeFloats,
      List.exists_mem_cons_iff]
termination_by structural as => as

theorem mem_populationFloats {x : Binary64} : ∀ {ps : List (PopulationForm EntityForm)},
    x ∈ populationFloats ps ↔ ∃ p ∈ ps, ∃ m ∈ p.members, m.Holds x
  | [] => by simp [populationFloats]
  | ⟨_, _, ms⟩ :: ps => by
    rw [populationFloats, List.mem_append, mem_memberFloats, mem_populationFloats,
      List.exists_mem_cons_iff]
termination_by structural ps => ps

theorem mem_memberFloats {x : Binary64} : ∀ {ms : List EntityForm},
    x ∈ memberFloats ms ↔ ∃ m ∈ ms, m.Holds x
  | [] => by simp [memberFloats]
  | m :: ms => by
    rw [memberFloats, List.mem_append, EntityForm.mem_floats, mem_memberFloats,
      List.exists_mem_cons_iff]
termination_by structural ms => ms

end

theorem Document.mem_floats {d : Document} {x : Binary64} : x ∈ d.floats ↔ d.Holds x := by
  obtain ⟨header, body⟩ := d
  cases body with
  | entity e => exact EntityForm.mem_floats
  | object v => exact ValueForm.mem_floats

/-! ### The order of writing -/

namespace Json

/-- The literal of a float, which is one that no field of integers takes. -/
def Token.float? : Token → Option Numeral
  | .number n => if n.toInt? = none then some n else none
  | _ => none

mutual

/-- The float literals of a tree from left to right. -/
def floatLiterals : Json → List Numeral
  | .number n => (Token.float? (.number n)).toList
  | .array items => itemsLiterals items
  | .object fields => fieldsLiterals fields
  | .null | .bool _ | .text _ => []
termination_by structural j => j

def itemsLiterals : List Json → List Numeral
  | [] => []
  | j :: js => j.floatLiterals ++ itemsLiterals js
termination_by structural js => js

def fieldsLiterals : List (Text × Json) → List Numeral
  | [] => []
  | (_, j) :: fs => j.floatLiterals ++ fieldsLiterals fs
termination_by structural fs => fs

end

variable {rest : List Token}

/-- After each item comes what follows it, with a comma or without. -/
theorem filterMap_itemsOnto {js : List Json}
    (h : ∀ j ∈ js, ∀ rest, (j.tokensOnto rest).filterMap Token.float? =
      j.floatLiterals ++ rest.filterMap Token.float?) :
    (itemsOnto js rest).filterMap Token.float? =
      itemsLiterals js ++ rest.filterMap Token.float? := by
  induction js with
  | nil => rfl
  | cons j js ih =>
    obtain ⟨hj, hjs⟩ := List.forall_mem_cons.mp h
    have hrest : (if js.isEmpty then rest else .comma :: itemsOnto js rest).filterMap Token.float? =
        (itemsOnto js rest).filterMap Token.float? := by
      cases js <;> rfl
    rw [itemsOnto, hj, hrest, ih hjs, itemsLiterals, List.append_assoc]

theorem filterMap_fieldsOnto {fs : List (Text × Json)}
    (h : ∀ f ∈ fs, ∀ rest, (f.2.tokensOnto rest).filterMap Token.float? =
      f.2.floatLiterals ++ rest.filterMap Token.float?) :
    (fieldsOnto fs rest).filterMap Token.float? =
      fieldsLiterals fs ++ rest.filterMap Token.float? := by
  induction fs with
  | nil => rfl
  | cons f fs ih =>
    obtain ⟨hf, hfs⟩ := List.forall_mem_cons.mp h
    have hrest : (if fs.isEmpty then rest
        else .comma :: fieldsOnto fs rest).filterMap Token.float? =
        (fieldsOnto fs rest).filterMap Token.float? := by
      cases fs <;> rfl
    show (f.2.tokensOnto _).filterMap Token.float? = f.2.floatLiterals ++ fieldsLiterals fs ++ _
    rw [hf, hrest, ih hfs, List.append_assoc]

theorem filterMap_tokensOnto (j : Json) (rest : List Token) :
    (j.tokensOnto rest).filterMap Token.float? =
      j.floatLiterals ++ rest.filterMap Token.float? := by
  induction j generalizing rest with
  | null | bool | text => rfl
  | number n =>
    show (Token.number n :: rest).filterMap Token.float? = (Token.float? (.number n)).toList ++ _
    rw [List.filterMap_cons]
    cases Token.float? (.number n) <;> rfl
  | array items ih => exact filterMap_itemsOnto ih
  | object fields ih => exact filterMap_fieldsOnto ih

theorem filterMap_tokens (j : Json) : j.tokens.filterMap Token.float? = j.floatLiterals := by
  rw [tokens, filterMap_tokensOnto]
  exact List.append_nil _

/-! ### The literals of a document -/

theorem itemsLiterals_map {α : Type} (write : α → Json) (as : List α) :
    itemsLiterals (as.map write) = as.flatMap fun a => (write a).floatLiterals := by
  induction as with
  | nil => rfl
  | cons a as ih => rw [List.map_cons, itemsLiterals, ih, List.flatMap_cons]

@[simp]
theorem floatLiterals_record (fields : List (String × Json)) :
    (record fields).floatLiterals = fields.flatMap fun f => f.2.floatLiterals := by
  show fieldsLiterals (fields.map fun f => (Text.ofString f.1, f.2)) = _
  induction fields with
  | nil => rfl
  | cons f fs ih => rw [List.map_cons, fieldsLiterals, ih, List.flatMap_cons]

@[simp]
theorem floatLiterals_variant (name : String) (p : Json) :
    (variant name p).floatLiterals = p.floatLiterals := by
  simp [variant]

@[simp] theorem floatLiterals_null : Json.null.floatLiterals = [] := rfl

@[simp] theorem floatLiterals_bool (b : Bool) : (Json.bool b).floatLiterals = [] := rfl

@[simp] theorem floatLiterals_str (s : String) : (str s).floatLiterals = [] := rfl

@[simp]
theorem floatLiterals_array (items : List Json) :
    (Json.array items).floatLiterals = itemsLiterals items := rfl

@[simp]
theorem floatLiterals_int (i : Int) : (int i).floatLiterals = [] := by
  simp [int, floatLiterals, Token.float?, Numeral.toInt?_ofInt]

@[simp] theorem floatLiterals_nat (n : Nat) : (nat n).floatLiterals = [] := floatLiterals_int n

@[simp]
theorem floatLiterals_float (x : Binary64) : (float x).floatLiterals = [.ofFloat x] := by
  simp [float, floatLiterals, Token.float?, Numeral.toInt?_ofFloat]

@[simp]
theorem floatLiterals_type (t : TypeExpr) : t.json.floatLiterals = [] := by
  induction t with
  | simple name => simp [TypeExpr.json]
  | compound name key content ihk ihc => simp [TypeExpr.json, itemsLiterals, ihk, ihc]

@[simp]
theorem floatLiterals_path (p : PathForm) : p.json.floatLiterals = [] := by
  simp [PathForm.json, itemsLiterals_map]

@[simp]
theorem floatLiterals_owner (o : Option PathForm) : (ownerJson o).floatLiterals = [] := by
  cases o with
  | none => rfl
  | some p => exact floatLiterals_path p

theorem floatLiterals_points (ps : List Point) :
    itemsLiterals (ps.map Point.json) = (coordinates ps).map .ofFloat := by
  induction ps with
  | nil => rfl
  | cons p ps ih => simp [Point.json, itemsLiterals, coordinates, ih]

theorem floatLiterals_depth (o : Option Binary64) :
    (depthJson o).floatLiterals = o.toList.map .ofFloat := by
  cases o with
  | none => rfl
  | some x => exact floatLiterals_float x

theorem floatLiterals_shape (s : ShapeForm) :
    s.json.floatLiterals = s.floats.map .ofFloat := by
  show (record [("depth", depthJson s.depth), _, _, _]).floatLiterals = _
  simp [ShapeForm.floats, floatLiterals_depth, floatLiterals_points]

mutual

theorem floatLiterals_value : ∀ v : ValueForm, v.json.floatLiterals = v.floats.map .ofFloat
  | .nil | .bool _ | .int _ | .float _ | .str _ | .type _ | .context _ | .reference _ => by
    simp [ValueForm.json, ValueForm.floats]
  | .list _ items => by simp [ValueForm.json, ValueForm.floats, floatLiterals_items items]
  | .map _ _ _ entries => by simp [ValueForm.json, ValueForm.floats, floatLiterals_entries entries]
  | .shape s => by simp [ValueForm.json, ValueForm.floats, floatLiterals_shape s]
  | .full _ e => by simp [ValueForm.json, ValueForm.floats, floatLiterals_entity e]
termination_by structural v => v

theorem floatLiterals_items : ∀ vs : List ValueForm,
    itemsLiterals (itemsJson vs) = (itemFloats vs).map .ofFloat
  | [] => rfl
  | v :: vs => by
    simp [itemsJson, itemFloats, itemsLiterals, floatLiterals_value v, floatLiterals_items vs]
termination_by structural vs => vs

theorem floatLiterals_entries : ∀ es : List (ValueForm × ValueForm),
    itemsLiterals (entriesJson es) = (entryFloats es).map .ofFloat
  | [] => rfl
  | (k, v) :: es => by
    simp [entriesJson, entryFloats, itemsLiterals, floatLiterals_value k, floatLiterals_value v,
      floatLiterals_entries es]
termination_by structural es => es

theorem floatLiterals_entity : ∀ e : EntityForm, e.json.floatLiterals = e.floats.map .ofFloat
  | .mk _ _ attributes populations => by
    simp [EntityForm.json, EntityForm.floats, floatLiterals_attributes attributes,
      floatLiterals_populations populations]
termination_by structural e => e

theorem floatLiterals_attributes : ∀ as : List (String × ValueForm),
    itemsLiterals (attributesJson as) = (attributeFloats as).map .ofFloat
  | [] => rfl
  | (_, v) :: as => by
    simp [attributesJson, attributeFloats, itemsLiterals, floatLiterals_value v,
      floatLiterals_attributes as]
termination_by structural as => as

theorem floatLiterals_populations : ∀ ps : List (PopulationForm EntityForm),
    itemsLiterals (populationsJson ps) = (populationFloats ps).map .ofFloat
  | [] => rfl
  | ⟨_, _, ms⟩ :: ps => by
    simp [populationsJson, populationFloats, itemsLiterals, floatLiterals_members ms,
      floatLiterals_populations ps]
termination_by structural ps => ps

theorem floatLiterals_members : ∀ ms : List EntityForm,
    itemsLiterals (membersJson ms) = (memberFloats ms).map .ofFloat
  | [] => rfl
  | m :: ms => by
    simp [membersJson, memberFloats, itemsLiterals, floatLiterals_entity m,
      floatLiterals_members ms]
termination_by structural ms => ms

end

end Json

/-- The floats of a document are what the writer makes float literals of, in the same order. -/
theorem Document.filterMap_tokens (d : Document) :
    d.json.tokens.filterMap Json.Token.float? = d.floats.map .ofFloat := by
  have hbody : d.body.json.floatLiterals = d.body.floats.map .ofFloat := by
    cases d.body with
    | entity e => simp [Body.json, Body.floats, Json.floatLiterals_entity e]
    | object v => simp [Body.json, Body.floats, Json.floatLiterals_value v]
  rw [Json.filterMap_tokens]
  simp [Document.json, Header.json, Document.floats, hbody]

theorem Document.firstNonFinite?_eq_some {d : Document} {x : Binary64} :
    d.firstNonFinite? = some x ↔ x.isFinite = false ∧
      ∃ before after, d.floats = before ++ x :: after ∧ Json.Finite before := by
  rw [firstNonFinite?, List.find?_eq_some_iff_append]
  simp [Json.Finite]

/-- **JSON refuses exactly the documents with a float that is not finite**, wherever they hold it,
and names the first of them in the order in which the writer comes to them. -/
theorem Format.json_write_refuses (d : Document) :
    ((∃ e, json.write d = .error e) ↔ ∃ x, d.Holds x ∧ x.isFinite = false) ∧
    (∀ e, json.write d = .error e → ∃ before x after, d.floats = before ++ x :: after ∧
      (∀ y ∈ before, y.isFinite = true) ∧ x.isFinite = false ∧ e = .nonFinite x) ∧
    d.json.tokens.filterMap Json.Token.float? = d.floats.map .ofFloat := by
  refine ⟨⟨fun ⟨e, he⟩ => ?_, fun ⟨x, hx, hfin⟩ => ?_⟩, fun e he => ?_, d.filterMap_tokens⟩
  · cases hfirst : d.firstNonFinite? with
    | none => cases (json_write_of_finite hfirst).symm.trans he
    | some x =>
      obtain ⟨hfin, before, after, hfloats, -⟩ := Document.firstNonFinite?_eq_some.mp hfirst
      exact ⟨x, Document.mem_floats.mp (by simp [hfloats]), hfin⟩
  · cases hfirst : d.firstNonFinite? with
    | none =>
      have hall := Document.firstNonFinite?_eq_none.mp hfirst x (Document.mem_floats.mpr hx)
      rw [hfin] at hall
      cases hall
    | some y => exact ⟨.nonFinite y, json_write_of_nonFinite hfirst⟩
  · cases hfirst : d.firstNonFinite? with
    | none => cases (json_write_of_finite hfirst).symm.trans he
    | some x =>
      obtain ⟨hfin, before, after, hfloats, hbefore⟩ := Document.firstNonFinite?_eq_some.mp hfirst
      have hx := (json_write_of_nonFinite hfirst).symm.trans he
      exact ⟨before, x, after, hfloats, hbefore, hfin, (Except.error.inj hx).symm⟩

/-- A key comes before its value, and an attribute before the members. -/
example :
    let inf : Binary64 := ⟨0x7FF0000000000000⟩
    let nan : Binary64 := ⟨0x7FF8000000000000⟩
    let any := TypeExpr.simple "any"
    let egg := EntityForm.mk 0 "egg" [("age", .float nan)] []
    let ant := EntityForm.mk 0 "ant" [("notes", .map any any false [(.float inf, .float nan)])]
      [⟨"egg", 1, [egg]⟩]
    Format.json.write (.ofEntity ant 0) = .error (.nonFinite inf) := rfl

end Rewind
