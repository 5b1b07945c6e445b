import Mathlib.Data.List.Count
import Mathlib.Data.List.Forall2
import Rewind.Proofs.JsonFormat

/-! Trees in another layout.

A tree can say the same document in many ways: with the fields of its records in another order, and
with fields among them that nobody asks for (`Relaid`). What it may not do is to give a field of a
record twice, or to leave one out that is not optional (`Spoiled`). A reader is steady on a tree if
it reads the same from every relaid one and nothing from a spoiled one (`Steady`). It is so on a
record, an array or a case of a choice if the readers of the parts are steady on these. -/

namespace Rewind
namespace Json

/-! ### Trees in another layout -/

/-- The fields of the records that documents are made of. -/
def recordNames : List (List String) :=
  [["header", "body"], ["magic", "version", "kind", "cycle"], ["name", "params"],
    ["species", "indices"], ["depth", "kind", "points", "owner"], ["content", "items"],
    ["key", "content", "ordered", "entries"], ["owner", "agent"],
    ["index", "species", "attributes", "populations"], ["species", "next_index", "members"]]

/-- The fields that may be absent. -/
def optionalNames : List String := ["params", "depth", "owner"]

/-- An object that is a record with the given fields. -/
structure IsRecord (object : List (Text × Json)) (fields : List (String × Json)) : Prop where
  named : named? object = some fields
  names : fields.map Prod.fst ∈ recordNames

/-- The same tree in another layout: the fields of its records are in any order, and among them
there are others that the record does not have. -/
inductive Relaid : Json → Json → Prop
  | null : Relaid .null .null
  | bool (b : Bool) : Relaid (.bool b) (.bool b)
  | number (n : Numeral) : Relaid (.number n) (.number n)
  | text (t : Text) : Relaid (.text t) (.text t)
  | array {items items' : List Json} (h : List.Forall₂ Relaid items items') :
      Relaid (.array items) (.array items')
  | variant {key : Text} {p p' : Json} (h : Relaid p p') :
      Relaid (.object [(key, p)]) (.object [(key, p')])
  | record {object object' : List (Text × Json)} {fields fields' extra named : List (String × Json)}
      (h : IsRecord object fields) (hnames : fields'.map Prod.fst = fields.map Prod.fst)
      (hvalues : List.Forall₂ Relaid (fields.map Prod.snd) (fields'.map Prod.snd))
      (hextra : ∀ f ∈ extra, f.1 ∉ fields.map Prod.fst)
      (hnamed : named? object' = some named) (hperm : named.Perm (fields' ++ extra)) :
      Relaid (.object object) (.object object')

/-- A tree in which a record has a field of its own more than once, or lacks one that is not
optional. Nothing is said of the rest. -/
inductive Spoiled : Json → Json → Prop
  | repeated {object object' : List (Text × Json)} {fields named : List (String × Json)}
      {name : String} (h : IsRecord object fields) (hname : name ∈ fields.map Prod.fst)
      (hnamed : named? object' = some named) (hcount : 1 < (named.map Prod.fst).count name) :
      Spoiled (.object object) (.object object')
  | missing {object object' : List (Text × Json)} {fields named : List (String × Json)}
      {name : String} (h : IsRecord object fields) (hname : name ∈ fields.map Prod.fst)
      (hneeded : name ∉ optionalNames) (hnamed : named? object' = some named)
      (hmissing : name ∉ named.map Prod.fst) : Spoiled (.object object) (.object object')
  | field {object object' : List (Text × Json)} {fields named : List (String × Json)}
      {name : String} {j j' : Json} (hfields : named? object = some fields)
      (hnamed : named? object' = some named) (hf : (name, j) ∈ fields) (hf' : (name, j') ∈ named)
      (h : Spoiled j j') : Spoiled (.object object) (.object object')
  | item {items items' : List Json} {i : Nat} {j j' : Json} (hj : items[i]? = some j)
      (hj' : items'[i]? = some j') (h : Spoiled j j') : Spoiled (.array items) (.array items')

theorem Spoiled.ne_null {i j : Json} (h : Spoiled i j) : j ≠ .null := by
  rintro rfl
  cases h

/-- The fields of a record in any order, among others. -/
theorem relaid_record {fields shuffled : List (String × Json)}
    (fields' extra : List (String × Json)) (hrecord : fields.map Prod.fst ∈ recordNames)
    (hnames : fields'.map Prod.fst = fields.map Prod.fst)
    (hvalues : List.Forall₂ Relaid (fields.map Prod.snd) (fields'.map Prod.snd))
    (hextra : ∀ f ∈ extra, f.1 ∉ fields.map Prod.fst) (hperm : shuffled.Perm (fields' ++ extra)) :
    Relaid (record fields) (record shuffled) :=
  .record ⟨named?_record fields, hrecord⟩ hnames hvalues hextra (named?_record shuffled) hperm

/-! ### Asking for fields -/

theorem nodup_of_mem_recordNames {names : List String} (h : names ∈ recordNames) : names.Nodup := by
  have hall : ∀ names ∈ recordNames, names.Nodup := by decide
  exact hall names h

/-- No record has a single field, as the cases of choices do. -/
theorem length_ne_one_of_mem_recordNames {names : List String} (h : names ∈ recordNames) :
    names.length ≠ 1 := by
  have hall : ∀ names ∈ recordNames, names.length ≠ 1 := by decide
  exact hall names h

theorem eq_of_named? {fields fields' : List (String × Json)} {object : List (Text × Json)}
    (h : record fields = .object object) (hnamed : named? object = some fields') :
    fields' = fields := by
  rw [← Json.object.inj h, named?_record] at hnamed
  exact (Option.some.inj hnamed).symm

theorem single?_eq_some {fields : List (String × Json)} {f : String × Json}
    (hf : f ∈ fields) {v : Option Json} (h : single? fields f.1 = some v) : v = some f.2 := by
  have hmem : f ∈ fields.filter (·.1 = f.1) := List.mem_filter.mpr ⟨hf, by simp⟩
  rw [single?] at h
  split at h
  · next hnone => exact absurd (hnone ▸ hmem) List.not_mem_nil
  · next hone =>
    rw [hone, List.mem_singleton] at hmem
    rw [← Option.some.inj h, hmem]
  · cases h

theorem count_of_single? {fields : List (String × Json)} {name : String} {v : Option Json}
    (h : single? fields name = some v) : (fields.map Prod.fst).count name = v.toList.length := by
  have hcount : (fields.map Prod.fst).count name = (fields.filter (·.1 = name)).length := by
    rw [List.count, List.countP_map, List.countP_eq_length_filter]
    rfl
  rw [hcount]
  rw [single?] at h
  split at h
  · next hnone => rw [hnone, ← Option.some.inj h]; rfl
  · next hone => rw [hone, ← Option.some.inj h]; rfl
  · cases h

/-- A relaid record has the same fields. -/
theorem known?_of_relaid {fields : List (String × Json)} {j : Json}
    (hrecord : fields.map Prod.fst ∈ recordNames) (h : Relaid (record fields) j) :
    ∃ values, List.Forall₂ Relaid (fields.map Prod.snd) values ∧
      j.known? (fields.map Prod.fst) = some (values.map some) := by
  generalize hj : record fields = i at h
  cases h with
  | null | bool | number | text | array => cases hj
  | variant =>
    have hlen := congrArg List.length (Json.object.inj hj)
    rw [List.length_map] at hlen
    exact absurd (by rw [List.length_map, hlen]; rfl) (length_ne_one_of_mem_recordNames hrecord)
  | @record _ _ _ fields' extra _ h hnames hvalues hextra hnamed hperm =>
    obtain rfl := eq_of_named? hj h.named
    refine ⟨fields'.map Prod.snd, hvalues, ?_⟩
    have hnodup := nodup_of_mem_recordNames hrecord
    rw [← hnames] at hnodup hextra ⊢
    rw [known?, hnamed, Option.bind_eq_bind, Option.bind_some, List.map_map]
    refine mapM_single? fun f hf => List.perm_singleton.mp ?_
    have hnone : extra.filter (·.1 = f.1) = [] := by
      refine List.filter_eq_nil_iff.mpr fun g hg => ?_
      have hne : g.1 ≠ f.1 := fun heq => hextra g hg (heq ▸ List.mem_map_of_mem hf)
      simpa using hne
    refine (hperm.filter (·.1 = f.1)).trans ?_
    rw [List.filter_append, hnone, List.append_nil, filter_name hnodup f hf]

/-- What an object gives for a field is there unless the field is optional, and not spoiled. -/
def Intact (f : String × Json) : Option Json → Prop
  | none => f.1 ∈ optionalNames
  | some j => ¬ Spoiled f.2 j

theorem single?_of_mapM {named fields : List (String × Json)} {values : List (Option Json)}
    (hk : (fields.map Prod.fst).mapM (single? named) = some values)
    (h : List.Forall₂ Intact fields values) :
    ∀ f ∈ fields, ∃ v, single? named f.1 = some v ∧ Intact f v := by
  induction h with
  | nil => exact List.forall_mem_nil _
  | @cons f v fs vs hv _ ih =>
    simp only [List.map_cons, List.mapM_cons, Option.bind_eq_bind, Option.bind_eq_some_iff,
      Option.pure_def, Option.some.injEq, List.cons.injEq] at hk
    obtain ⟨w, hw, ws, hws, rfl, rfl⟩ := hk
    exact List.forall_mem_cons.mpr ⟨⟨w, hw, hv⟩, ih hws⟩

/-- If all fields that an object gives are intact then it is no spoiled record. -/
theorem not_spoiled_record {fields : List (String × Json)} {j : Json} {values : List (Option Json)}
    (hk : j.known? (fields.map Prod.fst) = some values) (h : List.Forall₂ Intact fields values) :
    ¬ Spoiled (record fields) j := by
  intro hs
  generalize hi : record fields = i at hs
  have hsingle {object : List (Text × Json)} {named : List (String × Json)}
      (hk : (Json.object object).known? (fields.map Prod.fst) = some values)
      (h' : named? object = some named) :
      ∀ f ∈ fields, ∃ v, single? named f.1 = some v ∧ Intact f v := by
    rw [known?, h'] at hk
    exact single?_of_mapM hk h
  cases hs with
  | repeated hrecord hname hnamed hcount =>
    obtain rfl := eq_of_named? hi hrecord.named
    obtain ⟨f, hf, rfl⟩ := List.mem_map.mp hname
    obtain ⟨v, hv, -⟩ := hsingle hk hnamed f hf
    rw [count_of_single? hv] at hcount
    cases v <;> simp at hcount
  | missing hrecord hname hneeded hnamed hmissing =>
    obtain rfl := eq_of_named? hi hrecord.named
    obtain ⟨f, hf, rfl⟩ := List.mem_map.mp hname
    obtain ⟨v, hv, hintact⟩ := hsingle hk hnamed f hf
    have hnone := count_of_single? hv
    rw [List.count_eq_zero_of_not_mem hmissing] at hnone
    cases v with
    | none => exact hneeded hintact
    | some j => cases hnone
  | field hfields hnamed hf hf' hspoiled =>
    obtain rfl := eq_of_named? hi hfields
    obtain ⟨v, hv, hintact⟩ := hsingle hk hnamed _ hf
    obtain rfl := single?_eq_some hf' hv
    exact hintact hspoiled
  | item => cases hi

/-! ### Cases of a choice -/

theorem not_isRecord_variant {name : String} {p : Json} {fields : List (String × Json)} :
    ¬ IsRecord [(Text.ofString name, p)] fields := by
  intro h
  obtain rfl : fields = [(name, p)] := eq_of_named? rfl h.named
  exact length_ne_one_of_mem_recordNames h.names rfl

theorem relaid_variant {name : String} {p j : Json} (h : Relaid (variant name p) j) :
    ∃ p', Relaid p p' ∧ j = variant name p' := by
  generalize hi : variant name p = i at h
  cases h with
  | null | bool | number | text | array => cases hi
  | variant h =>
    cases hi
    exact ⟨_, h, rfl⟩
  | record h =>
    cases hi
    exact absurd h not_isRecord_variant

/-- A spoiled case of a choice is an object that gives no case, or one that is spoiled. -/
theorem spoiled_variant {name : String} {p j : Json} (h : Spoiled (variant name p) j) :
    ∃ object, j = .object object ∧
      ∀ c, j.case? = some c → ∃ p', c = (name, some p') ∧ Spoiled p p' := by
  generalize hi : variant name p = i at h
  cases h with
  | repeated h | missing h =>
    cases hi
    exact absurd h not_isRecord_variant
  | item => cases hi
  | @field _ object' fields _ _ _ _ hfields hnamed hf hf' hspoiled =>
    obtain rfl : fields = [(name, p)] := eq_of_named? hi hfields
    obtain ⟨rfl, rfl⟩ := Prod.mk.inj (List.mem_singleton.mp hf)
    refine ⟨object', rfl, fun c hc => ?_⟩
    match object', hnamed, hc with
    | [(key, p')], hnamed, hc =>
      obtain ⟨s, hs, hc⟩ := Option.bind_eq_some_iff.mp hc
      obtain rfl := Option.some.inj hc
      rw [named?, hs] at hnamed
      obtain rfl := Option.some.inj hnamed
      obtain ⟨rfl, rfl⟩ := Prod.mk.inj (List.mem_singleton.mp hf')
      exact ⟨_, rfl, hspoiled⟩

/-! ### Steady readers -/

/-- A reader is steady on a tree if it reads the same from the tree in any layout, and nothing if
it is spoiled. -/
structure Steady {α : Type} (read : Json → Option α) (j : Json) : Prop where
  relaid {j' : Json} (h : Relaid j j') : read j' = read j
  spoiled {j' : Json} (h : Spoiled j j') : read j' = none

/-- A tree without records: it has one layout and cannot be spoiled. -/
structure Rigid (j : Json) : Prop where
  relaid {j' : Json} (h : Relaid j j') : j' = j
  sound {j' : Json} : ¬ Spoiled j j'

theorem rigid_null : Rigid .null := ⟨fun h => by cases h; rfl, nofun⟩

theorem rigid_bool (b : Bool) : Rigid (.bool b) := ⟨fun h => by cases h; rfl, nofun⟩

theorem rigid_number (n : Numeral) : Rigid (.number n) := ⟨fun h => by cases h; rfl, nofun⟩

theorem rigid_str (s : String) : Rigid (str s) := ⟨fun h => by cases h; rfl, nofun⟩

theorem rigid_array {items : List Json} (h : ∀ j ∈ items, Rigid j) : Rigid (.array items) := by
  constructor
  · intro j' hj'
    cases hj' with
    | array hitems =>
      congr 1
      induction hitems with
      | nil => rfl
      | cons hj _ ih =>
        obtain ⟨hrigid, hitems⟩ := List.forall_mem_cons.mp h
        rw [hrigid.relaid hj, ih hitems]
  · rintro j' (_ | _ | _ | ⟨hj, -, hspoiled⟩)
    exact (h _ (List.mem_of_getElem? hj)).sound hspoiled

section
variable {α β : Type} {read : Json → Option α} {j : Json}

/-- Any reader is steady on a rigid tree. -/
theorem Rigid.steady (h : Rigid j) (read : Json → Option α) : Steady read j :=
  ⟨fun hj => by rw [h.relaid hj], fun hj => absurd hj h.sound⟩

theorem steady_none (h : ∀ j, read j = none) : Steady read j :=
  ⟨fun _ => by rw [h, h], fun _ => h _⟩

theorem Steady.bind (h : Steady read j) (f : α → Option β) : Steady (fun j => read j >>= f) j :=
  ⟨fun hj => by rw [h.relaid hj], fun hj => by rw [h.spoiled hj]; rfl⟩

/-- What a steady reader reads is not spoiled. -/
theorem Steady.sound (h : Steady read j) {j' : Json} {a : α} (hread : read j' = some a) :
    ¬ Spoiled j j' := by
  intro hj
  rw [h.spoiled hj] at hread
  cases hread

theorem Steady.option (h : Steady read j) : Steady (fun j => toOption? read (some j)) j := by
  constructor
  · intro j' hj
    show toOption? read (some j') = toOption? read (some j)
    have hread := h.relaid hj
    cases hj with
    | null | bool | number | text => rfl
    | _ => exact congrArg (Option.map some) hread
  · intro j' hj
    show toOption? read (some j') = none
    have hread := h.spoiled hj
    cases hj <;> exact congrArg (Option.map some) hread

/-- What is read as an option is intact. -/
theorem Steady.intact_of_toOption? {name : String} (h : Steady read j)
    (hname : name ∈ optionalNames) {v : Option Json} {a : Option α}
    (hread : toOption? read v = some a) : Intact (name, j) v := by
  cases v with
  | none => exact hname
  | some j' => exact h.option.sound hread

/-- A reader that takes one case of a choice is steady on it if what reads the rest is. -/
theorem steady_variant {name : String} {payload : Json → Option α} (h : Steady payload j)
    (hcase : ∀ object p, (Json.object object).case? = some (name, some p) →
      read (.object object) = payload p)
    (hnone : ∀ object, (Json.object object).case? = none → read (.object object) = none) :
    Steady read (variant name j) := by
  constructor
  · intro j' hj'
    obtain ⟨p, hp, rfl⟩ := relaid_variant hj'
    have hread (p : Json) : read (variant name p) = payload p := hcase _ p (case?_variant name p)
    rw [hread, hread, h.relaid hp]
  · intro j' hj'
    obtain ⟨object, rfl, hc⟩ := spoiled_variant hj'
    cases hcase' : (Json.object object).case? with
    | none => exact hnone object hcase'
    | some c =>
      obtain ⟨p, rfl, hp⟩ := hc c hcase'
      rw [hcase object p hcase', h.spoiled hp]

/-- A reader of a record is steady on it if it reads the same from relaid fields, and reads only
from intact ones. -/
theorem steady_record (names : List String) (values : List Json) (hrecord : names ∈ recordNames)
    (hlen : names.length = values.length)
    (hrelaid : ∀ i j values', i.known? names = some (values.map some) →
      j.known? names = some (values'.map some) → List.Forall₂ Relaid values values' →
        read j = read i)
    (hintact : ∀ j a, read j = some a → ∃ given, j.known? names = some given ∧
      List.Forall₂ Intact (names.zip values) given) :
    Steady read (record (names.zip values)) := by
  have hnames : (names.zip values).map Prod.fst = names := List.map_fst_zip hlen.le
  have hvalues : (names.zip values).map Prod.snd = values := List.map_snd_zip hlen.ge
  have hnodup := nodup_of_mem_recordNames hrecord
  have hself := known?_record (names.zip values) (by rwa [hnames])
  have hsome : (names.zip values).map (fun f => some f.2) = values.map some :=
    List.map_map.symm.trans (congrArg (List.map some) hvalues)
  rw [hnames, hsome] at hself
  constructor
  · intro j hj
    obtain ⟨values', hvalues', hk⟩ := known?_of_relaid (by rwa [hnames]) hj
    rw [hvalues] at hvalues'
    rw [hnames] at hk
    exact hrelaid _ j values' hself hk hvalues'
  · intro j hj
    cases hread : read j with
    | none => rfl
    | some a =>
      obtain ⟨given, hk, hgiven⟩ := hintact j a hread
      exact absurd hj (not_spoiled_record (by rwa [hnames]) hgiven)

theorem mapM_eq_none {l : List α} {f : α → Option β} {a : α} (ha : a ∈ l) (h : f a = none) :
    l.mapM f = none := by
  induction l with
  | nil => cases ha
  | cons b l ih =>
    rw [List.mapM_cons]
    rcases List.mem_cons.mp ha with rfl | ha
    · rw [h]
      rfl
    · rw [ih ha]
      cases f b <;> rfl

/-- A reader that takes a level for an array is steady on it if what reads an item is. -/
theorem steady_array {read : Nat → Json → Option (List α)} {item : Nat → Json → Option α}
    {items : List Json} (hzero : ∀ j, read 0 j = none)
    (hread : ∀ level items, read (level + 1) (.array items) = items.mapM (item level))
    (h : ∀ level, ∀ j ∈ items, Steady (item level) j) (level : Nat) :
    Steady (read level) (.array items) := by
  cases level with
  | zero => exact steady_none hzero
  | succ level =>
    replace h := h level
    constructor
    · rintro j' (_ | _ | _ | _ | hitems)
      rw [hread, hread]
      induction hitems with
      | nil => rfl
      | cons hj _ ih =>
        obtain ⟨hitem, hitems⟩ := List.forall_mem_cons.mp h
        rw [List.mapM_cons, List.mapM_cons, hitem.relaid hj, ih hitems]
    · rintro j' (_ | _ | _ | ⟨hj, hj', hspoiled⟩)
      have hnone := (h _ (List.mem_of_getElem? hj)).spoiled hspoiled
      rw [hread]
      exact mapM_eq_none (List.mem_of_getElem? hj') hnone

theorem relaid_pair {a b j : Json} (h : Relaid (.array [a, b]) j) :
    ∃ a' b', j = .array [a', b'] ∧ Relaid a a' ∧ Relaid b b' := by
  obtain _ | _ | _ | _ | (_ | ⟨ha, _ | ⟨hb, _ | _⟩⟩) := h
  exact ⟨_, _, rfl, ha, hb⟩

theorem not_spoiled_pair {a b a' b' : Json} (ha : ¬ Spoiled a a') (hb : ¬ Spoiled b b') :
    ¬ Spoiled (.array [a, b]) (.array [a', b']) := by
  rintro (_ | _ | _ | @⟨_, _, i, _, _, hj, hj', h⟩)
  match i, hj, hj' with
  | 0, hj, hj' =>
    cases hj
    cases hj'
    exact ha h
  | 1, hj, hj' =>
    cases hj
    cases hj'
    exact hb h

/-- A reader of pairs is steady if what reads their halves is. -/
theorem steady_pair {γ : Type} {read : Json → Option γ} {first : Json → Option α}
    {second : Json → Option β} {a b : Json} (make : α → β → γ)
    (hread : ∀ a b, read (.array [a, b]) = do some (make (← first a) (← second b)))
    (hpair : ∀ items c, read (.array items) = some c → ∃ a b, items = [a, b])
    (ha : Steady first a) (hb : Steady second b) : Steady read (.array [a, b]) := by
  constructor
  · intro j hj
    obtain ⟨a', b', rfl, ha', hb'⟩ := relaid_pair hj
    rw [hread, hread, ha.relaid ha', hb.relaid hb']
  · intro j hj
    cases hj with
    | @item _ items i c c' hc hc' hspoiled =>
      have hj : Spoiled (.array [a, b]) (.array items) := .item hc hc' hspoiled
      cases hitems : read (.array items) with
      | none => rfl
      | some c =>
        obtain ⟨a', b', rfl⟩ := hpair items c hitems
        rw [hread] at hitems
        obtain ⟨_, ha', hitems⟩ := Option.bind_eq_some_iff.mp hitems
        obtain ⟨_, hb', -⟩ := Option.bind_eq_some_iff.mp hitems
        exact absurd hj (not_spoiled_pair (ha.sound ha') (hb.sound hb'))

end

end Json
end Rewind
