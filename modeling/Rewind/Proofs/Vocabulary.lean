import Rewind.Proofs.Latest
import Rewind.Vocabulary

/-! Names and their numbers.

A draft takes names in any order, types and species alike, and some of them again
(`Draft.Registration`). What it knows of each name, the number that it finds under the name and the
list of repeats are kept apart, but every registration keeps them in step with the list of all that
came (`Draft.Records.call`): the number of a name is its place among the names in the order in
which they came first, and no repeat changes what is known. So the answers and the outcome of the
build can be read off that list, and in a vocabulary that is built names and numbers stand for each
other (`Draft.Start.registered_names`), as long as there are numbers enough. -/

namespace Rewind

namespace Draft

/-- A call that registers a name. -/
inductive Registration where
  | type (name : String) (parametric : Bool)
  | species (name : String)
deriving DecidableEq

/-- What is known about a name from its registration. -/
def Registration.info : Registration → NameInfo
  | type name parametric => ⟨name, parametric, .type⟩
  | species name => ⟨name, false, .species⟩

def Registration.name (r : Registration) : String := r.info.name

def call (d : Draft) : Registration → Draft × Nat
  | .type name parametric => d.registerType name parametric
  | .species name => d.registerSpecies name

/-- The draft after some calls, and what they answered. -/
def callAll (d : Draft) : List Registration → Draft × List Nat
  | [] => (d, [])
  | r :: rs =>
    let (d, n) := d.call r
    let (d, ns) := d.callAll rs
    (d, n :: ns)

/-- What a draft is begun with. -/
inductive Start where
  | empty
  | builtins

def Start.draft : Start → Draft
  | empty => .empty
  | builtins => .builtins

/-- The registrations that are there from the start. -/
def Start.registrations : Start → List Registration
  | empty => []
  | builtins => (builtinTypes.map fun t => .type t.1 t.2) ++ [.species rootSpecies]

def namesOf (rs : List Registration) : List String := rs.map Registration.name

/-- The first of the names that stands among those before it. -/
def RepeatsFirst (names : List String) (name : String) : Prop :=
  ∃ before after, names = before ++ name :: after ∧ before.Nodup ∧ name ∈ before

/-- The place of a name among the names in the order in which they came first. -/
def place? (names : List String) (name : String) : Option Nat :=
  if name ∈ names then some (names.eraseDups.idxOf name) else none

/-- There are numbers enough for the names: a number has thirty-two bits. -/
def Fits (rs : List Registration) : Prop := (namesOf rs).eraseDups.length ≤ 0x100000000

end Draft

/-- A vocabulary of all that was registered, each name once. -/
structure Vocabulary.Lists (v : Vocabulary) (rs : List Draft.Registration) : Prop where
  /-- Looking a name up finds its registration. -/
  lookup : ∀ name info, v.lookup? name = some info ↔ ∃ r ∈ rs, r.name = name ∧ r.info = info
  size : v.size = rs.length
  /-- There is something under each number below the size. -/
  get : ∀ n, (v.get? n).isSome = true ↔ n < v.size
  /-- Names lead to numbers and numbers back to names. -/
  number : ∀ name n, v.number? name = some n ↔ ∃ info, v.get? n = some info ∧ info.name = name
  species : ∀ name, v.isSpecies name = true ↔ .species name ∈ rs

namespace Draft

/-! ### Lists of names -/

variable {names : List String} {name last : String}

theorem RepeatsFirst.not_nodup (h : RepeatsFirst names name) : ¬ names.Nodup := by
  obtain ⟨before, after, rfl, -, hmem⟩ := h
  exact fun hnodup => (List.nodup_append.mp hnodup).2.2 name hmem name List.mem_cons_self rfl

theorem repeatsFirst_concat : RepeatsFirst (names ++ [last]) name ↔
    RepeatsFirst names name ∨ names.Nodup ∧ last ∈ names ∧ last = name := by
  constructor
  · rintro ⟨before, after, heq, hnodup, hmem⟩
    obtain rfl | ⟨after, x, rfl⟩ := after.eq_nil_or_concat'
    · obtain ⟨rfl, hlast⟩ := List.append_inj' heq rfl
      obtain rfl : last = name := List.singleton_inj.mp hlast
      exact .inr ⟨hnodup, hmem, rfl⟩
    · rw [← List.cons_append, ← List.append_assoc] at heq
      exact .inl ⟨before, after, (List.append_inj' heq rfl).1, hnodup, hmem⟩
  · rintro (⟨before, after, rfl, hnodup, hmem⟩ | ⟨hnodup, hmem, rfl⟩)
    · exact ⟨before, after ++ [last], by simp, hnodup, hmem⟩
    · exact ⟨names, [], rfl, hnodup, hmem⟩

theorem nodup_concat_iff : (names ++ [last]).Nodup ↔ last ∉ names ∧ names.Nodup := by
  rw [← List.concat_eq_append, List.nodup_concat]

theorem isPrefix_eraseDups (names later : List String) :
    names.eraseDups <+: (names ++ later).eraseDups :=
  ⟨_, List.eraseDups_append.symm⟩

/-- What comes later leaves a name in its place. -/
theorem idxOf_eraseDups_append (h : name ∈ names) (later : List String) :
    (names ++ later).eraseDups.idxOf name = names.eraseDups.idxOf name :=
  ((isPrefix_eraseDups names later).idxOf_eq_of_mem (List.mem_eraseDups.mpr h)).symm

theorem length_eraseDups_le (names : List String) : names.eraseDups.length ≤ names.length := by
  induction names using List.reverseRecOn with
  | nil => exact Nat.le_refl _
  | append_singleton names last ih =>
    rw [eraseDups_concat]
    split <;> simp <;> omega

theorem eraseDups_of_nodup (h : names.Nodup) : names.eraseDups = names := by
  induction names using List.reverseRecOn with
  | nil => rfl
  | append_singleton names last ih =>
    obtain ⟨hlast, hnodup⟩ := nodup_concat_iff.mp h
    rw [eraseDups_concat, if_neg hlast, ih hnodup]

/-- A name that comes again leaves all where they are. -/
theorem place?_concat_of_mem (h : last ∈ names) (name : String) :
    place? (names ++ [last]) name = place? names name := by
  have hmem : name ∈ names ++ [last] ↔ name ∈ names := by
    rw [← List.mem_eraseDups, eraseDups_concat, if_pos h, List.mem_eraseDups]
  simp only [place?, hmem, eraseDups_concat, if_pos h]

/-- A new name takes the next place. -/
theorem idxOf_concat_of_notMem (h : last ∉ names) :
    (names ++ [last]).eraseDups.idxOf last = names.eraseDups.length := by
  have hlast : last ∉ names.eraseDups := fun hmem => h (List.mem_eraseDups.mp hmem)
  rw [eraseDups_concat, if_neg h, List.idxOf_append_of_notMem hlast, List.idxOf_cons_self,
    Nat.add_zero]

theorem place?_concat_of_notMem (h : last ∉ names) (name : String) :
    place? (names ++ [last]) name =
      if last = name then some names.eraseDups.length else place? names name := by
  split
  · next heq =>
    subst heq
    rw [place?, if_pos (by simp), idxOf_concat_of_notMem h]
  · next hne =>
    have hmem : name ∈ names ++ [last] ↔ name ∈ names := by simp [Ne.symm hne]
    simp only [place?, hmem]
    split
    · next hold => rw [idxOf_eraseDups_append hold]
    · rfl

/-! ### Drafts -/

/-- A draft that has taken all that came so far. -/
structure Records (d : Draft) (rs : List Registration) : Prop where
  names : d.names.infos.map NameInfo.name = (namesOf rs).eraseDups
  number : ∀ name, d.number? name = place? (namesOf rs) name
  infos : d.repeats = [] → d.names.infos = rs.map Registration.info
  nodup : d.repeats = [] ↔ (namesOf rs).Nodup
  repeats : ∀ name, d.repeats.head? = some name ↔ RepeatsFirst (namesOf rs) name

variable {d : Draft} {rs later : List Registration} {r : Registration}

theorem namesOf_append (rs later : List Registration) :
    namesOf (rs ++ later) = namesOf rs ++ namesOf later :=
  List.map_append

/-- Repeats need no numbers. -/
theorem fits_of_length_le (h : rs.length ≤ 0x100000000) : Fits rs := by
  refine Nat.le_trans (length_eraseDups_le _) ?_
  rwa [namesOf, List.length_map]

theorem Fits.of_append (h : Fits (rs ++ later)) : Fits rs := by
  rw [Fits, namesOf_append] at h
  exact Nat.le_trans (isPrefix_eraseDups ..).length_le h

theorem call_eq (d : Draft) (r : Registration) : d.call r = d.register r.info := by
  cases r <;> rfl

namespace Records

theorem empty : Records .empty [] :=
  { names := rfl
    number := fun _ => rfl
    infos := fun _ => rfl
    nodup := ⟨fun _ => .nil, fun _ => rfl⟩
    repeats := fun _ => ⟨nofun, fun h => absurd .nil h.not_nodup⟩ }

/-- A name that was there before is noted, and nothing else changes. -/
theorem again (h : d.Records rs) (hr : r.name ∈ namesOf rs) :
    Records { d with repeats := d.repeats ++ [r.name] } (rs ++ [r]) := by
  have hnames : namesOf (rs ++ [r]) = namesOf rs ++ [r.name] := namesOf_append rs [r]
  refine ⟨?_, fun name => ?_, fun hnil => by simp at hnil, ?_, fun name => ?_⟩
  · rw [hnames, eraseDups_concat, if_pos hr]
    exact h.names
  · rw [hnames, place?_concat_of_mem hr]
    exact h.number name
  · rw [hnames, nodup_concat_iff]
    simp [hr]
  · rw [hnames, repeatsFirst_concat, ← h.repeats, ← h.nodup, List.head?_append]
    cases d.repeats <;> simp [hr]

/-- The next number is the next place, if it has the bits. -/
theorem number_push (h : d.Records rs) (hr : r.name ∉ namesOf rs) (hfits : Fits (rs ++ [r])) :
    (d.names.push r.info).2 = (namesOf rs).eraseDups.length := by
  have hlength : d.names.infos.length = (namesOf rs).eraseDups.length := by
    rw [← h.names, List.length_map]
  have hlt : (namesOf rs ++ [r.name]).eraseDups.length ≤ 0x100000000 := by
    rwa [Fits, namesOf_append] at hfits
  rw [eraseDups_concat, if_neg hr, List.length_append, ← hlength] at hlt
  rw [← hlength]
  exact Nat.mod_eq_of_lt hlt

/-- A new name is put behind the others. -/
theorem new (h : d.Records rs) (hr : r.name ∉ namesOf rs) (hfits : Fits (rs ++ [r])) :
    Records { d with names := (d.names.push r.info).1 } (rs ++ [r]) := by
  have hnames : namesOf (rs ++ [r]) = namesOf rs ++ [r.name] := namesOf_append rs [r]
  refine ⟨?_, fun name => ?_, fun hnil => ?_, ?_, fun name => ?_⟩
  · show (d.names.infos ++ [r.info]).map NameInfo.name = _
    rw [List.map_append, h.names, hnames, eraseDups_concat, if_neg hr]
    rfl
  · show (d.names.index.set r.name (d.names.push r.info).2).get? name = _
    rw [Table.get?_set, h.number_push hr hfits, hnames, place?_concat_of_notMem hr, ← h.number]
    rfl
  · show d.names.infos ++ [r.info] = _
    rw [h.infos hnil, List.map_append]
    rfl
  · rw [hnames, nodup_concat_iff, and_iff_right hr]
    exact h.nodup
  · rw [hnames, repeatsFirst_concat, or_iff_left fun hrep => hr hrep.2.1]
    exact h.repeats name

/-- One call more is recorded, and answered with the place of its name. -/
theorem call (h : d.Records rs) (hfits : Fits (rs ++ [r])) :
    Records (d.call r).1 (rs ++ [r]) ∧
      (d.call r).2 = (namesOf (rs ++ [r])).eraseDups.idxOf r.name := by
  rw [call_eq, register, show d.number? r.info.name = _ from h.number r.name, place?]
  by_cases hr : r.name ∈ namesOf rs
  · rw [if_pos hr]
    refine ⟨h.again hr, ?_⟩
    rw [namesOf_append]
    exact (idxOf_eraseDups_append hr _).symm
  · rw [if_neg hr]
    refine ⟨h.new hr hfits, ?_⟩
    rw [namesOf_append]
    exact (h.number_push hr hfits).trans (idxOf_concat_of_notMem hr).symm

theorem callAll {calls : List Registration} (h : d.Records rs) (hfits : Fits (rs ++ calls)) :
    Records (d.callAll calls).1 (rs ++ calls) ∧
      (d.callAll calls).2 =
        calls.map fun r => (namesOf (rs ++ calls)).eraseDups.idxOf r.name := by
  induction calls generalizing d rs with
  | nil => exact ⟨by rwa [List.append_nil], rfl⟩
  | cons r calls ih =>
    have happend : rs ++ r :: calls = rs ++ [r] ++ calls := List.append_cons ..
    rw [happend] at hfits ⊢
    obtain ⟨hcall, hanswer⟩ := h.call hfits.of_append
    obtain ⟨hcalls, hanswers⟩ := ih hcall hfits
    refine ⟨hcalls, ?_⟩
    have hmem : r.name ∈ namesOf (rs ++ [r]) := by
      rw [namesOf_append]
      exact List.mem_append_right _ (List.mem_singleton_self _)
    show (d.call r).2 :: ((d.call r).1.callAll calls).2 = _
    rw [List.map_cons, hanswers, hanswer, namesOf_append (rs ++ [r]), idxOf_eraseDups_append hmem]

end Records

/-- A draft that is begun with the builtin names has taken them like others. -/
theorem Start.records (s : Start) : s.draft.Records s.registrations := by
  cases s with
  | empty => exact .empty
  | builtins =>
    have hcalls : Start.builtins.draft = (Draft.empty.callAll Start.builtins.registrations).1 := rfl
    rw [hcalls]
    exact (Records.empty.callAll (fits_of_length_le (by decide))).1

/-! ### Builds -/

theorem build_eq_ok_iff {v : Vocabulary} : d.build = .ok v ↔
    d.repeats = [] ∧ "" ∉ d.names.infos.map NameInfo.name ∧ v = ⟨d.names⟩ := by
  unfold build
  cases d.repeats with
  | nil =>
    simp only [List.any_eq_true, String.isEmpty_iff, List.mem_map]
    split <;> grind
  | cons name rest => simp

theorem build_eq_repeated_iff :
    d.build = .error (.repeated name) ↔ d.repeats.head? = some name := by
  unfold build
  cases d.repeats with
  | nil =>
    simp only [List.head?_nil, reduceCtorEq, iff_false]
    split <;> simp
  | cons name rest => simp

theorem build_eq_emptyName_iff : d.build = .error .emptyName ↔
    d.repeats = [] ∧ "" ∈ d.names.infos.map NameInfo.name := by
  unfold build
  cases d.repeats with
  | nil =>
    simp only [List.any_eq_true, String.isEmpty_iff, List.mem_map]
    split <;> grind
  | cons name rest => simp

theorem Records.mem_iff (h : d.Records rs) :
    name ∈ d.names.infos.map NameInfo.name ↔ name ∈ namesOf rs := by
  rw [h.names, List.mem_eraseDups]

/-! ### Vocabularies -/

/-- A name's place is where the name stands. -/
theorem idxOf_eq_iff (h : names.Nodup) {n : Nat} :
    name ∈ names ∧ names.idxOf name = n ↔ names[n]? = some name := by
  constructor
  · rintro ⟨hmem, rfl⟩
    exact List.getElem?_idxOf hmem
  · intro hn
    obtain ⟨hlt, rfl⟩ := List.getElem?_eq_some_iff.mp hn
    exact ⟨List.getElem_mem hlt, h.idxOf_getElem n hlt⟩

theorem Registration.eq_species_iff :
    r = .species name ↔ r.name = name ∧ r.info.kind = .species := by
  cases r with
  | type name' parametric => simp [info]
  | species name' => simp [info, Registration.name]

section
variable {v : Vocabulary}

theorem Records.get?_eq (h : d.Records rs) (hv : d.build = .ok v) (n : Nat) :
    v.get? n = rs[n]?.map Registration.info := by
  obtain ⟨hnil, -, rfl⟩ := build_eq_ok_iff.mp hv
  rw [Vocabulary.get?, h.infos hnil, List.getElem?_map]

theorem Records.size_eq (h : d.Records rs) (hv : d.build = .ok v) : v.size = rs.length := by
  obtain ⟨hnil, -, rfl⟩ := build_eq_ok_iff.mp hv
  rw [Vocabulary.size, h.infos hnil, List.length_map]

theorem Records.number?_eq_some_iff (h : d.Records rs) (hv : d.build = .ok v) {n : Nat} :
    v.number? name = some n ↔ ∃ r, rs[n]? = some r ∧ r.name = name := by
  obtain ⟨hnil, -, rfl⟩ := build_eq_ok_iff.mp hv
  have hnodup := h.nodup.mp hnil
  rw [show (⟨d.names⟩ : Vocabulary).number? name = _ from h.number name, place?,
    eraseDups_of_nodup hnodup, Option.ite_none_right_eq_some, Option.some_inj,
    idxOf_eq_iff hnodup, namesOf, List.getElem?_map, Option.map_eq_some_iff]

theorem Records.lookup?_eq_some_iff (h : d.Records rs) (hv : d.build = .ok v) {info : NameInfo} :
    v.lookup? name = some info ↔ ∃ r ∈ rs, r.name = name ∧ r.info = info := by
  show (v.number? name).bind v.get? = some info ↔ _
  simp only [Option.bind_eq_some_iff, h.number?_eq_some_iff hv, h.get?_eq hv,
    Option.map_eq_some_iff, List.mem_iff_getElem?]
  constructor
  · rintro ⟨n, ⟨r, hr, hname⟩, r', hr', hinfo⟩
    cases hr.symm.trans hr'
    exact ⟨r, ⟨n, hr⟩, hname, hinfo⟩
  · rintro ⟨r, ⟨n, hr⟩, hname, hinfo⟩
    exact ⟨n, ⟨r, hr, hname⟩, r, hr, hinfo⟩

theorem Records.lists (h : d.Records rs) (hv : d.build = .ok v) : v.Lists rs := by
  refine ⟨fun name info => h.lookup?_eq_some_iff hv, h.size_eq hv, fun n => ?_, fun name n => ?_,
    fun name => ?_⟩
  · rw [h.get?_eq hv, h.size_eq hv, Option.isSome_map, isSome_getElem?]
  · simp only [h.number?_eq_some_iff hv, h.get?_eq hv, Option.map_eq_some_iff]
    constructor
    · rintro ⟨r, hr, hname⟩
      exact ⟨r.info, ⟨r, hr, rfl⟩, hname⟩
    · rintro ⟨info, ⟨r, hr, rfl⟩, hname⟩
      exact ⟨r, hr, hname⟩
  · have hspecies : v.isSpecies name = true ↔
        ∃ info, v.lookup? name = some info ∧ info.kind = .species := by
      rw [Vocabulary.isSpecies]
      cases v.lookup? name <;> simp
    simp only [hspecies, h.lookup?_eq_some_iff hv]
    constructor
    · rintro ⟨info, ⟨r, hr, hname, rfl⟩, hkind⟩
      exact Registration.eq_species_iff.mpr ⟨hname, hkind⟩ ▸ hr
    · intro hmem
      exact ⟨_, ⟨_, hmem, rfl, rfl⟩, rfl⟩

end

/-- **Names and numbers stand for each other**, whatever is registered and however often, as long as
there are numbers enough for the different names. A call answers with the place of its name among
the names in the order in which they came first. What is drafted can be built if no name was
repeated, the builtin ones included, and none is empty; else the first repeat is reported, or the
empty name if there is none. What is built knows each name as it was registered. -/
theorem Start.registered_names (s : Start) (calls : List Registration)
    (hfits : Fits (s.registrations ++ calls)) :
    let rs := s.registrations ++ calls
    let d := (s.draft.callAll calls).1
    (s.draft.callAll calls).2 = calls.map (fun r => (namesOf rs).eraseDups.idxOf r.name) ∧
    ((∃ v, d.build = .ok v) ↔ (namesOf rs).Nodup ∧ "" ∉ namesOf rs) ∧
    (∀ name, d.build = .error (.repeated name) ↔ RepeatsFirst (namesOf rs) name) ∧
    (d.build = .error .emptyName ↔ (namesOf rs).Nodup ∧ "" ∈ namesOf rs) ∧
    (∀ v, d.build = .ok v → v.Lists rs) := by
  intro rs d
  obtain ⟨h, hanswers⟩ := s.records.callAll hfits
  refine ⟨hanswers, ?_, fun name => build_eq_repeated_iff.trans (h.repeats name), ?_,
    fun v hv => h.lists hv⟩
  · rw [← h.nodup, ← h.mem_iff]
    simp only [build_eq_ok_iff]
    exact ⟨fun ⟨_, hnil, hempty, _⟩ => ⟨hnil, hempty⟩,
      fun ⟨hnil, hempty⟩ => ⟨_, hnil, hempty, rfl⟩⟩
  · rw [build_eq_emptyName_iff, h.mem_iff, h.nodup]

/-- Ants are registered, and then once more as a type. -/
theorem Start.registered_names_ants :
    let calls := [Registration.species "ant", .type "queue" true]
    let more := calls ++ [.type "ant" true]
    (Fits (Start.builtins.registrations ++ more) ∧
      (Start.builtins.draft.callAll more).2 = [14, 15, 14] ∧
      (Start.builtins.draft.callAll more).1.build = .error (.repeated "ant")) ∧
    ∃ v, (Start.builtins.draft.callAll calls).1.build = .ok v ∧ v.isSpecies "ant" = true ∧
      v.lookup? "queue" = some ⟨"queue", true, .type⟩ ∧ v.size = 16 := by
  intro calls more
  have hfits : Fits (Start.builtins.registrations ++ more) := fits_of_length_le (by decide)
  constructor
  · obtain ⟨hanswers, -, hrepeated, -⟩ := Start.registered_names .builtins more hfits
    refine ⟨hfits, hanswers, (hrepeated "ant").mpr ?_⟩
    exact ⟨namesOf (Start.builtins.registrations ++ calls), [], rfl, by decide, by decide⟩
  · obtain ⟨-, hok, -, -, hlists⟩ :=
      Start.registered_names .builtins calls (fits_of_length_le (by decide))
    obtain ⟨v, hv⟩ := hok.mpr ⟨by decide, by decide⟩
    have h := hlists v hv
    exact ⟨v, hv, (h.species "ant").mpr (by decide),
      (h.lookup "queue" _).mpr ⟨.type "queue" true, by decide, rfl, rfl⟩, h.size⟩

end Draft
end Rewind
