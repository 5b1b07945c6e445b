import Rewind.Proofs.Tree.Edits

/-! The indices that a population gives.

Members come by spawning and by insertion and go by removal, in any order (`Population.Change`).
The counter never goes back and stays ahead of every index that a member has had
(`Population.Counted.beneath_of_held`), so what a spawn creates has an index that is new. But the
counter stops at the largest index: once the member there is gone, a spawn creates another one in
its place. This is the only way in which an index is given twice (`Population.indices_once`). -/

namespace Rewind.Population

/-- What makes members come and go. -/
inductive Change where
  | spawn
  | insert (e : Entity)
  | erase (index : UInt32)

def change (p : Population Entity) : Change → Population Entity
  | .spawn => p.spawn
  | .insert e => p.insert e
  | .erase index => p.erase index

def run (p : Population Entity) (cs : List Change) : Population Entity := cs.foldl change p

/-- A member has the index. -/
def Has (p : Population Entity) (index : UInt32) : Prop := (p.member? index).isSome = true

instance (p : Population Entity) (index : UInt32) : Decidable (p.Has index) :=
  inferInstanceAs (Decidable (_ = true))

/-- A member has had the index at some time, now included. -/
def Held (p : Population Entity) (cs : List Change) (index : UInt32) : Prop :=
  ∃ before later, cs = before ++ later ∧ (p.run before).Has index

/-- There is no member with the index, and a spawn makes that there is one. -/
def Creates (p : Population Entity) (index : UInt32) : Prop := ¬ p.Has index ∧ p.spawn.Has index

/-- No spawn creates a member with an index that a member has had before. -/
def SpawnsAfresh (p : Population Entity) (cs : List Change) : Prop :=
  ∀ before later index, cs = before ++ .spawn :: later →
    (p.run before).Creates index → ¬ p.Held before index

/-- Of two members that spawns create the later one has the larger index. -/
def SpawnsUpwards (p : Population Entity) (cs : List Change) : Prop :=
  ∀ before between later index index', cs = before ++ .spawn :: (between ++ .spawn :: later) →
    (p.run before).Creates index → (p.run (before ++ .spawn :: between)).Creates index' →
    index < index'

/-- A spawn finds that the member with the largest index is gone. -/
def RefillsLast (p : Population Entity) (cs : List Change) : Prop :=
  ∃ before later, cs = before ++ .spawn :: later ∧
    p.Held before 0xFFFFFFFF ∧ ¬ (p.run before).Has 0xFFFFFFFF

variable {p : Population Entity} {index index' : UInt32} {cs : List Change}

/-! ### One change -/

theorem run_append (p : Population Entity) (cs later : List Change) :
    p.run (cs ++ later) = (p.run cs).run later :=
  List.foldl_append

theorem run_spawn (p : Population Entity) (cs : List Change) :
    p.run (cs ++ [.spawn]) = (p.run cs).spawn :=
  List.foldl_concat ..

theorem nextIndex_le_change (p : Population Entity) (c : Change) :
    p.nextIndex ≤ (p.change c).nextIndex := by
  cases c with
  | spawn => exact le_indexAfter p.nextIndex
  | insert e => exact p.nextIndex_le_insert e
  | erase index => exact UInt32.le_refl _

/-- **Counters never go back.** -/
theorem nextIndex_le_run (p : Population Entity) (cs : List Change) :
    p.nextIndex ≤ (p.run cs).nextIndex := by
  induction cs generalizing p with
  | nil => exact UInt32.le_refl _
  | cons c cs ih => exact UInt32.le_trans (p.nextIndex_le_change c) (ih (p.change c))

theorem Counted.change (h : p.Counted) (c : Change) : (p.change c).Counted := by
  cases c with
  | spawn => exact h.spawn
  | insert e => exact h.insert e
  | erase index => exact h.erase

theorem Counted.run (h : p.Counted) (cs : List Change) : (p.run cs).Counted := by
  induction cs generalizing p with
  | nil => exact h
  | cons c cs ih => exact ih (h.change c)

theorem Counted.beneath_of_has (h : p.Counted) (hi : p.Has index) : Beneath index p.nextIndex := by
  obtain ⟨m, hm⟩ := Option.isSome_iff_exists.mp hi
  exact h index (Table.mem_keys_iff.mpr ⟨m, hm⟩)

/-- The counter is ahead of every index that a member has had. -/
theorem Counted.beneath_of_held (h : p.Counted) (hi : p.Held cs index) :
    Beneath index (p.run cs).nextIndex := by
  obtain ⟨before, later, rfl, hi⟩ := hi
  rw [run_append]
  exact ((h.run before).beneath_of_has hi).mono (nextIndex_le_run _ later)

/-! ### Spawning -/

/-- After a spawn the member that it handed out stands at the counter, and all others where they
stood. -/
theorem member?_spawn (p : Population Entity) (index : UInt32) : p.spawn.member? index =
    if p.nextIndex = index then some p.spawned else p.member? index := by
  cases hm : p.member? p.nextIndex with
  | some m =>
    have hmembers : p.spawn.members = p.members := by simp only [spawn, hm]
    rw [member?, hmembers, spawned, hm]
    split
    · next hi => exact hi ▸ hm
    · rfl
  | none =>
    have hmembers : p.spawn.members =
        ⟨Members.put p.nextIndex (.new p.species p.nextIndex) p.members.entries⟩ := by
      simp only [spawn, hm]
    rw [member?, hmembers, spawned, hm, Table.get?, Members.find_put]
    rfl

/-- A spawn creates nothing but a member at the counter, and that if there is none. -/
theorem creates_iff : p.Creates index ↔ index = p.nextIndex ∧ ¬ p.Has index := by
  rw [Creates, and_comm, and_congr_left_iff]
  intro hnew
  rw [Has, member?_spawn]
  split
  · next hi => simp [hi]
  · next hi => simp only [Ne.symm hi, iff_false]; exact hnew

/-- What a spawn creates is held from then on. -/
theorem held_of_creates (hi : (p.run cs).Creates index) (later : List Change) :
    p.Held (cs ++ .spawn :: later) index :=
  ⟨cs ++ [.spawn], later, List.append_cons .., by rw [run_spawn]; exact hi.2⟩

/-- Only the largest index is at the counter and has been held. -/
theorem Counted.eq_last (h : p.Counted) (hi : p.Held cs index)
    (hc : (p.run cs).Creates index) : index = 0xFFFFFFFF := by
  obtain ⟨rfl, -⟩ := creates_iff.mp hc
  exact (h.beneath_of_held hi).2.resolve_left (UInt32.lt_irrefl _)

/-- Where the largest index has been held, a spawn creates no other. -/
theorem Counted.nextIndex_eq_last (h : p.Counted) (hi : p.Held cs 0xFFFFFFFF) :
    (p.run cs).nextIndex = 0xFFFFFFFF :=
  UInt32.le_antisymm (UInt32.le_iff_toNat_le.mpr (Nat.le_of_lt_succ (UInt32.toNat_lt _)))
    (h.beneath_of_held hi).1

/-! ### Runs -/

theorem Counted.spawnsAfresh_iff (h : p.Counted) : p.SpawnsAfresh cs ↔ ¬ p.RefillsLast cs := by
  constructor
  · rintro hfresh ⟨before, later, rfl, hheld, hgone⟩
    have hcreates : (p.run before).Creates 0xFFFFFFFF :=
      creates_iff.mpr ⟨(h.nextIndex_eq_last hheld).symm, hgone⟩
    exact hfresh before later _ rfl hcreates hheld
  · rintro hnot before later index rfl hcreates hheld
    obtain rfl := h.eq_last hheld hcreates
    exact hnot ⟨before, later, rfl, hheld, hcreates.1⟩

theorem Counted.spawnsUpwards (h : p.Counted) (hnot : ¬ p.RefillsLast cs) :
    p.SpawnsUpwards cs := by
  rintro before between later index index' rfl hi hi'
  have hheld := held_of_creates hi between
  obtain ⟨hcounter, hgone⟩ := creates_iff.mp hi'
  rw [hcounter]
  refine (h.beneath_of_held hheld).2.resolve_right fun hlast => ?_
  -- the counter has stopped, so the second member takes the place of the first
  subst hlast
  rw [h.nextIndex_eq_last hheld] at hcounter
  subst hcounter
  exact hnot ⟨before ++ .spawn :: between, later, by simp, hheld, hgone⟩

/-- **Indices are given once**, whatever comes and goes: the counter never goes back, a spawn hands
out the member at the counter, it creates none only where the counter has stopped and the member is
there already, and what spawns create has new and growing indices as long as no spawn finds the
member with the largest index gone. -/
theorem indices_once (h : p.Counted) (cs : List Change) :
    (∀ later, (p.run cs).nextIndex ≤ (p.run (cs ++ later)).nextIndex) ∧
    (p.run cs).spawn.member? (p.run cs).nextIndex = some (p.run cs).spawned ∧
    ((∀ index, ¬ (p.run cs).Creates index) → (p.run cs).nextIndex = 0xFFFFFFFF ∧
      (p.run cs).member? 0xFFFFFFFF = some (p.run cs).spawned) ∧
    (p.SpawnsAfresh cs ∧ p.SpawnsUpwards cs ↔ ¬ p.RefillsLast cs) := by
  refine ⟨fun later => ?_, ?_, fun hnone => ?_, fun hspawns => h.spawnsAfresh_iff.mp hspawns.1,
    fun hnot => ⟨h.spawnsAfresh_iff.mpr hnot, h.spawnsUpwards hnot⟩⟩
  · rw [run_append]
    exact nextIndex_le_run _ later
  · rw [member?_spawn, if_pos rfl]
  · have hhas : (p.run cs).Has (p.run cs).nextIndex :=
      Decidable.not_not.mp fun hgone => hnone _ (creates_iff.mpr ⟨rfl, hgone⟩)
    have hlast : (p.run cs).nextIndex = 0xFFFFFFFF :=
      ((h.run cs).beneath_of_has hhas).2.resolve_left (UInt32.lt_irrefl _)
    obtain ⟨m, hm⟩ := Option.isSome_iff_exists.mp hhas
    refine ⟨hlast, ?_⟩
    rw [← hlast, spawned, hm, Option.getD_some]

theorem counted_counting (species : String) (nextIndex : UInt32) :
    (counting species nextIndex).Counted :=
  List.forall_mem_nil _

/-- Ants are spawned until there is no further index, and one of them goes. -/
theorem indices_once_ants :
    let p := counting "ant" 0xFFFFFFFD
    let cs := [Change.insert (.new "ant" 3), .spawn, .spawn, .erase 0xFFFFFFFD, .spawn]
    p.Counted ∧
    ((∀ later, (p.run cs).nextIndex ≤ (p.run (cs ++ later)).nextIndex) ∧
      (p.run cs).spawn.member? (p.run cs).nextIndex = some (p.run cs).spawned ∧
      ((p.run cs).nextIndex = 0xFFFFFFFF ∧
        (p.run cs).member? 0xFFFFFFFF = some (p.run cs).spawned) ∧
      (p.SpawnsAfresh cs ∧ p.SpawnsUpwards cs ↔ ¬ p.RefillsLast cs)) := by
  intro p cs
  have hall := indices_once (counted_counting "ant" 0xFFFFFFFD) cs
  refine ⟨counted_counting "ant" 0xFFFFFFFD, hall.1, hall.2.1, hall.2.2.1 fun index hcreates => ?_,
    hall.2.2.2⟩
  obtain ⟨rfl, hgone⟩ := creates_iff.mp hcreates
  exact hgone (by decide)

/-- The last ant there can be goes, and the next spawn gives its index again. -/
theorem not_spawnsAfresh_last :
    ¬ (new "ant").SpawnsAfresh
      [.insert (.new "ant" 0xFFFFFFFE), .spawn, .erase 0xFFFFFFFF, .spawn] ∧
    ¬ (new "ant").SpawnsUpwards
      [.insert (.new "ant" 0xFFFFFFFE), .spawn, .erase 0xFFFFFFFF, .spawn] := by
  constructor
  · intro hfresh
    exact hfresh [.insert (.new "ant" 0xFFFFFFFE), .spawn, .erase 0xFFFFFFFF] [] 0xFFFFFFFF rfl
      ⟨by decide, by decide⟩
      ⟨[.insert (.new "ant" 0xFFFFFFFE), .spawn], [.erase 0xFFFFFFFF], rfl, by decide⟩
  · intro hupwards
    exact absurd (hupwards [.insert (.new "ant" 0xFFFFFFFE)] [.erase 0xFFFFFFFF] [] 0xFFFFFFFF
      0xFFFFFFFF rfl ⟨by decide, by decide⟩ ⟨by decide, by decide⟩) (UInt32.lt_irrefl _)

end Rewind.Population
