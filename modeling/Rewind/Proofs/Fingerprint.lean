import Rewind.Sample
import Rewind.Simulation.Hash
import Rewind.Proofs.Tree.Alike

/-! What a fingerprint tells apart.

To mix a byte in can be undone, both for the byte and for the word before it, since the prime has
an inverse among the words of 64 bits. So a difference in one byte goes into the word, and whatever
is mixed in after does not take it out again (`StateHash.tells_one_byte`).

The fingerprint of a simulation is taken of what a format writes, and that shows more than agreement
looks at. Simulations whose trees agree have the same fingerprint where the trees are also arranged
alike (`Simulation.stateHash_of_agrees`). If they are not, the format is given different documents
wherever all is under its own species and indices. -/

namespace Rewind

/-! ### Mixing -/

/-- Strings of equal length that differ at one position. -/
def DifferInOne (a b : Bytes) : Prop :=
  a.length = b.length ∧ (a.zip b).countP (fun p => p.1 != p.2) = 1

instance (a b : Bytes) : Decidable (DifferInOne a b) := inferInstanceAs (Decidable (_ ∧ _))

theorem eq_of_countP_zip_eq_zero {a b : Bytes} (hlength : a.length = b.length)
    (h : (a.zip b).countP (fun p => p.1 != p.2) = 0) : a = b := by
  induction a generalizing b with
  | nil => exact (List.length_eq_zero_iff.mp hlength.symm).symm
  | cons x a ih =>
    obtain _ | ⟨y, b⟩ := b
    · cases hlength
    rw [List.zip_cons_cons, List.countP_cons, Nat.add_eq_zero_iff] at h
    have hxy : x = y := by simpa using h.2
    rw [hxy, ih (Nat.succ.inj hlength) h.1]

/-- Before and after the position the strings are the same. -/
theorem DifferInOne.split {a b : Bytes} (h : DifferInOne a b) :
    ∃ front x y rest, x ≠ y ∧ a = front ++ x :: rest ∧ b = front ++ y :: rest := by
  induction a generalizing b with
  | nil => exact absurd h.2 (by simp)
  | cons x a ih =>
    obtain _ | ⟨y, b⟩ := b
    · cases h.1
    obtain ⟨hlengths, hcount⟩ := h
    have hlength : a.length = b.length := Nat.succ.inj hlengths
    rw [List.zip_cons_cons, List.countP_cons] at hcount
    by_cases hxy : x = y
    · subst hxy
      obtain ⟨front, u, v, rest, huv, ha, hb⟩ := ih ⟨hlength, by simpa using hcount⟩
      exact ⟨x :: front, u, v, rest, huv, by rw [ha]; rfl, by rw [hb]; rfl⟩
    · have hzero : (a.zip b).countP (fun p => p.1 != p.2) = 0 := by simpa [hxy] using hcount
      rw [eq_of_countP_zip_eq_zero hlength hzero]
      exact ⟨[], x, y, b, hxy, rfl, rfl⟩

namespace StateHash
variable {h h' : StateHash} {a b : Bytes} {x y : UInt8}

/-- The inverse of the prime is found once and for all. -/
theorem mul_prime_injective {u v : UInt64} (huv : u * 0x100000001b3 = v * 0x100000001b3) :
    u = v := by
  have hinverse : (0x100000001b3 : UInt64) * 0xce965057aff6957b = 1 := by decide
  calc u = u * 0x100000001b3 * 0xce965057aff6957b := by
        rw [UInt64.mul_assoc, hinverse, UInt64.mul_one]
    _ = v * 0x100000001b3 * 0xce965057aff6957b := by rw [huv]
    _ = v := by
        rw [UInt64.mul_assoc, hinverse, UInt64.mul_one]

theorem xor_eq_of_mix_eq (heq : h.mix x = h'.mix y) :
    h.word ^^^ x.toUInt64 = h'.word ^^^ y.toUInt64 :=
  mul_prime_injective (StateHash.mk.inj heq)

/-- Words that differ differ still when the same byte was mixed in. -/
theorem eq_of_mix_eq (heq : h.mix x = h'.mix x) : h = h' := by
  have hword : h.word = h'.word := (UInt64.xor_left_inj _).mp (xor_eq_of_mix_eq heq)
  exact congrArg StateHash.mk hword

/-- Different bytes make different words of the same word. -/
theorem byte_eq_of_mix_eq (heq : h.mix x = h.mix y) : x = y := by
  have hbytes : x.toUInt64 = y.toUInt64 := (UInt64.xor_right_inj _).mp (xor_eq_of_mix_eq heq)
  exact UInt8.toUInt64_inj.mp hbytes

theorem write_append (h : StateHash) (a b : Bytes) : h.write (a ++ b) = (h.write a).write b :=
  List.foldl_append

/-- What is written after does not make up for a difference. -/
theorem eq_of_write_eq (heq : h.write a = h'.write a) : h = h' := by
  induction a generalizing h h' with
  | nil => exact heq
  | cons x a ih => exact eq_of_mix_eq (ih heq)

theorem write_ne (h : StateHash) (hab : DifferInOne a b) : h.write a ≠ h.write b := by
  obtain ⟨front, x, y, rest, hxy, rfl, rfl⟩ := hab.split
  rw [write_append, write_append]
  -- The words are undone from the end, down to the bytes that differ.
  exact fun heq => hxy (byte_eq_of_mix_eq (eq_of_write_eq heq))

end StateHash

/-! ### Fingerprints of simulations -/

namespace Simulation
variable {f : Format} {s s' : Simulation} {bs : Bytes}

theorem stateHash_of_encodes (h : f.encodeTree s.root s.cycle = .ok bs) :
    s.stateHash f = .ok ((StateHash.start.writeWord s.cycle).write bs) := by
  rw [stateHash, h]
  rfl

theorem stateHash_congr (hcycle : s.cycle = s'.cycle) (hroot : s.root = s'.root) :
    s.stateHash f = s'.stateHash f := by
  rw [stateHash, stateHash, hcycle, hroot]

end Simulation

/-- **A difference in one byte is never lost.** Strings may be written in parts. Two that differ in
one byte lead from the same word to different words, and so do two simulations at the same cycle
that a format writes with one byte different. -/
theorem StateHash.tells_one_byte :
    (∀ (h : StateHash) (a b : Bytes), (h.write a).write b = h.write (a ++ b)) ∧
    (∀ (h : StateHash) (a b : Bytes), DifferInOne a b → h.write a ≠ h.write b) ∧
    ∀ (f : Format) (s s' : Simulation) (a b : Bytes), s.cycle = s'.cycle →
      f.encodeTree s.root s.cycle = .ok a →
      f.encodeTree s'.root s'.cycle = .ok b → DifferInOne a b →
      ∃ h h', s.stateHash f = .ok h ∧ s'.stateHash f = .ok h' ∧ h ≠ h' := by
  refine ⟨fun h a b => (write_append h a b).symm, fun h a b => h.write_ne, ?_⟩
  intro f s s' a b hcycle ha hb hab
  refine ⟨_, _, Simulation.stateHash_of_encodes ha, Simulation.stateHash_of_encodes hb, ?_⟩
  rw [hcycle]
  exact write_ne _ hab

/-- **Simulations whose trees agree have the same fingerprint** in every format, and none in the
same cases, if the trees are arranged alike. If they are not, and what is in them is under its own
species and indices, formats are given different documents to write. -/
theorem Simulation.stateHash_of_agrees (f : Format) {s s' : Simulation}
    (hs : s.root.Everywhere Entity.Keyed) (hs' : s'.root.Everywhere Entity.Keyed)
    (hcycle : s.cycle = s'.cycle) (hagrees : s.root.agrees s'.root = true) :
    (s.root.ArrangedLike s'.root → s.stateHash f = s'.stateHash f) ∧
    (s.root.Everywhere Entity.Sorted → s'.root.Everywhere Entity.Sorted → ∀ cycle,
      s.root.ArrangedLike s'.root ↔
        Document.ofTree s.root cycle = Document.ofTree s'.root cycle) := by
  have heq : s.root.ArrangedLike s'.root → s.root = s'.root := Entity.eq_of_agrees hs hs' hagrees
  refine ⟨fun halike => stateHash_congr hcycle (heq halike),
    fun hsorted hsorted' cycle => ⟨fun halike => ?_, ?_⟩⟩
  · rw [heq halike]
  · intro hdocument
    have hform : s.root.form = s'.root.form := Body.entity.inj (Document.mk.inj hdocument).2
    rw [Entity.eq_of_form_eq hsorted hsorted' hform]
    exact .refl s'.root

/-- A simulation whose root has some attributes, set one after the other. -/
def Sample.forager (attributes : List (String × Value)) : Simulation :=
  { Simulation.new "forager" context with root := setAll .newRoot attributes }

theorem StateHash.tells_one_byte_forager :
    StateHash.start.write [1, 2, 3] ≠ StateHash.start.write [1, 7, 3] ∧
    ∃ h h', (Sample.forager [("energy", .int 1)]).stateHash .json = .ok h ∧
      (Sample.forager [("energy", .int 2)]).stateHash .json = .ok h' ∧ h ≠ h' := by
  obtain ⟨-, hne, htells⟩ := StateHash.tells_one_byte
  exact ⟨hne _ _ _ (by decide), htells .json _ _ _ _ rfl rfl rfl (by decide +kernel)⟩

/-- An attribute that was set twice is where it was set first. -/
theorem Simulation.stateHash_of_agrees_forager :
    let s := Sample.forager [("energy", .int 5), ("ticks", .int 2), ("energy", .int 1)]
    let s' := Sample.forager [("energy", .int 1), ("ticks", .int 2)]
    s.root.agrees s'.root = true ∧ s.stateHash .json = s'.stateHash .json := by
  intro s s'
  have hs : s.root.Shelved := (((Entity.Shelved.new _ _).set _).set _).set _
  have hs' : s'.root.Shelved := ((Entity.Shelved.new _ _).set _).set _
  have hroot : s.root = s'.root := rfl
  have hagrees : s.root.agrees s'.root = true := by decide
  obtain ⟨hhash, -⟩ := stateHash_of_agrees .json hs.keyed hs'.keyed rfl hagrees
  exact ⟨hagrees, hhash (hroot ▸ .refl s.root)⟩

/-- The same attributes that came in another order, and a zero with another sign, make other
fingerprints. -/
theorem Simulation.stateHash_ne_forager :
    (let s := Sample.forager [("energy", .int 1), ("ticks", .int 2)]
      let s' := Sample.forager [("ticks", .int 2), ("energy", .int 1)]
      s.cycle = s'.cycle ∧ s.root.agrees s'.root = true ∧
        s.stateHash .json = .ok ⟨0xd0dfc1dc4728e063⟩ ∧
        s'.stateHash .json = .ok ⟨0x6d53009871e36001⟩ ∧
        s.stateHash .json ≠ s'.stateHash .json) ∧
    (let s := Sample.forager [("weight", .float ⟨0⟩)]
      let s' := Sample.forager [("weight", .float ⟨0x8000000000000000⟩)]
      s.cycle = s'.cycle ∧ s.root.agrees s'.root = true ∧
        s.stateHash .json = .ok ⟨0xc0d68046c5aaa0bc⟩ ∧
        s'.stateHash .json = .ok ⟨0xbc78be953f67f973⟩ ∧
        s.stateHash .json ≠ s'.stateHash .json) := by
  decide +kernel

end Rewind
