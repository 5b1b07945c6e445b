import Rewind.Proofs.History.Copies
import Rewind.Proofs.Tree.Decoded
import Rewind.Proofs.Tree.References

/-! Closed trees.

However a tree comes into a unit, from a snapshot, by a rollback, or by a value that was
read into it, every address in it leads to an entity in it (`Format.closed_of_decode`).
That costs nothing that could be had: a snapshot whose tree is closed is brought back, and
of any other the first address that leads nowhere is named. -/

namespace Rewind

variable {c : Context} {root : Entity} {cycle : UInt64}

theorem Format.read_binaryBytes (d : Document) : binary.read d.binaryBytes = .ok d :=
  read_of_read? (Document.ofBinaryBytes?_binaryBytes d)

namespace Document

theorem closed_of_closedTree {d : Document} (h : d.closedTree c = .ok (root, cycle)) :
    root.Closed := by
  rw [closedTree] at h
  obtain ⟨⟨tree, n⟩, _, h⟩ := bind_eq_ok.mp h
  obtain ⟨_, hcheck, h⟩ := bind_eq_ok.mp h
  cases h
  exact Entity.closed_iff.mpr (Entity.checkResolved_eq_ok.mp hcheck)

theorem closed_of_value {d : Document} {target : Entity} {v : Value}
    (h : d.value c target = .ok (v, root)) : root.Closed ∧ ∀ a, v.Holds a → root.Resolves a := by
  rw [value] at h
  obtain ⟨_, _, h⟩ := bind_eq_ok.mp h
  split at h
  · cases h
  · obtain ⟨⟨w, arrivals⟩, _, h⟩ := bind_eq_ok.mp h
    obtain ⟨placed, _, h⟩ := bind_eq_ok.mp h
    obtain ⟨_, hcheck, h⟩ := bind_eq_ok.mp h
    cases h
    have hres := Entity.checkResolved_eq_ok.mp hcheck
    exact ⟨Entity.closed_iff.mpr fun a ha => hres a (List.mem_append_left _ ha),
      fun a ha => hres a (List.mem_append_right _ (Value.mem_references.mpr ha))⟩

theorem closedTree_of_closed {d : Document} (h : d.tree c = .ok (root, cycle))
    (hroot : root.Closed) : d.closedTree c = .ok (root, cycle) := by
  rw [closedTree, h]
  show (root.checkResolved root.references >>= fun _ => _) = _
  rw [Entity.checkResolved_eq_ok.mpr (Entity.closed_iff.mp hroot)]
  rfl

theorem closedTree_of_error {d : Document} {e : DecodeError} (h : d.tree c = .error e) :
    d.closedTree c = .error e := by
  rw [closedTree, h]
  rfl

/-- Names the first address in reading order that leads nowhere. -/
theorem closedTree_of_not_closed {d : Document} (h : d.tree c = .ok (root, cycle))
    (hroot : ¬ root.Closed) :
    ∃ before a after, root.references = before ++ a :: after ∧
      (∀ b ∈ before, root.Resolves b) ∧ ¬ root.Resolves a ∧
        d.closedTree c = .error (.unresolved a) := by
  obtain ⟨before, a, after, heq, hbefore, ha, hcheck⟩ :=
    Entity.checkResolved_eq_error (mt Entity.closed_iff.mpr hroot)
  refine ⟨before, a, after, heq, hbefore, ha, ?_⟩
  rw [closedTree, h]
  show (root.checkResolved root.references >>= fun _ => _) = _
  rw [hcheck]
  rfl

end Document

theorem Format.decodeClosedTree_eq_ok {f : Format} {bs : Bytes}
    (h : f.decodeClosedTree c bs = .ok (root, cycle)) : root.Closed := by
  rw [decodeClosedTree] at h
  obtain ⟨d, _, h⟩ := bind_eq_ok.mp h
  exact Document.closed_of_closedTree h

/-- A rollback brings a closed tree back, or there is nothing to go back to and the tree
is left alone. -/
theorem Recorder.closed_of_restore {r : Recorder} {w w' : World} {restored : Restored}
    (h : r.restore w = .ok (w', restored)) :
    (∃ n, restored = .to n ∧ w'.root.Closed) ∨ (restored = .nothing ∧ w'.root = w.root) := by
  rw [restore] at h
  split at h
  · cases h
    exact .inr ⟨rfl, rfl⟩
  · split at h
    · cases h
      exact .inr ⟨rfl, rfl⟩
    · next n older _ =>
      split at h
      · cases h
      · next root htree =>
        cases h
        refine .inl ⟨n.cycle, rfl, ?_⟩
        rw [tree] at htree
        split at htree
        · cases htree
        · split at htree
          · cases htree
          · next hdecode =>
            cases htree
            exact Format.decodeClosedTree_eq_ok hdecode

/-- **What is restored or extended is closed**, and of a tree that is not, the first address
in reading order that leads nowhere is named. -/
theorem Format.closed_of_decode (f : Format) (c : Context) (bs : Bytes) :
    (∀ root cycle, f.decodeClosedTree c bs = .ok (root, cycle) → root.Closed) ∧
    (∀ target cycle, (f.decodeInto c target bs).2 = .ok cycle →
      (f.decodeInto c target bs).1.Closed) ∧
    (∀ target v root, f.decodeValue c target bs = .ok (v, root) →
      root.Closed ∧ ∀ a, v.Holds a → root.Resolves a) ∧
    (∀ (r : Recorder) w w' restored, r.restore w = .ok (w', restored) →
      (∃ n, restored = .to n ∧ w'.root.Closed) ∨ (restored = .nothing ∧ w'.root = w.root)) ∧
    (∀ root cycle, f.decodeTree c bs = .ok (root, cycle) →
      (root.Closed → f.decodeClosedTree c bs = .ok (root, cycle)) ∧
      (¬ root.Closed → ∃ before a after, root.references = before ++ a :: after ∧
        (∀ b ∈ before, root.Resolves b) ∧ ¬ root.Resolves a ∧
          f.decodeClosedTree c bs = .error (.unresolved a))) ∧
    (∀ e, f.decodeTree c bs = .error e → f.decodeClosedTree c bs = .error e) := by
  refine ⟨fun root cycle => decodeClosedTree_eq_ok, fun target cycle h => ?_,
    fun target v root h => ?_, fun r w w' restored => Recorder.closed_of_restore,
    fun root cycle h => ?_, fun e h => ?_⟩
  · rw [decodeInto] at h ⊢
    split at h
    · next hdecode => exact decodeClosedTree_eq_ok hdecode
    · cases h
  · rw [decodeValue] at h
    obtain ⟨d, _, h⟩ := bind_eq_ok.mp h
    exact Document.closed_of_value h
  · rw [decodeTree] at h
    obtain ⟨d, hread, h⟩ := bind_eq_ok.mp h
    have hclosed : f.decodeClosedTree c bs = d.closedTree c := by
      rw [decodeClosedTree, hread]
      rfl
    rw [hclosed]
    exact ⟨Document.closedTree_of_closed h, Document.closedTree_of_not_closed h⟩
  · rw [decodeTree] at h
    rw [decodeClosedTree]
    cases hread : f.read bs with
    | error e' =>
      rw [hread] at h
      exact h
    | ok d =>
      rw [hread] at h
      exact Document.closedTree_of_error h

namespace Sample

/-- Documents of the letter, of an ant in full, and of a link to an ant that is not there. -/
def letterDocument : Document := .ofEntity (letterForm 7) 3

def antDocument : Document := .ofValue (.full (some ⟨[], []⟩) (.mk 7 "ant" [] []))

def strayDocument : Document :=
  .ofEntity (.mk 0 "simulation" [("friend", .reference (ant 9).form)] []) 3

/-- A unit whose letter was recorded two cycles ago. -/
def lettered : World where
  context := context
  root := .newRoot
  cycle := 5
  history := some ⟨[.new 3 letterDocument.binaryBytes], none⟩

theorem decodeClosedTree_letter :
    Format.binary.decodeClosedTree context letterDocument.binaryBytes = .ok (letter 7, 3) := by
  rw [Format.decodeClosedTree, Format.read_binaryBytes]
  rfl

theorem decodeValue_ant : Format.binary.decodeValue context .newRoot antDocument.binaryBytes =
    .ok (.entity (ant 7), Entity.newRoot.withPopulation "ant" (·.insert (.new "ant" 7))) := by
  rw [Format.decodeValue, Format.read_binaryBytes]
  rfl

theorem decodeTree_stray : Format.binary.decodeTree context strayDocument.binaryBytes =
    .ok (Entity.newRoot.set "friend" (.entity (ant 9)), 3) := by
  rw [Format.decodeTree, Format.read_binaryBytes]
  rfl

theorem restore_lettered : (StandardFormat.binary.recorder none none).restore lettered =
    .ok ({ lettered with root := letter 7, cycle := 3, history := some ⟨[], none⟩ }, .to 3) := by
  have hbytes : (Node.new 3 letterDocument.binaryBytes).bytes? =
      some letterDocument.binaryBytes := rfl
  have htree : (StandardFormat.binary.recorder none none).tree context
      (.new 3 letterDocument.binaryBytes) = .ok (letter 7) := by
    simp only [Recorder.tree, hbytes, StandardFormat.recorder, StandardFormat.format,
      decodeClosedTree_letter]
  have htarget : History.target? ⟨[.new 3 letterDocument.binaryBytes], none⟩ 5 =
      some (.new 3 letterDocument.binaryBytes, []) := rfl
  simp only [Recorder.restore, lettered, htarget, htree]
  rfl

end Sample

theorem Format.closed_of_decode_letter :
    (Sample.letter 7).Closed ∧
    (binary.decodeInto Sample.context .newRoot Sample.letterDocument.binaryBytes).1.Closed ∧
    (Entity.newRoot.withPopulation "ant" (·.insert (.new "ant" 7))).Closed ∧
    (∃ n, Restored.to 3 = .to n ∧ (Sample.letter 7).Closed) ∧
    binary.decodeClosedTree Sample.context Sample.strayDocument.binaryBytes =
      .error (.unresolved (Sample.ant 9)) := by
  obtain ⟨hclosed, hinto, -, hrestore, -⟩ :=
    closed_of_decode binary Sample.context Sample.letterDocument.binaryBytes
  obtain ⟨-, -, hvalue, -⟩ := closed_of_decode binary Sample.context Sample.antDocument.binaryBytes
  obtain ⟨-, -, -, -, hstray, -⟩ :=
    closed_of_decode binary Sample.context Sample.strayDocument.binaryBytes
  refine ⟨hclosed _ _ Sample.decodeClosedTree_letter, hinto .newRoot 3 ?_,
    (hvalue _ _ _ Sample.decodeValue_ant).1, ?_, ?_⟩
  · rw [decodeInto, Sample.decodeClosedTree_letter]
  · exact (hrestore _ _ _ _ Sample.restore_lettered).resolve_right fun h => nomatch h.1
  · obtain ⟨before, a, after, heq, -, -, h⟩ := (hstray _ _ Sample.decodeTree_stray).2 (by decide)
    have hreferences : (Entity.newRoot.set "friend" (.entity (Sample.ant 9))).references =
      [Sample.ant 9] := rfl
    rw [hreferences] at heq
    obtain ⟨-, rfl, -⟩ := List.append_eq_singleton_iff.mp heq.symm |>.resolve_right (by simp)
    exact h

end Rewind
