import Mathlib.Data.List.Forall2
import Rewind.History.Recorder
import Rewind.Proofs.Format
import Rewind.Proofs.Zlib

/-! Histories as stacks of plain copies.

A node stands for a copy of the tree that was recorded, and compression does not
change which one (`Node.bytes?_settle`). A history that `Keeps` a list of copies keeps
one more after a recording (`StandardFormat.record_keeps`), and reading its nodes comes to
recalling the copies (`StandardFormat.tree_of_stores`): a copy can be brought back unless its
format cannot read it, its context does not know it, or an address in it leads nowhere. -/

namespace Rewind

/-! ### Nodes -/

namespace Node
variable {n : Node}

@[simp] theorem cycle_finish (result : Option Bytes) : (n.finish result).cycle = n.cycle := by
  unfold finish
  split <;> rfl

@[simp] theorem cycle_settle : n.settle.cycle = n.cycle := by
  unfold settle
  split
  · exact cycle_finish _
  · rfl

@[simp] theorem cycle_submit (level : Nat) : (n.submit level).cycle = n.cycle := by
  unfold submit
  split <;> rfl

/-- A job does not change the bytes. -/
theorem bytes?_raw {cycle : UInt64} {bs : Bytes} {pending : Option Nat} :
    (Node.mk cycle (.raw bs) pending).bytes? = some bs := by
  cases pending with
  | none => rfl
  | some level => exact Zlib.unzip?_zip level bs

theorem bytes?_zipped {cycle : UInt64} {bs : Bytes} {pending : Option Nat} :
    (Node.mk cycle (.zipped bs) pending).bytes? = Zlib.unzip? bs := by
  cases pending <;> rfl

theorem bytes?_settle : n.settle.bytes? = n.bytes? := by
  obtain ⟨cycle, payload, pending⟩ := n
  cases payload with
  | zipped bs => rw [bytes?_zipped]; cases pending <;> exact bytes?_zipped
  | raw bs =>
    rw [bytes?_raw]
    cases pending with
    | none => exact bytes?_raw
    | some level => exact bytes?_zipped.trans (Zlib.unzip?_zip level bs)

/-- A job that fails leaves the bytes as they were. -/
theorem bytes?_finish_none : (n.finish none).bytes? = n.bytes? := by
  obtain ⟨cycle, payload, pending⟩ := n
  cases payload with
  | zipped bs => exact bytes?_zipped.trans bytes?_zipped.symm
  | raw bs => exact bytes?_raw.trans bytes?_raw.symm

end Node

namespace Recorder
variable (r : Recorder)

theorem cycle_node (cycle : UInt64) (bs : Bytes) : (r.node cycle bs).cycle = cycle := by
  unfold node
  split
  · exact Node.cycle_submit _
  · rfl

theorem bytes?_node (cycle : UInt64) (bs : Bytes) : (r.node cycle bs).bytes? = some bs := by
  unfold node
  split
  · exact Node.bytes?_raw
  · exact Node.bytes?_raw

end Recorder

/-! ### Recalling a copy -/

/-- Why recording or rolling back fails. -/
inductive Failure where
  /-- The format does not write the tree. -/
  | unwritable (e : EncodeError)
  /-- The format does not read what it wrote. -/
  | unreadable
  /-- The context does not know a name in the tree. -/
  | unknownName
  /-- An address in the tree leads nowhere. -/
  | dangling (a : Address)
deriving DecidableEq

def DecodeError.failure (e : DecodeError) : Failure :=
  match e with
  | .unresolved a => .dangling a
  | e => if e.isUnknownName then .unknownName else .unreadable

def HistoryError.failure : HistoryError → Failure
  | encode e => .unwritable e
  | decode e => e.failure
  | corrupt _ => .unreadable

theorem DecodeError.failure_of_isUnknownName {e : DecodeError} (h : e.isUnknownName = true) :
    e.failure = .unknownName := by
  cases e <;> first | rfl | cases h

/-- Brings a copy of a tree back in a context. -/
def Context.recall (c : Context) (readable : Entity → Bool) (root : Entity) :
    Except Failure Entity :=
  if readable root then
    if c.Knows root then
      match root.firstUnresolved? root.references with
      | some a => .error (.dangling a)
      | none => .ok root
    else .error .unknownName
  else .error .unreadable

/-! ### Nodes and copies -/

/-- Recorders of the standard formats. -/
def StandardFormat.recorder (f : StandardFormat) (level limit : Option Nat) : Recorder :=
  { format := f.format, level, maxDepth := limit }

variable {f : StandardFormat} {c : Context} {limit : Option Nat}

/-- The node holds the snapshot of a copy that was taken at a cycle. -/
structure Stores (f : StandardFormat) (n : Node) (copy : UInt64 × Entity) : Prop where
  cycle : n.cycle = copy.1
  bytes : ∃ bs, n.bytes? = some bs ∧ f.format.encodeTree copy.2 copy.1 = .ok bs
  tidy : copy.2.Tidy
  housed : copy.2.Housed

/-- A node stands for the same copy as another that has its cycle and its bytes. -/
theorem Stores.congr {m n : Node} {copy : UInt64 × Entity} (h : Stores f n copy)
    (hcycle : m.cycle = n.cycle) (hbytes : m.bytes? = n.bytes?) : Stores f m copy :=
  ⟨hcycle.trans h.cycle, hbytes ▸ h.bytes, h.tidy, h.housed⟩

theorem Document.closedTree_ofTree_of_knows {root : Entity} (cycle : UInt64) (ht : root.Tidy)
    (hh : root.Housed) (hc : c.Knows root) :
    (ofTree root cycle).closedTree c =
      match root.firstUnresolved? root.references with
      | some a => .error (.unresolved a)
      | none => .ok (root, cycle) := by
  rw [closedTree, (tree_ofTree cycle ht hh).1 hc]
  show (root.checkResolved root.references >>= fun _ => _) = _
  rw [Entity.checkResolved]
  cases root.firstUnresolved? root.references <;> rfl

theorem Document.closedTree_ofTree_of_not_knows {root : Entity} (cycle : UInt64) (ht : root.Tidy)
    (hh : root.Housed) (hc : ¬ c.Knows root) :
    ∃ e, (ofTree root cycle).closedTree c = .error e ∧ e.failure = .unknownName := by
  obtain ⟨e, he, hname⟩ := (tree_ofTree cycle ht hh).2 hc
  refine ⟨e, ?_, DecodeError.failure_of_isUnknownName hname⟩
  rw [closedTree, he]
  rfl

/-- A tree is written only in a form that was checked for what the format has no way
to write, so `encodeTree_of_writes` says how it is read. -/
theorem StandardFormat.read_encodeTree {root : Entity} {cycle : UInt64} {bs : Bytes}
    (hencode : f.format.encodeTree root cycle = .ok bs) :
    f.format.read bs =
      if f.reads root then .ok (.ofTree root cycle) else .error (.malformed f.format.name) := by
  cases hw : f.writes root with
  | false =>
    obtain ⟨e, he⟩ := encodeTree_of_not_writes hw cycle
    rw [hencode] at he
    cases he
  | true =>
    obtain ⟨bs', hencode', hread, hunread⟩ := encodeTree_of_writes hw cycle
    obtain rfl : bs' = bs := Except.ok.inj (hencode'.symm.trans hencode)
    cases hr : f.reads root with
    | true => exact hread hr
    | false => exact hunread hr

/-- Reading a node comes to recalling the copy that it stands for. -/
theorem StandardFormat.tree_of_stores {n : Node} {copy : UInt64 × Entity} (level limit : Option Nat)
    (h : Stores f n copy) :
    ((f.recorder level limit).tree c n).mapError HistoryError.failure =
      c.recall f.reads copy.2 := by
  obtain ⟨bs, hbytes, hencode⟩ := h.bytes
  have hread := read_encodeTree hencode
  rw [Recorder.tree, hbytes, recorder, Context.recall]
  cases hr : f.reads copy.2 with
  | false =>
    have hdecode : f.format.decodeClosedTree c bs = .error (.malformed f.format.name) := by
      rw [Format.decodeClosedTree, hread, hr]
      rfl
    simp only [hdecode]
    rfl
  | true =>
    have hdecode : f.format.decodeClosedTree c bs =
        (Document.ofTree copy.2 copy.1).closedTree c := by
      rw [Format.decodeClosedTree, hread, hr]
      rfl
    by_cases hc : c.Knows copy.2
    · rw [Document.closedTree_ofTree_of_knows _ h.tidy h.housed hc] at hdecode
      simp only [hdecode, if_pos hc]
      cases copy.2.firstUnresolved? copy.2.references <;> rfl
    · obtain ⟨e, he, hfailure⟩ :=
        Document.closedTree_ofTree_of_not_knows copy.1 h.tidy h.housed hc
      simp only [hdecode.trans he, if_neg hc]
      exact congrArg Except.error hfailure

/-! ### Stacks of copies -/

/-- The newest ones, if there is a limit; a limit of zero counts as one. -/
def newest {α : Type} : Option Nat → List α → List α
  | none, as => as
  | some n, as => as.take (max 1 n)

/-- Puts a copy on top of those taken before its cycle, and keeps the newest. -/
def pushCopy (limit : Option Nat) (copy : UInt64 × Entity) (copies : List (UInt64 × Entity)) :
    List (UInt64 × Entity) :=
  newest limit (copy :: copies.filter fun old => old.1 < copy.1)

/-- The copies that a unit can go back to: all but one of the present on top. -/
def pastCopies (current : UInt64) : List (UInt64 × Entity) → List (UInt64 × Entity)
  | [] => []
  | top :: below => if top.1 = current then below else top :: below

/-- In a list that descends, the elements of a size or more come first. -/
theorem dropWhile_eq_filter {α : Type} {size : α → UInt64} {as : List α} (bound : UInt64)
    (h : as.Pairwise fun a b => size b < size a) :
    as.dropWhile (fun a => bound ≤ size a) = as.filter fun a => size a < bound := by
  induction as with
  | nil => rfl
  | cons a as ih =>
    obtain ⟨ha, has⟩ := List.pairwise_cons.mp h
    by_cases hb : bound ≤ size a
    · rw [List.dropWhile_cons_of_pos (by simpa using hb), ih has,
        List.filter_cons_of_neg (by simpa using hb)]
    · have hall : as.filter (fun a => size a < bound) = as := by
        refine List.filter_eq_self.mpr fun b hmem => ?_
        have hlt : size b < bound := UInt64.lt_trans (ha b hmem) (UInt64.not_le.mp hb)
        exact decide_eq_true hlt
      rw [List.dropWhile_cons_of_neg (by simpa using hb),
        List.filter_cons_of_pos (by simpa using hb), hall]

theorem forall₂_dropWhile {α β : Type} {R : α → β → Prop} {p : α → Bool} {q : β → Bool}
    {as : List α} {bs : List β} (hpq : ∀ a b, R a b → p a = q b) (h : List.Forall₂ R as bs) :
    List.Forall₂ R (as.dropWhile p) (bs.dropWhile q) := by
  induction h with
  | nil => exact .nil
  | @cons a b as bs hab has ih =>
    rw [List.dropWhile_cons, List.dropWhile_cons, hpq a b hab]
    split
    · exact ih
    · exact .cons hab has

theorem forall₂_modify {α β : Type} {R : α → β → Prop} {g : α → α} {as : List α} {bs : List β}
    (hg : ∀ a b, R a b → R (g a) b) (h : List.Forall₂ R as bs) (i : Nat) :
    List.Forall₂ R (as.modify i g) bs := by
  induction h generalizing i with
  | nil => cases i <;> exact .nil
  | @cons a b as bs hab has ih =>
    cases i with
    | zero => exact .cons (hg a b hab) has
    | succ i => exact .cons hab (ih i)

/-- The nodes of the history stand for the copies, one for one and the newest first. -/
structure History.Keeps (f : StandardFormat) (limit : Option Nat) (h : History)
    (copies : List (UInt64 × Entity)) : Prop where
  stored : List.Forall₂ (Stores f) h.nodes copies
  descending : copies.Pairwise fun new old => old.1 < new.1
  limit : h.maxDepth = limit.map (max 1)

namespace History.Keeps
variable {h : History} {n : Node} {copy : UInt64 × Entity} {copies : List (UInt64 × Entity)}

theorem new : (History.new limit).Keeps f limit [] := ⟨.nil, .nil, rfl⟩

theorem cycles (hk : h.Keeps f limit copies) : h.cycles = (copies.map Prod.fst).reverse := by
  have hmap : h.nodes.map Node.cycle = copies.map Prod.fst := by
    rw [← List.forall₂_eq_eq_eq, List.forall₂_map_left_iff, List.forall₂_map_right_iff]
    exact hk.stored.imp fun _ _ hs => hs.cycle
  rw [History.cycles, hmap]

/-- A job that ends changes nothing. -/
theorem modify {g : Node → Node} (hk : h.Keeps f limit copies)
    (hg : ∀ n copy, Stores f n copy → Stores f (g n) copy) (i : Nat) :
    History.Keeps f limit { h with nodes := h.nodes.modify i g } copies :=
  { hk with stored := forall₂_modify hg hk.stored i }

theorem isEmpty (hk : h.Keeps f limit copies) : h.isEmpty = copies.isEmpty := by
  rw [History.isEmpty]
  obtain ⟨nodes, maxDepth⟩ := h
  cases hk.stored <;> rfl

theorem push (hk : h.Keeps f limit copies) (hs : Stores f n copy) :
    (h.push n).Keeps f limit (pushCopy limit copy copies) := by
  have hstored : List.Forall₂ (Stores f) (n :: h.nodes.dropWhile fun m => n.cycle ≤ m.cycle)
      (copy :: copies.filter fun old => old.1 < copy.1) := by
    rw [← dropWhile_eq_filter copy.1 hk.descending]
    refine .cons hs (forall₂_dropWhile (fun m old hm => ?_) hk.stored)
    rw [hs.cycle, hm.cycle]
  have hdescending : (copy :: copies.filter fun old => old.1 < copy.1).Pairwise
      fun new old => old.1 < new.1 := by
    refine List.pairwise_cons.mpr ⟨fun old hold => ?_, hk.descending.filter _⟩
    exact of_decide_eq_true (List.mem_filter.mp hold).2
  refine ⟨?_, ?_, hk.limit⟩
  · rw [History.push, hk.limit]
    cases limit with
    | none => exact hstored
    | some l => exact List.forall₂_take _ hstored
  · cases limit with
    | none => exact hdescending
    | some l => exact hdescending.sublist (List.take_sublist _ _)

/-- With no copy of the past there is nothing to go back to. -/
theorem target?_eq_none {current : UInt64} (hk : h.Keeps f limit copies)
    (hpast : pastCopies current copies = []) : h.target? current = none := by
  obtain ⟨nodes, maxDepth⟩ := h
  obtain ⟨hstored, -, -⟩ := hk
  cases hstored with
  | nil => rfl
  | cons hs hrest =>
    rw [pastCopies] at hpast
    split at hpast
    · next hcycle =>
      subst hpast
      cases hrest
      simp [target?, hs.cycle, hcycle]
    · cases hpast

/-- What is gone back to otherwise stands for the newest copy of the past, and what is
left for the copies below that. -/
theorem target?_eq_some {current : UInt64} {older : List (UInt64 × Entity)}
    (hk : h.Keeps f limit copies) (hpast : pastCopies current copies = copy :: older) :
    ∃ n ns, h.target? current = some (n, ns) ∧ Stores f n copy ∧
      History.Keeps f limit { h with nodes := ns } older := by
  obtain ⟨nodes, maxDepth⟩ := h
  obtain ⟨hstored, hdescending, hlimit⟩ := hk
  cases hstored with
  | nil => cases hpast
  | @cons n top ns below hs hrest =>
    obtain ⟨-, hbelow⟩ := List.pairwise_cons.mp hdescending
    rw [pastCopies] at hpast
    split at hpast
    · next hcycle =>
      subst hpast
      cases hrest with
      | @cons m _ ms _ hm hms =>
        refine ⟨m, ms, ?_, hm, hms, (List.pairwise_cons.mp hbelow).2, hlimit⟩
        simp [target?, hs.cycle, hcycle]
    · next hcycle =>
      cases hpast
      refine ⟨n, ns, ?_, hs, hrest, hbelow, hlimit⟩
      simp [target?, hs.cycle, hcycle]

end History.Keeps

/-! ### Recording and rolling back -/

/-- The history of a unit keeps the copies, where none counts as a new one. -/
def World.Keeps (f : StandardFormat) (limit : Option Nat) (w : World)
    (copies : List (UInt64 × Entity)) : Prop :=
  (w.history.getD (.new limit)).Keeps f limit copies

theorem World.Keeps.canStepBack {w : World} {copies : List (UInt64 × Entity)}
    (hk : w.Keeps f limit copies) : w.canStepBack = !copies.isEmpty := by
  rw [Keeps] at hk
  rw [World.canStepBack, ← hk.isEmpty]
  cases w.history <;> rfl

namespace StandardFormat
variable {w : World} {copies older : List (UInt64 × Entity)} {copy : UInt64 × Entity}

/-- A recording puts the present on top. -/
theorem record_keeps {bs : Bytes} (level : Option Nat) (hk : w.Keeps f limit copies)
    (ht : w.root.Tidy)
    (hh : w.root.Housed) (hencode : f.format.encodeTree w.root w.cycle = .ok bs) :
    ∃ h, (f.recorder level limit).record w = .ok { w with history := some h } ∧
      h.Keeps f limit (pushCopy limit (w.cycle, w.root) copies) := by
  refine ⟨(w.history.getD (.new limit)).push ((f.recorder level limit).node w.cycle bs), ?_, ?_⟩
  · simp only [Recorder.record, recorder, hencode]
  · exact hk.push ⟨Recorder.cycle_node _ _ _, ⟨bs, Recorder.bytes?_node _ _ _, hencode⟩, ht, hh⟩

theorem restore_nothing (level : Option Nat) (hk : w.Keeps f limit copies)
    (hpast : pastCopies w.cycle copies = []) :
    ∃ h, (f.recorder level limit).restore w = .ok ({ w with history := h }, .nothing) ∧
      World.Keeps f limit { w with history := h } [] := by
  obtain ⟨context, root, cycle, history⟩ := w
  cases history with
  | none => exact ⟨none, rfl, .new⟩
  | some h =>
    have htarget : h.target? cycle = none := History.Keeps.target?_eq_none hk hpast
    refine ⟨some h.clear, ?_, .nil, .nil, hk.limit⟩
    simp only [Recorder.restore, htarget]

/-- A rollback goes as recalling the newest copy of the past goes. -/
theorem restore_past (level : Option Nat) (hk : w.Keeps f limit copies)
    (hpast : pastCopies w.cycle copies = copy :: older) :
    match w.context.recall f.reads copy.2 with
    | .error e => ∃ e', (f.recorder level limit).restore w = .error e' ∧ e'.failure = e
    | .ok root => ∃ h, (f.recorder level limit).restore w =
        .ok ({ w with root, cycle := copy.1, history := some h }, .to copy.1) ∧
        h.Keeps f limit older := by
  obtain ⟨context, root, cycle, history⟩ := w
  cases history with
  | none =>
    cases List.forall₂_nil_left_iff.mp hk.stored
    cases hpast
  | some h =>
    have hk : h.Keeps f limit copies := hk
    obtain ⟨n, ns, htarget, hs, hns⟩ := hk.target?_eq_some hpast
    have htree := tree_of_stores (c := context) level limit hs
    simp only [Recorder.restore, htarget, ← htree]
    cases (f.recorder level limit).tree context n with
    | error e => exact ⟨e, rfl, rfl⟩
    | ok root =>
      refine ⟨{ h with nodes := ns }, ?_, hns⟩
      rw [hs.cycle]

end StandardFormat
end Rewind
