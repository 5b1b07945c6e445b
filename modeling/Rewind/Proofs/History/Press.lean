import Rewind.Proofs.History.Reference

/-! A node and the jobs that compress it.

A job looks at its node twice, to read the raw bytes and to put the compressed ones in their place.
In between it has no hold on the node, and it does not look whether the node still is as it was.
Meanwhile others come along in any order (`Press.Event`): recorders hand the node in once more, jobs
start and end, and readers want the bytes.

What keeps jobs apart is the mark that is set when a node is handed in. A node is marked exactly as
long as there is a job, there is one job at most, and the node is raw until it ends (`Press.Sound`).
Whatever happens keeps this up (`Press.Sound.run`), so readers get what was recorded
(`Press.content_kept`). It also means that a job finds its node as it has read it, which is what the
history takes for granted (`Press.Sound.node_finish`). -/

namespace Rewind

/-- A job of the pool. -/
inductive Press.Job where
  /-- It waits for a worker. -/
  | queued (level : Nat)
  /-- It compresses what it has read, which is nothing if the node was compressed. -/
  | running (level : Nat) (read : Option Bytes)

namespace Press.Job

def level : Job → Nat
  | queued level => level
  | running level _ => level

/-- The job comes up with what these bytes make. -/
def Handles (bs : Bytes) : Job → Prop
  | queued _ => True
  | running _ read => read = some bs

end Press.Job

namespace Node

/-- The bytes of a node that is not compressed. -/
def raw? (n : Node) : Option Bytes :=
  match n.payload with
  | .raw bytes => some bytes
  | .zipped _ => none

/-- A node can be handed in unless it has been, or is compressed. -/
def isFree (n : Node) : Bool := n.pending.isNone && !n.isCompressed

/-- A job that ends puts its result in place, whatever is there by then. -/
def swap (result : Option Bytes) (n : Node) : Node :=
  match result with
  | some bytes => { n with payload := .zipped bytes, pending := none }
  | none => { n with pending := none }

end Node

/-- A node, and what goes on around it. -/
structure Press where
  node : Node
  jobs : List Press.Job
  /-- What readers have been given; `none` stands for bytes that could not be unpacked. -/
  answers : List (Option Bytes)

namespace Press

/-- What can happen. -/
inductive Event where
  /-- A recorder hands the node in. -/
  | submit (level : Nat)
  /-- A worker takes up a job, which reads the node. -/
  | start (job : Nat)
  /-- The compressor of a job is done or has failed. -/
  | finish (job : Nat) (succeeds : Bool)
  /-- A reader looks at the node, and has to look again if it is pending. -/
  | look

def new (cycle : UInt64) (bytes : Bytes) : Press :=
  { node := .new cycle bytes, jobs := [], answers := [] }

def submit (level : Nat) (p : Press) : Press :=
  { p with
    node := p.node.submit level
    jobs := if p.node.isFree then p.jobs ++ [.queued (clampLevel level)] else p.jobs }

def start (i : Nat) (p : Press) : Press :=
  match p.jobs[i]? with
  | some (.queued level) => { p with jobs := p.jobs.set i (.running level p.node.raw?) }
  | _ => p

def look (p : Press) : Press :=
  if p.node.pending.isSome then p else { p with answers := p.answers ++ [p.node.bytes?] }

section
variable (zip : Nat → Bytes → Bytes)

def finish (i : Nat) (succeeds : Bool) (p : Press) : Press :=
  match p.jobs[i]? with
  | some (.running level read) =>
    { p with
      node := p.node.swap (if succeeds then read.map (zip level) else none)
      jobs := p.jobs.eraseIdx i }
  | _ => p

def step (p : Press) : Event → Press
  | .submit level => p.submit level
  | .start i => p.start i
  | .finish i succeeds => p.finish zip i succeeds
  | .look => p.look

def run (p : Press) (es : List Event) : Press := es.foldl (step zip) p

end

/-! ### What is kept -/

/-- What the compressor makes can be unpacked, at every level that jobs are given. -/
def Unpacks (zip : Nat → Bytes → Bytes) : Prop :=
  ∀ level ≤ 9, ∀ bs, Zlib.unzip? (zip level bs) = some bs

/-- Nobody has the node in hand. -/
structure Idle (p : Press) : Prop where
  pending : p.node.pending = none
  jobs : p.jobs = []

/-- One job has the node in hand, which is raw. -/
structure Engaged (bs : Bytes) (p : Press) (job : Job) : Prop where
  pending : p.node.pending = some job.level
  jobs : p.jobs = [job]
  level : job.level ≤ 9
  handles : job.Handles bs
  raw : p.node.payload = .raw bs

/-- A node that was made of the bytes, with all that goes on around it. -/
structure Sound (zip : Nat → Bytes → Bytes) (cycle : UInt64) (bs : Bytes) (p : Press) : Prop where
  cycle : p.node.cycle = cycle
  stored : p.node.payload = .raw bs ∨ ∃ level ≤ 9, p.node.payload = .zipped (zip level bs)
  jobs : p.Idle ∨ ∃ job, p.Engaged bs job
  answers : ∀ a ∈ p.answers, a = some bs

variable {zip : Nat → Bytes → Bytes} {cycle : UInt64} {i : Nat} {bs : Bytes} {p : Press} {job : Job}

theorem isFree_iff : p.node.isFree = true ↔
    p.node.pending = none ∧ p.node.isCompressed = false := by
  simp [Node.isFree]

/-- Whoever hands in a node that is pending or compressed is turned away. -/
theorem submit_of_not_free (h : p.node.isFree = false) (level : Nat) : p.submit level = p := by
  obtain ⟨⟨cycle, payload, pending⟩, jobs, answers⟩ := p
  cases pending <;> cases payload <;> first | rfl | cases h

theorem submit_of_free (h : p.node.isFree = true) (level : Nat) : p.submit level =
    { p with
      node := { p.node with pending := some (clampLevel level) }
      jobs := p.jobs ++ [.queued (clampLevel level)] } := by
  obtain ⟨⟨cycle, payload, pending⟩, jobs, answers⟩ := p
  cases pending <;> cases payload <;> first | rfl | cases h

namespace Sound

theorem new : (Press.new cycle bs).Sound zip cycle bs :=
  ⟨rfl, .inl rfl, .inl ⟨rfl, rfl⟩, List.forall_mem_nil _⟩

theorem idle (h : p.Sound zip cycle bs) (hpending : p.node.pending = none) : p.Idle := by
  obtain hidle | ⟨job, hjob⟩ := h.jobs
  · exact hidle
  · cases hjob.pending.symm.trans hpending

/-- The job that is found is the only one. -/
theorem engaged (h : p.Sound zip cycle bs) (hi : p.jobs[i]? = some job) :
    i = 0 ∧ p.Engaged bs job := by
  obtain hidle | ⟨job', hjob⟩ := h.jobs
  · rw [hidle.jobs] at hi
    cases hi
  · rw [hjob.jobs, List.getElem?_singleton] at hi
    split at hi
    · next hzero =>
      cases hi
      exact ⟨hzero, hjob⟩
    · cases hi

/-- A reader who does not have to wait gets the bytes. -/
theorem bytes (h : p.Sound zip cycle bs) (hzip : Unpacks zip) (hpending : p.node.pending = none) :
    p.node.bytes? = some bs := by
  obtain ⟨⟨cycle, payload, pending⟩, jobs, answers⟩ := p
  obtain rfl : pending = none := hpending
  obtain hraw | ⟨level, hlevel, hzipped⟩ := h.stored
  · obtain rfl : payload = .raw bs := hraw
    rfl
  · obtain rfl : payload = .zipped (zip level bs) := hzipped
    exact Node.bytes?_zipped.trans (hzip level hlevel bs)

theorem submit (h : p.Sound zip cycle bs) (level : Nat) :
    (p.submit level).Sound zip cycle bs := by
  cases hfree : p.node.isFree with
  | false => rwa [submit_of_not_free hfree]
  | true =>
    obtain ⟨hpending, hraw⟩ := isFree_iff.mp hfree
    have hpayload : p.node.payload = .raw bs := by
      refine h.stored.resolve_right fun ⟨level, _, hzipped⟩ => ?_
      rw [Node.isCompressed, hzipped] at hraw
      cases hraw
    rw [submit_of_free hfree, (h.idle hpending).jobs]
    refine ⟨h.cycle, h.stored, .inr ⟨.queued (clampLevel level), ?_⟩, h.answers⟩
    exact ⟨rfl, rfl, Nat.min_le_right level 9, trivial, hpayload⟩

/-- The one job reads the bytes, for nobody has put others in their place. -/
theorem start (h : p.Sound zip cycle bs) (i : Nat) : (p.start i).Sound zip cycle bs := by
  unfold Press.start
  split
  · next level hi =>
    obtain ⟨rfl, hjob⟩ := h.engaged hi
    have hread : p.node.raw? = some bs := by rw [Node.raw?, hjob.raw]
    rw [hread, hjob.jobs]
    refine ⟨h.cycle, h.stored, .inr ⟨.running level (some bs), ?_⟩, h.answers⟩
    exact ⟨hjob.pending, rfl, hjob.level, rfl, hjob.raw⟩
  · exact h

theorem finish (h : p.Sound zip cycle bs) (i : Nat) (succeeds : Bool) :
    (p.finish zip i succeeds).Sound zip cycle bs := by
  unfold Press.finish
  split
  · next level read hi =>
    obtain ⟨rfl, hjob⟩ := h.engaged hi
    obtain rfl : read = some bs := hjob.handles
    rw [hjob.jobs]
    cases succeeds with
    | false => exact ⟨h.cycle, h.stored, .inl ⟨rfl, rfl⟩, h.answers⟩
    | true => exact ⟨h.cycle, .inr ⟨level, hjob.level, rfl⟩, .inl ⟨rfl, rfl⟩, h.answers⟩
  · exact h

theorem look (h : p.Sound zip cycle bs) (hzip : Unpacks zip) : p.look.Sound zip cycle bs := by
  unfold Press.look
  split
  · exact h
  · next hwait =>
    have hpending : p.node.pending = none := by simpa using hwait
    refine ⟨h.cycle, h.stored, .inl ⟨hpending, (h.idle hpending).jobs⟩, fun a ha => ?_⟩
    rcases List.mem_append.mp ha with ha | ha
    · exact h.answers a ha
    · rw [List.mem_singleton.mp ha]
      exact h.bytes hzip hpending

/-- One happening keeps the press sound. -/
theorem step (h : p.Sound zip cycle bs) (hzip : Unpacks zip) (e : Event) :
    (p.step zip e).Sound zip cycle bs := by
  cases e with
  | submit level => exact h.submit level
  | start i => exact h.start i
  | finish i succeeds => exact h.finish i succeeds
  | look => exact h.look hzip

theorem run (h : p.Sound zip cycle bs) (hzip : Unpacks zip) (es : List Event) :
    (p.run zip es).Sound zip cycle bs := by
  induction es generalizing p with
  | nil => exact h
  | cons e es ih => exact ih (h.step hzip e)

/-- Nobody has a compressed node in hand, so it stays as it is. -/
theorem payload_step (h : p.Sound zip cycle bs) (hc : p.node.isCompressed = true) (e : Event) :
    (p.step zip e).node.payload = p.node.payload := by
  cases e with
  | submit level =>
    have hfree : p.node.isFree = false := by simp [Node.isFree, hc]
    exact congrArg (·.node.payload) (submit_of_not_free hfree level)
  | start i =>
    show (p.start i).node.payload = _
    unfold Press.start
    split <;> rfl
  | finish i succeeds =>
    show (p.finish zip i succeeds).node.payload = _
    unfold Press.finish
    split
    · next hi =>
      rw [Node.isCompressed, (h.engaged hi).2.raw] at hc
      cases hc
    · rfl
  | look =>
    show p.look.node.payload = _
    unfold Press.look
    split <;> rfl

theorem payload_run (h : p.Sound zip cycle bs) (hzip : Unpacks zip)
    (hc : p.node.isCompressed = true) (es : List Event) :
    (p.run zip es).node.payload = p.node.payload := by
  induction es generalizing p with
  | nil => rfl
  | cons e es ih =>
    have hstep := h.payload_step hc e
    have hc' : (p.step zip e).node.isCompressed = true := by
      rw [Node.isCompressed, hstep]
      exact hc
    exact (ih (h.step hzip e) hc').trans hstep

/-- A job that ends does to the node what the history takes it to do. -/
theorem node_finish (h : p.Sound Zlib.zip cycle bs) {level : Nat} {read : Option Bytes}
    (hi : p.jobs[i]? = some (.running level read)) (succeeds : Bool) :
    (p.finish Zlib.zip i succeeds).node = Recorder.endJob succeeds p.node := by
  obtain ⟨-, hjob⟩ := h.engaged hi
  obtain rfl : read = some bs := hjob.handles
  have hpending : p.node.pending = some level := hjob.pending
  simp only [Press.finish, hi, Recorder.endJob, Node.settle, Node.finish, Node.swap, hpending,
    hjob.raw]
  cases succeeds <;> rfl

end Sound

/-- **Compression never changes what a node holds**, whoever hands the node in, whenever jobs start
and end, and whether or not they succeed. The node is pending exactly as long as there is a job, and
there is one at most. It is raw or compressed, and once it is compressed nothing changes it. To hand
it in once more does nothing, and readers get what was recorded. -/
theorem content_kept (hzip : Unpacks zip) (cycle : UInt64) (bs : Bytes) (es : List Event) :
    let p := (new cycle bs).run zip es
    p.node.cycle = cycle ∧
    (p.jobs.length ≤ 1 ∧ (p.node.pending.isSome = true ↔ p.jobs ≠ [])) ∧
    (p.node.payload = .raw bs ∨ ∃ level ≤ 9, p.node.payload = .zipped (zip level bs)) ∧
    (p.node.isCompressed = true → ∀ later, (p.run zip later).node.payload = p.node.payload) ∧
    (p.node.pending.isSome = true ∨ p.node.isCompressed = true →
      ∀ level, p.step zip (.submit level) = p) ∧
    (∀ a ∈ p.answers, a = some bs) ∧
    (p.node.pending = none →
      p.step zip .look = { p with answers := p.answers ++ [some bs] }) := by
  intro p
  have h : p.Sound zip cycle bs := Sound.new.run hzip es
  refine ⟨h.cycle, ?_, h.stored, h.payload_run hzip, fun htaken level => ?_, h.answers,
    fun hpending => ?_⟩
  · obtain hidle | ⟨job, hjob⟩ := h.jobs
    · simp [hidle.jobs, hidle.pending]
    · simp [hjob.jobs, hjob.pending]
  · refine submit_of_not_free (Bool.eq_false_iff.mpr fun hfree => ?_) level
    obtain ⟨hpending, hraw⟩ := isFree_iff.mp hfree
    simp [hpending, hraw] at htaken
  · show p.look = _
    rw [look, hpending, h.bytes hzip hpending]
    rfl

/-- Two recorders hand a node in and a reader comes in between. -/
theorem content_kept_twice :
    let p := (new 3 [7, 7, 7]).run Zlib.zip
      [.submit 42, .submit 1, .start 0, .look, .finish 0 true, .look, .submit 6]
    Unpacks Zlib.zip ∧ p.node.cycle = 3 ∧ p.node.payload = .zipped (Zlib.zip 9 [7, 7, 7]) ∧
    (∀ later, (p.run Zlib.zip later).node.payload = p.node.payload) ∧
    (∀ level, p.step Zlib.zip (.submit level) = p) ∧
    p.answers.length = 1 ∧ (∀ a ∈ p.answers, a = some [7, 7, 7]) := by
  intro p
  have hzip : Unpacks Zlib.zip := fun level _ => Zlib.unzip?_zip level
  obtain ⟨hcycle, -, -, hstays, hsubmit, hanswers, -⟩ := content_kept hzip 3 [7, 7, 7]
    [.submit 42, .submit 1, .start 0, .look, .finish 0 true, .look, .submit 6]
  exact ⟨hzip, hcycle, rfl, hstays rfl, hsubmit (.inr rfl), rfl, hanswers⟩

end Press
end Rewind
