/-! Word lengths for a prefix code, from the weights of its symbols.

The two lightest groups of symbols are joined until one group is left; whatever is
joined moves one bit further down. Words that come out too long are cut to the limit.
Then there are too many words of that length, and for each that is too many a shorter
word makes room: it becomes two that are one bit longer, and the word that was too
many is one of them. The lighter a symbol, the longer its word. -/

namespace Rewind.Zlib.Huffman

/-- Symbols under one node of the tree: their weight, and how far down they are. -/
structure Group where
  weight : Nat
  depths : List Nat
deriving Inhabited

namespace Group

def join (a b : Group) : Group :=
  { weight := a.weight + b.weight, depths := (a.depths ++ b.depths).map (· + 1) }

/-- Puts a group behind all that are not heavier. -/
def insert (g : Group) : List Group → List Group
  | [] => [g]
  | h :: hs => if h.weight ≤ g.weight then h :: insert g hs else g :: h :: hs

/-- Joins the two lightest groups for as long as there are two. -/
def joinAll : Nat → List Group → List Nat
  | fuel + 1, a :: b :: rest => joinAll fuel (insert (a.join b) rest)
  | _, groups => groups.flatMap Group.depths

end Group

/-- How far down the symbols of some weights are, the lightest first. A symbol all by
itself takes one bit. -/
def depths (weights : List Nat) : List Nat :=
  match weights with
  | [_] => [1]
  | _ => Group.joinAll weights.length (weights.map fun w => ⟨w, [0]⟩)

/-! ### The limit -/

/-- How many words there are of each length from `limit` down; longer ones are cut. -/
def countsDown (limit : Nat) (depths : List Nat) : List Nat :=
  (List.range limit).map fun i =>
    if i = 0 then (depths.filter (limit ≤ ·)).length else depths.count (limit - i)

/-- The share of the words of length `limit` that are used up. -/
def used (counts : List Nat) : Nat :=
  counts.zipIdx.foldl (fun total c => total + c.1 * Nat.pow 2 c.2) 0

/-- Splits the next shorter word there is. -/
def split (longer : Nat) : List Nat → List Nat
  | [] => [longer]
  | 0 :: rest => longer :: split 0 rest
  | (c + 1) :: rest => (longer + 2) :: c :: rest

/-- Makes room for one word. -/
def makeRoom : List Nat → List Nat
  | [] => []
  | c :: rest => split (c - 1) rest

/-- Makes room for so many words, one after the other. -/
def makeRoomFor : Nat → List Nat → List Nat
  | 0, counts => counts
  | n + 1, counts => makeRoomFor n (makeRoom counts)

/-- The lengths of words, the longest first, none above `limit`. -/
def limited (limit : Nat) (depths : List Nat) : List Nat :=
  let counts := countsDown limit depths
  let counts := makeRoomFor (used counts - Nat.pow 2 limit) counts
  counts.zipIdx.flatMap fun c => List.replicate c.1 (limit - c.2)

/-! ### Lengths -/

/-- The word length of every symbol, zero where the weight is. -/
def lengths (limit : Nat) (weights : List Nat) : List Nat :=
  let weighty := weights.zipIdx.filter (·.1 ≠ 0)
  let sorted := weighty.mergeSort fun a b => a.1 ≤ b.1
  let found := (sorted.map Prod.snd).zip (limited limit (depths (sorted.map Prod.fst)))
  (found.foldl (fun (table : Array Nat) f => table.setIfInBounds f.1 f.2)
    (Array.replicate weights.length 0)).toList

end Rewind.Zlib.Huffman
