import Rewind.Binary64.Nearest
import Rewind.Entity.Tree
import Rewind.Vocabulary

/-! Trees and a context to try things on. -/

namespace Rewind.Sample

/-- A context that knows ants, nests and eggs. -/
def context : Context :=
  let draft := ["ant", "nest", "egg"].foldl (fun d s => (d.registerSpecies s).1) Draft.builtins
  { name := "test", vocabulary := ⟨draft.names⟩ }

def ant (index : Nat) : Address := Address.root.child "ant" (UInt32.ofNat index)

def nest : Address := Address.root.child "nest" 0

/-- The float `num / den`, for small numbers and a power of two. -/
def ratio (num den : Nat) : Binary64 := (Binary64.ofRatio? false num den).getD ⟨0⟩

def setAll (e : Entity) (attributes : List (String × Value)) : Entity :=
  attributes.foldl (fun e a => e.set a.1 a.2) e

/-- Ant number `i` of a colony of `n`: at home in the nest, friends with the next ant,
and the first of them with an egg. -/
def colonyAnt (n i : Nat) (e : Entity) : Entity :=
  let memory : List (Value × Value) :=
    [(.str "seen", .int (Int64.ofNat i)), (.str "carried", .int 0)]
  let trail := Shape.at2d (ratio i 1) (ratio (4 * i + 1) 4)
  let e := setAll e
    [("energy", .float (ratio (3 * i) 2)),
      ("home", .entity nest),
      ("friend", .entity (ant ((i + 1) % n))),
      ("memory", .map (.simple "string") (.simple "int") false (Entries.ofList memory)),
      ("trail", .list (.simple "geometry") [.shape trail]),
      ("note", .nil)]
  if i = 0 then
    e.withPopulation "egg" fun p =>
      p.spawn.update 0 fun egg =>
        setAll egg [("mother", .entity (ant 0)), ("weight", .float (ratio 1 8))]
  else e

/-- A nest and `n` ants in a region. -/
def colony (n : Nat) : Entity :=
  let corner (x y : Nat) : Point := ⟨ratio x 1, ratio y 1, ⟨0⟩⟩
  let region : Shape :=
    { kind := .polygon
      points := [corner 0 0, corner 10 0, corner 10 10, corner 0 0]
      depth := some (ratio 5 2)
      owner := some .root }
  let root := setAll .newRoot
    [("name", .str "colony"),
      ("energy", .int 0),
      ("ants", .list (.simple "ant") ((List.range n).map fun i => .entity (ant i))),
      ("region", .shape region),
      ("kind", .type (.mapOf (.simple "string") (.simple "int")))]
  let root := root.withPopulation "nest" fun p =>
    p.spawn.update 0 fun home =>
      setAll home
        [("capacity", .int 50),
          ("open", .bool true),
          ("position", .shape { Shape.at2d (ratio 5 1) (ratio 5 1) with owner := some nest })]
  root.withPopulation "ant" fun p =>
    (List.range n).foldl (fun p i => p.spawn.update p.nextIndex (colonyAnt n i)) p

/-- Two ants that name each other as partners. -/
def pair : Entity :=
  Entity.newRoot.withPopulation "ant" fun p =>
    (p.spawn.update 0 (·.set "partner" (.entity (ant 1)))).spawn.update 1
      (·.set "partner" (.entity (ant 0)))

/-- Entities that own one another `n` levels deep, each with its depth noted on it. -/
def chainFrom (depth : Nat) (e : Entity) : Nat → Entity
  | 0 => e.set "depth" (.int (Int64.ofNat depth))
  | n + 1 =>
    (e.set "depth" (.int (Int64.ofNat depth))).withPopulation "ant" fun p =>
      p.insert (chainFrom (depth + 1) (.new "ant" 0) n)

def chain (n : Nat) : Entity := chainFrom 0 .newRoot n

end Rewind.Sample
