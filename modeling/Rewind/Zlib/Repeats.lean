import Rewind.Text.Bytes

/-! Data as literals and copies.

A copy repeats bytes that came before, three of them at least. Places where three
bytes start that look alike are chained together, the latest first, and a chain is
followed for as long as the level has patience; place zero ends every chain. From
level four on a copy has to wait for one place, and if a longer one starts there its
own first byte goes out as a literal. Level one looks at a single place. -/

namespace Rewind.Zlib

inductive Element where
  | literal (b : UInt8)
  /-- So many bytes again that stand so far back. -/
  | copy (length distance : Nat)
deriving DecidableEq, Inhabited

def shortestCopy : Nat := 3

def longestCopy : Nat := 258

def windowSize : Nat := 32768

/-- The shortest copies are not worth their bits from here on. -/
def shortReach : Nat := 8192

def isTooFar (length distance : Nat) : Bool := length == shortestCopy && shortReach ≤ distance

def byteAt (data : Array UInt8) (i : Nat) : Nat := (data.getD i 0).toNat

/-- How far the bytes from `i` on agree with those from `j` on. -/
def agreement (data : Array UInt8) (i j : Nat) : Nat → Nat → Nat
  | 0, n => n
  | fuel + 1, n =>
    if j + n < data.size ∧ data.getD (i + n) 0 = data.getD (j + n) 0 then
      agreement data i j fuel (n + 1)
    else n

/-! ### Chains -/

def bucketCount : Nat := 32768

/-- Where the three bytes at a place are looked up. -/
def bucket (data : Array UInt8) (i : Nat) : Nat :=
  (byteAt data i * 1024 ^^^ byteAt data (i + 1) * 32 ^^^ byteAt data (i + 2)) % bucketCount

/-- For each place the one before it in its chain; `latest` are the heads. -/
def chainOnto (data : Array UInt8) : Nat → Array Nat → Array Nat → Array Nat
  | 0, _, chain => chain
  | n + 1, latest, chain =>
    let b := bucket data chain.size
    let before := latest.getD b 0
    chainOnto data n (latest.setIfInBounds b chain.size) (chain.push before)

def chainOf (data : Array UInt8) : Array Nat :=
  chainOnto data (data.size - 2) (Array.replicate bucketCount 0) #[]

/-- How many places are tried at each level. -/
def patience (level : Nat) : Nat := [0, 1, 6, 32, 16, 32, 128, 256, 512, 768].getD level 768

/-- The longest copy at a place that is longer than `best`, found along its chain.
Places are tried three at a time; one that could be better ends its three. -/
def longerAlong (data : Array UInt8) (chain : Array Nat) (here reach longest : Nat) :
    Nat → Nat → Nat → Nat × Nat → Nat × Nat
  | 0, _, _, best => best
  | fuel + 1, tries, place, best =>
    let place := chain.getD place 0
    if tries = 0 ∨ place = 0 ∨ reach < here - place then best
    else if byteAt data (place + best.1) = byteAt data (here + best.1) ∧
        byteAt data (place + best.1 - 1) = byteAt data (here + best.1 - 1) then
      let tries := (tries - 1) / 3 * 3
      let n := min longest (agreement data place here longestCopy 0)
      if n ≤ best.1 then longerAlong data chain here reach longest fuel tries place best
      else if n = longest then (n, here - place)
      else longerAlong data chain here reach longest fuel tries place (n, here - place)
    else longerAlong data chain here reach longest fuel (tries - 1) place best

/-- A copy at a place longer than `least`, or nothing. -/
def copyAt? (data : Array UInt8) (chain : Array Nat) (level here least : Nat) :
    Option (Nat × Nat) :=
  let longest := min longestCopy (data.size - here)
  let reach := min here (windowSize - longest)
  let places := if 32 ≤ least then patience level / 4 else patience level
  let tries := (places + 2) / 3 * 3
  let (length, distance) :=
    if longest ≤ least then (least, 0)
    else longerAlong data chain here reach longest tries tries here (least, 0)
  if distance = 0 ∨ isTooFar length distance then none else some (length, distance)

/-! ### Elements -/

/-- Copies as long as that are taken at once. -/
def longEnough : Nat := 128

/-- The elements from a place on, backwards in front of `done`. The copy that waits, if
there is one, starts one place before. -/
def elementsOnto (data : Array UInt8) (chain : Array Nat) (level : Nat) :
    Nat → Nat → Option (Nat × Nat) → List Element → List Element
  | 0, _, _, done => done
  | fuel + 1, here, waiting, done =>
    if data.size ≤ here then done
    else
      match waiting, copyAt? data chain level here ((waiting.map Prod.fst).getD 2) with
      | some (length, distance), none =>
        elementsOnto data chain level fuel (here + length - 1) none (.copy length distance :: done)
      | some _, some (length, distance) =>
        let done := .literal (data.getD (here - 1) 0) :: done
        if longEnough ≤ length then
          elementsOnto data chain level fuel (here + length) none (.copy length distance :: done)
        else elementsOnto data chain level fuel (here + 1) (some (length, distance)) done
      | none, none =>
        elementsOnto data chain level fuel (here + 1) none (.literal (data.getD here 0) :: done)
      | none, some (length, distance) =>
        if level ≤ 3 ∨ longEnough ≤ length then
          elementsOnto data chain level fuel (here + length) none (.copy length distance :: done)
        else elementsOnto data chain level fuel (here + 1) (some (length, distance)) done

/-! ### In a hurry -/

/-- So many bytes are looked at together; no copy goes on beyond them. -/
def chunkSize : Nat := 4096

/-- Where three bytes are looked up in a hurry. -/
def quickBucket (data : Array UInt8) (i : Nat) : Nat :=
  let n := byteAt data i + 256 * byteAt data (i + 1) + 65536 * byteAt data (i + 2)
  (n ^^^ n / 131072) % 4096

/-- The elements from a place on, backwards in front of `done`. `latest` is the last
place of every bucket. -/
def quickOnto (data : Array UInt8) :
    Nat → Nat → Array Nat → List Element → List Element
  | 0, _, _, done => done
  | fuel + 1, here, latest, done =>
    if data.size ≤ here then done
    else
      let start := here / chunkSize * chunkSize
      let stop := min data.size (start + chunkSize)
      let literal : Element := .literal (data.getD here 0)
      if stop < here + 4 then quickOnto data fuel (here + 1) latest (literal :: done)
      else
        let b := quickBucket data here
        let place := latest.getD b 0
        let latest := latest.setIfInBounds b here
        let n := agreement data place here longestCopy 0
        let distance := here - place
        let reach := min here (windowSize - (stop - here))
        if distance = 0 ∨ reach < distance ∨ n < shortestCopy ∨ isTooFar n distance then
          quickOnto data fuel (here + 1) latest (literal :: done)
        else
          let n := min n (stop - here)
          quickOnto data fuel (here + n) latest (.copy n distance :: done)

/-- Literals and copies that make up the data. -/
def elements (level : Nat) (data : Array UInt8) : List Element :=
  if level ≤ 1 then (quickOnto data data.size 0 (Array.replicate 4096 0) []).reverse
  else (elementsOnto data (chainOf data) level (2 * data.size) 0 none []).reverse

end Rewind.Zlib
