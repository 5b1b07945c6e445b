import Rewind.Entity.Basic

/-! Why a tree cannot be written, and why a document cannot be read.

Errors are causes; their wording is in the `message` functions alone. A reading
error is *structural* when the document itself is at fault, and a matter of
*resolution* when the document is in order but names something that the target
context or tree does not have. -/

namespace Rewind

inductive EncodeError where
  /-- The format has no way to write this number. -/
  | nonFinite (x : Binary64)
  | dangling (a : Address)
  /-- The format broke off with a panic. -/
  | panicked (text : String)
deriving DecidableEq

def EncodeError.message : EncodeError → String
  | nonFinite x =>
    "json encoding failed: non-finite float " ++ x.nonFiniteText ++ " has no JSON representation"
  | dangling a => "entity reference " ++ a.text ++ " does not resolve in the source unit"
  | panicked text => text

/-- What is wrong with a document that was parsed. -/
inductive Flaw where
  | kindMismatch (kind : UInt8) (body : String)
  | indexOutOfRange (index : UInt32) (species : String) (nextIndex : UInt32)
  | foreignMember (member population : String)
deriving DecidableEq

def Flaw.message : Flaw → String
  | kindMismatch kind body =>
    "header kind " ++ toString kind.toNat ++ " does not match " ++ body ++ " body"
  | indexOutOfRange index species nextIndex =>
    "member index " ++ toString index.toNat ++ " out of range for population `" ++ species ++
      "` (next index " ++ toString nextIndex.toNat ++ ")"
  | foreignMember member population =>
    "member of species `" ++ member ++ "` stored in population `" ++ population ++ "`"

inductive DecodeError where
  /-- The bytes are not a document of the format. -/
  | malformed (format : String)
  | flawed (f : Flaw)
  | invalidMagic (magic : UInt32)
  | unsupportedVersion (version : UInt32)
  | futureVersion (version : UInt32)
  | unexpectedPayload (expected found : String)
  | raggedPath (species indices : Nat)
  | unknownShapeKind (tag : UInt8)
  | unresolved (a : Address)
  | unknownType (name context : String)
  | unknownSpecies (species context : String)
  | typeArity (name : String) (parametric : Bool)
deriving DecidableEq

/-- Eight upper-case hexadecimal digits. -/
def hex8 (n : UInt32) : String :=
  String.ofList <| (List.range 8).reverse.map fun i =>
    (Nat.digitChar (n.toNat / Nat.pow 16 i % 16)).toUpper

namespace DecodeError

/-- Bytes that no format could read have no message of their own. -/
def message? : DecodeError → Option String
  | malformed _ => none
  | flawed f => some ("wire decoding failed: " ++ f.message)
  | invalidMagic m => some ("invalid magic number: expected 0x57EB0001, got 0x" ++ hex8 m)
  | unsupportedVersion v =>
    some ("unsupported wire version: expected 1, got " ++ toString v.toNat)
  | futureVersion v =>
    some ("payload from future wire version " ++ toString v.toNat ++
      " (this build supports up to 1)")
  | unexpectedPayload expected found =>
    some ("expected " ++ expected ++ " payload, found " ++ found)
  | raggedPath species indices =>
    some ("reference path has " ++ toString species ++ " species but " ++ toString indices ++
      " indices")
  | unknownShapeKind tag => some ("unknown shape kind tag " ++ toString tag.toNat)
  | unresolved a =>
    some ("entity reference " ++ a.text ++ " cannot be resolved in the target unit")
  | unknownType name context =>
    some ("type `" ++ name ++ "` is not known to context `" ++ context ++ "`")
  | unknownSpecies species context =>
    some ("species `" ++ species ++ "` is not known to context `" ++ context ++ "`")
  | typeArity name parametric =>
    some ("type `" ++ name ++ "` parametric mismatch (registry says parametric = " ++
      (if parametric then "true" else "false") ++ ")")

/-- Whether the document itself is at fault. -/
def isStructural : DecodeError → Bool
  | malformed _ | flawed _ | invalidMagic _ | unsupportedVersion _ | futureVersion _
  | unexpectedPayload _ _ | raggedPath _ _ | unknownShapeKind _ => true
  | unresolved _ | unknownType _ _ | unknownSpecies _ _ | typeArity _ _ => false

end DecodeError
end Rewind
