/-! Type expressions: the declared types of containers and of type values.

A type is a name, or a name applied to a key type and a content type. Whether a
name exists and whether it takes parameters is a matter of the vocabulary
(`Vocabulary.lean`), not of the expression. -/

namespace Rewind

inductive TypeExpr where
  | simple (name : String)
  | compound (name : String) (key content : TypeExpr)
deriving DecidableEq, Inhabited

namespace TypeExpr

/-- The type of values nothing is known about. -/
def unknown : TypeExpr := simple "unknown"

/-- Lists are indexed by integers. -/
def listOf (content : TypeExpr) : TypeExpr := compound "list" (simple "int") content

def mapOf (key content : TypeExpr) : TypeExpr := compound "map" key content

def name : TypeExpr → String
  | simple n => n
  | compound n _ _ => n

def isCompound : TypeExpr → Bool
  | simple _ => false
  | compound _ _ _ => true

def key? : TypeExpr → Option TypeExpr
  | simple _ => none
  | compound _ k _ => some k

def content? : TypeExpr → Option TypeExpr
  | simple _ => none
  | compound _ _ c => some c

/-- Shown as `name` or `name<key,content>`. -/
def text : TypeExpr → String
  | simple n => n
  | compound n k c => n ++ "<" ++ k.text ++ "," ++ c.text ++ ">"

end TypeExpr
end Rewind
