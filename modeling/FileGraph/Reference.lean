/-! # References

A `Reference` is one written dependency of a text on another file: the target as it is written,
the `Kind` of statement that names it, and the line on which the target stands.
-/

namespace FileGraph

inductive Kind where
  | «import» | require | dynamicImport | «include» | using | «from» | «export»
  deriving DecidableEq, Repr, Inhabited

namespace Kind

def all : List Kind :=
  [.import, .require, .dynamicImport, .include, .using, .from, .export]

def tag : Kind → String
  | .import => "import"
  | .require => "require"
  | .dynamicImport => "dynamic-import"
  | .include => "include"
  | .using => "using"
  | .from => "from"
  | .export => "export"

def ofTag? (name : String) : Option Kind :=
  all.find? (·.tag == name)

theorem ofTag?_tag (k : Kind) : ofTag? k.tag = some k := by cases k <;> decide

end Kind

/-- One written dependency, before it is resolved. -/
structure Reference where
  target : String
  kind : Kind
  /-- The line of the target, counted from 1. -/
  line : Nat
  deriving DecidableEq, Repr

end FileGraph
