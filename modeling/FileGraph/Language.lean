/-! # Source languages

The closed set of languages a source file can be in, and what is fixed for each of them:

* `Language.tag` and `Language.ofTag`: the name under which a language is stored.
* `Language.ofExtension?`: the language that a file name ending announces.
* `Language.group`: the colour bucket of a node.
* `Language.probeEndings`: the endings tried for a path that is written without one.
* `Language.recognised`: whether import statements of the language are recognised.
-/

namespace FileGraph

/-- A source language; `unknown` stands for every text in no listed language. -/
inductive Language where
  | typeScript | javaScript | python | java | cSharp | cpp | c | go | rust
  | ruby | php | swift | kotlin | scala | dart | vue | svelte | unknown
  deriving DecidableEq, Repr, Inhabited

namespace Language

/-- All languages, in the order in which sets of languages are listed. -/
def all : List Language :=
  [.typeScript, .javaScript, .python, .java, .cSharp, .cpp, .c, .go, .rust,
    .ruby, .php, .swift, .kotlin, .scala, .dart, .vue, .svelte, .unknown]

def tag : Language → String
  | .typeScript => "typescript"
  | .javaScript => "javascript"
  | .python => "python"
  | .java => "java"
  | .cSharp => "csharp"
  | .cpp => "cpp"
  | .c => "c"
  | .go => "go"
  | .rust => "rust"
  | .ruby => "ruby"
  | .php => "php"
  | .swift => "swift"
  | .kotlin => "kotlin"
  | .scala => "scala"
  | .dart => "dart"
  | .vue => "vue"
  | .svelte => "svelte"
  | .unknown => "unknown"

def ofTag? (name : String) : Option Language :=
  all.find? (·.tag == name)

/-- The language stored under a name; any other name stands for `unknown`. -/
def ofTag (name : String) : Language :=
  (ofTag? name).getD .unknown

/-- The language that a file name ending (without its dot) announces. Files with any other
ending are not source files. -/
def ofExtension? : String → Option Language
  | "ts" | "tsx" => some .typeScript
  | "js" | "jsx" => some .javaScript
  | "py" => some .python
  | "java" => some .java
  | "cs" => some .cSharp
  | "cpp" | "hpp" => some .cpp
  | "c" | "h" => some .c
  | "go" => some .go
  | "rs" => some .rust
  | "rb" => some .ruby
  | "php" => some .php
  | "swift" => some .swift
  | "kt" => some .kotlin
  | "scala" => some .scala
  | "dart" => some .dart
  | "vue" => some .vue
  | "svelte" => some .svelte
  | _ => none

/-- The colour bucket of a language's nodes; each language has its own. -/
def group : Language → Nat
  | .unknown => 0
  | .typeScript => 1
  | .javaScript => 2
  | .python => 3
  | .java => 4
  | .cSharp => 5
  | .cpp => 6
  | .c => 7
  | .go => 8
  | .rust => 9
  | .ruby => 10
  | .php => 11
  | .swift => 12
  | .kotlin => 13
  | .scala => 14
  | .dart => 15
  | .vue => 16
  | .svelte => 17

/-- The endings tried, in this order, for a path that is written without one. -/
def probeEndings : Language → List String
  | .typeScript | .javaScript => [".ts", ".tsx", ".js", ".jsx"]
  | .python => [".py"]
  | .java => [".java"]
  | .cSharp => [".cs"]
  | .c | .cpp => [".h", ".hpp", ".c", ".cpp"]
  | .go => [".go"]
  | .rust => [".rs"]
  | .ruby => [".rb"]
  | .php => [".php"]
  | .swift => [".swift"]
  | .kotlin => [".kt"]
  | .scala => [".scala"]
  | .dart => [".dart"]
  | .vue => [".vue"]
  | .svelte => [".svelte"]
  | .unknown => []

/-- Whether import statements of the language are recognised. -/
def recognised : Language → Bool
  | .typeScript | .javaScript | .python | .java | .cSharp | .c | .cpp | .go | .rust => true
  | .ruby | .php | .swift | .kotlin | .scala | .dart | .vue | .svelte | .unknown => false

/-! ## All languages -/

theorem mem_all (l : Language) : l ∈ all := by cases l <;> decide

theorem ofTag?_tag (l : Language) : ofTag? l.tag = some l := by cases l <;> decide

/-- The languages of a collection, each once, in the order of `all`. -/
def listed (languages : List Language) : List Language :=
  all.filter (languages.contains ·)

theorem mem_listed {l : Language} {languages : List Language} :
    l ∈ listed languages ↔ l ∈ languages := by
  simp [listed, mem_all]

theorem listed_listed (languages : List Language) : listed (listed languages) = listed languages := by
  simp [listed, mem_all]

end Language

/-- A set of languages: each of them once, in the order of `Language.all`. -/
structure LanguageSet where
  toList : List Language
  listed_toList : Language.listed toList = toList
  deriving DecidableEq

namespace LanguageSet

def ofList (languages : List Language) : LanguageSet :=
  ⟨Language.listed languages, Language.listed_listed languages⟩

theorem ofList_toList (s : LanguageSet) : ofList s.toList = s := by
  cases s with
  | mk toList h => simp [ofList, h]

instance : Inhabited LanguageSet := ⟨ofList []⟩

end LanguageSet

end FileGraph
