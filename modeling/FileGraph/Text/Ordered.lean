/-! # Ordered sets of texts

* `insertOrdered`: puts a text into its place in an ascending list, unless it is there.
* `orderedSet`: the texts of a list in ascending order, each once. Texts are compared character by
  character, by code point.
-/

namespace FileGraph.Text

/-- An ascending list with `text` in its place. -/
def insertOrdered (text : String) : List String → List String
  | [] => [text]
  | first :: later =>
    if text < first then text :: first :: later
    else if text = first then first :: later
    else first :: insertOrdered text later

/-- The texts of a list in ascending order, each once. -/
def orderedSet (texts : List String) : List String :=
  texts.foldl (fun set text => insertOrdered text set) []

theorem mem_insertOrdered {t text : String} {set : List String} :
    t ∈ insertOrdered text set ↔ t = text ∨ t ∈ set := by
  fun_induction insertOrdered text set with
  | case1 => simp
  | case2 => simp
  | case3 => simp
  | case4 first later h h' ih => simp only [List.mem_cons, ih]; grind

theorem mem_orderedSet {t : String} {texts : List String} : t ∈ orderedSet texts ↔ t ∈ texts := by
  have general : ∀ set : List String,
      t ∈ texts.foldl (fun set text => insertOrdered text set) set ↔ t ∈ texts ∨ t ∈ set := by
    induction texts with
    | nil => simp
    | cons text later ih =>
      intro set
      simp only [List.foldl_cons, ih, mem_insertOrdered, List.mem_cons]
      grind
  simpa [orderedSet] using general []

end FileGraph.Text
