/-! # Lists of keyed values

A list of pairs in which each key stands once. Looking up is `List.lookup`; `Keyed.put` changes or
adds the value of a key and keeps the order of the others.
-/

namespace FileGraph.Text.Keyed

/-- A list with `value` under `key`: in the place of the value that stood there, else at the end. -/
def put {α : Type} (key : String) (value : α) : List (String × α) → List (String × α)
  | [] => [(key, value)]
  | (other, old) :: later =>
    if other = key then (key, value) :: later else (other, old) :: put key value later

theorem lookup_put {α : Type} (key : String) (value : α) (entries : List (String × α)) :
    (put key value entries).lookup key = some value := by
  fun_induction put key value entries with
  | case1 => simp
  | case2 => simp
  | case3 other old later h ih =>
    have apart : (key == other) = false := by simpa using Ne.symm h
    simp [ih, List.lookup_cons, apart]

theorem lookup_put_of_ne {α : Type} {key other : String} (value : α)
    (entries : List (String × α)) (h : other ≠ key) :
    (put key value entries).lookup other = entries.lookup other := by
  have apart : (other == key) = false := by simpa using h
  fun_induction put key value entries with
  | case1 => simp [List.lookup_cons, apart]
  | case2 old later => simp [List.lookup_cons, apart]
  | case3 third old later hk ih => simp [List.lookup_cons, ih]

end FileGraph.Text.Keyed
