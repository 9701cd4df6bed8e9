import FileGraph.Json.Reader
import Mathlib.Data.List.Forall2
import Mathlib.Data.List.Nodup

/-! # What readers can answer

Whatever the text is, a value that is read is one of those that its reader answers at all.

* `Yields`: a reader has answered a value.
* `count_of_yields`: counts lie below their limit.
* `list_of_yields`: the items of a list are read by the reader of the items.
* `record_of_yields`: the values of a record are read by its fields, one by each.
-/

namespace FileGraph.Json

/-- A reader answers a value at the beginning of some text. -/
def Yields {α : Type} (read : Reader α) (value : α) : Prop :=
  ∃ text rest, read text = .ok (value, rest)

theorem exists_of_bind_eq_ok {ε α β : Type} {first : Except ε α} {next : α → Except ε β} {b : β}
    (done : (first >>= next) = .ok b) : ∃ a, first = .ok a ∧ next a = .ok b := by
  cases first with
  | error e => cases done
  | ok a => exact ⟨a, rfl, done⟩

theorem count_of_yields {limit : Nat} {datum : Datum} (yields : Yields (countReader limit) datum) :
    ∃ n, n < limit ∧ datum = .count n := by
  obtain ⟨text, rest, done⟩ := yields
  unfold countReader at done
  dsimp only at done
  split at done
  next => cases done
  next =>
    split at done
    next =>
      obtain ⟨⟨written, behind⟩, -, done⟩ := exists_of_bind_eq_ok done
      dsimp only at done
      split at done
      next n _ =>
        split at done
        next small =>
          cases done
          exact ⟨n, small, rfl⟩
        next => cases done
      next => cases done
    next => cases done

/-! ## Lists -/

theorem yields_of_mem_items {α : Type} {read : Reader α} {fuel : Nat} {first : Bool}
    {text rest : List Char} {items : List α}
    (done : itemsReader read fuel first text = .ok (items, rest)) :
    ∀ item ∈ items, Yields read item := by
  induction fuel generalizing first text rest items with
  | zero => cases done
  | succ fuel ih =>
    obtain ⟨next, -, done⟩ := exists_of_bind_eq_ok done
    cases next with
    | none =>
      cases done
      exact List.forall_mem_nil _
    | some here =>
      obtain ⟨⟨item, behind⟩, read, done⟩ := exists_of_bind_eq_ok done
      obtain ⟨⟨later, stop⟩, others, done⟩ := exists_of_bind_eq_ok done
      cases done
      exact List.forall_mem_cons.2 ⟨⟨here, behind, read⟩, ih others⟩

theorem list_of_yields {read : Reader Datum} {datum : Datum} (yields : Yields (listReader read) datum) :
    ∃ items, datum = .list items ∧ ∀ item ∈ items, Yields read item := by
  obtain ⟨text, rest, done⟩ := yields
  unfold listReader at done
  split at done
  next =>
    obtain ⟨⟨items, behind⟩, body, done⟩ := exists_of_bind_eq_ok done
    obtain ⟨⟨items', stop⟩, read, body⟩ := exists_of_bind_eq_ok body
    obtain ⟨close, -, body⟩ := exists_of_bind_eq_ok body
    cases body
    cases done
    exact ⟨items, rfl, yields_of_mem_items read⟩
  next => cases done

/-! ## Records -/

/-- A value that a field is given: what its reader answers, or nothing if it may be left out. -/
def Field.Takes (field : Field) (value : Datum) : Prop :=
  Yields field.read value ∨ field.canBeAbsent = true ∧ value = .absent

theorem takes_of_tupleReader {fields : List Field} {first : Bool} {text rest : List Char}
    {values : List Datum} (done : tupleReader fields first text = .ok (values, rest)) :
    List.Forall₂ Field.Takes fields values := by
  induction fields generalizing first text rest values with
  | nil =>
    cases done
    exact .nil
  | cons field later ih =>
    obtain ⟨next, -, done⟩ := exists_of_bind_eq_ok done
    cases next with
    | none =>
      dsimp only at done
      split at done
      next absent =>
        obtain ⟨⟨others, stop⟩, read, done⟩ := exists_of_bind_eq_ok done
        cases done
        exact .cons (.inr ⟨absent, rfl⟩) (ih read)
      next => cases done
    | some here =>
      obtain ⟨⟨value, behind⟩, read, done⟩ := exists_of_bind_eq_ok done
      obtain ⟨⟨others, stop⟩, read', done⟩ := exists_of_bind_eq_ok done
      cases done
      exact .cons (.inl ⟨here, behind, read⟩) (ih read')

/-- Values under the names of the fields that read them. -/
def Known (fields : List Field) (known : List (String × Datum)) : Prop :=
  ∀ entry ∈ known, ∃ field ∈ fields, field.name = entry.1 ∧ Yields field.read entry.2

theorem known_of_fieldsReader {fields : List Field} {fuel : Nat} {first : Bool}
    {known result : List (String × Datum)} {text rest : List Char} (before : Known fields known)
    (done : fieldsReader fields fuel first known text = .ok (result, rest)) :
    Known fields result := by
  induction fuel generalizing first known text with
  | zero => cases done
  | succ fuel ih =>
    obtain ⟨next, -, done⟩ := exists_of_bind_eq_ok done
    cases next with
    | none =>
      cases done
      exact before
    | some key =>
      obtain ⟨key, behind⟩ := key
      dsimp only at done
      split at done
      next =>
        -- A key that is not known is passed over with its value.
        obtain ⟨passed, -, done⟩ := exists_of_bind_eq_ok done
        obtain ⟨passed', -, done⟩ := exists_of_bind_eq_ok done
        exact ih before done
      next field found =>
        split at done
        next => cases done
        next =>
          obtain ⟨here, -, done⟩ := exists_of_bind_eq_ok done
          obtain ⟨⟨value, stop⟩, read, done⟩ := exists_of_bind_eq_ok done
          refine ih (List.forall_mem_append.2 ⟨before, List.forall_mem_singleton.2 ?_⟩) done
          exact ⟨field, List.mem_of_find?_eq_some found, by simpa using List.find?_some found,
            here, stop, read⟩

theorem takes_of_complete {fields : List Field} {known : List (String × Datum)}
    (distinct : (fields.map (·.name)).Nodup) (given : Known fields known) {asked : List Field}
    (part : asked ⊆ fields) {values : List Datum} (done : complete known asked = .ok values) :
    List.Forall₂ Field.Takes asked values := by
  induction asked generalizing values with
  | nil =>
    cases done
    exact .nil
  | cons field later ih =>
    have inner : later ⊆ fields := fun f member => part (List.mem_cons_of_mem _ member)
    rw [complete] at done
    split at done
    next value found =>
      obtain ⟨_, same, done⟩ := exists_of_bind_eq_ok done
      cases same
      obtain ⟨others, completed, done⟩ := exists_of_bind_eq_ok done
      cases done
      obtain ⟨before, behind, rfl, -⟩ := List.lookup_eq_some_iff.1 found
      obtain ⟨own, member, name, yields⟩ :=
        given (field.name, value) (List.mem_append_right _ List.mem_cons_self)
      -- Of the fields only `field` has its name.
      obtain rfl := List.inj_on_of_nodup_map distinct member (part List.mem_cons_self) name
      exact .cons (.inl yields) (ih inner completed)
    next =>
      split at done
      next absent =>
        obtain ⟨_, same, done⟩ := exists_of_bind_eq_ok done
        cases same
        obtain ⟨others, completed, done⟩ := exists_of_bind_eq_ok done
        cases done
        exact .cons (.inr ⟨absent, rfl⟩) (ih inner completed)
      next => cases done

theorem record_of_yields {fields : List Field} (distinct : (fields.map (·.name)).Nodup)
    {datum : Datum} (yields : Yields (recordReader fields) datum) :
    ∃ values, datum = .record values ∧ List.Forall₂ Field.Takes fields values := by
  obtain ⟨text, rest, done⟩ := yields
  unfold recordReader at done
  split at done
  next =>
    obtain ⟨⟨values, behind⟩, read, done⟩ := exists_of_bind_eq_ok done
    obtain ⟨close, -, done⟩ := exists_of_bind_eq_ok done
    cases done
    exact ⟨values, rfl, takes_of_tupleReader read⟩
  next =>
    obtain ⟨⟨known, behind⟩, read, done⟩ := exists_of_bind_eq_ok done
    obtain ⟨values, completed, done⟩ := exists_of_bind_eq_ok done
    obtain ⟨close, -, done⟩ := exists_of_bind_eq_ok done
    cases done
    have given := known_of_fieldsReader (List.forall_mem_nil _) read
    exact ⟨values, rfl, takes_of_complete distinct given (List.Subset.refl fields) completed⟩
  next => cases done

theorem yields_of_document {read : Reader Datum} {text : String} {datum : Datum}
    (done : document read text = .ok datum) : Yields read datum := by
  obtain ⟨⟨value, rest⟩, read, done⟩ := exists_of_bind_eq_ok done
  dsimp only at done
  split at done
  next =>
    cases done
    exact ⟨_, _, read⟩
  next => cases done

end FileGraph.Json
