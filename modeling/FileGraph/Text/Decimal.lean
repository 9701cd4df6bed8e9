/-! # Decimal digits

* `digits`: the decimal digits of a natural number, the most significant first, without leading
  zeros.
* `value`: the number that a row of digits stands for; `value_digits` says that it undoes `digits`.
-/

namespace FileGraph.Text.Decimal

def digitChar (d : Nat) : Char :=
  Char.ofNat (48 + d)

def digitValue (c : Char) : Nat :=
  c.toNat - 48

def isDigit (c : Char) : Bool :=
  48 ≤ c.toNat && c.toNat ≤ 57

def digits (n : Nat) : List Char :=
  if n < 10 then [digitChar n] else digits (n / 10) ++ [digitChar (n % 10)]
termination_by n
decreasing_by omega

def value (text : List Char) : Nat :=
  text.foldl (fun n c => n * 10 + digitValue c) 0

def render (n : Nat) : String :=
  String.ofList (digits n)

/-! ## Laws -/

theorem toNat_digitChar {d : Nat} (h : d < 10) : (digitChar d).toNat = 48 + d := by
  have hall : ∀ e ∈ List.range 10, (digitChar e).toNat = 48 + e := by decide
  exact hall d (List.mem_range.2 h)

theorem digitValue_digitChar {d : Nat} (h : d < 10) : digitValue (digitChar d) = d := by
  simp [digitValue, toNat_digitChar h]

theorem isDigit_digitChar {d : Nat} (h : d < 10) : isDigit (digitChar d) = true := by
  simp only [isDigit, toNat_digitChar h, Bool.and_eq_true, decide_eq_true_eq]
  omega

theorem isDigit_of_mem_digits {n : Nat} {c : Char} (h : c ∈ digits n) : isDigit c = true := by
  fun_induction digits n with
  | case1 n hn => exact (List.mem_singleton.1 h) ▸ isDigit_digitChar hn
  | case2 n hn ih =>
    rcases List.mem_append.1 h with h | h
    · exact ih h
    · exact (List.mem_singleton.1 h) ▸ isDigit_digitChar (Nat.mod_lt _ (by decide))

theorem digits_ne_nil (n : Nat) : digits n ≠ [] := by
  rw [digits]
  split <;> simp

theorem value_append_singleton (text : List Char) (c : Char) :
    value (text ++ [c]) = value text * 10 + digitValue c := by
  simp [value]

theorem value_digits (n : Nat) : value (digits n) = n := by
  fun_induction digits n with
  | case1 n hn => simp [value, digitValue_digitChar hn]
  | case2 n hn ih =>
    rw [value_append_singleton, ih, digitValue_digitChar (Nat.mod_lt _ (by decide))]
    omega

end FileGraph.Text.Decimal
