import FileGraph.Json.Problem

/-! # Reading JSON strings

Both readers start behind the opening quotation mark and end behind the closing one.

* `stringBody`: the text that a string stands for.
* `skipString`: passes over a string whose text is not asked for; escapes of code units that stand
  for no character are let pass.
-/

namespace FileGraph.Json

def hexValue? (c : Char) : Option Nat :=
  let n := c.toNat
  if 48 ≤ n ∧ n ≤ 57 then some (n - 48)
  else if 97 ≤ n ∧ n ≤ 102 then some (n - 87)
  else if 65 ≤ n ∧ n ≤ 70 then some (n - 55)
  else none

def byteCount (text : List Char) : Nat :=
  text.foldl (fun count c => count + c.utf8Size) 0

/-- Four hexadecimal digits: the code unit they stand for. A text of fewer than four bytes ends too
early. -/
def codeUnit : Reader Nat
  | a :: b :: c :: d :: rest =>
    match hexValue? a, hexValue? b, hexValue? c, hexValue? d with
    | some a, some b, some c, some d => .ok (((a * 16 + b) * 16 + c) * 16 + d, rest)
    | _, _, _, _ => .error .malformed
  | text => .error (if byteCount text < 4 then .truncated else .malformed)

/-- The character of an escape by a single letter. -/
def letterEscape? (c : Char) : Option Char :=
  if c = '"' then some '"'
  else if c = '\\' then some '\\'
  else if c = '/' then some '/'
  else if c = 'b' then some '\x08'
  else if c = 'f' then some '\x0c'
  else if c = 'n' then some '\n'
  else if c = 'r' then some '\r'
  else if c = 't' then some '\t'
  else none

/-- Whether a code unit is the first half of a pair. -/
def isLeading (unit : Nat) : Bool :=
  0xD800 ≤ unit && unit ≤ 0xDBFF

/-- Whether a code unit is the second half of a pair. -/
def isTrailing (unit : Nat) : Bool :=
  0xDC00 ≤ unit && unit ≤ 0xDFFF

/-- The second half of a pair of code units, with the backslash and the `u` in front of it. -/
def trailingUnit : Reader Nat
  | [] => .error .truncated
  | '\\' :: [] => .error .truncated
  | '\\' :: 'u' :: rest => do
    let (unit, rest) ← codeUnit rest
    if isTrailing unit then .ok (unit, rest) else .error .malformed
  | _ => .error .malformed

/-- The character that an escape stands for; the reader starts behind the backslash. -/
def escape : Reader Char
  | [] => .error .truncated
  | 'u' :: rest => do
    let (unit, rest) ← codeUnit rest
    if isTrailing unit then .error .malformed
    else if isLeading unit then
      let (second, rest) ← trailingUnit rest
      .ok (Char.ofNat (0x10000 + (unit - 0xD800) * 0x400 + (second - 0xDC00)), rest)
    else .ok (Char.ofNat unit, rest)
  | c :: rest =>
    match letterEscape? c with
    | some c => .ok (c, rest)
    | none => .error .malformed

theorem codeUnit_length {text rest : List Char} {unit : Nat} (h : codeUnit text = .ok (unit, rest)) :
    rest.length < text.length := by
  unfold codeUnit at h
  split at h
  · split at h
    · simp only [Except.ok.injEq, Prod.mk.injEq] at h
      obtain ⟨_, rfl⟩ := h
      simp only [List.length_cons]
      omega
    · cases h
  · cases h

theorem trailingUnit_length {text rest : List Char} {unit : Nat}
    (h : trailingUnit text = .ok (unit, rest)) : rest.length < text.length := by
  unfold trailingUnit at h
  split at h
  · cases h
  · cases h
  · rename_i later
    cases hu : codeUnit later with
    | error => simp [hu, bind, Except.bind] at h
    | ok read =>
      have := codeUnit_length hu
      simp only [hu, bind, Except.bind] at h
      split at h
      · simp only [Except.ok.injEq, Prod.mk.injEq] at h
        obtain ⟨_, rfl⟩ := h
        simp only [List.length_cons]
        omega
      · cases h
  · cases h

theorem escape_length {text rest : List Char} {c : Char} (h : escape text = .ok (c, rest)) :
    rest.length < text.length := by
  unfold escape at h
  split at h
  · cases h
  · rename_i later
    cases hu : codeUnit later with
    | error => simp [hu, bind, Except.bind] at h
    | ok read =>
      have := codeUnit_length hu
      simp only [hu, bind, Except.bind] at h
      split at h
      · cases h
      · split at h
        · cases ht : trailingUnit read.2 with
          | error => simp [ht] at h
          | ok second =>
            have := trailingUnit_length ht
            simp only [ht, Except.ok.injEq, Prod.mk.injEq] at h
            obtain ⟨_, rfl⟩ := h
            simp only [List.length_cons]
            omega
        · simp only [Except.ok.injEq, Prod.mk.injEq] at h
          obtain ⟨_, rfl⟩ := h
          simp only [List.length_cons]
          omega
  · split at h
    · simp only [Except.ok.injEq, Prod.mk.injEq] at h
      obtain ⟨_, rfl⟩ := h
      simp
    · cases h

/-- The characters of a string up to its closing quotation mark. Control characters must be
escaped. -/
def stringBody : Reader (List Char)
  | [] => .error .truncated
  | c :: rest =>
    if c = '"' then .ok ([], rest)
    else if c = '\\' then
      match h : escape rest with
      | .error problem => .error problem
      | .ok (c, later) => do
        have := escape_length h
        let (text, rest) ← stringBody later
        .ok (c :: text, rest)
    else if c.toNat < 32 then .error .malformed
    else do
      let (text, rest) ← stringBody rest
      .ok (c :: text, rest)
termination_by text => text.length
decreasing_by all_goals (simp_all only [List.length_cons]; omega)

/-- Passes over a string. Of an escape by code unit only the four digits are looked at. -/
def skipString : List Char → Except Problem (List Char)
  | [] => .error .truncated
  | c :: rest =>
    if c = '"' then .ok rest
    else if c = '\\' then
      match rest with
      | [] => .error .truncated
      | d :: rest =>
        if d = 'u' then
          match h : codeUnit rest with
          | .error problem => .error problem
          | .ok (_, later) =>
            have := codeUnit_length h
            skipString later
        else if (letterEscape? d).isSome then skipString rest
        else .error .malformed
    else if c.toNat < 32 then .error .malformed
    else skipString rest
termination_by text => text.length
decreasing_by all_goals (simp_all only [List.length_cons]; omega)

end FileGraph.Json
