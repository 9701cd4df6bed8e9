import Mathlib.Data.Char
import Mathlib.Data.List.Lex
import Mathlib.Data.String.Basic
import Mathlib.Tactic.SplitIfs

/-! # Texts are ordered as their bytes are

Texts are compared character by character, file names byte by byte.  The encoding of characters
makes the two the same: of two characters the greater one has the greater byte where their encodings
first differ, and they do differ before one of them ends.

* `Text.encode_append_lt`: encodings of different characters, whatever stands behind them.
* `Text.bytes_lt_bytes`, `Text.map_bytes_lt`: texts and lists of texts.
-/

namespace FileGraph.Text

def bytes (text : String) : List UInt8 :=
  text.toUTF8.data.toList

theorem bytes_eq_flatMap (text : String) : bytes text = text.toList.flatMap String.utf8EncodeChar := by
  have written := congrArg String.toUTF8 (String.ofList_toList (s := text))
  rw [bytes, ← written, String.toUTF8_eq_toByteArray, String.toByteArray_ofList, List.utf8Encode]
  simp

theorem lt_digits {v w : Nat} (before : v < w) :
    v / 64 < w / 64 ∨ v / 64 = w / 64 ∧ v % 64 < w % 64 := by
  omega

theorem encode_append_lt {c d : Char} (before : c < d) (s t : List UInt8) :
    String.utf8EncodeChar c ++ s < String.utf8EncodeChar d ++ t := by
  have before : c.val.toNat < d.val.toNat := before
  have valid : d.val.toNat < 0xd800 ∨ 0xdfff < d.val.toNat ∧ d.val.toNat < 0x110000 := d.valid
  have bound : d.val.toNat < 0x110000 := by omega
  unfold String.utf8EncodeChar
  generalize c.val.toNat = v at *
  generalize d.val.toNat = w at *
  -- Behind the first byte there are digits to the base of 64.
  have last := lt_digits before
  have middle := @lt_digits (v / 64) (w / 64)
  have first := @lt_digits (v / 64 / 64) (w / 64 / 64)
  have two : ∀ n, n / 4096 = n / 64 / 64 := fun n => by omega
  have three : ∀ n, n / 262144 = n / 64 / 64 / 64 := fun n => by omega
  dsimp only
  -- Longer encodings begin with greater bytes, and no greater character has a shorter encoding.
  split_ifs
  all_goals try omega
  all_goals
    simp (disch := omega) only [List.cons_append, List.nil_append, List.cons_lt_cons_iff,
      UInt8.lt_iff_toNat_lt, ← UInt8.toNat_inj, UInt8.toNat_ofNat', Nat.mod_eq_of_lt, two, three]
    omega

theorem flatMap_encode_lt {s t : List Char} (before : s < t) :
    s.flatMap String.utf8EncodeChar < t.flatMap String.utf8EncodeChar := by
  induction List.lex_lt.2 before with
  | @nil c later =>
      obtain ⟨byte, more, written⟩ := List.exists_cons_of_ne_nil (@String.utf8EncodeChar_ne_nil c)
      rw [List.flatMap_nil, List.flatMap_cons, written]
      exact List.nil_lt_cons _ _
  | rel first => exact encode_append_lt first _ _
  | cons further ih => exact List.append_left_lt (ih (List.lex_lt.1 further))

theorem bytes_lt_bytes {s t : String} (before : s < t) : bytes s < bytes t := by
  rw [bytes_eq_flatMap, bytes_eq_flatMap]
  exact flatMap_encode_lt (String.lt_iff_toList_lt.1 before)

theorem map_bytes_lt {names later : List String} (before : names < later) :
    names.map bytes < later.map bytes :=
  List.map_lt (fun _ _ => bytes_lt_bytes) before

end FileGraph.Text
