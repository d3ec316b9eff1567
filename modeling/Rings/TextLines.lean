import Mathlib.Data.List.Basic
import Mathlib.Tactic

/-!
Text read from bytes, and its lines.

Bytes are text when they are well-formed UTF-8. A text read behind another is read after it, and
what a cut leaves of a text, if it is text, is a prefix of it. A line ends at a newline, with a
carriage return before it or not; the last line may lack the ending.
-/

namespace Rings.TextLines

/-! ### Bytes and text -/

def bytesOf (text : List Char) : ByteArray := (String.ofList text).toByteArray

def textOf (bytes : ByteArray) : Option (List Char) := bytes.utf8Decode?.map Array.toList

variable {l t text : List Char} {b : ByteArray} {n : ℕ}

lemma bytesOf_eq (text : List Char) : bytesOf text = text.utf8Encode := String.toByteArray_ofList

@[simp] lemma bytesOf_nil : bytesOf [] = ByteArray.empty := by
  rw [bytesOf_eq, List.utf8Encode_nil]

lemma bytesOf_append (l t : List Char) : bytesOf (l ++ t) = bytesOf l ++ bytesOf t := by
  rw [bytesOf_eq, bytesOf_eq, bytesOf_eq, List.utf8Encode_append]

@[simp] lemma textOf_bytesOf (text : List Char) : textOf (bytesOf text) = some text := by
  simp [textOf, bytesOf_eq]

lemma bytesOf_of_textOf (h : textOf b = some text) : bytesOf text = b := by
  obtain ⟨chars, hchars, rfl⟩ := Option.map_eq_some_iff.1 h
  have hsome : b.utf8Decode?.isSome := by simp [hchars]
  have hbytes := ByteArray.utf8Encode_get_utf8Decode? (b := b) (h := hsome)
  rw [bytesOf_eq]
  simpa [hchars] using hbytes

lemma bytesOf_injective : Function.Injective bytesOf := fun l t h =>
  Option.some.inj (by rw [← textOf_bytesOf, h, textOf_bytesOf])

lemma size_bytesOf_append (l t : List Char) :
    (bytesOf (l ++ t)).size = (bytesOf l).size + (bytesOf t).size := by
  rw [bytesOf_append, ByteArray.size_append]

lemma bytesOf_size_eq_zero : (bytesOf l).size = 0 ↔ l = [] := by
  rw [ByteArray.size_eq_zero_iff, bytesOf_eq, List.utf8Encode_eq_empty]

/-- A text that begins another and has as many bytes is it. -/
lemma eq_of_isPrefix_of_size (h : t <+: l) (hsize : (bytesOf l).size ≤ (bytesOf t).size) :
    t = l := by
  obtain ⟨rest, rfl⟩ := h
  rw [size_bytesOf_append] at hsize
  have hrest : rest = [] := bytesOf_size_eq_zero.1 (by omega)
  rw [hrest, List.append_nil]

/-! ### Cutting bytes -/

/-- The first `n` bytes. -/
def cut (n : ℕ) (bytes : ByteArray) : ByteArray := bytes.extract 0 n

lemma cut_append_rest (n : ℕ) (b : ByteArray) : cut n b ++ b.extract n b.size = b := by
  rw [cut, ByteArray.extract_append_extract, Nat.zero_min, ByteArray.extract_zero_max_size]

lemma size_cut (n : ℕ) (b : ByteArray) : (cut n b).size = min n b.size := by
  rw [cut, ByteArray.size_extract, Nat.sub_zero]

lemma cut_of_le (h : b.size ≤ n) : cut n b = b := by
  have hmax : n = max n b.size := (max_eq_left h).symm
  rw [cut, hmax, ByteArray.extract_zero_max_size]

lemma cut_bytesOf_append (l t : List Char) :
    cut (bytesOf l).size (bytesOf (l ++ t)) = bytesOf l := by
  rw [cut, bytesOf_append, ByteArray.extract_append_eq_left rfl]

/-- What a cut leaves of a text, if it is text, is what the text begins with. -/
lemma isPrefix_of_cut (h : textOf (cut n (bytesOf l)) = some t) : t <+: l := by
  refine List.isPrefix_of_utf8Encode_append_eq_utf8Encode
    ((bytesOf l).extract n (bytesOf l).size) ?_
  rw [← bytesOf_eq, ← bytesOf_eq, bytesOf_of_textOf h, cut_append_rest]

lemma size_of_cut (h : textOf (cut n (bytesOf l)) = some t) :
    (bytesOf t).size = min n (bytesOf l).size := by
  rw [bytesOf_of_textOf h, size_cut]

/-! ### Lines -/

/-- The pieces of a text up to each newline, and what is left behind the last. -/
def splitInclusive : List Char → List (List Char)
  | [] => []
  | c :: text =>
    if c = '\n' then [c] :: splitInclusive text
    else
      match splitInclusive text with
      | [] => [[c]]
      | piece :: pieces => (c :: piece) :: pieces

/-- A piece without the newline it ends with, and the carriage return before that. -/
def stripEnding (piece : List Char) : List Char :=
  match piece.reverse with
  | '\n' :: '\r' :: rest => rest.reverse
  | '\n' :: rest => rest.reverse
  | _ => piece

def lines (text : List Char) : List (List Char) := (splitInclusive text).map stripEnding

lemma splitInclusive_line (h : '\n' ∉ l) (text : List Char) :
    splitInclusive (l ++ '\n' :: text) = (l ++ ['\n']) :: splitInclusive text := by
  induction l with
  | nil => simp [splitInclusive]
  | cons c l ih =>
    rw [List.mem_cons, not_or] at h
    rw [List.cons_append, splitInclusive, if_neg (Ne.symm h.1), ih h.2]
    rfl

lemma splitInclusive_last (h : '\n' ∉ l) :
    splitInclusive l = if l = [] then [] else [l] := by
  induction l with
  | nil => rfl
  | cons c l ih =>
    rw [List.mem_cons, not_or] at h
    rw [splitInclusive, if_neg (Ne.symm h.1), ih h.2, if_neg (List.cons_ne_nil c l)]
    cases l <;> rfl

lemma stripEnding_line (h : '\r' ∉ l) : stripEnding (l ++ ['\n']) = l := by
  have hreverse : (l ++ ['\n']).reverse = '\n' :: l.reverse := by simp
  rw [stripEnding, hreverse]
  rcases hl : l.reverse with _ | ⟨c, rest⟩
  · exact (List.reverse_eq_nil_iff.1 hl).symm
  · have hc : c ≠ '\r' := by
      rintro rfl
      exact h (List.mem_reverse.1 (hl ▸ List.mem_cons_self))
    have hback : (c :: rest).reverse = l := by rw [← hl, List.reverse_reverse]
    split
    · rename_i heq
      cases heq
      exact absurd rfl hc
    · rename_i heq
      cases heq
      exact hback
    · rename_i hother
      exact absurd rfl (hother (c :: rest))

lemma stripEnding_last (h : '\n' ∉ l) : stripEnding l = l := by
  rw [stripEnding]
  rcases hl : l.reverse with _ | ⟨c, rest⟩
  · rfl
  · have hc : c ≠ '\n' := by
      rintro rfl
      exact h (List.mem_reverse.1 (hl ▸ List.mem_cons_self))
    split
    · rename_i heq
      cases heq
      exact absurd rfl hc
    · rename_i heq
      cases heq
      exact absurd rfl hc
    · rfl

/-- A line ends at its newline. -/
lemma lines_line (hn : '\n' ∉ l) (hr : '\r' ∉ l) (text : List Char) :
    lines (l ++ '\n' :: text) = l :: lines text := by
  rw [lines, splitInclusive_line hn, List.map_cons, stripEnding_line hr]
  rfl

/-- The last line may lack its ending. -/
lemma lines_last (hn : '\n' ∉ l) : lines l = if l = [] then [] else [l] := by
  rw [lines, splitInclusive_last hn]
  split
  · rfl
  · rw [List.map_singleton, stripEnding_last hn]

end Rings.TextLines
