import Mathlib.Data.List.Basic
import Mathlib.Data.List.Infix
import Mathlib.Tactic.Common

/-!
Decimal numerals inside file names.

* **Rendering.** `padded w n` is the numeral of `n`, filled up on the left with
  zeros to at least `w` characters. `value` reads a numeral back, and
  `value_padded` makes the rendering injective (`padded_inj`), for numbers that
  outgrow the padding too.
* **Matching.** `globMatch` is the shell pattern `pre*suf`. `fieldAt` reads the
  numeral of a name `pre‹digits›suf`, and `searchField` looks for the leftmost
  such place, as an unanchored regular expression does; `searchField_of_field`
  evaluates the search where the name has the field at its head.
-/

namespace Decimal

/-! ### Rendering -/

/-- The decimal numeral of `n`. -/
def digits (n : ℕ) : List Char := Nat.toDigits 10 n

/-- The numeral of `n` with zeros in front, at least `w` characters long. -/
def padded (w n : ℕ) : List Char :=
  List.replicate (w - (digits n).length) '0' ++ digits n

/-- The number a numeral denotes. -/
def value (l : List Char) : ℕ := Nat.ofDigitChars 10 l 0

@[simp] lemma value_digits (n : ℕ) : value (digits n) = n :=
  Nat.ofDigitChars_ten_toDigits

@[simp] lemma value_padded (w n : ℕ) : value (padded w n) = n := by
  simp only [value, padded, Nat.ofDigitChars_append, Nat.ofDigitChars_replicate_zero, Nat.mul_zero]
  exact value_digits n

lemma digits_ne_nil (n : ℕ) : digits n ≠ [] := Nat.toDigits_ne_nil

lemma padded_ne_nil (w n : ℕ) : padded w n ≠ [] := by
  simp [padded, digits_ne_nil]

/-- Zero padding keeps distinct numbers apart. -/
@[simp] lemma padded_inj {w m n : ℕ} : padded w m = padded w n ↔ m = n := by
  refine ⟨fun h => ?_, fun h => by rw [h]⟩
  simpa only [value_padded] using congrArg value h

lemma isDigit_of_mem_digits {n : ℕ} {c : Char} (hc : c ∈ digits n) : c.isDigit := by
  exact Nat.isDigit_of_mem_toDigits (by decide) (by decide) hc

lemma isDigit_of_mem_padded {w n : ℕ} {c : Char} (hc : c ∈ padded w n) : c.isDigit := by
  rcases List.mem_append.mp hc with h | h
  · rw [List.eq_of_mem_replicate h]; decide
  · exact isDigit_of_mem_digits h

/-! ### Matching -/

/-- The shell pattern `pre*suf`. -/
def globMatch (pre suf name : List Char) : Bool :=
  pre.isPrefixOf name && suf.isSuffixOf (name.drop pre.length)

/-- The number of a name that reads `pre‹digits›suf`. -/
def fieldAt (pre suf name : List Char) : Option ℕ :=
  if pre.isPrefixOf name then
    let rest := name.drop pre.length
    let ds := rest.takeWhile Char.isDigit
    if ds ≠ [] ∧ rest.dropWhile Char.isDigit = suf then some (value ds) else none
  else none

/-- The leftmost place of a name where `pre‹digits›suf` begins and runs to the
end of the name. -/
def searchField (pre suf name : List Char) : Option ℕ :=
  name.tails.findSome? (fieldAt pre suf)

lemma globMatch_append (pre mid suf : List Char) : globMatch pre suf (pre ++ mid ++ suf) := by
  simp [globMatch, List.append_assoc]

lemma takeWhile_digits {ds suf : List Char} (hd : ∀ c ∈ ds, c.isDigit)
    (hs : suf.head?.all (fun c => !c.isDigit)) :
    (ds ++ suf).takeWhile Char.isDigit = ds ∧ (ds ++ suf).dropWhile Char.isDigit = suf := by
  have hsuf : suf.takeWhile Char.isDigit = [] ∧ suf.dropWhile Char.isDigit = suf := by
    cases suf with
    | nil => simp
    | cons c l => simp_all
  constructor
  · rw [List.takeWhile_append_of_pos hd, hsuf.1, List.append_nil]
  · rw [List.dropWhile_append_of_pos hd, hsuf.2]

/-- A padded field between its prefix and its suffix is read back. -/
lemma fieldAt_padded (pre suf : List Char) (w n : ℕ)
    (hs : suf.head?.all (fun c => !c.isDigit)) :
    fieldAt pre suf (pre ++ padded w n ++ suf) = some n := by
  obtain ⟨ht, hd⟩ := takeWhile_digits (fun _ h => isDigit_of_mem_padded (w := w) (n := n) h) hs
  simp [fieldAt, List.append_assoc, ht, hd, padded_ne_nil]

/-- The search succeeds at the head of a name that has the field there. -/
lemma searchField_of_field {pre suf name : List Char} {n : ℕ}
    (h : fieldAt pre suf name = some n) : searchField pre suf name = some n := by
  cases name <;> simp [searchField, h]

end Decimal
