/-!
# Blank characters

The characters with the property White_Space of the Unicode standard: spaces of any width, tabs, and
everything that ends a line, a paragraph or a page. There are 25 of them. Characters that merely
take no room, such as the zero width space, are not among them.
-/

namespace Reckon.Text

/-- The ranges of code points with the property White_Space, first and last one included. -/
def blankRanges : List (Nat × Nat) :=
  [(0x0009, 0x000D), (0x0020, 0x0020), (0x0085, 0x0085), (0x00A0, 0x00A0), (0x1680, 0x1680),
    (0x2000, 0x200A), (0x2028, 0x2029), (0x202F, 0x202F), (0x205F, 0x205F), (0x3000, 0x3000)]

/-- Tests whether a character is blank. -/
def isBlank (c : Char) : Bool :=
  blankRanges.any fun (first, last) => first ≤ c.toNat && c.toNat ≤ last

/-- A text without its blank characters. -/
def withoutBlanks (text : List Char) : List Char :=
  text.filter fun c => !isBlank c

/-- A text without the blank characters at its start and at its end. -/
def trim (text : List Char) : List Char :=
  ((text.dropWhile isBlank).reverse.dropWhile isBlank).reverse

@[simp]
theorem withoutBlanks_append (text text' : List Char) :
    withoutBlanks (text ++ text') = withoutBlanks text ++ withoutBlanks text' :=
  List.filter_append ..

theorem withoutBlanks_eq_nil_iff {text : List Char} :
    withoutBlanks text = [] ↔ ∀ c ∈ text, isBlank c = true := by
  simp [withoutBlanks]

theorem withoutBlanks_reverse (text : List Char) :
    withoutBlanks text.reverse = (withoutBlanks text).reverse :=
  List.filter_reverse

/-- Only blanks are dropped from the start of a text. -/
theorem withoutBlanks_dropWhile_isBlank (text : List Char) :
    withoutBlanks (text.dropWhile isBlank) = withoutBlanks text := by
  have htaken : withoutBlanks (text.takeWhile isBlank) = [] :=
    withoutBlanks_eq_nil_iff.2 (List.all_eq_true.1 List.all_takeWhile)
  calc withoutBlanks (text.dropWhile isBlank)
      = withoutBlanks (text.takeWhile isBlank ++ text.dropWhile isBlank) := by
        rw [withoutBlanks_append, htaken, List.nil_append]
    _ = withoutBlanks text := by rw [List.takeWhile_append_dropWhile]

theorem withoutBlanks_trim (text : List Char) : withoutBlanks (trim text) = withoutBlanks text := by
  rw [trim, withoutBlanks_reverse, withoutBlanks_dropWhile_isBlank, withoutBlanks_reverse,
    withoutBlanks_dropWhile_isBlank, List.reverse_reverse]

end Reckon.Text
