/-!
# White space

The characters that count as blank at the ends of an address, and the trimming of a text at
both ends.

## Main definitions

* `isBlank` — the white-space class.
* `trim` — a text without the blanks at its ends.
-/

namespace MountSpace.Text

/-- White space: tab to carriage return, the four information separators, the space, the next-line
control, and every further space or line separator of Unicode. -/
def isBlank (c : Char) : Bool :=
  let n := c.toNat
  (9 ≤ n && n ≤ 13) || (28 ≤ n && n ≤ 32) || n == 0x85 || n == 0xA0 || n == 0x1680 ||
    (0x2000 ≤ n && n ≤ 0x200A) || n == 0x2028 || n == 0x2029 || n == 0x202F || n == 0x205F ||
    n == 0x3000

/-- A text without the blanks at its two ends. -/
def trim (cs : List Char) : List Char :=
  ((cs.dropWhile isBlank).reverse.dropWhile isBlank).reverse

/-- Nothing is left of an empty text. -/
@[simp] theorem trim_nil : trim [] = [] := rfl

/-- Every white-space character of ASCII's usual class is blank. -/
theorem isBlank_of_isWhitespace {c : Char} (h : c.isWhitespace = true) : isBlank c = true := by
  simp only [Char.isWhitespace, Bool.or_eq_true, decide_eq_true_eq] at h
  rcases h with ((rfl | rfl) | rfl) | rfl <;> decide

end MountSpace.Text
