/-!
# Lines

A line reaches to the next line feed, which does not belong to it, and neither does a carriage
return right before the line feed. What comes after the last line feed is a line too, unless it is
empty: the last line need not be ended. So ended lines put together are cut apart again as they
were, except for a carriage return at their end (`lines_flatMap_append`).
-/

namespace Reckon.Text

/-- Puts a symbol in front of lines: a line feed begins a new line, and anything else joins the
first line. -/
def attachToLines {α : Type} [DecidableEq α] (feed : α) (a : α) : List (List α) → List (List α)
  | [] => if a = feed then [[]] else [[a]]
  | line :: lines => if a = feed then [] :: line :: lines else (a :: line) :: lines

/-- Cuts a text into lines. The text is made of characters or bytes, with `feed` for line feed. -/
def linesBy {α : Type} [DecidableEq α] (feed : α) (text : List α) : List (List α) :=
  text.foldr (attachToLines feed) []

/-- A line without the carriage return that may stand at its end. -/
def dropReturn (line : List Char) : List Char :=
  if line.getLast? = some '\r' then line.dropLast else line

/-- The lines of a text. A carriage return at the end is part of the last line if that is not ended
by a line feed. -/
def lines (text : List Char) : List (List Char) :=
  let cut := linesBy '\n' text
  let ended := if text.getLast? = some '\n' then cut.length else cut.length - 1
  (cut.take ended).map dropReturn ++ cut.drop ended

/-- A line in front of other lines is cut off where it was ended. -/
theorem linesBy_append_cons {α : Type} [DecidableEq α] {feed : α} {line : List α}
    (h : feed ∉ line) (text : List α) :
    linesBy feed (line ++ feed :: text) = line :: linesBy feed text := by
  induction line with
  | nil =>
    simp only [linesBy, List.nil_append, List.foldr_cons]
    cases List.foldr (attachToLines feed) [] text <;> simp [attachToLines]
  | cons a line ih =>
    simp only [List.mem_cons, not_or] at h
    have ha : a ≠ feed := fun hc => h.1 hc.symm
    have : linesBy feed (a :: line ++ feed :: text) =
        attachToLines feed a (linesBy feed (line ++ feed :: text)) := rfl
    rw [this, ih h.2]
    simp [attachToLines, ha]

/-- The lines that end with a line feed are cut off as they were ended. -/
theorem linesBy_flatMap_append {ls : List (List Char)} (h : ∀ line ∈ ls, '\n' ∉ line) :
    linesBy '\n' (ls.flatMap fun line => line ++ ['\n']) = ls := by
  induction ls with
  | nil => rfl
  | cons line ls ih =>
    rw [List.flatMap_cons, List.append_assoc, List.singleton_append,
      linesBy_append_cons (h line (by simp))]
    exact congrArg _ (ih fun l hl => h l (by simp [hl]))

/-- The lines of a text made of ended lines are these lines, without a carriage return at their
end. -/
theorem lines_flatMap_append {ls : List (List Char)} (h : ∀ line ∈ ls, '\n' ∉ line) :
    lines (ls.flatMap fun line => line ++ ['\n']) = ls.map dropReturn := by
  unfold lines
  dsimp only
  rw [linesBy_flatMap_append h]
  rcases List.eq_nil_or_concat ls with rfl | ⟨init, last, rfl⟩
  · rfl
  · have hended : ((init.concat last).flatMap fun line => line ++ ['\n']).getLast? =
        some '\n' := by
      rw [List.concat_eq_append, List.flatMap_append, List.flatMap_singleton, ← List.append_assoc,
        List.getLast?_concat]
    rw [if_pos hended, List.take_length, List.drop_length, List.append_nil]

/-- Only the end of a line that was ended is lost: a return inside of it stays, and so does one
after the last line feed. -/
example : lines ['a', '\r', 'b', '\r', '\r', '\n', '\r', '\n', 'c', '\r'] =
    [['a', '\r', 'b', '\r'], [], ['c', '\r']] := by decide

end Reckon.Text
