import Lox.Command.Input

/-!
# Lines of the input

Bytes are read into lines from left to right. The lines are what stands between the line feeds, and
what stands behind the last of them unless that is nothing.
-/

namespace Lox.Input

/-- A line without a carriage return at its end. -/
def withoutReturn (line : List UInt8) : List UInt8 :=
  if line.getLast? = some 13 then line.dropLast else line

/-- The lines that parts make up of which each but the last ends with a line feed. -/
def linesOfParts (parts : List (List UInt8)) : List (List UInt8) :=
  parts.dropLast.map withoutReturn ++ parts.getLast?.toList.filter (· ≠ [])

/-- The lines of bytes, divided at the line feeds. -/
def linesBetween (bytes : List UInt8) : List (List UInt8) := linesOfParts (bytes.splitOn 10)

theorem ended_eq (current : List UInt8) : ended current = withoutReturn current.reverse := by
  unfold ended
  split
  · simp [withoutReturn]
  next h =>
    rw [withoutReturn, List.getLast?_reverse, if_neg]
    intro hhead
    obtain ⟨rest, rfl⟩ := List.head?_eq_some_iff.mp hhead
    exact h rest rfl

theorem linesOfParts_cons (line : List UInt8) {parts : List (List UInt8)} (h : parts ≠ []) :
    linesOfParts (line :: parts) = withoutReturn line :: linesOfParts parts := by
  rw [linesOfParts, List.dropLast_cons_of_ne_nil h, List.getLast?_cons_of_ne_nil h]
  rfl

theorem modifyHead_nil (parts : List (List UInt8)) :
    parts.modifyHead (([] : List UInt8).reverse ++ ·) = parts := by
  cases parts <;> rfl

/-- The bytes of the current line stand in front of the first part that is left. -/
theorem split_eq_linesOfParts (bytes current : List UInt8) (earlier : List (List UInt8)) :
    split current earlier bytes =
      earlier.reverse ++ linesOfParts ((bytes.splitOn 10).modifyHead (current.reverse ++ ·)) := by
  induction bytes generalizing current earlier with
  | nil =>
      rw [split, List.splitOn_nil]
      cases current with
      | nil => simp [linesOfParts]
      | cons byte current => simp [linesOfParts]
  | cons byte rest ih =>
      by_cases hfeed : byte = 10
      · subst hfeed
        rw [split, ih, modifyHead_nil, List.splitOn_cons_eq_if_modifyHead,
          if_pos (beq_self_eq_true _), List.modifyHead_cons,
          linesOfParts_cons _ (List.splitOn_ne_nil _ _), ended_eq]
        simp
      · have hfun : (current.reverse ++ ·) ∘ (byte :: ·) = ((byte :: current).reverse ++ ·) := by
          funext line
          simp
        rw [split, ih, List.splitOn_cons_eq_if_modifyHead, if_neg (by simpa using hfeed),
          List.modifyHead_modifyHead, hfun]
        exact hfeed

/-- Line feeds with and without a carriage return, an empty line, and a last line that has no end. -/
example : split [] [] [97, 13, 10, 10, 98, 13] = [[97], [], [98, 13]] := by decide

/-- The lines of an input are the texts of the lines between its line feeds. -/
theorem lines_eq (bytes : ByteArray) :
    lines bytes = (linesBetween bytes.toList).map fun line ↦ decode ⟨line.toArray⟩ := by
  rw [lines, split_eq_linesOfParts, modifyHead_nil]
  rfl

end Lox.Input
