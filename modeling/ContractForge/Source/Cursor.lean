/-!
# Cursors

A cursor is a place in a source text: what is left to read, the line and
column of the next character, and whether a line starts there.
-/

namespace ContractForge

/-- A place in a source text. Lines and columns count from one. -/
structure Cursor where
  rest : List Char
  line : Nat := 1
  column : Nat := 1
  lineStart : Bool := true

namespace Cursor

/-- The place after the next character. A step beyond the end of the text reads
nothing and still counts one column. -/
def next (cursor : Cursor) : Cursor :=
  match cursor.rest with
  | [] => { cursor with column := cursor.column + 1 }
  | '\n' :: rest => { rest, line := cursor.line + 1, column := 1, lineStart := true }
  | _ :: rest => { cursor with rest, column := cursor.column + 1, lineStart := false }

/-- The place after the given number of steps. -/
def move (cursor : Cursor) : Nat → Cursor
  | 0 => cursor
  | count + 1 => cursor.next.move count

theorem rest_next (cursor : Cursor) : cursor.next.rest = cursor.rest.drop 1 := by
  unfold next
  split <;> simp_all

theorem rest_move (cursor : Cursor) (count : Nat) :
    (cursor.move count).rest = cursor.rest.drop count := by
  induction count generalizing cursor with
  | zero => simp [move]
  | succ count ih =>
    simp [move, ih, rest_next]

/-- A move by at least one step leaves less to read, unless nothing was left. -/
theorem length_rest_move_lt (cursor : Cursor) (count : Nat) (nonempty : cursor.rest ≠ []) :
    (cursor.move (count + 1)).rest.length < cursor.rest.length := by
  rw [rest_move, List.length_drop]
  have positive : 0 < cursor.rest.length := List.length_pos_iff.mpr nonempty
  omega

end Cursor

end ContractForge
