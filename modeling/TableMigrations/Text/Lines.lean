/-
  TableMigrations.Text.Lines — the lines of a text.
-/

namespace TableMigrations.Text

/-- A line ends at a line feed or at the end of the text; a carriage return right before the line feed belongs
    to the line's end. After a final line feed there is no further, empty line. -/
def lines : List Char → List (List Char)
  | [] => []
  | '\n' :: r => [] :: lines r
  | '\r' :: '\n' :: r => [] :: lines r
  | c :: r =>
    match lines r with
    | [] => [[c]]
    | l :: ls => (c :: l) :: ls

end TableMigrations.Text
