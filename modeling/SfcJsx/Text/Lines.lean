import SfcJsx.Text.Blank

/-!
Lines end with a line feed; a carriage return before it belongs to the line end. A text that ends
with a line feed has no empty last line.
-/

namespace SfcJsx.Text

def dropCarriageReturn (line : Text) : Text := (before? ['\r'] line).getD line

def lines (t : Text) : List Text :=
  let pieces := t.fields (· == '\n')
  let complete := pieces.dropLast.map dropCarriageReturn
  match pieces.getLast? with
  | none | some [] => complete
  | some last => complete ++ [last]

end SfcJsx.Text
