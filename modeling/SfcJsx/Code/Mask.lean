import SfcJsx.Code.Piece

/-!
The mask of a text tells code from literals and comments, one flag a character or one a byte.
-/

namespace SfcJsx.Code

def marked (t : Text) : List (Char × Bool) :=
  (pieces t).flatMap fun p => p.text.map (·, p.isCode)

theorem map_fst_marked (t : Text) : (marked t).map (·.1) = t := by
  have whole := flatten_pieces t
  simpa [marked, flatten, List.map_flatMap, Function.comp_def] using whole

def byteMask (t : Text) : List Bool :=
  (marked t).flatMap fun (c, isCode) => List.replicate c.utf8Size isCode

end SfcJsx.Code
