import SfcJsx.Text.Ranges

/-!
White space is the Unicode property White_Space. Trimming and splitting into words follow it.
-/

namespace SfcJsx.Text

def blankRanges : Ranges :=
  [(0x9, 0xD), (0x20, 0x20), (0x85, 0x85), (0xA0, 0xA0), (0x1680, 0x1680), (0x2000, 0x200A),
   (0x2028, 0x2029), (0x202F, 0x202F), (0x205F, 0x205F), (0x3000, 0x3000)]

def isBlank (c : Char) : Bool := blankRanges.covers c.toNat

def trimStart (t : Text) : Text := t.dropWhile isBlank

def trimEnd (t : Text) : Text := (t.reverse.dropWhile isBlank).reverse

def trim (t : Text) : Text := t.trimStart.trimEnd

theorem length_dropWhile_le (p : Char → Bool) (t : Text) : (t.dropWhile p).length ≤ t.length := by
  have := congrArg List.length (List.takeWhile_append_dropWhile (p := p) (l := t))
  simp only [List.length_append] at this
  omega

theorem length_trimStart_le (t : Text) : t.trimStart.length ≤ t.length := length_dropWhile_le _ t

theorem length_trimEnd_le (t : Text) : t.trimEnd.length ≤ t.length := by
  simpa [trimEnd] using length_dropWhile_le isBlank t.reverse

theorem length_trim_le (t : Text) : t.trim.length ≤ t.length :=
  Nat.le_trans (length_trimEnd_le _) (length_trimStart_le t)

def isBlankText (t : Text) : Bool := t.all isBlank

def leadingBlanks (t : Text) : Text := t.takeWhile isBlank

def trailingBlanks (t : Text) : Text := (t.reverse.takeWhile isBlank).reverse

def words (t : Text) : List Text := (t.fields isBlank).filter (!·.isEmpty)

theorem leadingBlanks_append_trimStart (t : Text) : t.leadingBlanks ++ t.trimStart = t :=
  List.takeWhile_append_dropWhile

end SfcJsx.Text
