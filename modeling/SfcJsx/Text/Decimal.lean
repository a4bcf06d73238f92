import SfcJsx.Text.Basic

/-!
Decimal number literals: an optional sign, digits with an optional point, an optional exponent; or
the words for infinity and not-a-number in any letter case.
-/

namespace SfcJsx.Text

def dropSign : Text → Text
  | '+' :: rest => rest
  | '-' :: rest => rest
  | t => t

def isDigits (t : Text) : Bool := !t.isEmpty && t.all Char.isDigit

def isMantissa (t : Text) : Bool :=
  match t.fields (· == '.') with
  | [whole] => isDigits whole
  | [whole, fraction] => (whole ++ fraction).all Char.isDigit && !(whole ++ fraction).isEmpty
  | _ => false

def decimalWords : List Text := ["inf", "infinity", "nan"]

def isDecimal (t : Text) : Bool :=
  let t := dropSign t
  decimalWords.contains (t.map Char.toLower) ||
    match t.fields (fun c => c == 'e' || c == 'E') with
    | [mantissa] => isMantissa mantissa
    | [mantissa, exponent] => isMantissa mantissa && isDigits (dropSign exponent)
    | _ => false

end SfcJsx.Text
