import SfcJsx.Source.Span

/-!
Tokens of component markup. Blanks other than the line feed are skipped between tokens; everything
that is neither a blank nor punctuation belongs to a name. The last token is the end of the file.
-/

namespace SfcJsx.Markup

inductive TokenKind where
  | commentOpen
  | closingOpen
  | tagOpen
  | selfClose
  | tagClose
  | equals
  | doubleQuote
  | singleQuote
  | interpolationOpen
  | interpolationClose
  | braceOpen
  | braceClose
  | slash
  | newline
  | name
  | endOfFile
  deriving DecidableEq, Repr

/-- How messages call a token. -/
def TokenKind.label : TokenKind → Text
  | .commentOpen => "'<!--'"
  | .closingOpen => "'</'"
  | .tagOpen => "'<'"
  | .selfClose => "'/>'"
  | .tagClose => "'>'"
  | .equals => "'='"
  | .doubleQuote => "'\"'"
  | .singleQuote => "'''"
  | .interpolationOpen => "'\x7b\x7b'"
  | .interpolationClose => "'\x7d\x7d'"
  | .braceOpen => "'\x7b'"
  | .braceClose => "'\x7d'"
  | .slash => "'/'"
  | .newline => "newline"
  | .name => "name"
  | .endOfFile => "end of file"

structure Token where
  kind : TokenKind
  span : Span
  deriving DecidableEq, Repr

namespace Token

def isSkipped (c : Char) : Bool := c == ' ' || c == '\t' || c == '\r' || c == '\x0c'

def isPunctuation (c : Char) : Bool :=
  c == '"' || c == '\'' || c == '<' || c == '>' || c == '/' || c == '=' || c == '{' || c == '}'

def isNameChar (c : Char) : Bool := !(isSkipped c || c == '\n' || isPunctuation c)

/-- The kind of the token that starts with `c`, and how many of the next characters it takes. -/
def lead (c : Char) (rest : Text) : TokenKind × Nat :=
  match c, rest with
  | '<', '!' :: '-' :: '-' :: _ => (.commentOpen, 3)
  | '<', '/' :: _ => (.closingOpen, 1)
  | '<', _ => (.tagOpen, 0)
  | '/', '>' :: _ => (.selfClose, 1)
  | '/', _ => (.slash, 0)
  | '>', _ => (.tagClose, 0)
  | '=', _ => (.equals, 0)
  | '"', _ => (.doubleQuote, 0)
  | '\'', _ => (.singleQuote, 0)
  | '{', '{' :: _ => (.interpolationOpen, 1)
  | '{', _ => (.braceOpen, 0)
  | '}', '}' :: _ => (.interpolationClose, 1)
  | '}', _ => (.braceClose, 0)
  | '\n', _ => (.newline, 0)
  | _, rest => (.name, (rest.takeWhile isNameChar).length)

def scanFrom (offset : Nat) : Text → List Token
  | [] => [⟨.endOfFile, .emptyAt offset⟩]
  | c :: rest =>
    if isSkipped c then scanFrom (offset + c.utf8Size) rest
    else
      let (kind, more) := lead c rest
      let stop := offset + c.utf8Size + Text.width (rest.take more)
      ⟨kind, ⟨offset, stop⟩⟩ :: scanFrom stop (rest.drop more)
termination_by t => t.length

def scan (source : Text) : List Token := scanFrom 0 source

end Token

end SfcJsx.Markup
