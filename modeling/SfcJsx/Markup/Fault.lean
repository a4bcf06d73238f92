import SfcJsx.Markup.Token

/-!
What can be wrong with a component source.
-/

namespace SfcJsx.Markup

inductive Expected where
  | token (kind : TokenKind)
  | attributeName
  | attributeValue
  deriving DecidableEq, Repr

def Expected.label : Expected → Text
  | .token kind => kind.label
  | .attributeName => "attribute name"
  | .attributeValue => "attribute value"

/-- A top-level block that may appear once. -/
inductive UniqueBlock where
  | template
  | setupScript
  | plainScript
  deriving DecidableEq, Repr

def UniqueBlock.label : UniqueBlock → Text
  | .template => "<template>"
  | .setupScript => "<script setup>"
  | .plainScript => "<script>"

inductive FaultKind where
  | unexpectedToken (expected : Expected) (found : TokenKind)
  | unexpectedEnd (expected : Expected)
  | unclosedTag (name : Text)
  | strayClosingTag (name : Text)
  | unterminatedInterpolation
  | unterminatedComment
  | unterminatedValue (name : Text)
  | duplicateBlock (block : UniqueBlock)
  | unsupportedTemplateLanguage (language : Text)
  deriving DecidableEq, Repr

def FaultKind.message : FaultKind → Text
  | .unexpectedToken expected found =>
    "unexpected token: expected " ++ expected.label ++ ", found " ++ found.label
  | .unexpectedEnd expected => "unexpected end of file: expected " ++ expected.label
  | .unclosedTag name => "unclosed tag: <" ++ name ++ ">"
  | .strayClosingTag name => "stray closing tag: </" ++ name ++ ">"
  | .unterminatedInterpolation => "unterminated interpolation: missing `\x7d\x7d`"
  | .unterminatedComment => "unterminated comment: missing `-->`"
  | .unterminatedValue name => "unterminated value for attribute `" ++ name ++ "`"
  | .duplicateBlock block => "duplicate block: " ++ block.label
  | .unsupportedTemplateLanguage language => "unsupported template language: " ++ language

structure Fault where
  kind : FaultKind
  span : Span
  deriving DecidableEq, Repr

end SfcJsx.Markup
