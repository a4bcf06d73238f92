import SfcJsx.Session.Placeholder

/-!
What a conversion finds out while it renders: which setup context members the code uses, which names
of the framework it needs, diagnostics, and the fragments left as placeholders.
-/

namespace SfcJsx

inductive Severity where
  | warning
  | info
  deriving DecidableEq, Repr

/-- A message that does not stop the conversion; lines and columns count from one. -/
structure Diagnostic where
  severity : Severity
  message : Text
  line : Option Nat
  column : Option Nat
  deriving DecidableEq, Repr

/-- Members of the setup context that the code refers to. -/
structure UsedMembers where
  emit : Bool := false
  slots : Bool := false
  attrs : Bool := false
  expose : Bool := false
  deriving DecidableEq, Repr

structure Findings where
  used : UsedMembers := {}
  usesListHelper : Bool := false
  /-- Names imported from the framework, in the order of first use. -/
  frameworkImports : List Text := []
  frameworkTypes : List Text := []
  diagnostics : List Diagnostic := []
  fallbackItems : List FallbackItem := []
  /-- Names that have been warned about. -/
  warned : List Text := []
  deriving DecidableEq, Repr

def addOnce (names : List Text) (name : Text) : List Text :=
  if names.contains name then names else names ++ [name]

namespace Findings

def useFramework (f : Findings) (name : Text) : Findings :=
  { f with frameworkImports := addOnce f.frameworkImports name }

def useFrameworkType (f : Findings) (name : Text) : Findings :=
  { f with frameworkTypes := addOnce f.frameworkTypes name }

def warnAt (f : Findings) (message : Text) (line column : Option Nat) : Findings :=
  { f with diagnostics := f.diagnostics ++ [⟨.warning, message, line, column⟩] }

def warnOnce (f : Findings) (name message : Text) : Findings :=
  if f.warned.contains name then f
  else { f.warnAt message none none with warned := f.warned ++ [name] }

end Findings

end SfcJsx
