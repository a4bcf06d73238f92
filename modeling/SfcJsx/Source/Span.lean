import SfcJsx.Text.Basic

/-!
Byte ranges of a source. The end is not part of the range. Offsets are not cut to words of 32 bits,
so what is said of spans holds of sources below 2^32 bytes.
-/

namespace SfcJsx

structure Span where
  start : Nat
  stop : Nat
  deriving DecidableEq, Repr, Inhabited

namespace Span

def emptyAt (offset : Nat) : Span := ⟨offset, offset⟩

def size (s : Span) : Nat := s.stop - s.start

def isEmpty (s : Span) : Bool := s.start == s.stop

def contains (s : Span) (offset : Nat) : Bool := s.start ≤ offset && offset < s.stop

def cover (s t : Span) : Span := ⟨min s.start t.start, max s.stop t.stop⟩

def slice? (s : Span) (source : Text) : Option Text := source.slice? s.start s.stop

def slice (s : Span) (source : Text) : Text := source.slice s.start s.stop

end Span

end SfcJsx
