import SfcJsx.File.Path

/-!
The contents that files had in earlier passes. Paths with the same components are one file.
-/

namespace SfcJsx.Batch

structure Cache where
  contents : List (List Path.Component × Text) := []
  deriving DecidableEq, Repr

namespace Cache

def content? (cache : Cache) (path : Text) : Option Text :=
  cache.contents.lookup (Path.components path)

def record (cache : Cache) (path content : Text) : Cache :=
  ⟨(Path.components path, content) :: cache.contents.filter fun e => e.1 ≠ Path.components path⟩

/-- Whether a file has the content that is recorded for it; its content is recorded then. -/
def check (cache : Cache) (path content : Text) : Bool × Cache :=
  (cache.content? path = some content, cache.record path content)

end Cache

end SfcJsx.Batch
