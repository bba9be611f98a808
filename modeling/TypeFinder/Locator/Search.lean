import TypeFinder.Locator.Cursor

/-! Whole searches. Each one starts afresh. -/

namespace TypeFinder.Locator
variable {σ : Type} [FileSystem σ]

/-- All that a search yields. -/
def items (fs : σ) (l : Locator) : List Item := (Cursor.ofLocator σ l).items fs

/-- All events of a search. -/
def events (fs : σ) (l : Locator) : List Event := (Cursor.ofLocator σ l).events fs

/-- The files that a search finds, or the first failure that it yields. -/
def files (fs : σ) (l : Locator) : Except Failure (List SourceFile) := (l.items fs).mapM id

/-- The names of all types that a search finds, or the first failure that it yields. -/
def collectClasses (fs : σ) (l : Locator) : Except Failure (List String) :=
  (l.files fs).map (·.flatMap (·.classes))

end TypeFinder.Locator
