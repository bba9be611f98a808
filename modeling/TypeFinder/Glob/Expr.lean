/-! Patterns over bytes, and which byte sequences they match. -/

namespace TypeFinder.Glob

/-- A set of bytes, as closed ranges. -/
abbrev ByteSet := List (UInt8 × UInt8)

/-- The byte lies in one of the ranges. -/
def ByteSet.contains (s : ByteSet) (b : UInt8) : Bool := s.any fun r => r.1 ≤ b && b ≤ r.2

/-- A pattern over bytes. -/
inductive Expr where
  /-- The empty sequence. -/
  | empty
  /-- One byte of the set, or, negated, one that is not of it. -/
  | byte (negated : Bool) (set : ByteSet)
  /-- Any sequence. -/
  | anything
  | append (first second : Expr)
  | either (left right : Expr)
  deriving DecidableEq, Repr

namespace Expr

/-- The patterns in a row. -/
def all (es : List Expr) : Expr := es.foldr append empty

/-- The bytes in a row. -/
def bytes (bs : List UInt8) : Expr := all (bs.map fun b => byte false [(b, b)])

/-- One of the patterns. -/
def any (e : Expr) : List Expr → Expr
  | [] => e
  | e' :: es => either e (any e' es)

/-- Whether some end of the sequence is accepted, for each end of it. -/
def someEnd (accepted : List Bool) : List Bool :=
  accepted.foldr (fun a later => (a || later.headD false) :: later) []

/-- The list `accepted` says of each end of `bs`, longest first, whether what follows the pattern accepts it. The
    answer says so of the pattern with what follows it. -/
def before (bs : List UInt8) (accepted : List Bool) : Expr → List Bool
  | empty => accepted
  | byte negated set => bs.zipWith (fun b a => (set.contains b != negated) && a) accepted.tail ++ [false]
  | anything => someEnd accepted
  | append e₁ e₂ => before bs (before bs accepted e₂) e₁
  | either e₁ e₂ => (before bs accepted e₁).zipWith (· || ·) (before bs accepted e₂)

/-- The pattern matches the whole sequence. -/
def test (e : Expr) (bs : List UInt8) : Bool :=
  (e.before bs (List.replicate bs.length false ++ [true])).headD false

end Expr
end TypeFinder.Glob
