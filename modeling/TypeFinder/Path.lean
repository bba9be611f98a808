/-! Paths. A path keeps its text as it was given. It means its components: slashes repeated or trailing, and dots
    other than a leading one, say nothing. Paths are compared, ordered and found below one another by their
    components. -/

namespace TypeFinder

/-- A path as it was written. It is a text: a path of bytes that are no UTF-8 has no value here, and neither has a node
    of a file system with such a name. -/
structure Path where
  text : String
  deriving DecidableEq, Repr

/-- What a path is made of. -/
inductive Component where
  /-- The slash that an absolute path starts with. -/
  | root
  /-- A dot at the start. -/
  | current
  /-- Two dots. -/
  | parent
  | name (text : String)
  deriving DecidableEq, Repr

namespace Component

/-- Components of different kinds are in this order. -/
def rank : Component → Nat
  | root => 0
  | current => 1
  | parent => 2
  | name _ => 3

/-- The text of a name. -/
def nameText : Component → String
  | name text => text
  | _ => ""

/-- Names come last, in the order of their text. -/
instance : Ord Component := ⟨compareLex (compareOn rank) (compareOn nameText)⟩

instance : Std.TransOrd Component :=
  inferInstanceAs (Std.TransCmp (compareLex (compareOn rank) (compareOn nameText)))

instance : Std.LawfulEqOrd Component where
  eq_of_compare {a b} h := by
    have h : (compare a.rank b.rank).then (compare a.nameText b.nameText) = .eq := h
    obtain ⟨hr, ht⟩ := Ordering.then_eq_eq.mp h
    rw [Std.LawfulEqOrd.compare_eq_iff_eq] at hr ht
    cases a <;> cases b <;> simp_all [rank, nameText]

end Component

/-! ### Segments -/

/-- The parts of a text between slashes. There is one more of them than there are slashes. -/
def splitAtSlash : List Char → List (List Char)
  | [] => [[]]
  | c :: r =>
    if c = '/' then [] :: splitAtSlash r
    else
      match splitAtSlash r with
      | [] => [[c]]
      | s :: rest => (c :: s) :: rest

/-- A part that is empty or a single dot, which is no component. -/
def isFiller (segment : String) : Bool := segment == "" || segment == "."

/-- The list without the fillers that it starts with. -/
def dropFillers (segments : List String) : List String := segments.dropWhile isFiller

/-- The list without the fillers that it ends with. -/
def dropLastFillers (segments : List String) : List String := (segments.reverse.dropWhile isFiller).reverse

namespace Path

/-- The parts of the path between slashes. -/
def segments (p : Path) : List String := (splitAtSlash p.text.toList).map String.ofList

/-- The path starts with a slash. -/
def isAbsolute (p : Path) : Bool := p.text.toList.head? == some '/'

/-- The component at the start that no other place may have. -/
def lead? (p : Path) : Option Component :=
  if p.isAbsolute then some .root else if p.segments.head? = some "." then some .current else none

/-- The parts behind the leading component. -/
def body (p : Path) : List String := if p.lead?.isSome then p.segments.tail else p.segments

/-- What the path means. -/
def components (p : Path) : List Component :=
  p.lead?.toList ++ (p.body.filter (! isFiller ·)).map fun s => if s = ".." then .parent else .name s

/-- The path with this leading component and these parts. -/
def ofParts (lead? : Option Component) (body : List String) : Path :=
  match lead? with
  | some .root => ⟨"/" ++ "/".intercalate body⟩
  | some _ => ⟨"/".intercalate ("." :: body)⟩
  | none => ⟨"/".intercalate body⟩

/-! ### Comparison -/

/-- The two paths mean the same place. -/
def same (p q : Path) : Bool := p.components == q.components

/-- The path means `base` or a place below it. -/
def isUnder (p base : Path) : Bool := base.components.isPrefixOf p.components

/-- The order of paths: by the first component that differs, and a path before those below it. -/
instance : Ord Path := ⟨compareOn components⟩

instance : Std.TransOrd Path := inferInstanceAs (Std.TransCmp (compareOn components))

/-! ### Parts -/

/-- The last component, if it is a name. -/
def fileName? (p : Path) : Option String :=
  match p.components.getLast? with
  | some (.name s) => some s
  | _ => none

/-- What follows the last dot of the file name. A dot that the name starts with does not count. -/
def extension? (p : Path) : Option String := do
  let name := (← p.fileName?).toList
  let stem := (name.reverse.dropWhile (· ≠ '.')).drop 1
  guard !stem.isEmpty
  return String.ofList (name.reverse.takeWhile (· ≠ '.')).reverse

/-- The parts up to and with the first `n` that are no fillers. -/
def takeComponents : Nat → List String → List String
  | 0, _ => []
  | _, [] => []
  | n + 1, s :: rest => if isFiller s then s :: takeComponents (n + 1) rest else s :: takeComponents n rest

/-- The path with this leading component, if there is one, and of these parts so many that it has `n` components. -/
def ofComponents (lead? : Option Component) (body : List String) (n : Nat) : Path :=
  let leading := lead?.toList.length
  if n < leading then ⟨""⟩ else ofParts lead? (takeComponents (n - leading) body)

/-- The first `n` components of the path, as it was written. -/
def upTo (p : Path) (n : Nat) : Path := ofComponents p.lead? p.body n

/-- The path without its last component. A lone slash and the empty path have no parent. -/
def parent? (p : Path) : Option Path :=
  match p.components.getLast? with
  | none | some .root => none
  | some _ => some (p.upTo (p.components.length - 1))

/-- The places between a base and a path below it, shortest first. -/
def between (p base : Path) : List Path :=
  let lead? := p.lead?
  let body := p.body
  let depth := base.components.length
  (List.range (p.components.length - 1 - depth)).map fun i => ofComponents lead? body (depth + 1 + i)

/-- The path of this name in the directory `p`. -/
def child (p : Path) (name : String) : Path :=
  if p.text.isEmpty ∨ p.text.toList.getLast? = some '/' then ⟨p.text ++ name⟩ else ⟨p.text ++ "/" ++ name⟩

/-- The path `q` as seen from `p`. An absolute path is seen as it is from everywhere. -/
def join (p q : Path) : Path := if q.isAbsolute then q else p.child q.text

/-- The parts behind the first `n` components. -/
def dropComponents : Nat → List String → List String
  | 0, segments => segments
  | n + 1, segments => dropComponents n ((dropFillers segments).drop 1)

/-- The path as written below `base`, if it is there. -/
def relativeTo? (p base : Path) : Option Path :=
  if p.isUnder base then
    match base.components.length with
    | 0 => some (ofParts p.lead? (dropLastFillers p.body))
    | n + 1 =>
      let behind := dropComponents (n + 1 - p.lead?.toList.length) p.body
      some ⟨"/".intercalate (dropLastFillers (dropFillers behind))⟩
  else none

end Path
end TypeFinder
