import TypeFinder.Glob.Item

/-! Reading a glob: its characters, one by one, become items. -/

namespace TypeFinder.Glob

/-- Why a text is no glob. -/
inductive Cause where
  | unclosedClass
  /-- The range ends before it starts. -/
  | invalidRange (first last : Char)
  | unopenedGroup
  | unclosedGroup
  /-- A backslash at the end. -/
  | danglingEscape
  deriving DecidableEq, Repr

/-- The wording of a cause. -/
def Cause.message : Cause → String
  | unclosedClass => "unclosed character class; missing ']'"
  | invalidRange first last => "invalid range; '" ++ first.toString ++ "' > '" ++ last.toString ++ "'"
  | unopenedGroup => "unopened alternate group; missing '\x7b' (maybe escape '\x7d' with '[\x7d]'?)"
  | unclosedGroup => "unclosed alternate group; missing '\x7d' (maybe escape '\x7b' with '[\x7b]'?)"
  | danglingEscape => "dangling '\\'"

/-- A group that is still open: the items before it, and its alternatives so far, both last first. -/
structure OpenGroup where
  outer : List Item
  done : List (List Item)
  deriving DecidableEq, Repr

/-- A class that is still open. The first of the ranges is the one read last. -/
structure OpenClass where
  negated : Bool
  ranges : List (Char × Char)
  /-- Nothing was read but the mark that negates the class. -/
  fresh : Bool
  /-- A hyphen was read that may join the last character to the next one. -/
  joining : Bool
  deriving DecidableEq, Repr

/-- How the next character is read. -/
inductive Reading where
  | plain
  /-- As itself, since a backslash precedes it. -/
  | escaped
  /-- As the first one of a class, where it may negate the class. -/
  | classStart
  | inClass (k : OpenClass)
  deriving DecidableEq, Repr

/-- The items read so far, last first, and the groups around them, innermost first. -/
structure Progress where
  items : List Item
  groups : List OpenGroup
  deriving DecidableEq, Repr

namespace Progress

/-- One item more. -/
def push (p : Progress) (i : Item) : Progress := { p with items := i :: p.items }

/-- The last item gives way to this one, unless it stands for any directories already. -/
def replaceLast (p : Progress) (i : Item) : Progress :=
  match p.items with
  | [] => p.push i
  | .leadingDirs :: _ | .trailingDirs :: _ => p
  | _ :: rest => { p with items := i :: rest }

/-- Two stars behind the character `before` and before the character `next`. The answer says whether they take
    the next character along, which is a slash then. They stand for directories if they are all that is between
    two slashes, a start and an end; elsewhere they are two single stars. -/
def stars (p : Progress) (before next : Option Char) : Progress × Bool :=
  let grouped := !p.groups.isEmpty
  let single := (p.push .anyBytes).push .anyBytes
  if p.items.isEmpty then
    if next = none ∨ next = some '/' then (p.push .leadingDirs, next.isSome) else (single, false)
  else if before = some '/' ∨ grouped ∧ (before = some ',' ∨ before = some '\x7b') then
    if next = none ∨ grouped ∧ (next = some ',' ∨ next = some '\x7d') then (p.replaceLast .trailingDirs, false)
    else if next = some '/' then (p.replaceLast .innerDirs, true)
    else (single, false)
  else (single, false)

/-- A brace opens. -/
def openGroup (p : Progress) : Progress := ⟨[], ⟨p.items, []⟩ :: p.groups⟩

/-- A comma: the next alternative of a group, or itself outside of all groups. -/
def comma (p : Progress) : Progress :=
  match p.groups with
  | [] => p.push (.literal ',')
  | g :: rest => ⟨[], { g with done := p.items.reverse :: g.done } :: rest⟩

/-- A brace closes. -/
def closeGroup (p : Progress) : Except Cause Progress :=
  match p.groups with
  | [] => .error .unopenedGroup
  | g :: rest => .ok ⟨.ofAlternatives (p.items.reverse :: g.done).reverse :: g.outer, rest⟩

/-- The item that this class is, closed. A hyphen left over is a member. -/
def closeClass (p : Progress) (c : OpenClass) : Progress :=
  p.push (.oneOf c.negated ((if c.joining then ('-', '-') :: c.ranges else c.ranges).reverse))

end Progress

namespace OpenClass

/-- A class of which nothing was read. -/
def start (negated : Bool) : OpenClass := ⟨negated, [], true, false⟩

/-- One member more, or the end of a range. -/
def add (k : OpenClass) (c : Char) : Except Cause OpenClass :=
  match k.joining, k.ranges with
  | true, (lo, _) :: rest =>
    if c < lo then .error (.invalidRange lo c)
    else .ok { k with ranges := (lo, c) :: rest, fresh := false, joining := false }
  | _, ranges => .ok { k with ranges := (c, c) :: ranges, fresh := false, joining := false }

/-- One character more of the class, other than one that closes it. -/
def read (k : OpenClass) (c : Char) : Except Cause OpenClass :=
  if c = '-' ∧ ¬k.fresh ∧ ¬k.joining then .ok { k with joining := true } else k.add c

end OpenClass

/-- One character of a class: the class is closed, or still open. -/
def classStep (p : Progress) (k : OpenClass) (c : Char) : Except Cause (Progress × Reading) :=
  if c = ']' ∧ ¬k.fresh then .ok (p.closeClass k, .plain) else (k.read c).map fun k => (p, .inClass k)

/-- One character, other than a star. -/
def step (p : Progress) (how : Reading) (c : Char) : Except Cause (Progress × Reading) :=
  match how with
  | .escaped => .ok (p.push (.literal c), .plain)
  | .classStart =>
    if c = '!' ∨ c = '^' then .ok (p, .inClass (.start true)) else classStep p (.start false) c
  | .inClass k => classStep p k c
  | .plain =>
    if c = '?' then .ok (p.push .anyByte, .plain)
    else if c = '[' then .ok (p, .classStart)
    else if c = '\x7b' then .ok (p.openGroup, .plain)
    else if c = '\x7d' then p.closeGroup.map (·, .plain)
    else if c = ',' then .ok (p.comma, .plain)
    else if c = '\\' then .ok (p, .escaped)
    else .ok (p.push (.literal c), .plain)

/-- What is read when the text ends. -/
def finish (p : Progress) : Reading → Except Cause (List Item)
  | .plain => if p.groups.isEmpty then .ok p.items.reverse else .error .unclosedGroup
  | .escaped => .error .danglingEscape
  | .classStart | .inClass _ => .error .unclosedClass

/-- The items of the rest of a glob, behind the character `before`. -/
def itemsFrom (p : Progress) (how : Reading) (before : Option Char) : List Char → Except Cause (List Item)
  | [] => finish p how
  | c :: r =>
    if how = .plain ∧ c = '*' then
      match r with
      | '*' :: r =>
        match p.stars before r.head?, r with
        | (p, true), d :: r => itemsFrom p .plain (some d) r
        | (p, _), r => itemsFrom p .plain (some c) r
      | r => itemsFrom (p.push .anyBytes) .plain (some c) r
    else
      match step p how c with
      | .ok (p, how) => itemsFrom p how (some c) r
      | .error e => .error e

/-- The items of a glob. -/
def items (pattern : String) : Except Cause (List Item) := itemsFrom ⟨[], []⟩ .plain none pattern.toList

end TypeFinder.Glob
