import TypeFinder.Php.Token

/-! The namespaces and types that a source text declares. Nothing is run: one pass over the tokens keeps the
    namespace in effect and collects every class, interface, trait and enum.

    A namespace statement holds until the next one. The form with braces also ends at its closing brace, behind
    which declarations are global. -/

namespace TypeFinder.Php

/-- Kinds of declared types. -/
inductive DeclarationKind where
  | classType
  | interfaceType
  | traitType
  | enumType
  deriving DecidableEq, Repr

namespace DeclarationKind

/-- The keyword that declares a type of this kind. -/
def keyword : DeclarationKind → String
  | .classType => "class"
  | .interfaceType => "interface"
  | .traitType => "trait"
  | .enumType => "enum"

/-- The kind that a token's text declares, in whatever case. -/
def ofKeyword? (word : String) : Option DeclarationKind :=
  [.classType, .interfaceType, .traitType, .enumType].find? fun k => Text.equalIgnoringCase word k.keyword

end DeclarationKind

/-- A declared type. -/
structure Declaration where
  /-- The name with its namespace. -/
  name : String
  /-- The namespace in effect, if any. -/
  scope : Option String
  kind : DeclarationKind
  /-- The line of the keyword. -/
  line : Nat
  deriving DecidableEq, Repr

namespace Declaration

/-- The name without its namespace. -/
def shortName (d : Declaration) : String := Php.shortName d.name

end Declaration

/-- What a source text declares, in its order. A namespace declared again is there again. -/
structure Outline where
  namespaces : List String
  declarations : List Declaration
  deriving DecidableEq, Repr

namespace Outline

/-- The names of all declared types. -/
def classes (o : Outline) : List String := o.declarations.map (·.name)

/-- No type is declared. -/
def isEmpty (o : Outline) : Bool := o.declarations.isEmpty

end Outline

/-! ### What a token does -/

/-- What a token does where it stands. -/
inductive Effect where
  | none
  | openBrace
  | closeBrace
  /-- A namespace statement: the name, if it has one, and whether a brace follows. -/
  | enter (name : Option String) (braced : Bool)
  /-- A declaration of a type of this kind and short name. -/
  | declare (kind : DeclarationKind) (name : String)
  deriving DecidableEq, Repr

/-- The token before a keyword makes it the name of something else: a member, a function or a constant, or an
    anonymous class. -/
def isShadowed (before : Option Token) : Bool :=
  before.any fun t =>
    t.isMemberAccess || t.isKeyword "new" || t.isKeyword "function" || t.isKeyword "const"

/-- The token behind the name of an enum; `enum` is a name itself where none of these follows. -/
def followsEnum (t : Token) : Bool := t.kind == .openBrace || t.kind == .colon || t.isKeyword "implements"

/-- The declaration that the token `t` opens between `before` and `rest`, if it opens one. A word that is longer than
    every keyword is looked up like any other; that it need not be is shown in `length_bytes_le_of_ofKeyword?`. -/
def declares? (before : Option Token) (t : Token) (rest : List Token) : Option (DeclarationKind × String) := do
  guard (t.kind = .name)
  let kind ← DeclarationKind.ofKeyword? t.text
  guard !isShadowed before
  let name ← rest.head?
  guard (name.kind = .name ∧ separator ∉ name.text.toList)
  guard !(name.isKeyword "extends" || name.isKeyword "implements")
  guard (kind ≠ .enumType ∨ (rest[1]?).any followsEnum)
  return (kind, name.text)

/-- The namespace statement that the tokens behind the keyword make, if they make one. -/
def enters? : List Token → Option (Option String × Bool)
  | [] => none
  | t :: rest =>
    if t.kind = .name ∧ isQualifiedName t.text then
      some (t.text, rest.head?.any (·.kind = .openBrace))
    else if t.kind = .openBrace then some (none, true)
    else none

/-- What the token `t` does between `before` and `rest`. -/
def effect (before : Option Token) (t : Token) (rest : List Token) : Effect :=
  match t.kind with
  | .openBrace => .openBrace
  | .closeBrace => .closeBrace
  | _ =>
    if t.isKeyword "namespace" then
      if before.any (·.isMemberAccess) then .none
      else (enters? rest).elim .none fun (name, braced) => .enter name braced
    else (declares? before t rest).elim .none fun (kind, name) => .declare kind name

/-! ### The pass -/

/-- The namespace in effect, the brace depth, and the depth outside the namespace block that is open. -/
structure Scope where
  current : Option String
  depth : Nat
  block : Option Nat
  deriving DecidableEq, Repr

namespace Scope

/-- The global namespace, outside of all braces. -/
def global : Scope := ⟨none, 0, none⟩

/-- The scope behind a token. A brace that closes the open namespace block takes its namespace away. -/
def advance (s : Scope) : Effect → Scope
  | .openBrace => { s with depth := s.depth + 1 }
  | .closeBrace =>
    let depth := s.depth - 1
    if s.block = some depth then ⟨none, depth, none⟩ else { s with depth }
  | .enter name braced => { s with current := name, block := if braced then some s.depth else s.block }
  | .declare .. | .none => s

/-- The name of a type that is declared here. -/
def qualify (s : Scope) (name : String) : String :=
  match s.current with
  | some n => n ++ separator.toString ++ name
  | none => name

end Scope

/-- The pass behind the tokens so far: the scope, and what was declared, latest first. -/
structure Pass where
  scope : Scope
  namespaces : List String
  declarations : List Declaration
  deriving DecidableEq, Repr

namespace Pass

/-- The pass behind one token more. -/
def advance (p : Pass) (before : Option Token) (t : Token) (rest : List Token) : Pass :=
  let e := effect before t rest
  { scope := p.scope.advance e
    namespaces :=
      match e with
      | .enter (some name) _ => name :: p.namespaces
      | _ => p.namespaces
    declarations :=
      match e with
      | .declare kind name => ⟨p.scope.qualify name, p.scope.current, kind, t.line⟩ :: p.declarations
      | _ => p.declarations }

/-- The pass over all tokens that follow `before`. -/
def run (p : Pass) (before : Option Token) : List Token → Pass
  | [] => p
  | t :: rest => (p.advance before t rest).run (some t) rest

/-- What was declared, first to last. -/
def outline (p : Pass) : Outline := ⟨p.namespaces.reverse, p.declarations.reverse⟩

end Pass

/-- What these tokens declare. -/
def Outline.ofTokens (ts : List Token) : Outline := (Pass.run ⟨.global, [], []⟩ none ts).outline

/-- What a source text declares. -/
def Outline.ofSource (source : String) : Outline := .ofTokens (tokens source)

end TypeFinder.Php
