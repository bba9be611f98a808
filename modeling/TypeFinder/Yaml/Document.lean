import Std.Data.HashMap
import TypeFinder.Yaml.Event

/-! Documents: the nodes of a YAML text, with what its aliases stand for.

    Anchors are known by numbers. An anchor takes for its number how many names there were before it. So a name that
    is given twice leaves its second number to the next new name as well, and then both stand for the later node. -/

namespace TypeFinder.Yaml

/-- The events of one node or of several. -/
abbrev Node := List (Event Nat)

/-! ### Anchors -/

/-- The numbers of the names so far. -/
abbrev Anchors := Std.HashMap String Nat

/-- The node's properties, its anchor numbered. -/
def Props.numbered (anchors : Anchors) (p : Props String) : Props Nat × Anchors :=
  match p.anchor with
  | none => ({ tag := p.tag }, anchors)
  | some name => ({ anchor := anchors.size, tag := p.tag }, anchors.insert name anchors.size)

/-- The event with numbers for names. An alias has the number that its name has here, and there must be one. -/
def Event.numbered (anchors : Anchors) : Event String → Option (Event Nat × Anchors)
  | .alias name => anchors[name]?.map fun n => (.alias n, anchors)
  | .scalar props style text => let (props, anchors) := props.numbered anchors; some (.scalar props style text, anchors)
  | .listStart props => let (props, anchors) := props.numbered anchors; some (.listStart props, anchors)
  | .mapStart props => let (props, anchors) := props.numbered anchors; some (.mapStart props, anchors)
  | .listEnd => some (.listEnd, anchors)
  | .mapEnd => some (.mapEnd, anchors)

/-- The events with numbers for names, behind those before, which are in reverse. -/
def numberedFrom (done : Node) (anchors : Anchors) : List (Event String) → Option Node
  | [] => some done.reverse
  | e :: es => do
    let (e, anchors) ← e.numbered anchors
    numberedFrom (e :: done) anchors es

/-- The number of the anchor of an event. -/
def Event.anchor? : Event Nat → Option Nat
  | .scalar props .. | .listStart props | .mapStart props => props.anchor
  | _ => none

/-- The events from each anchor on, of anchors with one number those from the last. -/
def anchoredFrom (found : Std.HashMap Nat Node) : Node → Std.HashMap Nat Node
  | [] => found
  | e :: es => anchoredFrom (e.anchor?.elim found fun n => found.insert n (e :: es)) es

/-! ### Nodes -/

/-- How an event changes the number of open lists and maps. -/
def Event.depth {α : Type} (d : Nat) : Event α → Nat
  | .listStart _ | .mapStart _ => d + 1
  | .listEnd | .mapEnd => d - 1
  | _ => d

/-- The nodes in a row, behind those before and the start of one that `d` lists and maps are open in. Both are in
    reverse. -/
def nodesFrom (done : List Node) (started : Node) (d : Nat) : Node → List Node
  | [] => done.reverse
  | e :: es =>
    if e.depth d = 0 then nodesFrom ((e :: started).reverse :: done) [] 0 es
    else nodesFrom done (e :: started) (e.depth d) es

/-- The nodes in a row. -/
def nodes (es : Node) : List Node := nodesFrom [] [] 0 es

/-- The first node of some, behind the start of it, in reverse, that `d` lists and maps are open in. -/
def firstNodeFrom (started : Node) (d : Nat) : Node → Node
  | [] => []
  | e :: es => if e.depth d = 0 then (e :: started).reverse else firstNodeFrom (e :: started) (e.depth d) es

/-- The first node of some. -/
def firstNode (es : Node) : Node := firstNodeFrom [] 0 es

/-- The nodes of a text. -/
structure Document where
  /-- All events. There are none if the text has no node at all. -/
  root : Node
  /-- The events from the node on that an alias with this number stands for. -/
  anchored : Std.HashMap Nat Node

namespace Document

/-- The document that a text is, if it is one. -/
def ofText? (text : String) : Option Document := do
  let root ← numberedFrom [] ∅ (← documentEvents (← tokens text))
  return ⟨root, anchoredFrom ∅ root⟩

/-- What an alias stands for: the last node whose anchor has its number. -/
def target (d : Document) (n : Nat) : Node := firstNode (d.anchored.getD n [])

/-- The node that is meant: itself, or what it is an alias of. -/
def resolve (d : Document) (node : Node) : Node :=
  match node with
  | [.alias n] => d.target n
  | _ => node

/-! ### Reading nodes -/

/-- The text of a scalar, however it is written. -/
def text? (d : Document) (node : Node) : Option String :=
  match d.resolve node with
  | [.scalar _ _ text] => some text
  | _ => none

/-- There is nothing where a node could be. -/
def isAbsent : Node → Bool
  | [] => true
  | [.scalar _ style text] => style == .plain && text.isEmpty
  | _ => false

/-- The entries of a list. Where nothing is there, there are none. -/
def entries? (d : Document) (node : Node) : Option (List Node) :=
  match d.resolve node with
  | .listStart _ :: es => some (nodes es.dropLast)
  | node => if isAbsent node then some [] else none

/-- The nodes two by two. -/
def pairs : List Node → List (Node × Node)
  | k :: v :: rest => (k, v) :: pairs rest
  | _ => []

/-- The keys and values of a map. Where nothing is there, there are none. -/
def fields? (d : Document) (node : Node) : Option (List (Node × Node)) :=
  match d.resolve node with
  | .mapStart _ :: es => some (pairs (nodes es.dropLast))
  | node => if isAbsent node then some [] else none

end Document
end TypeFinder.Yaml
