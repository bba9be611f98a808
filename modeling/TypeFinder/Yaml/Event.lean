import TypeFinder.Yaml.Layout

/-! Events: the nodes of a YAML text in order. A list and a map are an event at their start, what they hold, and an
    event at their end. -/

namespace TypeFinder.Yaml

/-- What stands before a node. Anchors are named by `α`. -/
structure Props (α : Type) where
  anchor : Option α := none
  tag : Option Tag := none
  deriving DecidableEq, Repr

/-- A node, or the start or the end of one. -/
inductive Event (α : Type) where
  | alias (name : α)
  | scalar (props : Props α) (style : Style) (text : String)
  | listStart (props : Props α)
  | listEnd
  | mapStart (props : Props α)
  | mapEnd
  deriving DecidableEq, Repr

/-- What stands for the handles of tags. -/
abbrev Handles := List (String × Tag)

/-- The handles that need no directive. -/
def defaultHandles : Handles := [("!", bytesOf "!"), ("!!", bytesOf "tag:yaml.org,2002:")]
where
  bytesOf (text : String) : Tag := text.toList.flatMap String.utf8EncodeChar

/-- Where a reader of tokens is in a node. -/
inductive Position where
  /-- Before a node. Block collections may be here, and in the value of a map entries of a list that is not indented
      further. -/
  | node (block flush : Bool)
  /-- Before an entry of a block list, or its end. -/
  | blockList
  /-- Before an entry of a list that is not indented further, or its end. -/
  | flushList
  /-- Before a key of a block map, or its end. -/
  | blockKey
  | blockValue
  /-- Before an entry of a flow list, or its end. -/
  | flowList (first : Bool)
  /-- Before the key of a pair that stands in a flow list. -/
  | pairKey
  | pairValue
  | pairEnd
  /-- Before a key of a flow map, or its end. -/
  | flowKey (first : Bool)
  | flowValue
  /-- Behind a key of a flow map that has no value. -/
  | noValue
  deriving DecidableEq, Repr

/-- A node that is not there. -/
def absent : Event String := .scalar {} .plain ""

/-- The full tag of a node, if its handle is known. -/
def fullTag? (handles : Handles) (handle : String) (rest : Tag) : Option Tag :=
  if handle = "" then some rest else (handles.lookup handle).map (· ++ rest)

/-- The anchor and the tag here, in either order, and the tokens behind them. -/
def props? (handles : Handles) : List Token → Option (Props String × List Token)
  | .anchor a :: .tag h t :: r => do return (⟨a, ← fullTag? handles h t⟩, r)
  | .tag h t :: .anchor a :: r => do return (⟨a, ← fullTag? handles h t⟩, r)
  | .anchor a :: r => some (⟨a, none⟩, r)
  | .tag h t :: r => do return (⟨none, ← fullTag? handles h t⟩, r)
  | r => some ({}, r)

/-- The token ends a value in a block map, so that there is none. -/
def endsBlockValue : Token → Bool
  | .key | .value | .blockEnd => true
  | _ => false

/-- The token ends a key or value in a flow collection, so that there is none. -/
def endsFlowPart (last : Token) (t : Token) : Bool := t == .value || t == .flowEntry || t == last

/-- What a reader of tokens comes to from a position. -/
structure Step where
  events : List (Event String)
  /-- The positions to go on from, one after the other. -/
  next : List Position
  /-- The tokens ahead. -/
  tokens : List Token

/-- A node of which nothing is there but its anchor or its tag. -/
def bareNode? (props : Props String) (ts : List Token) : Option Step :=
  if props = {} then none else some ⟨[.scalar props .plain ""], [], ts⟩

/-- Reads on from a position. -/
def Position.step? (handles : Handles) (ts : List Token) : Position → Option Step
  | node block flush =>
    match ts with
    | .alias a :: r => some ⟨[.alias a], [], r⟩
    | _ => do
      let (props, ts) ← props? handles ts
      match ts with
      | .blockEntry :: _ => if flush then some ⟨[.listStart props], [flushList], ts⟩ else bareNode? props ts
      | .scalar style text :: r => some ⟨[.scalar props style text], [], r⟩
      | .flowListStart :: r => some ⟨[.listStart props], [flowList true], r⟩
      | .flowMapStart :: r => some ⟨[.mapStart props], [flowKey true], r⟩
      | .blockListStart :: r => if block then some ⟨[.listStart props], [blockList], r⟩ else bareNode? props ts
      | .blockMapStart :: r => if block then some ⟨[.mapStart props], [blockKey], r⟩ else bareNode? props ts
      | _ => bareNode? props ts
  | blockList =>
    match ts with
    | .blockEntry :: r =>
      if r.head?.any fun t => t == .blockEntry || t == .blockEnd then some ⟨[absent], [blockList], r⟩
      else some ⟨[], [node true false, blockList], r⟩
    | .blockEnd :: r => some ⟨[.listEnd], [], r⟩
    | _ => none
  | flushList =>
    match ts with
    | .blockEntry :: r =>
      if r.head?.any fun t => t == .blockEntry || endsBlockValue t then some ⟨[absent], [flushList], r⟩
      else some ⟨[], [node true false, flushList], r⟩
    | _ => some ⟨[.listEnd], [], ts⟩
  | blockKey =>
    match ts with
    | .key :: r =>
      if r.head?.any endsBlockValue then some ⟨[absent], [blockValue], r⟩
      else some ⟨[], [node true true, blockValue], r⟩
    | .blockEnd :: r => some ⟨[.mapEnd], [], r⟩
    | _ => none
  | blockValue =>
    match ts with
    | .value :: r =>
      if r.head?.any endsBlockValue then some ⟨[absent], [blockKey], r⟩
      else some ⟨[], [node true true, blockKey], r⟩
    | _ => some ⟨[absent], [blockKey], ts⟩
  | flowList first =>
    match ts with
    | .flowListEnd :: r => some ⟨[.listEnd], [], r⟩
    | _ => do
      match ← flowPart? first ts with
      | .key :: r => some ⟨[.mapStart {}], [pairKey, pairEnd, flowList false], r⟩
      | .flowListEnd :: r => some ⟨[.listEnd], [], r⟩
      | ts => some ⟨[], [node false false, flowList false], ts⟩
  | pairKey =>
    if ts.head?.any (endsFlowPart .flowListEnd) then some ⟨[absent], [pairValue], ts.tail⟩
    else some ⟨[], [node false false, pairValue], ts⟩
  | pairValue =>
    match ts with
    | .value :: r =>
      if r.head?.any fun t => t == .flowEntry || t == .flowListEnd then some ⟨[absent], [], r⟩
      else some ⟨[], [node false false], r⟩
    | _ => some ⟨[absent], [], ts⟩
  | pairEnd => some ⟨[.mapEnd], [], ts⟩
  | flowKey first =>
    match ts with
    | .flowMapEnd :: r => some ⟨[.mapEnd], [], r⟩
    | _ => do
      match ← flowPart? first ts with
      | .key :: r =>
        if r.head?.any (endsFlowPart .flowMapEnd) then some ⟨[absent], [flowValue], r⟩
        else some ⟨[], [node false false, flowValue], r⟩
      | .flowMapEnd :: r => some ⟨[.mapEnd], [], r⟩
      | ts => some ⟨[], [node false false, noValue, flowKey false], ts⟩
  | flowValue =>
    match ts with
    | .value :: r =>
      if r.head?.any fun t => t == .flowEntry || t == .flowMapEnd then some ⟨[absent], [flowKey false], r⟩
      else some ⟨[], [node false false, flowKey false], r⟩
    | _ => some ⟨[absent], [flowKey false], ts⟩
  | noValue => some ⟨[absent], [], ts⟩
where
  /-- The tokens behind the comma that parts of a flow collection need between them. -/
  flowPart? (first : Bool) (ts : List Token) : Option (List Token) :=
    if first then some ts else if ts.head? = some .flowEntry then some ts.tail else none

/-- The events from these positions on, behind those read, last first, and the tokens behind them. The number bounds
    the steps. -/
def eventsFrom (handles : Handles) : Nat → List (Event String) → List Position → List Token →
    Option (List (Event String) × List Token)
  | 0, _, _, _ => none
  | _ + 1, read, [], ts => some (read.reverse, ts)
  | n + 1, read, p :: ps, ts => do
    let s ← p.step? handles ts
    eventsFrom handles n (s.events.reverse ++ read) (s.next ++ ps) s.tokens

/-! ### Streams -/

/-- What the directives at the start of a document say. -/
structure Directives where
  versioned : Bool := false
  handles : Handles := []
  deriving DecidableEq, Repr

/-- The directives here, and the tokens behind them. There may be one version, which is 1.1 or 1.2, and one text for
    each handle. -/
def directives? (d : Directives) : List Token → Option (Directives × List Token)
  | .versionDirective major minor :: r =>
    if d.versioned || major ≠ 1 || (minor ≠ 1 && minor ≠ 2) then none
    else directives? { d with versioned := true } r
  | .tagDirective handle full :: r =>
    if (d.handles.lookup handle).isSome then none
    else directives? { d with handles := (handle, full) :: d.handles } r
  | r => some (d, r)

/-- The token cannot start the node of a document. -/
def endsDocument : Token → Bool
  | .versionDirective .. | .tagDirective .. | .documentStart | .documentEnd => true
  | _ => false

/-- The node of a document, and the tokens behind it. No more than eight steps go by between two tokens. -/
def documentNode (handles : Handles) (ts : List Token) : Option (List (Event String) × List Token) :=
  eventsFrom handles (8 * ts.length + 8) [] [.node true false] ts

/-- The events of the tokens' one document, or none if there is no document. It is an error if there are several. -/
def documentEvents (ts : List Token) : Option (List (Event String)) :=
  if ts.isEmpty then some []
  else do
    let (d, r) ← directives? {} ts
    let handles := d.handles ++ defaultHandles
    let (es, r) ←
      match r with
      | .documentStart :: r =>
        if r.head?.all endsDocument then some ([absent], r) else documentNode handles r
      | _ => if d = {} then documentNode handles r else none
    let r := r.dropWhile (· == .documentEnd)
    guard r.isEmpty
    return es

end TypeFinder.Yaml
