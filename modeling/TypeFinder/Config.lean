import TypeFinder.Locator
import TypeFinder.Yaml.Document

/-! Settings for a search, as a YAML map. A key that is not known is left alone, and one that is given twice is an
    error. -/

namespace TypeFinder

/-- The settings that a file may hold. -/
structure Config where
  version : String := ""
  /-- Globs for the paths to leave out. -/
  excludedPaths : List String := []
  followLinks : Option Bool := none
  skipHidden : Option Bool := none
  onIoError : Option Policy := none
  deriving DecidableEq, Repr

/-- An excluded path that is no glob, or none to search with. -/
inductive InvalidConfig where
  /-- Seen when the settings are checked. -/
  | pattern (e : Glob.Error)
  /-- Seen when the settings are put to use. -/
  | unusable (e : Glob.Refusal)
  deriving DecidableEq, Repr

/-- The wording of an error. -/
def InvalidConfig.message : InvalidConfig → String
  | pattern e => "invalid excluded_paths pattern " ++ Text.quoted e.text ++ ": " ++ e.message
  | unusable e => "compiling excluded_paths: " ++ e.message

namespace Config
open Yaml Document

/-! ### Reading -/

/-- The word stands for nothing. -/
def isNullWord (text : String) : Bool := ["null", "Null", "NULL", "~"].contains text

/-- The tag of nodes that stand for nothing. -/
def nullTag : String := "tag:yaml.org,2002:null"

/-- The tag of truth values. -/
def boolTag : String := "tag:yaml.org,2002:bool"

/-- Whether a setting that may be left out is given. A node with the tag of nothing must be nothing. -/
def isGiven? : Node → Option Bool
  | [.scalar props .plain text] =>
    match props.tag with
    | some tag => if tag.text? = some nullTag then if isNullWord text then some false else none else some true
    | none => some !(text.isEmpty || isNullWord text)
  | _ => some true

/-- The setting that a node holds, read by `f` if it is given. -/
def optional? {α : Type} (d : Document) (f : Node → Option α) (node : Node) : Option (Option α) := do
  let node := d.resolve node
  if ← isGiven? node then return some (← f node) else return none

/-- The truth value that a word stands for. -/
def truth? (text : String) : Option Bool :=
  if ["true", "True", "TRUE"].contains text then some true
  else if ["false", "False", "FALSE"].contains text then some false
  else none

/-- The truth value that a node is. Between quotes it is none, and in lines of its own it must be tagged as one. -/
def flag? : Node → Option Bool
  | [.scalar props style text] =>
    if style = .plain ∨ style = .literal ∧ props.tag.bind Tag.text? = some boolTag then truth? text else none
  | _ => none

/-- The policy with this name, in lower case. -/
def policyNamed? : String → Option Policy
  | "abort" => some .abort
  | "skip" => some .skip
  | _ => none

/-- The policy that a node is: its text, or its own tag with nothing behind. -/
def policy? : Node → Option Policy
  | [.scalar props style text] =>
    match (props.tag.bind Tag.text?).map String.toList with
    | some ('!' :: name) =>
      if style = .plain ∧ (text.isEmpty || isNullWord text) then policyNamed? (String.ofList name) else none
    | _ => policyNamed? text
  | _ => none

/-- The settings with those of one key more, if the key is known. -/
def set? (d : Document) (c : Config) (key : String) (value : Node) : Option Config :=
  match key with
  | "version" => do return { c with version := ← d.text? value }
  | "excluded_paths" => do return { c with excludedPaths := ← (← d.entries? value).mapM d.text? }
  | "follow_links" => do return { c with followLinks := ← optional? d flag? value }
  | "skip_hidden" => do return { c with skipHidden := ← optional? d flag? value }
  | "on_io_error" => do return { c with onIoError := ← optional? d policy? value }
  | _ => some c

/-- The keys that are known. -/
def knownKeys : List String := ["version", "excluded_paths", "follow_links", "skip_hidden", "on_io_error"]

/-- The settings with those of these keys, none of which was seen before. -/
def setAll? (d : Document) (seen : List String) (c : Config) : List (Node × Node) → Option Config
  | [] => some c
  | (k, v) :: rest => do
    let key ← d.text? k
    guard (!seen.contains key)
    setAll? d (if knownKeys.contains key then key :: seen else seen) (← set? d c key v) rest

/-- The settings that a text holds, if it holds some. -/
def ofText? (text : String) : Option Config := do
  let d ← Document.ofText? text
  setAll? d [] {} (← d.fields? d.root)

/-! ### Use -/

/-- Links are followed. -/
def shouldFollowLinks (c : Config) : Bool := c.followLinks.getD false

/-- Hidden entries are left out. -/
def shouldSkipHidden (c : Config) : Bool := c.skipHidden.getD false

/-- What happens at a failure. -/
def policy (c : Config) : Policy := c.onIoError.getD .abort

/-- Checks the excluded paths. -/
def validate (c : Config) : Except InvalidConfig Unit :=
  ((Glob.ofTexts c.excludedPaths).mapError .pattern).map fun _ => ()

/-- The options that the settings ask for. -/
def searchOptions (c : Config) : Except InvalidConfig SearchOptions :=
  ((Glob.toSearch c.excludedPaths).mapError .unusable).map fun excluded =>
    { walk := { followLinks := c.shouldFollowLinks, skipHidden := c.shouldSkipHidden, excluded },
      onFailure := c.policy }

end Config
end TypeFinder
