import TypeFinder.Command.Argument
import TypeFinder.Command.Setting
import TypeFinder.Command.Usage

/-! What the arguments of one part of a command line say. What was read last is put in place when the next setting
    comes, or at the end. Until then an argument that cannot be read at all is the first thing that is wrong. -/

namespace TypeFinder.Command

/-- What was read last and is not in place. -/
inductive Pending where
  | nothing
  /-- A setting that needs a value, with the value once it was read. -/
  | setting (s : Setting) (value : Option String)
  /-- Values that stand by themselves. -/
  | values (texts : List String)
  deriving DecidableEq, Repr

/-- What was read. -/
structure Given where
  /-- The settings in place, with the text behind each that needs one. -/
  settings : List (Setting × String) := []
  values : List String := []
  pending : Pending := .nothing
  deriving DecidableEq, Repr

namespace Given

/-- The setting is in place. -/
def has (g : Given) (s : Setting) : Bool := g.settings.any (·.1 = s)

/-- The text behind a setting that is in place. -/
def text? (g : Given) (s : Setting) : Option String := (g.settings.find? (·.1 = s)).map (·.2)

/-- The setting put in place. A setting is given only once, and a path is not empty. -/
def put (g : Given) (s : Setting) (value : String) : Except Usage Given :=
  if g.has s then .error .repeated
  else if s.need = .path ∧ value.isEmpty then .error .invalidValue
  else .ok { g with settings := g.settings ++ [(s, value)] }

/-- What was read last put in place. -/
def settle (g : Given) : Except Usage Given :=
  let settled : Given := { g with pending := .nothing }
  match g.pending with
  | .nothing => .ok g
  | .setting _ none => .error .invalidValue
  | .setting s (some value) => settled.put s value
  | .values texts =>
    if texts.any (·.isEmpty) then .error .invalidValue else .ok { settled with values := g.values ++ texts }

/-- A setting that needs nothing behind it. -/
def flag (g : Given) (s : Setting) : Except Usage Given := do
  let g ← g.settle
  match s with
  | .help => .error .help
  | .version => .error .version
  | _ => g.put s ""

/-- A setting with the value that it needs. -/
def setting (g : Given) (s : Setting) (value : String) : Except Usage Given := do (← g.settle).put s value

/-- A setting whose value comes next. -/
def expect (g : Given) (s : Setting) : Except Usage Given := do
  return { ← g.settle with pending := .setting s none }

/-- A name with what follows an equals sign. -/
def long (p : Part) (g : Given) (name : String) (value : Option String) : Except Usage Given :=
  match p.named? name with
  | none => .error .unknownArgument
  | some s =>
    match s.need, value with
    | .nothing, none => g.flag s
    | .nothing, some _ => .error .unneededValue
    | _, some value => g.setting s value
    | _, none => g.expect s

/-- Letters. The value of a setting that needs one is all that is behind its letter, perhaps behind an equals
    sign. -/
def short (p : Part) (g : Given) : List Char → Except Usage Given
  | [] => .ok g
  | c :: rest =>
    match p.lettered? c with
    | none => .error .unknownArgument
    | some s =>
      if s.need = .nothing then g.flag s >>= fun g => short p g rest
      else
        match rest with
        | [] => g.expect s
        | '=' :: value => g.setting s (String.ofList value)
        | value => g.setting s (String.ofList value)

/-- A value that stands by itself. -/
def value (p : Part) (g : Given) (text : String) : Except Usage Given :=
  match p, g.pending with
  | .top, _ => .error .unknownTask
  | .init, _ => .error .unknownArgument
  | .scan, .values texts => .ok { g with pending := .values (texts ++ [text]) }
  | .scan, _ => do return { ← g.settle with pending := .values [text] }

/-- A text that no dash starts: the value of the setting in front of it, if that still needs one. -/
def plain (p : Part) (g : Given) (text : String) : Except Usage Given :=
  match g.pending with
  | .setting s none => .ok { g with pending := .setting s (some text) }
  | _ => g.value p text

/-- An argument in front of a separator. -/
def argument (p : Part) (g : Given) : Argument → Except Usage Given
  | .separator => .ok g
  | .long name value => g.long p name value
  | .short letters => g.short p letters
  | .plain text => g.plain p text

/-- All arguments of a part, from those that were read. -/
def ofArguments (p : Part) (g : Given) : List String → Except Usage Given
  | [] => g.settle
  | a :: rest =>
    match Argument.ofText a with
    | .separator => rest.foldlM (fun g text => g.value p text) g >>= settle
    | a => g.argument p a >>= fun g => ofArguments p g rest

end Given
end TypeFinder.Command
