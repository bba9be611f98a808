/-! What may be set by name on a command line, and where. -/

namespace TypeFinder.Command

/-- What may be set by name. -/
inductive Setting where
  | help
  | version
  | verbose
  | config
  | format
  | followLinks
  | skipIoErrors
  | output
  | force
  deriving DecidableEq, Repr

/-- The part of a command line that a setting belongs to. -/
inductive Part where
  /-- In front of the name of a task. -/
  | top
  /-- Behind the name of this task. -/
  | scan
  | init
  deriving DecidableEq, Repr

namespace Setting

/-- The name of a setting. -/
def name : Setting → String
  | help => "help"
  | version => "version"
  | verbose => "verbose"
  | config => "config"
  | format => "format"
  | followLinks => "follow-links"
  | skipIoErrors => "skip-io-errors"
  | output => "output"
  | force => "force"

/-- The letter for a setting, if it has one. -/
def letter? : Setting → Option Char
  | help => some 'h'
  | version => some 'V'
  | verbose => some 'v'
  | config => some 'c'
  | format => some 'f'
  | output => some 'o'
  | followLinks | skipIoErrors | force => none

/-- What a setting needs behind it. -/
inductive Need where
  | nothing
  /-- Any text. -/
  | text
  /-- A text that is not empty. -/
  | path
  deriving DecidableEq, Repr

/-- What the setting needs behind it. -/
def need : Setting → Need
  | config | output => .path
  | format => .text
  | _ => .nothing

end Setting

namespace Part

/-- The settings of a part. -/
def settings : Part → List Setting
  | top => [.help, .version, .verbose]
  | scan => [.help, .verbose, .config, .format, .followLinks, .skipIoErrors]
  | init => [.help, .verbose, .output, .force]

/-- The setting of this name. -/
def named? (p : Part) (name : String) : Option Setting := p.settings.find? (·.name = name)

/-- The setting of this letter. -/
def lettered? (p : Part) (letter : Char) : Option Setting := p.settings.find? (·.letter? = some letter)

/-- The part behind a word, if the word is the name of a task. -/
def ofWord? : String → Option Part
  | "scan" | "locate" => some scan
  | "init" => some init
  | _ => none

end Part
end TypeFinder.Command
