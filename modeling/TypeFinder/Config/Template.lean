/-! A file of settings to start from. -/

namespace TypeFinder.Config

/-- The lines of a new file of settings. -/
def templateLines : List String := [
  "# classloc configuration",
  "version: \"1\"",
  "",
  "# Glob patterns for paths to skip. Matched against the path relative to",
  "# each scanned directory and against the absolute path.",
  "excluded_paths:",
  "  - \"vendor\"",
  "  - \"node_modules\"",
  "  - \"**/cache/**\"",
  "",
  "# Follow symbolic links while walking.",
  "follow_links: false",
  "",
  "# Skip dot-files and dot-directories such as .git.",
  "skip_hidden: true",
  "",
  "# What to do when a file cannot be read: \"abort\" or \"skip\".",
  "on_io_error: abort",
  ""]

/-- The text of a new file of settings. -/
def template : String := "\n".intercalate templateLines

end TypeFinder.Config
