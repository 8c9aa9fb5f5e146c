/-!
# DepScope.Error

What can go wrong, by cause, with one description for each.
-/

namespace DepScope

/-- The cause of a failure. -/
inductive Error where
  | io
  | http
  | json
  | config (detail : String)
  | parse (detail : String)
  | api (detail : String)
  | missingCredential
  | subprocess (detail : String)
  | toolchain (detail : String)
  | watcher (detail : String)
deriving DecidableEq

namespace Error

/-- The description of a failure. What the system, the network or the format says beyond the kind
is not part of it. -/
def message : Error → String
  | io => "IO error"
  | http => "HTTP error"
  | json => "JSON error"
  | config d => "Configuration error: " ++ d
  | parse d => "Parse error: " ++ d
  | api d => "API error: " ++ d
  | missingCredential => "Missing API key"
  | subprocess d => "Subprocess error: " ++ d
  | toolchain d => "Toolchain error: " ++ d
  | watcher d => "Watcher error: " ++ d

end Error

end DepScope
