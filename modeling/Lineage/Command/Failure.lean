/-
# Failures of a command

Why a command that was understood fails.
-/

import Lineage.Files.System

namespace Lineage
namespace Command

open Files

/-- The causes of a failure. -/
inductive Failure where
  /-- The configuration is not one. -/
  | malformedConfig
  /-- The configuration cannot be read. -/
  | unreadableConfig (cause : IoError)
  | invalidMode (mode : String)
  | unreadable (path : Path) (cause : IoError)
  | noSuchPath (path : Path)
  /-- A source is refused; the remark points at the place. -/
  | unparsed (path remark : String)
  /-- Loading fails for another reason. -/
  | loading (cause : IoError)
deriving DecidableEq, Repr

namespace Failure

/-- The message of a failure: what was tried, and then each cause. -/
def message : Failure → String
  | .malformedConfig => "config"
  | .unreadableConfig cause => cause.message
  | .invalidMode mode => "Invalid mode: " ++ mode ++ ". Use: entities or cdata"
  | .unreadable path cause => "Cannot read " ++ path.text ++ ": " ++ cause.message
  | .noSuchPath path => "Input path does not exist: " ++ path.text
  | .unparsed path _ => "Failed to parse " ++ path
  | .loading cause => "IO error: " ++ cause.message ++ ": " ++ cause.chain

/-- What is said before the message. -/
def remark : Failure → String
  | .unparsed _ remark => remark ++ "\n"
  | _ => ""

end Failure
end Command
end Lineage
