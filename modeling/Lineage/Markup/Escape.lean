/-
# Which characters are escaped

The named characters are always escaped; a set of escapes adds some characters to
them, or all that are not ASCII.  The options of the encoder say which set, and
how a text that needs escaping is written.
-/

import Lineage.Markup.Entity
import Lineage.Text.Ranges

namespace Lineage
namespace Markup

/-- Characters escaped besides the named ones. -/
structure EscapeSet where
  extra : List Char
  nonAscii : Bool
deriving DecidableEq, Repr

namespace EscapeSet

/-- The set with one more character. -/
def withChar (s : EscapeSet) (c : Char) : EscapeSet := { s with extra := c :: s.extra }

/-- The character needs escaping. -/
def flags (s : EscapeSet) (c : Char) : Bool :=
  isEntity c || (s.nonAscii && !Text.isAscii c) || s.extra.contains c

/-- Whatever else is flagged, the entity characters are. -/
theorem flags_of_isEntity {s : EscapeSet} {c : Char} (h : isEntity c = true) :
    s.flags c = true := by
  simp [flags, h]

end EscapeSet

/-- How text that needs escaping is written. -/
inductive EncodeMode where
  /-- A reference for each character. -/
  | entities
  /-- Sections around the whole text. -/
  | cdata
deriving DecidableEq, Repr

/-- The options of the encoder. -/
structure EncodeOptions where
  mode : EncodeMode
  escapeNonAscii : Bool
  extraEscapes : List Char
deriving DecidableEq, Repr

namespace EncodeOptions

/-- References for the named characters. -/
def default : EncodeOptions := ⟨.entities, false, []⟩

/-- Output in 7 bits. -/
def asciiOnly : EncodeOptions := { default with escapeNonAscii := true }

/-- Text that may stand between quotes. -/
def attributeValue : EncodeOptions := { default with extraEscapes := ['"', '\''] }

/-- The escapes that the options name. -/
def escapes (o : EncodeOptions) : EscapeSet := ⟨o.extraEscapes, o.escapeNonAscii⟩

end EncodeOptions
end Markup
end Lineage
