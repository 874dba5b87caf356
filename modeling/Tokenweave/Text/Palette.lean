/-!
# Colours of terminal output

Output is coloured by role, not by hue: names, matched text, and the quieter parts (spans,
structure, trace details). A palette gives the escape that starts each role and the escape that
ends it; the plain palette has empty escapes, so coloured and plain output differ only by them.
-/

namespace Tokenweave

/-- The escapes that start each role of coloured output, and the one that ends a role. -/
structure Palette where
  name : String
  text : String
  dim : String
  reset : String
  deriving Repr, DecidableEq

namespace Palette

/-- No colour at all. -/
def plain : Palette := ⟨"", "", "", ""⟩

/-- Terminal colours: names blue, text green, details dim. -/
def ansi : Palette := ⟨"\x1b[34m", "\x1b[32m", "\x1b[2m", "\x1b[0m"⟩

/-- The terminal palette when `enabled`, the plain one otherwise. -/
def choose (enabled : Bool) : Palette := if enabled then ansi else plain

end Palette

end Tokenweave
