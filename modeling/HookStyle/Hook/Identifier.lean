import HookStyle.Css.Layout
import HookStyle.Text.Numeral
import HookStyle.Text.Units

/-!
# Identifiers

Hooks and compound conditions own custom properties whose names are made from a hash: the
polynomial of the text's UTF-16 code units in 31, below `2^31`, as a numeral in base 36.
With pretty layout a hook's identifier also shows the hook's name.
-/

namespace HookStyle.Identifier

/-- One step of the hash, in words of 32 bits: times 31, plus the unit, below `2^31`. -/
def hashStep (word : UInt32) (unit : Nat) : UInt32 :=
  ((word <<< 5) - word + UInt32.ofNat unit) &&& 0x7fffffff

def hashWord (s : String) : UInt32 := (Text.units16 s).foldl hashStep 0

/-- The hash of a text as a numeral. -/
def hash (s : String) : String := String.ofList (Text.Numeral.encode (hashWord s).toNat)

/-- A character of a hook's name as it may stand in an identifier. -/
def readable (c : Char) : Char := if c.isAlphanum || c == '-' then c else '_'

def ofHook (layout : Css.Layout) (name definition : String) : String :=
  match layout with
  | .compact => hash definition
  | .pretty => name.map readable ++ "-" ++ hash definition

/-- The identifier of a compound condition, made from its canonical text. -/
def ofCondition (text : String) : String := "cond-" ++ hash text

end HookStyle.Identifier
