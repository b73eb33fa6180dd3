import HookStyle.OrderedMap.Basic

/-!
# Documents

A document of the data format JSON, already parsed: its numbers are 64-bit numbers and the
keys of its objects keep their order.
-/

namespace HookStyle

inductive Document where
  | null
  | bool (b : Bool)
  | number (x : Float)
  | text (s : String)
  | array (items : List Document)
  | object (fields : List (String × Document))

namespace Document

/-- The object of a list of fields: a repeated key has its first place and its last
value. -/
def ofFields (fields : List (String × Document)) : Document :=
  .object (OrderedMap.ofList fields).entries

end Document

end HookStyle
