import HookStyle.Json.Token

/-!
# Outlines

An outline is what a configuration needs of a JSON text: its structure, its Booleans and
those of its texts that have a value. Tokens are read one after the other, with the arrays
and objects that are still open on a stack, so that nesting has no limit.
-/

namespace HookStyle.Json

inductive Outline where
  | null
  | bool (b : Bool)
  | number
  | text (s : Option String)
  | array (items : List Outline)
  | object (fields : List (Option String × Outline))

/-- An array or an object that is still open, its entries in reverse. An object waits for
the value of a key. -/
inductive Enclosure where
  | array (items : List Outline)
  | object (fields : List (Option String × Outline)) (key : Option String)

/-- What the reader waits for. -/
inductive Stage where
  | value
  | item
  /-- A key of the object with these fields, or its end while it is empty and `first`. -/
  | key (fields : List (Option String × Outline)) (first : Bool)
  /-- The colon behind a key. -/
  | colon (fields : List (Option String × Outline)) (key : Option String)
  /-- What follows a complete value. -/
  | done (value : Outline)

/-- The open enclosures, the innermost first, and what is waited for. -/
structure Reader where
  stack : List Enclosure
  stage : Stage

namespace Reader

/-- Takes the first token of a value. -/
def startValue (stack : List Enclosure) : Token → Option Reader
  | .null => some ⟨stack, .done .null⟩
  | .bool b => some ⟨stack, .done (.bool b)⟩
  | .number => some ⟨stack, .done .number⟩
  | .text s => some ⟨stack, .done (.text s)⟩
  | .leftBracket => some ⟨.array [] :: stack, .item⟩
  | .leftBrace => some ⟨stack, .key [] true⟩
  | _ => none

/-- Takes the token behind a complete value. -/
def endValue (value : Outline) : List Enclosure → Token → Option Reader
  | .array items :: stack, .comma => some ⟨.array (value :: items) :: stack, .value⟩
  | .array items :: stack, .rightBracket =>
    some ⟨stack, .done (.array (value :: items).reverse)⟩
  | .object fields key :: stack, .comma => some ⟨stack, .key ((key, value) :: fields) false⟩
  | .object fields key :: stack, .rightBrace =>
    some ⟨stack, .done (.object ((key, value) :: fields).reverse)⟩
  | _, _ => none

/-- Takes one token; `none` when it cannot stand there. -/
def step (r : Reader) (token : Token) : Option Reader :=
  match r.stage, token with
  | .value, token => startValue r.stack token
  | .item, .rightBracket => some ⟨r.stack.drop 1, .done (.array [])⟩
  | .item, token => startValue r.stack token
  | .key fields _, .text key => some ⟨r.stack, .colon fields key⟩
  | .key _ true, .rightBrace => some ⟨r.stack, .done (.object [])⟩
  | .colon fields key, .colon => some ⟨.object fields key :: r.stack, .value⟩
  | .done value, token => endValue value r.stack token
  | _, _ => none

def finish? (r : Reader) : Option Outline :=
  match r.stack, r.stage with
  | [], .done value => some value
  | _, _ => none

end Reader

namespace Outline

def ofText? (s : String) : Option Outline :=
  (tokens? s).bind fun tokens =>
    (tokens.foldlM Reader.step ⟨[], .value⟩).bind Reader.finish?

def asText? : Outline → Option String
  | text s => s
  | _ => none

def asBool? : Outline → Option Bool
  | bool b => some b
  | _ => none

def asTexts? : Outline → Option (List String)
  | array items => items.mapM asText?
  | _ => none

end Outline

end HookStyle.Json
