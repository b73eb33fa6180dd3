import HookStyle.Error
import HookStyle.Json.Outline
import HookStyle.Text.Blank
import HookStyle.Toggle.System

/-!
# Configurations

What an engine is made from: its hooks, whether its text is written for reading, the
keyword for a missing value, and the part that is common to its generated names. A
configuration may be written as a JSON object with these four fields, or as an array of
them in order; what is not given has its default.

* `validate_withHooks`: with the defaults, any hooks make a valid configuration.
-/

namespace HookStyle

structure Config where
  hooks : List String
  debug : Bool
  fallback : String
  namePart : String
  deriving DecidableEq, Repr

namespace Config

/-- The common part of generated names unless another is chosen. -/
def defaultNamePart : String := "horizon"

def withHooks (hooks : List String) : Config :=
  ⟨hooks, false, ToggleSystem.defaultFallback, defaultNamePart⟩

def layout (config : Config) : Css.Layout := .ofDebug config.debug

/-- A character that may stand in the common part of names. -/
def isNameChar (c : Char) : Bool := c.isAlphanum || c == '-' || c == '_'

/-- A text that may be the common part of names. -/
def isNamePart (s : String) : Bool := !s.toList.isEmpty && s.toList.all isNameChar

/-- Checks the common part of names, then the fallback keyword. Hooks are checked when they
are registered. -/
def validate (config : Config) : Except StyleError Unit :=
  if !isNamePart config.namePart then .error (.invalidNamePart config.namePart)
  else if Text.isBlankText config.fallback then .error .blankFallback
  else .ok ()

/-! ## From text -/

/-- The value of an optional part, or the default of a part that is not given. -/
def partOr {α : Type} (default : α) (read? : Json.Outline → Option α) :
    Option Json.Outline → Option α
  | none => some default
  | some value => read? value

def ofParts? (hooks debug fallback namePart : Option Json.Outline) : Option Config :=
  (partOr [] Json.Outline.asTexts? hooks).bind fun hooks =>
    (partOr false Json.Outline.asBool? debug).bind fun debug =>
      (partOr ToggleSystem.defaultFallback Json.Outline.asText? fallback).bind fun fallback =>
        (partOr defaultNamePart Json.Outline.asText? namePart).map fun namePart =>
          ⟨hooks, debug, fallback, namePart⟩

/-- The value of a field, if it is given at most once. -/
def field? (name : String) (fields : List (Option String × Json.Outline)) :
    Option (Option Json.Outline) :=
  match fields.filter fun f => f.1 = some name with
  | [] => some none
  | [f] => some (some f.2)
  | _ => none

/-- The configuration of an outline. The keys of an object must have a value, and a known
field may not be repeated; unknown fields are of no account. -/
def ofOutline? : Json.Outline → Option Config
  | .object fields =>
    if fields.any fun f => f.1.isNone then none
    else
      (field? "hooks" fields).bind fun hooks =>
        (field? "debug" fields).bind fun debug =>
          (field? "fallback" fields).bind fun fallback =>
            (field? "prefix" fields).bind fun namePart =>
              ofParts? hooks debug fallback namePart
  | .array items =>
    if items.length ≤ 4 then ofParts? items[0]? items[1]? items[2]? items[3]? else none
  | _ => none

def ofText (s : String) : Except StyleError Config :=
  match (Json.Outline.ofText? s).bind ofOutline? with
  | none => .error .unreadableConfig
  | some config => config.validate.map fun _ => config

theorem isNamePart_default : isNamePart defaultNamePart = true := by decide +kernel

theorem not_isBlankText_default : Text.isBlankText ToggleSystem.defaultFallback = false := by
  decide +kernel

theorem validate_withHooks (hooks : List String) : (withHooks hooks).validate = .ok () := by
  simp [validate, withHooks, isNamePart_default, not_isBlankText_default]

end Config

end HookStyle
