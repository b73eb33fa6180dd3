import HookStyle.Chain.Resolution

/-!
# Errors

Every way in which an operation of the engine can fail, and its wording. An error concerns
one call only: nothing is built by halves, and the engine stays usable.
-/

namespace HookStyle

inductive StyleError where
  /-- A tree names a hook that the engine was not configured with. -/
  | unknownHook (hook : String)
  /-- A text that was to name a hook names none. -/
  | invalidHook (name : String)
  /-- Keyframes that this engine has not named. -/
  | unknownKeyframes (name : String)
  /-- A theme overrides a key that its group does not define. -/
  | unknownVariable (key : String)
  /-- A group's expression that this engine has not issued. -/
  | foreignVariable (expression : String)
  /-- A document that is no object of properties. -/
  | unsupportedDocument
  /-- A property's document holds a Boolean or an array. -/
  | unsupportedValue (property : String)
  /-- A parametric style got the wrong number of arguments. -/
  | arityMismatch (expected actual : Nat)
  /-- A text that is no configuration. -/
  | unreadableConfig
  /-- A configured name part that is no identifier. -/
  | invalidNamePart (text : String)
  /-- A configured fallback keyword without a visible character. -/
  | blankFallback
  /-- A condition without a toggle. -/
  | condition (cause : ConditionError)
  deriving DecidableEq, Repr

namespace StyleError

def message : StyleError → String
  | unknownHook hook =>
    "Hook '" ++ hook ++ "' is not configured. Add it to the hooks passed to the engine "
      ++ "configuration"
  | invalidHook name =>
    "Invalid hook '" ++ name ++ "': expected a ':' selector fragment, '@media <query>' or "
      ++ "'@supports <condition>'"
  | unknownKeyframes name => "Unknown keyframes '" ++ name ++ "'"
  | unknownVariable key => "Variable '" ++ key ++ "' is not defined in the variable group"
  | foreignVariable expression =>
    "Variable '" ++ expression ++ "' was not defined by this engine"
  | unsupportedDocument =>
    "Invalid value for property '<root>': expected an object of properties"
  | unsupportedValue property =>
    "Invalid value for property '" ++ property
      ++ "': expected a string, number, null or object"
  | arityMismatch expected actual =>
    "Dynamic style expects " ++ toString expected ++ " argument(s), got " ++ toString actual
  | unreadableConfig => "Invalid configuration: the text is not a configuration document"
  | invalidNamePart text =>
    "Invalid configuration: prefix '" ++ text ++ "' must be a non-empty identifier"
  | blankFallback => "Invalid configuration: fallback must not be empty"
  | condition cause => cause.message

end StyleError

end HookStyle
