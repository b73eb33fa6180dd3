import HookStyle.Text.Blank
import HookStyle.Text.Start

/-!
# Hook names

A hook is named by a selector fragment such as `:hover`, or by a `@media` or `@supports`
prelude. White space means the characters of `Text.isBlank`.

* A fragment has one or two colons, then a visible character that is no colon, and no line
  feed after its first white space.
* A prelude has white space after the at-word, then a visible character and no line feed
  after that one.
-/

namespace HookStyle

inductive HookKind where
  | selector
  | media
  | supports
  deriving DecidableEq, Repr

namespace HookKind

/-- What may follow the colons of a selector fragment. -/
def isFragment : List Char → Bool
  | [] => false
  | c :: cs =>
    !Text.isBlank c && c != ':' &&
      ((cs.dropWhile fun d => !Text.isBlank d).drop 1).all (· != '\n')

/-- What may follow the at-word of a prelude. -/
def isQuery : List Char → Bool
  | [] => false
  | c :: cs =>
    Text.isBlank c &&
      match cs.dropWhile Text.isBlank with
      | [] => false
      | _ :: rest => rest.all (· != '\n')

def isSelector : List Char → Bool
  | ':' :: ':' :: cs => isFragment cs
  | ':' :: cs => isFragment cs
  | _ => false

def isPrelude (word cs : List Char) : Bool := (Text.stripStart? word cs).any isQuery

/-- The kind of the hook with a name, or `none` for a text that names no hook. -/
def ofName? (name : String) : Option HookKind :=
  if isSelector name.toList then some selector
  else if isPrelude "@media".toList name.toList then some media
  else if isPrelude "@supports".toList name.toList then some supports
  else none

end HookKind

structure Hook where
  name : String
  kind : HookKind
  kind_eq : HookKind.ofName? name = some kind

namespace Hook

/-- The hook with a name. -/
def ofName? (name : String) : Option Hook :=
  match h : HookKind.ofName? name with
  | some kind => some ⟨name, kind, h⟩
  | none => none

/-- The definition of a hook's toggle: a selector in which `&` is the styled element, or
the prelude of an at-rule. -/
def definition (hook : Hook) : String :=
  match hook.kind with
  | .selector => "&" ++ hook.name
  | .media | .supports => hook.name

@[ext] theorem ext {g h : Hook} (e : g.name = h.name) : g = h := by
  obtain ⟨name, kind, hk⟩ := g
  obtain ⟨name', kind', hk'⟩ := h
  obtain rfl : name = name' := e
  obtain rfl : kind = kind' := Option.some.inj (hk.symm.trans hk')
  rfl

/-- A name has at most one reading as a hook, and the hook keeps it. -/
theorem ofName?_eq_some_iff {name : String} {hook : Hook} :
    ofName? name = some hook ↔ hook.name = name := by
  unfold ofName?
  split
  next kind hk =>
    constructor
    · intro h
      rw [← Option.some.inj h]
    · intro h
      exact congrArg some (Hook.ext h.symm)
  next hk =>
    constructor
    · intro h
      cases h
    · rintro rfl
      rw [hook.kind_eq] at hk
      cases hk

theorem ofName?_isSome {name : String} :
    (ofName? name).isSome ↔ (HookKind.ofName? name).isSome := by
  unfold ofName?
  split
  next kind hk => simp [hk]
  next hk => simp [hk]

end Hook

end HookStyle
