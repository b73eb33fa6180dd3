import HookStyle.Proofs.Chain.Helpers
import HookStyle.Proofs.OrderedMap.Entries

/-!
# The first fault of chains

Compiling asks for the toggles of all conditions in turn, and for those of their operands
before their own. Two things can be at fault: a hook without a definition, and a conjunction
or a disjunction of nothing. Whatever has been compiled before it, and however deep it is
nested, the first fault that a walk over the conditions meets is the error of the whole.

* `visit`: a condition and what is inside, depth-first.
* `error?_resolve`, `error?_addProperties`: the error of every stage is the first fault of
  what it visits.
* `compile_eq_error_iff_first`: when chains do not compile, and with which error.
-/

namespace HookStyle

namespace Condition

mutual

/-- A condition and all conditions inside it, depth-first and from the left to the right. -/
def visit : Condition → List Condition
  | hook name => [hook name]
  | all cs => all cs :: visitAll cs
  | any cs => any cs :: visitAll cs
  | not c => not c :: c.visit

def visitAll : List Condition → List Condition
  | [] => []
  | c :: cs => c.visit ++ visitAll cs

end

end Condition

/-- All conditions of links and what is inside them, in the order of the links. -/
def visitLinks (links : List (Condition × Setting)) : List Condition :=
  links.flatMap fun l => l.1.visit

/-- All conditions of chains and what is inside them, in the order of the properties. A chain
without links has none. -/
def visitChains (chains : List (String × Chain)) : List Condition :=
  chains.flatMap fun e => visitLinks e.2.links

namespace ToggleSystem

/-- What is wrong with a condition, whatever its operands are. -/
def fault? (system : ToggleSystem) : Condition → Option ConditionError
  | .hook name => if name ∈ system.definitions.keys then none else some (.unknownHook name)
  | .all [] => some .emptyAll
  | .any [] => some .emptyAny
  | _ => none

/-- The first fault among conditions. -/
def firstFault? (system : ToggleSystem) (cs : List Condition) : Option ConditionError :=
  cs.findSome? system.fault?

variable {system : ToggleSystem}

theorem firstFault?_append (cs ds : List Condition) :
    system.firstFault? (cs ++ ds) = (system.firstFault? cs).or (system.firstFault? ds) :=
  List.findSome?_append

/-- The fault of a compound condition comes before those inside it, and excludes them. -/
theorem firstFault?_all (cs : List Condition) :
    system.firstFault? (.all cs :: Condition.visitAll cs) =
      (system.firstFault? (Condition.visitAll cs)).or (system.fault? (.all cs)) := by
  cases cs with
  | nil => rfl
  | cons c cs => exact (Option.or_none).symm

theorem firstFault?_any (cs : List Condition) :
    system.firstFault? (.any cs :: Condition.visitAll cs) =
      (system.firstFault? (Condition.visitAll cs)).or (system.fault? (.any cs)) := by
  cases cs with
  | nil => rfl
  | cons c cs => exact (Option.or_none).symm

/-! ## Conditions -/

/-- A single hook fails to resolve exactly for its own fault. -/
theorem error?_hook (name : String) :
    Outcome.error? (system.resolve (.hook name)) = system.fault? (.hook name) := by
  rw [fault?]
  cases h : system.id? name with
  | none =>
    have hname : name ∉ system.definitions.keys := by
      rw [← id?_isSome, h]
      exact Bool.false_ne_true
    rw [resolve_unknown h, if_neg hname]
    rfl
  | some id =>
    have hname : name ∈ system.definitions.keys := by
      rw [← id?_isSome, h]
      rfl
    rw [resolve_hook h, if_pos hname]
    rfl

/-- The connectives look at the number of their operands only. -/
theorem error?_conjunction {cs : List Condition} {rs : List Resolution} (id : String)
    (h : rs.length = cs.length) :
    Outcome.error? (Resolution.conjunction id rs) = system.fault? (.all cs) := by
  match rs, cs with
  | [], [] => rfl
  | [_], _ :: _ => rfl
  | _ :: _ :: _, _ :: _ => rfl

theorem error?_disjunction {cs : List Condition} {rs : List Resolution} (id : String)
    (h : rs.length = cs.length) :
    Outcome.error? (Resolution.disjunction id rs) = system.fault? (.any cs) := by
  match rs, cs with
  | [], [] => rfl
  | [_], _ :: _ => rfl
  | _ :: _ :: _, _ :: _ => rfl

/-- The error of a list of conditions is the first fault inside it, when that is so for each
of them. -/
theorem error?_resolveAll {cs : List Condition}
    (h : ∀ c ∈ cs, Outcome.error? (system.resolve c) = system.firstFault? c.visit) :
    Outcome.error? (system.resolveAll cs) = system.firstFault? (Condition.visitAll cs) := by
  induction cs with
  | nil => rfl
  | cons c cs ih =>
    have hrest := ih fun d hd => h d (List.mem_cons_of_mem _ hd)
    rw [resolveAll, Condition.visitAll, firstFault?_append, ← h c List.mem_cons_self]
    exact Outcome.error?_bind fun r _ => Outcome.error?_map.trans hrest

/-- A condition has no toggle because of the first fault inside it. -/
theorem error?_resolve (c : Condition) :
    Outcome.error? (system.resolve c) = system.firstFault? c.visit := by
  induction c using Condition.operandInduction with
  | hook name =>
    rw [error?_hook, Condition.visit, firstFault?, List.findSome?_singleton]
  | not c ih =>
    rw [resolve, Outcome.error?_map, ih]
    rfl
  | all cs ih =>
    rw [resolve, Condition.visit, firstFault?_all, ← error?_resolveAll ih]
    exact Outcome.error?_bind fun rs hrs =>
      error?_conjunction _ (resolves_of_resolveAll hrs).1
  | any cs ih =>
    rw [resolve, Condition.visit, firstFault?_any, ← error?_resolveAll ih]
    exact Outcome.error?_bind fun rs hrs =>
      error?_disjunction _ (resolves_of_resolveAll hrs).1

/-! ## Chains -/

/-- The links of a chain fail for the first fault inside their conditions. -/
theorem error?_compileLinks (property : String) (links : List (Condition × Setting))
    (helpers : List Helper) (inner : Css.Expression) :
    Outcome.error? (system.compileLinks property links helpers inner) =
      system.firstFault? (visitLinks links) := by
  induction links generalizing helpers inner with
  | nil => rfl
  | cons l links ih =>
    obtain ⟨condition, setting⟩ := l
    rw [compileLinks, visitLinks, List.flatMap_cons, firstFault?_append, ← error?_resolve]
    exact Outcome.error?_bind fun r _ => ih _ _

theorem error?_addProperty (style : Style) (property : String) (chain : Chain) :
    Outcome.error? (system.addProperty style property chain) =
      system.firstFault? (visitLinks chain.links) := by
  rw [addProperty, Outcome.error?_map]
  obtain ⟨base, links⟩ := chain
  cases links with
  | nil => rfl
  | cons l links => exact Outcome.error?_map.trans (error?_compileLinks property _ _ _)

/-- What has been compiled before has no part in the error. -/
theorem error?_addProperties (chains : List (String × Chain)) (style : Style) :
    Outcome.error? (system.addProperties chains style) =
      system.firstFault? (visitChains chains) := by
  induction chains generalizing style with
  | nil => rfl
  | cons e chains ih =>
    obtain ⟨property, chain⟩ := e
    rw [addProperties, visitChains, List.flatMap_cons, firstFault?_append,
      ← error?_addProperty style property]
    exact Outcome.error?_bind fun middle _ => ih middle

/-! ## Literals -/

/-- The chain of a setting under no condition. -/
def literalChain (s : Setting) : Chain := ⟨s, []⟩

theorem addProperties_literals (es : List (String × Setting)) (style : Style) :
    system.addProperties (es.map fun e => (e.1, literalChain e.2)) style =
      .ok (style.insertAll es) := by
  induction es generalizing style with
  | nil => rfl
  | cons e es ih => exact ih (style.insert e.1 e.2)

/-- Literal settings alone never fail, and compile to themselves. -/
theorem compile_literals (literals : Style) :
    system.compile (literals.filterMap fun s => some (literalChain s)) = .ok literals := by
  have hentries : (literals.filterMap fun s => some (literalChain s)).entries =
      literals.entries.map fun e => (e.1, literalChain e.2) := by
    simp [OrderedMap.filterMap]
  have hliterals : OrderedMap.insertAll .empty literals.entries = literals :=
    OrderedMap.ext (OrderedMap.entries_ofList literals.keys_nodup)
  rw [compile, hentries, addProperties_literals, hliterals]

/-! ## The first fault -/

/-- Chains do not compile exactly when some condition in them is at fault, and the error is
the fault of the first one, in the order of the properties, of their links, and of a
depth-first walk over each condition. Chains without links always compile, to themselves. -/
theorem compile_eq_error_iff_first (system : ToggleSystem) (chains : OrderedMap Chain) :
    ((∃ error, system.compile chains = .error error) ↔
      ∃ c ∈ visitChains chains.entries, ∃ error, system.fault? c = some error) ∧
    (∀ error, system.compile chains = .error error ↔
      ∃ before c after, visitChains chains.entries = before ++ c :: after ∧
        (∀ b ∈ before, system.fault? b = none) ∧ system.fault? c = some error) ∧
    ∀ literals : Style,
      system.compile (literals.filterMap fun s => some (literalChain s)) = .ok literals := by
  have herror : ∀ error, system.compile chains = .error error ↔
      (visitChains chains.entries).findSome? system.fault? = some error := by
    intro error
    rw [← Outcome.error?_eq_some, compile, error?_addProperties]
    rfl
  refine ⟨?_, ?_, compile_literals⟩
  · simp only [herror, ← Option.isSome_iff_exists, List.findSome?_isSome_iff]
  · intro error
    rw [herror, List.findSome?_eq_some_iff]
    constructor
    · rintro ⟨before, c, after, hvisit, hfault, hbefore⟩
      exact ⟨before, c, after, hvisit, hbefore, hfault⟩
    · rintro ⟨before, c, after, hvisit, hbefore, hfault⟩
      exact ⟨before, c, after, hvisit, hfault, hbefore⟩

end ToggleSystem

end HookStyle
