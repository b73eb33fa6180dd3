import HookStyle.Chain.Compile
import HookStyle.Proofs.Chain.Toggles

/-!
# Systems that agree about hooks

A chain is compiled from the layout, the fallback keyword and the identifiers of the hooks that
its conditions name. Two systems in which these are the same compile it to the same result,
including any error. Their other hooks, and the order of all, do not enter.

* `Agree.resolve_eq`: a condition has the same toggle and the same helpers in both systems.
* `Agree.compile_eq`: chains have the same style in both systems, in the same order.
-/

namespace HookStyle.ToggleSystem

/-- Systems that write alike and have the same identifiers for the given hooks, or none. -/
structure Agree (system system' : ToggleSystem) (asked : String → Prop) : Prop where
  layout : system.layout = system'.layout
  fallback : system.fallback = system'.fallback
  ids : ∀ name, asked name → system.id? name = system'.id? name

variable {system system' : ToggleSystem} {asked : String → Prop}

/-! ## Conditions -/

/-- Lists are resolved alike when each of their conditions is. -/
theorem resolveAll_eq_of_forall {cs : List Condition}
    (h : ∀ c ∈ cs, (∀ name ∈ c.hooks, asked name) → system.resolve c = system'.resolve c)
    (hc : ∀ name ∈ Condition.hooksOf cs, asked name) :
    system.resolveAll cs = system'.resolveAll cs := by
  induction cs with
  | nil => rfl
  | cons c cs ih =>
    rw [Condition.hooksOf, List.forall_mem_append] at hc
    rw [resolveAll, resolveAll, h c List.mem_cons_self hc.1,
      ih (fun d hd => h d (List.mem_cons_of_mem _ hd)) hc.2]

/-- A condition that asks for agreed hooks only has the same toggle and helpers, or the same
error. -/
theorem Agree.resolve_eq (h : Agree system system' asked) {c : Condition}
    (hc : ∀ name ∈ c.hooks, asked name) : system.resolve c = system'.resolve c := by
  induction c using Condition.operandInduction with
  | hook name =>
    have hname : system.id? name = system'.id? name := h.ids name (hc name List.mem_cons_self)
    rw [resolve, resolve, hname]
  | all cs ih => rw [resolve, resolve, resolveAll_eq_of_forall ih hc]
  | any cs ih => rw [resolve, resolve, resolveAll_eq_of_forall ih hc]
  | not c ih => rw [resolve, resolve, ih hc]

/-! ## Chains -/

theorem Agree.renderSetting_eq (h : Agree system system' asked) (property : String)
    (s : Setting) : system.renderSetting property s = system'.renderSetting property s := by
  cases s with
  | none => exact h.fallback
  | some v => rfl

/-- Links are added alike to whatever has been compiled before them. -/
theorem Agree.compileLinks_eq (h : Agree system system' asked) (property : String)
    {links : List (Condition × Setting)} (hl : ∀ l ∈ links, ∀ name ∈ l.1.hooks, asked name)
    (helpers : List Helper) (inner : Css.Expression) :
    system.compileLinks property links helpers inner =
      system'.compileLinks property links helpers inner := by
  induction links generalizing helpers inner with
  | nil => rfl
  | cons l links ih =>
    obtain ⟨condition, setting⟩ := l
    rw [compileLinks, compileLinks, h.resolve_eq (hl _ List.mem_cons_self),
      h.renderSetting_eq property setting]
    exact congrArg _ (funext fun r => ih (fun l hm => hl l (List.mem_cons_of_mem _ hm)) _ _)

theorem Agree.compileChain_eq (h : Agree system system' asked) (property : String)
    {chain : Chain} (hc : ∀ l ∈ chain.links, ∀ name ∈ l.1.hooks, asked name) :
    system.compileChain property chain = system'.compileChain property chain := by
  obtain ⟨base, links⟩ := chain
  cases links with
  | nil => rfl
  | cons l links =>
    simp only [compileChain, h.compileLinks_eq property hc, h.renderSetting_eq property base,
      h.layout]

/-! ## Styles -/

theorem Agree.addProperty_eq (h : Agree system system' asked) (style : Style)
    (property : String) {chain : Chain}
    (hc : ∀ l ∈ chain.links, ∀ name ∈ l.1.hooks, asked name) :
    system.addProperty style property chain = system'.addProperty style property chain := by
  have hhelper : system.addHelper = system'.addHelper := by
    funext style helper
    rw [addHelper, addHelper, h.layout]
  rw [addProperty, addProperty, h.compileChain_eq property hc, hhelper]

theorem Agree.addProperties_eq (h : Agree system system' asked) {chains : List (String × Chain)}
    (hc : ∀ e ∈ chains, ∀ l ∈ e.2.links, ∀ name ∈ l.1.hooks, asked name) (style : Style) :
    system.addProperties chains style = system'.addProperties chains style := by
  induction chains generalizing style with
  | nil => rfl
  | cons e chains ih =>
    obtain ⟨property, chain⟩ := e
    rw [addProperties, addProperties, h.addProperty_eq style property (hc _ List.mem_cons_self)]
    exact congrArg _ (funext fun s => ih (fun e he => hc e (List.mem_cons_of_mem _ he)) s)

/-- Systems that agree about the hooks of all conditions compile chains alike. -/
theorem Agree.compile_eq (h : Agree system system' asked) {chains : OrderedMap Chain}
    (hc : ∀ e ∈ chains.entries, ∀ l ∈ e.2.links, ∀ name ∈ l.1.hooks, asked name) :
    system.compile chains = system'.compile chains :=
  h.addProperties_eq hc .empty

end HookStyle.ToggleSystem
