import HookStyle.Proofs.Chain.Agreement
import HookStyle.Proofs.Hook.Collision
import HookStyle.Proofs.Hook.Operands
import HookStyle.Proofs.Tree.Meaning
import Mathlib.Data.List.Find

/-!
# Hooks that a declaration does not use

What a registry makes of a declaration depends on its layout, on its fallback keyword, and on
which of the declaration's own hooks it holds. The identifier of a hook is made from the hook
alone, so neither the place of a hook in the registry nor the other hooks leave a trace.

* `unknownHook?_congr`: the check of a declaration asks about the declaration's hooks only.
* `id?_eq_of_contains_eq`: a hook has the same identifier in all registries of one layout.
* `compile_eq_of_contains_eq`: registries that hold the same of a declaration's hooks compile
  it alike, or refuse it with the same error.
* `compile_depends_on_hooks`: the same for registries that are built from names.
-/

namespace HookStyle

namespace Tree

variable {known known' : String → Bool} {t : Tree} {children : List (String × Tree)}

theorem unknownBelow?_congr
    (h : ∀ e ∈ children, e.2.unknownHook? known = e.2.unknownHook? known') :
    unknownBelow? known children = unknownBelow? known' children := by
  induction children with
  | nil => rfl
  | cons e children ih =>
    obtain ⟨key, t⟩ := e
    rw [unknownBelow?, unknownBelow?, h _ List.mem_cons_self,
      ih fun e he => h e (List.mem_cons_of_mem _ he)]

theorem unknownHook?_congr (h : ∀ hook, t.Asks hook → known hook = known' hook) :
    t.unknownHook? known = t.unknownHook? known' := by
  induction t using childInduction with
  | leaf s => rfl
  | branch children ih =>
    have hkeys : ((Entries.keys children).find? fun key => key ≠ defaultKey && !known key) =
        (Entries.keys children).find? fun key => key ≠ defaultKey && !known' key := by
      refine List.find?_congr fun key hkey => ?_
      by_cases hne : key = defaultKey
      · simp [hne]
      · rw [h key (asks_branch.mpr (Or.inl ⟨hkey, hne⟩))]
    have hbelow : unknownBelow? known children = unknownBelow? known' children :=
      unknownBelow?_congr fun e he =>
        ih e he fun hook hasks => h hook (asks_branch.mpr (Or.inr ⟨e, he, hasks⟩))
    rw [unknownHook?, unknownHook?, hkeys, hbelow]

end Tree

namespace Declaration

/-- A declaration asks for the hooks that its trees ask for. -/
def Asks (d : Declaration) (hook : String) : Prop := ∃ e ∈ d.entries, e.2.tree.Asks hook

variable {known known' : String → Bool} {d : Declaration}

theorem unknownHook?_congr (h : ∀ hook, d.Asks hook → known hook = known' hook) :
    d.unknownHook? known = d.unknownHook? known' := by
  have htree : ∀ e ∈ d.entries,
      e.2.tree.unknownHook? known = e.2.tree.unknownHook? known' := fun e he =>
    Tree.unknownHook?_congr fun hook hasks => h hook ⟨e, he, hasks⟩
  rw [unknownHook?, unknownHook?]
  generalize d.entries = es at htree
  induction es with
  | nil => rfl
  | cons e es ih =>
    rw [List.findSome?_cons, List.findSome?_cons, htree e List.mem_cons_self,
      ih fun e he => htree e (List.mem_cons_of_mem _ he)]

/-- The conditions of a declaration name hooks that it asks for. -/
theorem asks_of_mem_hooks {e : String × Chain} (he : e ∈ d.chains.entries)
    {link : Condition × Setting} (hl : link ∈ e.2.links) {name : String}
    (hn : name ∈ link.1.hooks) : d.Asks name := by
  obtain ⟨t, ht, hchain⟩ := exists_of_mem_chains he
  rw [hchain] at hl
  obtain ⟨l, hm, rfl⟩ := List.mem_map.mp hl
  have hhooks : l.condition.hooks = l.hooks := Override.hooks_condition ⟨l.hooks, l.setting⟩
  exact ⟨_, OrderedMap.mem_of_get? ht,
    Tree.asks_of_mem_leaves (List.mem_filter.mp hm).1 (hhooks ▸ hn)⟩

end Declaration

namespace Registry

variable {r r' : Registry} {d : Declaration}

/-! ## Two registries -/

/-- The hook with a name is the same in all registries, and so is its identifier. -/
theorem id?_eq_of_contains_eq (hlayout : r.layout = r'.layout) {name : String}
    (h : r.contains name = r'.contains name) : r.toggles.id? name = r'.toggles.id? name := by
  cases hc : r.contains name with
  | true =>
    obtain ⟨hook, hmem, rfl⟩ := contains_iff.mp hc
    obtain ⟨hook', hmem', hname⟩ := contains_iff.mp (h.symm.trans hc)
    obtain rfl : hook' = hook := Hook.ext hname
    rw [id?_of_mem_hooks hmem, id?_of_mem_hooks hmem', hlayout]
  | false =>
    have hnone : ∀ {s : Registry}, s.contains name = false → s.toggles.id? name = none := by
      intro s hs
      rw [← Option.not_isSome_iff_eq_none, id?_isSome_iff, hs]
      exact Bool.false_ne_true
    rw [hnone hc, hnone (h.symm.trans hc)]

theorem agree_toggles (hlayout : r.layout = r'.layout) (hfallback : r.fallback = r'.fallback)
    {asked : String → Prop} (h : ∀ name, asked name → r.contains name = r'.contains name) :
    r.toggles.Agree r'.toggles asked :=
  ⟨hlayout, hfallback, fun name hn => id?_eq_of_contains_eq hlayout (h name hn)⟩

/-- Only the answers about hooks that the declaration asks for enter the compiled style. -/
theorem compile_eq_of_contains_eq (hlayout : r.layout = r'.layout)
    (hfallback : r.fallback = r'.fallback)
    (h : ∀ hook, d.Asks hook → r.contains hook = r'.contains hook) :
    r.compile d = r'.compile d := by
  have hchains : r.toggles.compile d.chains = r'.toggles.compile d.chains :=
    (agree_toggles hlayout hfallback h).compile_eq fun e he l hl name hn =>
      Declaration.asks_of_mem_hooks he hl hn
  rw [compile, compile, Declaration.unknownHook?_congr h, compileChains, compileChains, hchains]

/-- A declaration compiles when all hooks it asks for are registered. -/
theorem compile_succeeds_iff_asks :
    (∃ style, r.compile d = .ok style) ↔ ∀ hook, d.Asks hook → r.contains hook = true := by
  rw [compile_succeeds_iff, Declaration.unknownHook?_eq_none_iff]
  constructor
  · rintro h hook ⟨e, he, hasks⟩
    exact h e he hook hasks
  · exact fun h e he hook hasks => h hook ⟨e, he, hasks⟩

/-! ## Registries of names -/

theorem text_ofNames {names : List String} {layout : Css.Layout} {fallback : String}
    (hr : ofNames names layout fallback = .ok r) : r.layout = layout ∧ r.fallback = fallback := by
  obtain ⟨hooks, -, rfl⟩ := Outcome.map_eq_ok.mp hr
  exact ⟨rfl, rfl⟩

/-- A registry contains the names it was made from. -/
theorem contains_ofNames {names : List String} {layout : Css.Layout} {fallback : String}
    (hr : ofNames names layout fallback = .ok r) {name : String} :
    r.contains name = true ↔ name ∈ names := by
  rw [contains, List.contains_iff_mem, names_ofNames hr, List.mem_eraseDups]

/-- Registries with one layout and one fallback keyword, from any names, agree about a
declaration whenever the same of its hooks are among their names. They give the same style, in
the same order, when all of them are, and a registry without one of them gives none. -/
theorem compile_depends_on_hooks {names names' : List String} {layout : Css.Layout}
    {fallback : String} (hr : ofNames names layout fallback = .ok r)
    (hr' : ofNames names' layout fallback = .ok r') (d : Declaration) :
    ((∀ hook, d.Asks hook → hook ∈ names ∧ hook ∈ names') →
      ∃ style, r.compile d = .ok style ∧ r'.compile d = .ok style) ∧
    (∀ hook, d.Asks hook → hook ∈ names → hook ∉ names' →
      ∀ style, r'.compile d ≠ .ok style) ∧
    (∀ hook, d.Asks hook → hook ∈ names' → hook ∉ names →
      ∀ style, r.compile d ≠ .ok style) ∧
    ((∀ hook, d.Asks hook → (hook ∈ names ↔ hook ∈ names')) → r.compile d = r'.compile d) := by
  obtain ⟨hlayout, hfallback⟩ := text_ofNames hr
  obtain ⟨hlayout', hfallback'⟩ := text_ofNames hr'
  have hsame : (∀ hook, d.Asks hook → (hook ∈ names ↔ hook ∈ names')) →
      r.compile d = r'.compile d := fun h =>
    compile_eq_of_contains_eq (hlayout.trans hlayout'.symm) (hfallback.trans hfallback'.symm)
      fun hook hasks => by
        rw [Bool.eq_iff_iff, contains_ofNames hr, contains_ofNames hr']
        exact h hook hasks
  refine ⟨fun h => ?_, fun hook hasks _ hnot style hs => ?_, fun hook hasks _ hnot style hs => ?_,
    hsame⟩
  · obtain ⟨style, hs⟩ := compile_succeeds_iff_asks.mpr fun hook hasks =>
      (contains_ofNames hr).mpr (h hook hasks).1
    have heq := hsame fun hook hasks => iff_of_true (h hook hasks).1 (h hook hasks).2
    exact ⟨style, hs, heq ▸ hs⟩
  · exact hnot ((contains_ofNames hr').mp (compile_succeeds_iff_asks.mp ⟨style, hs⟩ hook hasks))
  · exact hnot ((contains_ofNames hr).mp (compile_succeeds_iff_asks.mp ⟨style, hs⟩ hook hasks))

/-- The hooks of `Engine.focusInHover` in the other order and one of them twice, behind a query
that it does not use. -/
def focusHoverPrint : List String := ["@media print", ":focus", ":hover", ":focus"]

def blackOnPrint : KeyedTree := KeyedTree.empty.on "@media print" (.literal (.text "black"))

theorem compile_focusHoverPrint : ∃ r r' style,
    ofNames [":hover", ":focus"] .compact ToggleSystem.defaultFallback = .ok r ∧
      ofNames focusHoverPrint .compact ToggleSystem.defaultFallback = .ok r' ∧
        r.compile (.single "color" Engine.focusInHover) = .ok style ∧
          r'.compile (.single "color" Engine.focusInHover) = .ok style ∧
            ∀ style, r.compile (.single "color" blackOnPrint) ≠ .ok style := by
  obtain ⟨r, hr⟩ : ∃ r, ofNames [":hover", ":focus"] .compact
      ToggleSystem.defaultFallback = .ok r := ⟨_, rfl⟩
  obtain ⟨r', hr'⟩ : ∃ r', ofNames focusHoverPrint .compact
      ToggleSystem.defaultFallback = .ok r' := ⟨_, rfl⟩
  have hasks : ∀ hook, Declaration.Asks (.single "color" Engine.focusInHover) hook →
      hook ∈ [":hover", ":focus"] ∧ hook ∈ focusHoverPrint := by
    have hknown : Declaration.unknownHook?
        (fun hook => decide (hook ∈ [":hover", ":focus"] ∧ hook ∈ focusHoverPrint))
          (.single "color" Engine.focusInHover) = none := rfl
    rintro hook ⟨e, he, h⟩
    exact of_decide_eq_true (Declaration.unknownHook?_eq_none_iff.mp hknown e he hook h)
  have hprint : Declaration.Asks (.single "color" blackOnPrint) "@media print" :=
    ⟨_, List.mem_cons_self, .here List.mem_cons_self, by decide⟩
  obtain ⟨style, hs, hs'⟩ := (compile_depends_on_hooks hr hr' _).1 hasks
  obtain ⟨-, -, honly, -⟩ := compile_depends_on_hooks hr hr' (.single "color" blackOnPrint)
  exact ⟨r, r', style, hr, hr', hs, hs', honly _ hprint (by decide) (by decide)⟩

end Registry

end HookStyle
