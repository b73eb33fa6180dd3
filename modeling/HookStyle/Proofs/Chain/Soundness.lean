import HookStyle.Proofs.Chain.Reading
import HookStyle.Proofs.Decimal.Characters

/-!
# Soundness of fallback chains

The text of a chain evaluates to the setting of the last link whose condition holds, or to
the base of the chain when there is none, in every state of the hooks.

* `evaluate_chainExpression`: the text of a chain, in every style that serves its
  conditions.
* `evaluate_compile`: the text of a property in the compiled style.
* `computed_of_links`, `computed_of_no_links`: the computed value of a property that has a
  chain, in any style that has been written over the compiled one.
-/

namespace HookStyle

open Css Evaluation
open Css.Expression (blankUnless)

/-- The setting of a chain: that of the last link whose condition holds, else the base. -/
def Chain.select (active : String → Bool) (chain : Chain) : Setting :=
  match (chain.links.filter fun l => l.1.holds active).getLast? with
  | some l => l.2
  | none => chain.base

def Chain.settings (chain : Chain) : List Setting := chain.base :: chain.links.map Prod.snd

/-- The last link of a chain decides while its condition holds. -/
theorem Chain.select_concat (active : String → Bool) (base : Setting)
    (links : List (Condition × Setting)) (l : Condition × Setting) :
    (Chain.mk base (links ++ [l])).select active =
      if l.1.holds active then l.2 else (Chain.mk base links).select active := by
  unfold select
  rw [List.filter_append, List.filter_singleton]
  cases l.1.holds active <;> simp

theorem Chain.mem_settings_concat {base s : Setting} {links : List (Condition × Setting)}
    {l : Condition × Setting} : s ∈ (Chain.mk base (links ++ [l])).settings ↔
      s ∈ (Chain.mk base links).settings ∨ s = l.2 := by
  simp [settings, or_assoc]

namespace ToggleSystem

/-- The text of a setting has no references, and its parentheses match. -/
def IsPlain (system : ToggleSystem) (s : Setting) : Prop :=
  match s with
  | some v => v.isPlain = true
  | none => Evaluation.isPlain system.fallback = true

instance decidableIsPlain (system : ToggleSystem) : (s : Setting) → Decidable (system.IsPlain s)
  | some v => inferInstanceAs (Decidable (v.isPlain = true))
  | none => inferInstanceAs (Decidable (Evaluation.isPlain system.fallback = true))

variable {system : ToggleSystem} {active : String → Bool} {cs : List Condition}

theorem isPlain_renderSetting {s : Setting} (property : String) (h : system.IsPlain s) :
    Evaluation.isPlain (system.renderSetting property s) = true := by
  cases s with
  | none => exact h
  | some v => exact Value.isPlain_render property h

theorem expand_of_isPlain {text : String} (lookup : String → Computed)
    (h : Evaluation.isPlain text = true) : expand lookup text.toList = some text.toList := by
  rw [Evaluation.isPlain, Bool.and_eq_true, Option.isNone_iff_eq_none] at h
  exact expand_of_plain lookup h.1

theorem closes_of_isPlain {text : String} (h : Evaluation.isPlain text = true) :
    closes 0 text.toList = true := by
  rw [Evaluation.isPlain, Bool.and_eq_true] at h
  exact h.2

/-! ## The value of a chain -/

/-- A choice reads as its text while the toggle's condition holds, else as the rest. -/
theorem value_choose {lookup : String → Computed} {toggle : Toggle} {b : Bool} {text : String}
    {inner : Expression} (ht : Reads lookup toggle b) (hp : Evaluation.isPlain text = true) :
    ((choose toggle text inner).value lookup).map trim =
      if b then some (trim text.toList) else (inner.value lookup).map trim := by
  obtain ⟨htrue, hfalse⟩ := ht
  simp only [choose, Expression.value, htrue, hfalse]
  rw [expand_of_isPlain lookup hp]
  cases b with
  | true =>
    change some (trim (trim text.toList ++ [' '])) = _
    rw [trim_append_blank (by decide), trim_trim]
    rfl
  | false =>
    change (((inner.value lookup).map trim).map fun w => [] ++ ' ' :: w).map trim = _
    cases inner.value lookup with
    | none => rfl
    | some w =>
      change some (trim (' ' :: trim w)) = some (trim w)
      rw [trim_cons_blank (by decide), trim_trim]

/-- One more link wraps the expression of the chain in one more choice. -/
theorem chainExpression_concat (property : String) (base : Setting)
    (links : List (Condition × Setting)) (l : Condition × Setting) :
    system.chainExpression property ⟨base, links ++ [l]⟩ =
      choose (system.toggle l.1) (system.renderSetting property l.2)
        (system.chainExpression property ⟨base, links⟩) := by
  rw [chainExpression, List.foldl_append]
  rfl

theorem readable_chainExpression_of_closes (property : String) {chain : Chain}
    (hres : ∀ l ∈ chain.links, system.Resolves l.1)
    (hcloses : ∀ s ∈ chain.settings, closes 0 (system.renderSetting property s).toList = true) :
    (system.chainExpression property chain).Readable := by
  obtain ⟨base, links⟩ := chain
  induction links using List.reverseRecOn with
  | nil => exact hcloses base List.mem_cons_self
  | append_singleton links l ih =>
    rw [chainExpression_concat]
    obtain ⟨htrue, hfalse⟩ := isName_toggle (hres l (by simp))
    have hinner := ih (fun k hk => hres k (List.mem_append_left _ hk))
      (fun s hs => hcloses s (Chain.mem_settings_concat.mpr (Or.inl hs)))
    exact ⟨⟨htrue, hcloses l.2 (Chain.mem_settings_concat.mpr (Or.inr rfl))⟩, hfalse, hinner⟩

theorem readable_chainExpression (property : String) {base : Setting}
    {links : List (Condition × Setting)} (hres : ∀ l ∈ links, system.Resolves l.1)
    (hplain : ∀ s ∈ (Chain.mk base links).settings, system.IsPlain s) :
    (system.chainExpression property ⟨base, links⟩).Readable :=
  readable_chainExpression_of_closes property hres fun s hs =>
    closes_of_isPlain (isPlain_renderSetting property (hplain s hs))

/-- By induction over the links, the last one outermost: the expression of a chain reads as
the setting that the chain selects. -/
theorem value_chainExpression (property : String) {lookup : String → Computed} {base : Setting}
    {links : List (Condition × Setting)}
    (hreads : ∀ l ∈ links, Reads lookup (system.toggle l.1) (l.1.holds active))
    (hplain : ∀ s ∈ (Chain.mk base links).settings, system.IsPlain s) :
    ((system.chainExpression property ⟨base, links⟩).value lookup).map trim =
      some (trim (system.renderSetting property ((Chain.mk base links).select active)).toList) := by
  induction links using List.reverseRecOn with
  | nil =>
    have hbase := isPlain_renderSetting property (hplain base List.mem_cons_self)
    change (expand lookup _).map trim = _
    rw [expand_of_isPlain lookup hbase]
    rfl
  | append_singleton links l ih =>
    have hl := isPlain_renderSetting property
      (hplain l.2 (Chain.mem_settings_concat.mpr (Or.inr rfl)))
    rw [chainExpression_concat, value_choose (hreads l (by simp)) hl, Chain.select_concat, ih]
    · split <;> rfl
    · intro k hk
      exact hreads k (List.mem_append_left _ hk)
    · intro s hs
      exact hplain s (Chain.mem_settings_concat.mpr (Or.inl hs))

/-- In a style that serves the conditions of a chain, the chain's text evaluates to the
setting of the last link whose condition holds, or to the base. -/
theorem evaluate_chainExpression {style : Style} {property : String} {chain : Chain}
    (hs : system.Separate cs) (hserved : ∀ l ∈ chain.links, system.Served cs style l.1)
    (hplain : ∀ s ∈ chain.settings, system.IsPlain s) :
    evaluate (system.lookup active style)
        ((system.chainExpression property chain).render system.layout).toList =
      some (trim (system.renderSetting property (chain.select active)).toList) := by
  have hreadable := readable_chainExpression property
    (fun l hl => (hserved l hl).resolves) hplain
  rw [Expression.evaluate_render _ _ hreadable]
  exact value_chainExpression property (fun l hl => reads_toggle active hs (hserved l hl)) hplain

/-! ## The computed value of a property -/

theorem mem_helperNames_of_subset {cs ds : List Condition} (hsub : ∀ c ∈ cs, c ∈ ds)
    {name : String} (h : name ∈ helperNames cs) : name ∈ helperNames ds := by
  obtain ⟨c, hc, hn⟩ := List.mem_flatMap.mp h
  exact List.mem_flatMap.mpr ⟨c, hsub c hc, hn⟩

theorem served_erase_property {style : Style} {property : String} {c : Condition}
    (hname : property ∉ helperNames c.compounds) (h : system.Served cs style c) :
    system.Served cs (style.erase property) c := by
  refine ⟨h.resolves, h.within, ?_⟩
  intro k hk
  have hne : k.name ≠ property := fun hn => hname (hn ▸ mem_helperNames hk)
  unfold Provides
  rw [OrderedMap.get?_erase, if_neg hne]
  exact h.provides k hk

/-- A property with conditions computes to the text of the selected setting. -/
theorem computed_of_links {style : Style} {property : String} {chain : Chain}
    (hs : system.Separate cs) (hserved : ∀ l ∈ chain.links, system.Served cs style l.1)
    (hname : property ∉ helperNames chain.compounds) (hlinks : chain.links ≠ [])
    (hget : style.get? property = some (system.chainSetting property chain))
    (hplain : ∀ s ∈ chain.settings, system.IsPlain s) :
    system.computed active style property =
      some (trim (system.renderSetting property (chain.select active)).toList) := by
  rw [chainSetting_of_links hlinks] at hget
  rw [computed_of_value? (Style.value?_eq_some_iff.mpr hget), Value.render_text]
  refine evaluate_chainExpression hs ?_ hplain
  intro l hl
  refine served_erase_property (fun hn => hname ?_) (hserved l hl)
  refine mem_helperNames_of_subset ?_ hn
  intro c hc
  exact List.mem_flatMap.mpr ⟨l, hl, hc⟩

/-- A property without conditions computes to its base, if it has one. -/
theorem computed_of_no_links {style : Style} {property : String} {base : Setting}
    (hget : style.get? property = some base) (hplain : system.IsPlain base) :
    system.computed active style property
      = base.map fun v => trim (v.render property).toList := by
  cases base with
  | none =>
    refine computed_of_no_value ?_
    rw [Style.value?, hget]
    rfl
  | some v =>
    rw [computed_of_value? (Style.value?_eq_some_iff.mpr hget), evaluate,
      expand_of_isPlain _ (Value.isPlain_render property hplain)]
    rfl

/-! ## The compiled style -/

/-- A compiled style serves the conditions of each of its properties. -/
theorem served_of_compile {chains : OrderedMap Chain} {style : Style}
    (h : system.compile chains = .ok style)
    (hd : DistinctConditions (compoundsOfChains chains.entries))
    (hn : ∀ property ∈ chains.keys, property ∉ helperNames (compoundsOfChains chains.entries))
    {property : String} {chain : Chain} (hp : chains.get? property = some chain) :
    ∀ l ∈ chain.links, system.Served (compoundsOfChains chains.entries) style l.1 := by
  have hwithin : ∀ l ∈ chain.links, ∀ c ∈ l.1.compounds, c ∈ compoundsOfChains chains.entries :=
    fun l hl c hc => List.mem_flatMap.mpr
      ⟨_, OrderedMap.mem_of_get? hp, List.mem_flatMap.mpr ⟨l, hl, hc⟩⟩
  intro l hl
  refine ⟨(get?_compile h hp).2 l hl, hwithin l hl, ?_⟩
  intro k hk
  obtain ⟨c, hc, hkc⟩ := List.mem_flatMap.mp hk
  exact provides_compile h hd hn k (List.mem_flatMap.mpr ⟨c, hwithin l hl c hc, hkc⟩)

/-- The text of a property that has links evaluates to the setting of the last link whose
condition holds, or to the base of its chain. -/
theorem evaluate_compile (active : String → Bool) {chains : OrderedMap Chain} {style : Style}
    (h : system.compile chains = .ok style)
    (hs : system.Separate (compoundsOfChains chains.entries))
    (hn : ∀ property ∈ chains.keys, property ∉ helperNames (compoundsOfChains chains.entries))
    {property : String} {chain : Chain} (hp : chains.get? property = some chain)
    (hlinks : chain.links ≠ []) (hplain : ∀ s ∈ chain.settings, system.IsPlain s) :
    ∃ text, style.get? property = some (some (.text text)) ∧
      evaluate (system.lookup active style) text.toList =
        some (trim (system.renderSetting property (chain.select active)).toList) := by
  refine ⟨_, ?_, evaluate_chainExpression hs (served_of_compile h hs.conditions hn hp) hplain⟩
  rw [(get?_compile h hp).1, chainSetting_of_links hlinks]

def hoverFocus : ToggleSystem :=
  .ofHooks [(":hover", "&:hover"), (":focus", "&:focus")] .compact defaultFallback

/-- A negated conjunction inside a disjunction, before a plain hook. -/
def hoverFocusChain : Chain where
  base := some (.text "red")
  links :=
    [(.any [.hook ":hover", .not (.all [.hook ":hover", .hook ":focus"])], some (.text "blue")),
      (.hook ":focus", none)]

theorem evaluate_compile_hover : ∃ style,
    hoverFocus.compile (.single "color" hoverFocusChain) = .ok style ∧
      ∃ text, style.get? "color" = some (some (.text text)) ∧
        evaluate (hoverFocus.lookup (· == ":hover") style) text.toList = some "blue".toList := by
  have hhover : hoverFocus.Resolves (.hook ":hover") := resolves_hook.mpr (by decide)
  have hfocus : hoverFocus.Resolves (.hook ":focus") := resolves_hook.mpr (by decide)
  have hall : hoverFocus.Resolves (.all [.hook ":hover", .hook ":focus"]) :=
    resolves_all.mpr ⟨by simp, by simp [hhover, hfocus]⟩
  have hany : hoverFocus.Resolves
      (.any [.hook ":hover", .not (.all [.hook ":hover", .hook ":focus"])]) :=
    resolves_any.mpr ⟨by simp, by simp [hhover, resolves_not, hall]⟩
  obtain ⟨style, h⟩ : ∃ style, hoverFocus.compile (.single "color" hoverFocusChain) = .ok style :=
    compile_succeeds_iff.mpr
      (by simp [OrderedMap.single, hoverFocusChain, or_imp, forall_and, hany, hfocus])
  refine ⟨style, h, ?_⟩
  have hs : hoverFocus.Separate
      (compoundsOfChains (OrderedMap.single "color" hoverFocusChain).entries) :=
    Separate.of_nodup (by decide +kernel)
  have hp : (OrderedMap.single "color" hoverFocusChain).get? "color" = some hoverFocusChain := rfl
  have hn : ∀ property ∈ (OrderedMap.single "color" hoverFocusChain).keys, property ∉
      helperNames (compoundsOfChains (OrderedMap.single "color" hoverFocusChain).entries) := by
    decide +kernel
  have hplain : ∀ s ∈ hoverFocusChain.settings, hoverFocus.IsPlain s := by decide
  exact evaluate_compile (· == ":hover") h hs hn hp (by simp [hoverFocusChain]) hplain

end ToggleSystem

end HookStyle
