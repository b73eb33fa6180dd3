import HookStyle.Proofs.Tree.Filling

/-!
# Bound properties in place of texts

A chain may ask for bound properties in its texts, or have the texts of the bound properties
in these places. The two compile into styles that differ in their texts only, and while the
bound properties are set in the first style, all other properties have the same computed
values in both.

* `Expression.Alike`, `Style.Alike`: the first has the same values where the names are bound
  as the second has where they are not.
* `alike_compile`: the styles of the chains before and after filling.
* `computed_of_alike`: the same computed values, whatever properties ask for one another.
* `computed_congr`: computed values depend only on what a style sets its properties to.
-/

namespace HookStyle

open Css Evaluation

/-- The first look-up answers the bound names with their texts, and all other names as the
second does. -/
structure Evaluation.Binds (bindings : List (String × List Char))
    (lookup lookup' : String → Computed) : Prop where
  bound : ∀ b ∈ bindings, lookup b.1 = some b.2
  free : ∀ name ∉ Entries.keys bindings, lookup name = lookup' name

variable {bindings : List (String × List Char)}

/-! ## Expressions -/

namespace Css.Expression

/-- The first expression has the values where the names are bound that the second has where
they are not. -/
def Alike (bindings : List (String × List Char)) (e e' : Expression) : Prop :=
  ∀ lookup lookup', Binds bindings lookup lookup' → e.value lookup = e'.value lookup'

theorem alike_raw_substitute (hnames : ∀ b ∈ bindings, isName b.1 = true) {s : String}
    (h : nextReference? (substitute bindings 0 s.toList) = none) :
    Alike bindings (.raw s) (.raw (String.ofList (substitute bindings 0 s.toList))) := by
  intro lookup lookup' hl
  have hfill := expand_substitute (fun b hb => ⟨hnames b hb, hl.bound b hb⟩) h
  rw [value, value, String.toList_ofList, hfill, expand_of_plain lookup' h]

theorem alike_raw_of_isPlain {s : String} (h : isPlain s = true) :
    Alike bindings (.raw s) (.raw s) := by
  intro lookup lookup' _
  rw [value, value, ToggleSystem.expand_of_isPlain lookup h,
    ToggleSystem.expand_of_isPlain lookup' h]

theorem alike_raw_of_unmentioned {s : String}
    (h : ∀ name ∈ Entries.keys bindings, ¬ name.toList <:+: s.toList) :
    Alike bindings (.raw s) (.raw s) :=
  fun _ _ hl => expand_congr fun name hname => hl.free name fun hb => h name hb hname

theorem Alike.render {e e' : Expression} (h : Alike bindings e e') (he : e.Readable)
    (he' : e'.Readable) (layout : Layout) :
    Alike bindings (.raw (e.render layout)) (.raw (e'.render layout)) := by
  intro lookup lookup' hl
  rw [value, value, expand_render lookup layout he, expand_render lookup' layout he', h _ _ hl]

/-- Choices between alike texts are alike, when the toggle is not among the bound names. -/
theorem Alike.choose {toggle : Toggle} {text text' : String} {inner inner' : Expression}
    (htrue : toggle.whenTrue ∉ Entries.keys bindings)
    (hfalse : toggle.whenFalse ∉ Entries.keys bindings)
    (htext : Alike bindings (.raw text) (.raw text')) (hinner : Alike bindings inner inner') :
    Alike bindings (ToggleSystem.choose toggle text inner)
      (ToggleSystem.choose toggle text' inner') := by
  intro lookup lookup' hl
  have hexpand : expand lookup text.toList = expand lookup' text'.toList := htext _ _ hl
  simp only [ToggleSystem.choose, value, hl.free _ htrue, hl.free _ hfalse, hexpand,
    hinner _ _ hl]

theorem alike_nested {name : String} {rest : List String}
    (h : ∀ n ∈ name :: rest, n ∉ Entries.keys bindings) :
    Alike bindings (nested name rest) (nested name rest) := by
  intro lookup lookup' hl
  induction rest generalizing name with
  | nil => exact hl.free name (h name List.mem_cons_self)
  | cons next rest ih =>
    rw [nested, value, value, hl.free name (h name List.mem_cons_self),
      ih fun n hn => h n (List.mem_cons_of_mem _ hn)]

theorem alike_joined {name : String} {rest : List String}
    (h : ∀ n ∈ name :: rest, n ∉ Entries.keys bindings) :
    Alike bindings (joined name rest) (joined name rest) := by
  intro lookup lookup' hl
  induction rest generalizing name with
  | nil => exact hl.free name (h name List.mem_cons_self)
  | cons next rest ih =>
    rw [joined, value, value, value, value, hl.free name (h name List.mem_cons_self),
      ih fun n hn => h n (List.mem_cons_of_mem _ hn)]

end Css.Expression

/-! ## What can be filled -/

namespace ToggleSystem

variable {system : ToggleSystem}

/-- What is asked of the bindings and of the texts that are filled. Parentheses match
everywhere, the only references are those that are replaced, and neither the fallback keyword
nor a toggle asks for a bound name. -/
structure Fillable (system : ToggleSystem) (bindings : List (String × List Char))
    (texts : List String) : Prop where
  names : ∀ b ∈ bindings, isName b.1 = true
  sides : ∀ name ∈ Entries.keys bindings, ¬ IsSide name
  closes_bound : ∀ b ∈ bindings, closes 0 b.2 = true
  closes_fallback : closes 0 system.fallback.toList = true
  unmentioned : ∀ name ∈ Entries.keys bindings, ¬ name.toList <:+: system.fallback.toList
  closes_text : ∀ s ∈ texts, closes 0 s.toList = true
  filled : ∀ s ∈ texts, nextReference? (substitute bindings 0 s.toList) = none

variable {texts : List String}

theorem Fillable.not_mem_of_isSide (h : system.Fillable bindings texts) {name : String}
    (hname : IsSide name) : name ∉ Entries.keys bindings :=
  fun hm => h.sides name hm hname

/-- A helper refers to toggles only, so filling in values does not change it. -/
theorem alike_of_mem_pair (h : system.Fillable bindings texts) {c : Condition} {k : Helper}
    (hm : k ∈ system.pair c) : Expression.Alike bindings k.value k.value := by
  have htrue : ∀ ds : List Condition, ∀ n ∈ ds.map (fun d => (system.toggle d).whenTrue),
      n ∉ Entries.keys bindings := by
    intro ds n hn
    obtain ⟨d, -, rfl⟩ := List.mem_map.mp hn
    exact h.not_mem_of_isSide (isSide_toggle d).1
  have hfalse : ∀ ds : List Condition, ∀ n ∈ ds.map (fun d => (system.toggle d).whenFalse),
      n ∉ Entries.keys bindings := by
    intro ds n hn
    obtain ⟨d, -, rfl⟩ := List.mem_map.mp hn
    exact h.not_mem_of_isSide (isSide_toggle d).2
  match c with
  | .hook name => cases hm
  | .not c => cases hm
  | .all [] => cases hm
  | .any [] => cases hm
  | .all (d :: ds) =>
    simp only [pair, List.mem_cons, List.not_mem_nil, or_false] at hm
    rcases hm with rfl | rfl
    · exact Expression.alike_joined (hfalse (d :: ds))
    · exact Expression.alike_nested (htrue (d :: ds))
  | .any (d :: ds) =>
    simp only [pair, List.mem_cons, List.not_mem_nil, or_false] at hm
    rcases hm with rfl | rfl
    · exact Expression.alike_nested (hfalse (d :: ds))
    · exact Expression.alike_joined (htrue (d :: ds))

end ToggleSystem

/-! ## Settings -/

/-- Both settings are cleared, or the text of the first has the values where the names are
bound that the text of the second has where they are not. -/
def Setting.Alike (bindings : List (String × List Char)) (property : String) :
    Setting → Setting → Prop :=
  Option.Rel fun v w =>
    Expression.Alike bindings (.raw (v.render property)) (.raw (w.render property))

namespace ToggleSystem

variable {system : ToggleSystem} {texts : List String} {property : String}

theorem alike_render_fill (h : system.Fillable bindings texts) (property : String) {v : Value}
    (hv : ∀ s, v = .text s → s ∈ texts) :
    Expression.Alike bindings (.raw (v.render property))
      (.raw ((v.fill bindings).render property)) := by
  cases v with
  | number x => exact Expression.alike_raw_of_isPlain (Value.isPlain_render property rfl)
  | text s => exact Expression.alike_raw_substitute h.names (h.filled s (hv s rfl))

theorem closes_render_fill (h : system.Fillable bindings texts) (property : String) {v : Value}
    (hv : ∀ s, v = .text s → s ∈ texts) :
    closes 0 (v.render property).toList = true ∧
      closes 0 ((v.fill bindings).render property).toList = true := by
  cases v with
  | number x =>
    have hx : closes 0 ((Value.number x).render property).toList = true :=
      closes_of_isPlain (Value.isPlain_render property rfl)
    exact ⟨hx, hx⟩
  | text s =>
    have hs := h.closes_text s (hv s rfl)
    refine ⟨hs, ?_⟩
    rw [Value.fill, Value.render_text, String.toList_ofList,
      closes_substitute fun b hb => ⟨h.names b hb, h.closes_bound b hb⟩]
    exact hs

theorem alike_renderSetting (h : system.Fillable bindings texts) (property : String) {s : Setting}
    (hs : ∀ t, s = some (.text t) → t ∈ texts) :
    Expression.Alike bindings (.raw (system.renderSetting property s))
      (.raw (system.renderSetting property (s.map (Value.fill bindings)))) := by
  cases s with
  | none => exact Expression.alike_raw_of_unmentioned h.unmentioned
  | some v => exact alike_render_fill h property fun t ht => hs t (congrArg some ht)

theorem closes_renderSetting (h : system.Fillable bindings texts) (property : String)
    {s : Setting} (hs : ∀ t, s = some (.text t) → t ∈ texts) :
    closes 0 (system.renderSetting property s).toList = true ∧
      closes 0 (system.renderSetting property (s.map (Value.fill bindings))).toList = true := by
  cases s with
  | none => exact ⟨h.closes_fallback, h.closes_fallback⟩
  | some v => exact closes_render_fill h property fun t ht => hs t (congrArg some ht)

/-! ## Chains -/

theorem alike_chainExpression (h : system.Fillable bindings texts) (property : String)
    {base : Setting} {links : List (Condition × Setting)}
    (htexts : ∀ t, some (.text t) ∈ (Chain.mk base links).settings → t ∈ texts) :
    Expression.Alike bindings (system.chainExpression property ⟨base, links⟩)
      (system.chainExpression property
        ((Chain.mk base links).mapValues (Value.fill bindings))) := by
  induction links using List.reverseRecOn with
  | nil =>
    exact alike_renderSetting h property fun t ht => htexts t (ht ▸ List.mem_cons_self)
  | append_singleton links l ih =>
    have hinner := ih fun t ht => htexts t (Chain.mem_settings_concat.mpr (Or.inl ht))
    have hl := alike_renderSetting h property fun t ht =>
      htexts t (Chain.mem_settings_concat.mpr (Or.inr ht.symm))
    obtain ⟨htrue, hfalse⟩ := @isSide_toggle system l.1
    rw [Chain.mapValues] at hinner ⊢
    rw [List.map_append, List.map_singleton, chainExpression_concat, chainExpression_concat]
    exact hl.choose (h.not_mem_of_isSide htrue) (h.not_mem_of_isSide hfalse) hinner

theorem compounds_mapValues (f : Value → Value) (chain : Chain) :
    (chain.mapValues f).compounds = chain.compounds := by
  rw [Chain.compounds, Chain.mapValues, List.flatMap_map]
  rfl

theorem settings_mapValues (f : Value → Value) (chain : Chain) :
    (chain.mapValues f).settings = chain.settings.map (Option.map f) := by
  simp [Chain.settings, Chain.mapValues]

/-- A setting of the filled declaration is the filled setting of the template. -/
theorem alike_chainSetting (h : system.Fillable bindings texts) (property : String)
    {chain : Chain} (hres : ∀ l ∈ chain.links, system.Resolves l.1)
    (htexts : ∀ t, some (.text t) ∈ chain.settings → t ∈ texts) :
    Setting.Alike bindings property (system.chainSetting property chain)
      (system.chainSetting property (chain.mapValues (Value.fill bindings))) := by
  by_cases hlinks : chain.links = []
  · obtain ⟨base, links⟩ := chain
    obtain rfl : links = [] := hlinks
    cases base with
    | none => exact Option.Rel.none
    | some v =>
      exact Option.Rel.some (alike_render_fill h property fun t ht =>
        htexts t (ht ▸ List.mem_cons_self))
  · have hlinks' : (chain.mapValues (Value.fill bindings)).links ≠ [] := by
      simpa [Chain.mapValues] using hlinks
    have hcloses : ∀ s ∈ chain.settings,
        closes 0 (system.renderSetting property s).toList = true ∧
          closes 0 (system.renderSetting property (s.map (Value.fill bindings))).toList = true :=
      fun s hs => closes_renderSetting h property fun t ht => htexts t (ht ▸ hs)
    have hreadable := readable_chainExpression_of_closes property hres fun s hs => (hcloses s hs).1
    have hreadable' : (system.chainExpression property
        (chain.mapValues (Value.fill bindings))).Readable := by
      refine readable_chainExpression_of_closes property ?_ ?_
      · intro l hl
        obtain ⟨k, hk, rfl⟩ := List.mem_map.mp hl
        exact hres k hk
      · intro s hs
        rw [settings_mapValues] at hs
        obtain ⟨r, hr, rfl⟩ := List.mem_map.mp hs
        exact (hcloses r hr).2
    rw [chainSetting_of_links hlinks, chainSetting_of_links hlinks']
    exact Option.Rel.some
      ((alike_chainExpression h property htexts).render hreadable hreadable' system.layout)

end ToggleSystem

/-! ## Styles -/

/-- The styles mention the same names besides the bound ones, and set them alike. -/
def Style.Alike (bindings : List (String × List Char)) (style style' : Style) : Prop :=
  ∀ name ∉ Entries.keys bindings,
    Option.Rel (Setting.Alike bindings name) (style.get? name) (style'.get? name)

namespace Style.Alike

variable {style style' : Style}

theorem insert (h : Style.Alike bindings style style') {property : String} {s s' : Setting}
    (hs : Setting.Alike bindings property s s') :
    Style.Alike bindings (style.insert property s) (style'.insert property s') := by
  intro name hname
  rw [OrderedMap.get?_insert, OrderedMap.get?_insert]
  split
  next he => exact Option.Rel.some (he ▸ hs)
  next => exact h name hname

theorem erase (h : Style.Alike bindings style style') (property : String) :
    Style.Alike bindings (style.erase property) (style'.erase property) := by
  intro name hname
  rw [OrderedMap.get?_erase, OrderedMap.get?_erase]
  split
  · exact Option.Rel.none
  · exact h name hname

theorem get?_eq_none_iff (h : Style.Alike bindings style style') {name : String}
    (hname : name ∉ Entries.keys bindings) : style.get? name = none ↔ style'.get? name = none := by
  have hrel := h name hname
  generalize style.get? name = mention, style'.get? name = mention' at hrel ⊢
  cases hrel with
  | none => simp
  | some => simp

/-- Alike styles have a value for the same properties, and alike values. -/
theorem value?_cases (h : Style.Alike bindings style style') {property : String}
    (hp : property ∉ Entries.keys bindings) :
    (style.value? property = none ∧ style'.value? property = none) ∨
      ∃ v w, style.value? property = some v ∧ style'.value? property = some w ∧
        Expression.Alike bindings (.raw (v.render property)) (.raw (w.render property)) := by
  have hrel := h property hp
  unfold Style.value?
  generalize style.get? property = mention, style'.get? property = mention' at hrel ⊢
  cases hrel with
  | none => exact Or.inl ⟨rfl, rfl⟩
  | some hsetting =>
    cases hsetting with
    | none => exact Or.inl ⟨rfl, rfl⟩
    | some hvalue => exact Or.inr ⟨_, _, rfl, rfl, hvalue⟩

end Style.Alike

namespace ToggleSystem

variable {system : ToggleSystem} {texts : List String} {style style' : Style}

theorem alike_addHelper (h : system.Fillable bindings texts)
    (halike : Style.Alike bindings style style') {c : Condition} (hres : system.Resolves c)
    {k : Helper} (hm : k ∈ system.pair c) :
    Style.Alike bindings (system.addHelper style k) (system.addHelper style' k) := by
  have hk := h.not_mem_of_isSide (isSide_of_mem_pair hm)
  have hreadable := readable_of_mem_pair hres hm
  intro name hname
  simp only [get?_addHelper, halike.get?_eq_none_iff hk]
  split
  · exact Option.Rel.some (Option.Rel.some
      ((alike_of_mem_pair h hm).render hreadable hreadable system.layout))
  · exact halike name hname

theorem alike_foldl_addHelper (h : system.Fillable bindings texts) {ks : List Helper}
    (hks : ∀ k ∈ ks, ∃ c, system.Resolves c ∧ k ∈ system.pair c)
    (halike : Style.Alike bindings style style') :
    Style.Alike bindings (ks.foldl system.addHelper style) (ks.foldl system.addHelper style') := by
  induction ks generalizing style style' with
  | nil => exact halike
  | cons k ks ih =>
    obtain ⟨c, hres, hm⟩ := hks k List.mem_cons_self
    exact ih (fun j hj => hks j (List.mem_cons_of_mem _ hj)) (alike_addHelper h halike hres hm)

/-- Adding a chain and adding it filled keeps styles alike. -/
theorem alike_addProperty (h : system.Fillable bindings texts) {property : String} {chain : Chain}
    (htexts : ∀ t, some (.text t) ∈ chain.settings → t ∈ texts)
    (halike : Style.Alike bindings style style') {after after' : Style}
    (hafter : system.addProperty style property chain = .ok after)
    (hafter' : system.addProperty style' property (chain.mapValues (Value.fill bindings))
      = .ok after') : Style.Alike bindings after after' := by
  obtain ⟨hres, rfl⟩ := addProperty_eq_ok hafter
  obtain ⟨-, rfl⟩ := addProperty_eq_ok hafter'
  rw [compounds_mapValues]
  refine Style.Alike.insert (alike_foldl_addHelper h ?_ halike)
    (alike_chainSetting h property hres htexts)
  intro k hk
  obtain ⟨c, hc, hkc⟩ := List.mem_flatMap.mp hk
  obtain ⟨l, hl, hc⟩ := List.mem_flatMap.mp hc
  exact ⟨c, resolves_of_mem_compounds (hres l hl) hc, hkc⟩

theorem alike_addProperties (h : system.Fillable bindings texts) {chains : List (String × Chain)}
    (htexts : ∀ e ∈ chains, ∀ t, some (.text t) ∈ e.2.settings → t ∈ texts)
    (halike : Style.Alike bindings style style') {after after' : Style}
    (hafter : system.addProperties chains style = .ok after)
    (hafter' : system.addProperties
      (chains.map fun e => (e.1, e.2.mapValues (Value.fill bindings))) style' = .ok after') :
    Style.Alike bindings after after' := by
  induction chains generalizing style style' with
  | nil =>
    cases hafter
    cases hafter'
    exact halike
  | cons e chains ih =>
    rw [List.map_cons, addProperties] at hafter'
    rw [addProperties] at hafter
    obtain ⟨middle, hm, hafter⟩ := Outcome.bind_eq_ok.mp hafter
    obtain ⟨middle', hm', hafter'⟩ := Outcome.bind_eq_ok.mp hafter'
    exact ih (fun d hd => htexts d (List.mem_cons_of_mem _ hd))
      (alike_addProperty h (htexts e List.mem_cons_self) halike hm hm') hafter hafter'

end ToggleSystem

/-- The style of a declaration and that of the filled declaration. -/
theorem Registry.alike_compile {r : Registry} {d : Declaration}
    (h : r.toggles.Fillable bindings d.texts) {style style' : Style}
    (hstyle : r.compile d = .ok style) (hstyle' : r.compile (d.fill bindings) = .ok style') :
    Style.Alike bindings style style' := by
  have hchains := (compile_eq_ok.mp hstyle).2
  have hchains' := (compile_eq_ok.mp hstyle').2
  rw [ToggleSystem.compile, Declaration.fill, Declaration.chains_mapValues] at hchains'
  exact ToggleSystem.alike_addProperties h
    (fun e he t ht => Declaration.mem_texts_of_mem_settings he ht)
    (fun _ _ => Option.Rel.none) hchains hchains'

/-! ## Computed values -/

/-- The style sets every bound name to its text, which stands for itself. -/
def Style.Sets (bindings : List (String × List Char)) (style : Style) : Prop :=
  ∀ b ∈ bindings, nextReference? b.2 = none ∧ trim b.2 = b.2 ∧
    ∃ v, style.get? b.1 = some (some v) ∧ (v.render b.1).toList = b.2

namespace ToggleSystem

variable {system : ToggleSystem} {active : String → Bool} {style style' : Style}

/-- A style that sets the bindings answers with them. -/
theorem lookup_of_sets (hsides : ∀ name ∈ Entries.keys bindings, ¬ IsSide name)
    (h : Style.Sets bindings style) {b : String × List Char} (hb : b ∈ bindings) :
    system.lookup active style b.1 = some b.2 := by
  obtain ⟨hplain, htrim, v, hv, htext⟩ := h b hb
  have hside := hsides b.1 (List.mem_map_of_mem hb)
  rw [lookup, toggleState?_of_not_isSide hside]
  change system.computed active style b.1 = _
  rw [computed_of_value? (Style.value?_eq_some_iff.mpr hv), htext, evaluate,
    expand_of_plain _ hplain, Option.map_some, htrim]

theorem sets_erase (h : Style.Sets bindings style) {property : String}
    (hp : property ∉ Entries.keys bindings) : Style.Sets bindings (style.erase property) := by
  intro b hb
  obtain ⟨hplain, htrim, v, hv, htext⟩ := h b hb
  have hne : b.1 ≠ property := fun he => hp (he ▸ List.mem_map_of_mem hb)
  refine ⟨hplain, htrim, v, ?_, htext⟩
  rw [OrderedMap.get?_erase, if_neg hne, hv]

/-- Where the bound properties are set, the others have the values that they have in a style
with the texts in place of the bound properties. -/
theorem computed_of_alike (hsides : ∀ name ∈ Entries.keys bindings, ¬ IsSide name)
    (hsets : Style.Sets bindings style) (halike : Style.Alike bindings style style')
    {property : String} (hp : property ∉ Entries.keys bindings) :
    system.computed active style property = system.computed active style' property := by
  -- every property that is asked for is asked in smaller styles, which are still alike
  induction hn : style.size using Nat.strongRecOn generalizing style style' property with
  | ind n ih =>
    obtain ⟨hnone, hnone'⟩ | ⟨v, w, hv, hw, hvalue⟩ := halike.value?_cases hp
    · rw [computed_of_no_value hnone, computed_of_no_value hnone']
    · have hlt : (style.erase property).size < n :=
        hn ▸ OrderedMap.size_erase_lt (Style.value?_eq_some_iff.mp hv)
      have hbinds : Binds bindings (system.lookup active (style.erase property))
          (system.lookup active (style'.erase property)) := by
        refine ⟨fun b hb => lookup_of_sets hsides (sets_erase hsets hp) hb, ?_⟩
        intro name hname
        rw [lookup, lookup, ih _ hlt (sets_erase hsets hp) (halike.erase property) hname rfl]
      rw [computed_of_value? hv, computed_of_value? hw]
      exact congrArg (Option.map trim) (hvalue _ _ hbinds)

/-- Computed values depend only on what a style sets its properties to. -/
theorem computed_congr (hget : ∀ name, style.get? name = style'.get? name) (property : String) :
    system.computed active style property = system.computed active style' property := by
  have hsetting : ∀ name s, Setting.Alike [] name s s := by
    intro name s
    cases s with
    | none => exact Option.Rel.none
    | some v =>
      refine Option.Rel.some fun lookup lookup' h => ?_
      rw [funext fun name => h.free name List.not_mem_nil]
  have halike : Style.Alike [] style style' := by
    intro name _
    rw [hget]
    cases style'.get? name with
    | none => exact Option.Rel.none
    | some s => exact Option.Rel.some (hsetting name s)
  exact computed_of_alike (fun _ h => absurd h List.not_mem_nil)
    (fun _ h => absurd h List.not_mem_nil) halike List.not_mem_nil

end ToggleSystem

end HookStyle
