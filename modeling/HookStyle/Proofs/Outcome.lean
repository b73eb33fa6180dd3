/-!
# Outcomes of runs that may fail

A run that is made of steps succeeds when every step does, and fails with the error of the
first step that fails.
-/

namespace HookStyle.Outcome

variable {ε δ α β : Type}

/-- An element with `Q` behind elements with `P` is the head of a list, or stands in the rest
behind a head with `P`. -/
theorem exists_split_cons {P Q : α → Prop} {a : α} {as : List α} :
    (∃ before b after, a :: as = before ++ b :: after ∧ (∀ x ∈ before, P x) ∧ Q b) ↔
      Q a ∨ P a ∧ ∃ before b after, as = before ++ b :: after ∧ (∀ x ∈ before, P x) ∧ Q b := by
  constructor
  · rintro ⟨before, b, after, heq, hbefore, hb⟩
    rcases List.cons_eq_append_iff.mp heq with ⟨rfl, hcons⟩ | ⟨before, rfl, rfl⟩
    · obtain ⟨rfl, -⟩ := List.cons.inj hcons
      exact Or.inl hb
    · obtain ⟨ha, hbefore⟩ := List.forall_mem_cons.mp hbefore
      exact Or.inr ⟨ha, before, b, after, rfl, hbefore, hb⟩
  · rintro (ha | ⟨ha, before, b, after, rfl, hbefore, hb⟩)
    · exact ⟨[], a, as, rfl, fun _ hx => absurd hx List.not_mem_nil, ha⟩
    · exact ⟨a :: before, b, after, rfl, List.forall_mem_cons.mpr ⟨ha, hbefore⟩, hb⟩

theorem bind_eq_ok {x : Except ε α} {f : α → Except ε β} {b : β} :
    x.bind f = .ok b ↔ ∃ a, x = .ok a ∧ f a = .ok b := by
  cases x with
  | error e => simp [Except.bind]
  | ok a => simp [Except.bind]

theorem map_eq_ok {x : Except ε α} {f : α → β} {b : β} :
    x.map f = .ok b ↔ ∃ a, x = .ok a ∧ f a = b := by
  cases x with
  | error e => simp [Except.map]
  | ok a => simp [Except.map]

theorem bind_eq_error {x : Except ε α} {f : α → Except ε β} {e : ε} :
    x.bind f = .error e ↔ x = .error e ∨ ∃ a, x = .ok a ∧ f a = .error e := by
  cases x with
  | error e => simp [Except.bind]
  | ok a => simp [Except.bind]

theorem map_eq_error {x : Except ε α} {f : α → β} {e : ε} :
    x.map f = .error e ↔ x = .error e := by
  cases x with
  | error e => simp [Except.map]
  | ok a => simp [Except.map]

theorem mapError_eq_ok {x : Except ε α} {f : ε → δ} {a : α} :
    x.mapError f = .ok a ↔ x = .ok a := by
  cases x with
  | error e =>
    change (Except.error (f e) : Except δ α) = Except.ok a ↔ _
    simp
  | ok b =>
    change (Except.ok b : Except δ α) = Except.ok a ↔ _
    simp

/-! ## Errors alone -/

/-- The error of a run that has failed. -/
def error? : Except ε α → Option ε
  | .error e => some e
  | .ok _ => none

theorem error?_eq_some {x : Except ε α} {e : ε} : error? x = some e ↔ x = .error e := by
  cases x with
  | error d => simp [error?]
  | ok a => simp [error?]

theorem error?_eq_none {x : Except ε α} : error? x = none ↔ ∃ a, x = .ok a := by
  cases x with
  | error d => simp [error?]
  | ok a => simp [error?]

theorem error?_map {x : Except ε α} {f : α → β} : error? (x.map f) = error? x := by
  cases x with
  | error e => rfl
  | ok a => rfl

/-- The error of two steps, of which the second fails in the same way after every success of
the first. -/
theorem error?_bind {x : Except ε α} {f : α → Except ε β} {o : Option ε}
    (h : ∀ a, x = .ok a → error? (f a) = o) : error? (x.bind f) = (error? x).or o := by
  cases x with
  | error e => rfl
  | ok a => exact h a rfl

end HookStyle.Outcome
