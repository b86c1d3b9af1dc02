/-! # Sequences of steps that may fail

A sequence succeeds when each of its steps does, and fails as the first step that fails.
-/

namespace Except

variable {ε α β : Type}

@[simp] theorem ok_bind (a : α) (f : α → Except ε β) : (Except.ok a >>= f) = f a := rfl

@[simp] theorem error_bind (e : ε) (f : α → Except ε β) :
    ((Except.error e : Except ε α) >>= f) = .error e := rfl

@[simp] theorem ok_map (f : α → β) (a : α) : Except.map f (.ok a : Except ε α) = .ok (f a) := rfl

@[simp] theorem error_map (f : α → β) (e : ε) :
    Except.map f (.error e : Except ε α) = .error e := rfl

theorem bind_eq_ok_iff {x : Except ε α} {f : α → Except ε β} {b : β} :
    (x >>= f) = .ok b ↔ ∃ a, x = .ok a ∧ f a = .ok b := by
  cases x <;> simp

theorem map_eq_ok_iff {x : Except ε α} {f : α → β} {b : β} :
    x.map f = .ok b ↔ ∃ a, x = .ok a ∧ f a = b := by
  cases x <;> simp

theorem bind_eq_error_iff {x : Except ε α} {f : α → Except ε β} {e : ε} :
    (x >>= f) = .error e ↔ x = .error e ∨ ∃ a, x = .ok a ∧ f a = .error e := by
  cases x <;> simp

theorem map_eq_error_iff {x : Except ε α} {f : α → β} {e : ε} :
    x.map f = .error e ↔ x = .error e := by
  cases x <;> simp

theorem toOption_eq_some_iff {x : Except ε α} {a : α} : x.toOption = some a ↔ x = .ok a := by
  cases x <;> simp [Except.toOption]

theorem bind_map_left {γ : Type} (x : Except ε α) (f : α → β) (g : β → Except ε γ) :
    (x.map f >>= g) = x >>= fun a => g (f a) := by
  cases x <;> rfl

theorem map_bind {γ : Type} (x : Except ε α) (f : α → Except ε β) (g : β → γ) :
    (x >>= f).map g = x >>= fun a => (f a).map g := by
  cases x <;> rfl

theorem map_map {γ : Type} (x : Except ε α) (f : α → β) (g : β → γ) :
    (x.map f).map g = x.map fun a => g (f a) := by
  cases x <;> rfl

/-- The first result is the second one, or it is an error of the kind `P`. -/
inductive Filters (P : ε → Prop) : Except ε α → Except ε α → Prop
  | same (x) : Filters P x x
  | refused {e} (y) : P e → Filters P (.error e) y

namespace Filters

variable {P : ε → Prop} {x y : Except ε α}

theorem map (h : Filters P x y) (f : α → β) : Filters P (x.map f) (y.map f) := by
  cases h with
  | same => exact .same _
  | refused _ he => exact .refused _ he

theorem bind {f g : α → Except ε β} (h : Filters P x y) (hf : ∀ a, Filters P (f a) (g a)) :
    Filters P (x >>= f) (y >>= g) := by
  cases h with
  | refused _ he => exact .refused _ he
  | same =>
    cases x with
    | error e => exact .same _
    | ok a => exact hf a

theorem mono {Q : ε → Prop} (h : Filters P x y) (hPQ : ∀ e, P e → Q e) : Filters Q x y := by
  cases h with
  | same => exact .same _
  | refused _ he => exact .refused _ (hPQ _ he)

theorem eq_or (h : Filters P x y) : (∃ e, P e ∧ x = .error e) ∨ x = y := by
  cases h with
  | same => exact .inr rfl
  | refused _ he => exact .inl ⟨_, he, rfl⟩

end Filters

/-- A result satisfies `Q` and an error satisfies `P`. -/
inductive Ends (P : ε → Prop) (Q : α → Prop) : Except ε α → Prop
  | ok {a} : Q a → Ends P Q (.ok a)
  | error {e} : P e → Ends P Q (.error e)

namespace Ends

variable {P : ε → Prop} {Q : α → Prop} {R : β → Prop} {x : Except ε α}

theorem map {f : α → β} (h : Ends P Q x) (hf : ∀ a, Q a → R (f a)) : Ends P R (x.map f) := by
  cases h with
  | ok ha => exact .ok (hf _ ha)
  | error he => exact .error he

theorem bind {f : α → Except ε β} (h : Ends P Q x) (hf : ∀ a, Q a → Ends P R (f a)) :
    Ends P R (x >>= f) := by
  cases h with
  | ok ha => exact hf _ ha
  | error he => exact .error he

theorem imp {R : α → Prop} (h : Ends P Q x) (hQR : ∀ a, Q a → R a) : Ends P R x := by
  cases h with
  | ok ha => exact .ok (hQR _ ha)
  | error he => exact .error he

theorem of_error {e : ε} (h : Ends P Q x) (hx : x = .error e) : P e := by
  subst hx
  cases h with
  | error he => exact he

end Ends

end Except
