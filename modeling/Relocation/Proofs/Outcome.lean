import Relocation.Notice

/-!
# Outcomes

How a computation that can fail, with or without notices, is taken apart when its outcome is known.
-/

namespace Relocation

theorem Except.bind_eq_ok {ε α β : Type} {m : Except ε α} {f : α → Except ε β} {b : β} :
    (m >>= f) = .ok b ↔ ∃ a, m = .ok a ∧ f a = .ok b := by
  cases m with
  | error e => simp [bind, Except.bind]
  | ok a => simp [bind, Except.bind]

theorem Except.bind_eq_error {ε α β : Type} {m : Except ε α} {f : α → Except ε β} {e : ε} :
    (m >>= f) = .error e ↔ m = .error e ∨ ∃ a, m = .ok a ∧ f a = .error e := by
  cases m with
  | error e => simp [bind, Except.bind]
  | ok a => simp [bind, Except.bind]

theorem Except.toOption_eq_some {ε α : Type} {m : Except ε α} {a : α} : m.toOption = some a ↔
    m = .ok a := by
  cases m <;> simp [Except.toOption]

theorem Except.exists_of_any {ε α : Type} {m : Except ε α} {test : α → Bool}
    (h : m.toOption.any test = true) : ∃ a, m = .ok a ∧ test a = true := by
  cases m with
  | error e => cases h
  | ok a => exact ⟨a, rfl, h⟩

namespace Noted

variable {α β : Type}

@[simp] theorem result_bind (m : Noted α) (f : α → Noted β) :
    (m >>= f).result = m.result >>= fun a => (f a).result := by
  show (Noted.bind m f).result = _
  unfold Noted.bind
  cases m.result <;> rfl

@[simp] theorem result_pure (a : α) : (pure a : Noted α).result = .ok a := rfl

@[simp] theorem result_lift (r : Except Failure α) : (lift r).result = r := rfl

@[simp] theorem result_tell (n : Notice) : (tell n).result = .ok () := rfl

end Noted

end Relocation
