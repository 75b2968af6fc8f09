import Relocation.Failure

/-!
# Notices

What a compilation tells about itself while it runs.  A computation with notices keeps those that
were given before a failure.
-/

namespace Relocation

inductive Notice
  | callGuarded
  | bodyPlanned (length splits : Nat)
  | unitCompiled (length outputLength : Nat)
  deriving DecidableEq

structure Noted (α : Type) where
  notices : List Notice
  result : Except Failure α

namespace Noted

/-- one notice -/
def tell (n : Notice) : Noted Unit := ⟨[n], .ok ()⟩

/-- a computation without notices -/
def lift {α : Type} (r : Except Failure α) : Noted α := ⟨[], r⟩

protected def pure {α : Type} (a : α) : Noted α := ⟨[], .ok a⟩

protected def bind {α β : Type} (m : Noted α) (f : α → Noted β) : Noted β :=
  match m.result with
  | .error e => ⟨m.notices, .error e⟩
  | .ok a => let n := f a; ⟨m.notices ++ n.notices, n.result⟩

instance : Monad Noted where
  pure := Noted.pure
  bind := Noted.bind

end Noted

end Relocation
