import PrivateSetIntersection.Library.Bytes

/-! The outcomes of a call: `absl::Status` and `absl::StatusOr`. -/
namespace PrivateSetIntersection
open Library

inductive StatusCode where
  | cancelled | unknown | invalidArgument | deadlineExceeded | notFound | alreadyExists
  | permissionDenied | resourceExhausted | failedPrecondition | aborted | outOfRange
  | unimplemented | internal | unavailable | dataLoss | unauthenticated
  deriving DecidableEq, Repr

/-- A status that is not OK. -/
structure Error where
  code : StatusCode
  message : String
  deriving DecidableEq, Repr

inductive Status where
  | ok
  | error (e : Error)
  deriving DecidableEq, Repr

def invalidArgumentError (message : String) : Error := ⟨.invalidArgument, message⟩
def failedPreconditionError (message : String) : Error := ⟨.failedPrecondition, message⟩

/-- A value or an error. `undefined` is a call that gives neither: a read or a
write out of bounds, an undefined shift or cast, an exception, or no return. -/
inductive StatusOr (α : Type) where
  | ok (value : α)
  | error (e : Error)
  | undefined
  deriving DecidableEq, Repr

namespace StatusOr
variable {α β : Type}

def bind : StatusOr α → (α → StatusOr β) → StatusOr β
  | .ok a, f => f a
  | .error e, _ => .error e
  | .undefined, _ => .undefined

instance : Monad StatusOr where
  pure := .ok
  bind := bind

@[simp] theorem pure_eq (a : α) : (pure a : StatusOr α) = .ok a := rfl
@[simp] theorem ok_bind (a : α) (f : α → StatusOr β) : ((.ok a : StatusOr α) >>= f) = f a := rfl
@[simp] theorem error_bind (e : Error) (f : α → StatusOr β) :
    ((.error e : StatusOr α) >>= f) = .error e := rfl
@[simp] theorem undefined_bind (f : α → StatusOr β) :
    ((.undefined : StatusOr α) >>= f) = .undefined := rfl

/-- A value of a chain of calls has a value at every link. -/
theorem bind_eq_ok {x : StatusOr α} {f : α → StatusOr β} {b : β} :
    (x >>= f) = .ok b ↔ ∃ a, x = .ok a ∧ f a = .ok b := by
  cases x <;> simp

/-- A link of a chain of calls that is an error or undefined is the end of both chains. -/
theorem bind_congr_ok {x : StatusOr α} {f g : α → StatusOr β} (h : ∀ a, x = .ok a → f a = g a) :
    (x >>= f) = (x >>= g) := by
  cases x with
  | ok a => exact h a rfl
  | error e => rfl
  | undefined => rfl

theorem bind_assoc {γ : Type} (x : StatusOr α) (f : α → StatusOr β) (g : β → StatusOr γ) :
    (x >>= f) >>= g = x >>= fun a => f a >>= g := by
  cases x <;> rfl

def ofOption : Option α → StatusOr α
  | some a => .ok a
  | none => .undefined

def ofExcept : Except Error α → StatusOr α
  | .ok a => .ok a
  | .error e => .error e

@[simp] theorem ofOption_some (a : α) : ofOption (some a) = .ok a := rfl
@[simp] theorem ofOption_none : ofOption (none : Option α) = .undefined := rfl
@[simp] theorem ofExcept_ok (a : α) : ofExcept (.ok a) = .ok a := rfl
@[simp] theorem ofExcept_error (e : Error) : ofExcept (.error e : Except Error α) = .error e := rfl

theorem ofOption_eq_ok {o : Option α} {a : α} : ofOption o = .ok a ↔ o = some a := by
  cases o <;> simp

theorem ofExcept_eq_ok {x : Except Error α} {a : α} : ofExcept x = .ok a ↔ x = .ok a := by
  cases x <;> simp

theorem ofOption_bind_eq_error {o : Option α} {f : α → StatusOr β} {e : Error} :
    (ofOption o >>= f) = .error e ↔ ∃ a, o = some a ∧ f a = .error e := by
  cases o <;> simp

def isOk : StatusOr α → Bool
  | .ok _ => true
  | _ => false

@[simp] theorem isOk_ok (a : α) : (StatusOr.ok a).isOk = true := rfl
@[simp] theorem isOk_error (e : Error) : (StatusOr.error e : StatusOr α).isOk = false := rfl

end StatusOr
end PrivateSetIntersection
