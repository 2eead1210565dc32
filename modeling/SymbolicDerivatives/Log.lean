import SymbolicDerivatives.Failure

/-!
# Records of a computation

Some computations leave records for whoever looks into them: which names a formula uses without a
value, which formula could not be read, what each derivative is. A `Logged` value carries the
records made on the way to it, in order. Nothing reads them back, so they never change a value.
-/

namespace SymbolicDerivatives

inductive Level where
  | debug
  | warning
  deriving DecidableEq

/-- The part of the calculator that made a record. -/
inductive Source where
  /-- Reading a formula. -/
  | formula
  /-- Reading the values of variables. -/
  | point
  /-- Carrying out a plan of derivatives. -/
  | plan
  deriving DecidableEq

/-- The name under which a part of the calculator makes its records. -/
def Source.name : Source → String
  | formula => "Calculus.parser"
  | point => "Calculus.point"
  | plan => "Calculus.differentiator"

def Level.name : Level → String
  | debug => "DEBUG"
  | warning => "WARNING"

structure Record where
  level : Level
  source : Source
  message : String
  deriving DecidableEq

/-- A value and the records made on the way to it. -/
structure Logged (α : Type) where
  /-- The value. -/
  value : α
  /-- The records, in order. -/
  log : List Record

namespace Logged

variable {α β : Type}

instance : Monad Logged where
  pure value := ⟨value, []⟩
  bind x f :=
    let y := f x.value
    ⟨y.value, x.log ++ y.log⟩

@[simp] theorem value_pure (a : α) : (pure a : Logged α).value = a := rfl

@[simp] theorem log_pure (a : α) : (pure a : Logged α).log = [] := rfl

@[simp] theorem value_bind (x : Logged α) (f : α → Logged β) :
    (x >>= f).value = (f x.value).value := rfl

@[simp] theorem log_bind (x : Logged α) (f : α → Logged β) :
    (x >>= f).log = x.log ++ (f x.value).log := rfl

def records (log : List Record) : Logged Unit := ⟨(), log⟩

@[simp] theorem log_records (log : List Record) : (records log).log = log := rfl

end Logged

/-- A computation that may fail and makes records; those made before a failure are kept. -/
abbrev Logging (α : Type) := ExceptT Failure Logged α

namespace Logging

/-- A step that makes no records. -/
def ofExcept {α : Type} (x : Except Failure α) : Logging α := ExceptT.mk (pure x)

def record (r : Record) : Logging Unit := ExceptT.lift (Logged.records [r])

/-! ### Values without the records -/

section Value

variable {α β : Type}

@[simp] theorem value_run_pure (a : α) : (pure a : Logging α).run.value = .ok a := rfl

@[simp] theorem value_run_ofExcept (x : Except Failure α) : (ofExcept x).run.value = x := rfl

@[simp] theorem value_run_record (r : Record) : (record r).run.value = .ok () := rfl

@[simp] theorem value_run_lift (x : Logged α) :
    (ExceptT.lift x : Logging α).run.value = .ok x.value := rfl

theorem value_run_bind (x : Logging α) (f : α → Logging β) :
    (x >>= f).run.value = x.run.value >>= fun a ↦ (f a).run.value := by
  rw [ExceptT.run_bind, Logged.value_bind]
  cases x.run.value <;> rfl

theorem value_run_bind_of_eq_ok {x : Logging α} {a : α} (h : x.run.value = .ok a)
    (f : α → Logging β) : (x >>= f).run.value = (f a).run.value := by
  rw [value_run_bind, h]
  rfl

end Value

/-! ### Records without the value -/

section Records

variable {α β : Type}

@[simp] theorem log_run_pure (a : α) : (pure a : Logging α).run.log = [] := rfl

@[simp] theorem log_run_ofExcept (x : Except Failure α) : (ofExcept x).run.log = [] := rfl

@[simp] theorem log_run_record (r : Record) : (record r).run.log = [r] := rfl

@[simp] theorem log_run_lift (x : Logged α) :
    (ExceptT.lift x : Logging α).run.log = x.log := by
  rw [ExceptT.run_lift]
  exact List.append_nil _

theorem log_run_bind_of_eq_ok {x : Logging α} {a : α} (h : x.run.value = .ok a)
    (f : α → Logging β) : (x >>= f).run.log = x.run.log ++ (f a).run.log := by
  rw [ExceptT.run_bind, Logged.log_bind, h]

end Records

end Logging

end SymbolicDerivatives
