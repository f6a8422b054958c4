import RuleLogic.EvalError

/-!
# Outcomes

An outcome is what an evaluation does: the values it logs, in order, and the value or error it
ends with.  Doing one thing after another joins the logs, and nothing follows an error.

    (x >>= f).log = x.log, then the log of f      when x succeeds
    (x >>= f).log = x.log                         when x fails
-/

namespace RuleLogic

/-- The values logged, and the result. -/
structure Outcome (α : Type) where
  log : List Value
  result : Except EvalError α

namespace Outcome

variable {α β : Type}

def succeed (a : α) : Outcome α := ⟨[], .ok a⟩

def fail (e : EvalError) : Outcome α := ⟨[], .error e⟩

/-- One after the other; a failure keeps its log and stops. -/
def andThen (x : Outcome α) (f : α → Outcome β) : Outcome β :=
  match x.result with
  | .ok a => ⟨x.log ++ (f a).log, (f a).result⟩
  | .error e => ⟨x.log, .error e⟩

instance : Monad Outcome where
  pure := succeed
  bind := andThen

/-- A result without a log. -/
def ofResult (r : Except EvalError α) : Outcome α := ⟨[], r⟩

/-- Log one value. -/
def emit (v : Value) : Outcome Unit := ⟨[v], .ok ()⟩

/-! ## Lemmas -/

@[ext] theorem ext {x y : Outcome α} (hl : x.log = y.log) (hr : x.result = y.result) : x = y := by
  cases x; cases y; cases hl; cases hr; rfl

theorem pure_def (a : α) : (pure a : Outcome α) = ⟨[], .ok a⟩ := rfl

theorem bind_ok {x : Outcome α} {a : α} (h : x.result = .ok a) (f : α → Outcome β) :
    x >>= f = ⟨x.log ++ (f a).log, (f a).result⟩ := by
  show andThen x f = _
  simp only [andThen, h]

theorem bind_error {x : Outcome α} {e : EvalError} (h : x.result = .error e)
    (f : α → Outcome β) : x >>= f = ⟨x.log, .error e⟩ := by
  show andThen x f = _
  simp only [andThen, h]

theorem bind_result_ok_iff {x : Outcome α} {f : α → Outcome β} {b : β} :
    (x >>= f).result = .ok b ↔ ∃ a, x.result = .ok a ∧ (f a).result = .ok b := by
  cases h : x.result with
  | ok a => simp [bind_ok h]
  | error e => simp [bind_error h]

theorem bind_result_error_iff {x : Outcome α} {f : α → Outcome β} {e : EvalError} :
    (x >>= f).result = .error e ↔
      x.result = .error e ∨ ∃ a, x.result = .ok a ∧ (f a).result = .error e := by
  cases h : x.result with
  | ok a => simp [bind_ok h]
  | error e => simp [bind_error h]

theorem ofResult_bind (x : Except EvalError α) (f : α → Except EvalError β) :
    ofResult (x >>= f) = ofResult x >>= fun a => ofResult (f a) := by
  cases x with
  | ok a => rfl
  | error e => rfl

theorem id_map' (x : Outcome α) : id <$> x = x := by
  cases h : x.result with
  | ok a => exact (bind_ok h _).trans (ext (List.append_nil _) h.symm)
  | error e => exact (bind_error h _).trans (ext rfl h.symm)

theorem bind_assoc' {γ : Type} (x : Outcome α) (f : α → Outcome β) (g : β → Outcome γ) :
    x >>= f >>= g = x >>= fun a => f a >>= g := by
  cases h : x.result with
  | error e => rw [bind_error h, bind_error h, bind_error rfl]
  | ok a =>
    rw [bind_ok h, bind_ok h]
    cases hf : (f a).result with
    | error e => rw [bind_error rfl, bind_error hf]
    | ok b => rw [bind_ok rfl, bind_ok hf, List.append_assoc]

instance : LawfulMonad Outcome :=
  LawfulMonad.mk' Outcome id_map' (fun _ _ => rfl) bind_assoc'

end Outcome

end RuleLogic
