/-!
# Attempts

An attempt is the answer of an operation that may fail together with the state
it leaves behind, whether it failed or not. Keeping the state in both cases
lets one say of a failure what it changed.
-/

namespace FacilityIsa

structure Attempt (ε α σ : Type) where
  answer : Except ε α
  after : σ

namespace Attempt

variable {ε α β σ : Type}

def done (value : α) (state : σ) : Attempt ε α σ :=
  ⟨.ok value, state⟩

def failed (error : ε) (state : σ) : Attempt ε α σ :=
  ⟨.error error, state⟩

/-- Answers with a function of the value on success. -/
def map (f : α → β) (attempt : Attempt ε α σ) : Attempt ε β σ :=
  ⟨attempt.answer.map f, attempt.after⟩

@[simp] theorem answer_done (value : α) (state : σ) :
    (done value state : Attempt ε α σ).answer = .ok value := rfl

@[simp] theorem after_done (value : α) (state : σ) :
    (done value state : Attempt ε α σ).after = state := rfl

@[simp] theorem answer_failed (error : ε) (state : σ) :
    (failed error state : Attempt ε α σ).answer = .error error := rfl

@[simp] theorem after_failed (error : ε) (state : σ) :
    (failed error state : Attempt ε α σ).after = state := rfl

@[simp] theorem answer_map (f : α → β) (attempt : Attempt ε α σ) :
    (attempt.map f).answer = attempt.answer.map f := rfl

@[simp] theorem after_map (f : α → β) (attempt : Attempt ε α σ) :
    (attempt.map f).after = attempt.after := rfl

end Attempt
end FacilityIsa
