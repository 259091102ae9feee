import ActiveSet.Event

/-! The outcome of an operation that may stop half way: what it left behind, what it reported and either
its result or the cause of the stop.
-/

namespace ActiveSet

structure Outcome (α σ β : Type) where
  state : σ
  events : List (Event α)
  result : Except Fault β

namespace Outcome

variable {α σ τ β γ : Type}

def done (s : σ) (b : β) : Outcome α σ β := ⟨s, [], .ok b⟩

def fail (s : σ) (cause : Fault) : Outcome α σ β := ⟨s, [], .error cause⟩

/-- Goes on from what was left behind, unless the operation has stopped. -/
def andThen (o : Outcome α σ β) (next : σ → β → Outcome α σ γ) : Outcome α σ γ :=
  match o.result with
  | .error cause => ⟨o.state, o.events, .error cause⟩
  | .ok b =>
    let after := next o.state b
    ⟨after.state, o.events ++ after.events, after.result⟩

def within (o : Outcome α σ β) (embed : σ → τ) : Outcome α τ β := ⟨embed o.state, o.events, o.result⟩

def reporting (o : Outcome α σ β) (e : Event α) : Outcome α σ β :=
  match o.result with
  | .error _ => o
  | .ok _ => ⟨o.state, o.events ++ [e], o.result⟩

def succeeds (o : Outcome α σ β) : Prop := ∃ b, o.result = .ok b

@[simp] theorem done_andThen (s : σ) (b : β) (next : σ → β → Outcome α σ γ) :
    (done s b).andThen next = next s b := by simp [andThen, done]

@[simp] theorem fail_andThen (s : σ) (cause : Fault) (next : σ → β → Outcome α σ γ) :
    (fail s cause : Outcome α σ β).andThen next = fail s cause := rfl

@[simp] theorem state_within (o : Outcome α σ β) (embed : σ → τ) :
    (o.within embed).state = embed o.state := rfl

@[simp] theorem result_within (o : Outcome α σ β) (embed : σ → τ) :
    (o.within embed).result = o.result := rfl

@[simp] theorem state_reporting (o : Outcome α σ β) (e : Event α) :
    (o.reporting e).state = o.state := by
  unfold reporting
  split <;> rfl

@[simp] theorem result_reporting (o : Outcome α σ β) (e : Event α) :
    (o.reporting e).result = o.result := by
  unfold reporting
  split <;> rfl

theorem result_andThen_eq_ok {o : Outcome α σ β} {next : σ → β → Outcome α σ γ} {c : γ} :
    (o.andThen next).result = .ok c ↔ ∃ b, o.result = .ok b ∧ (next o.state b).result = .ok c := by
  unfold andThen
  cases h : o.result <;> simp

end Outcome

end ActiveSet
