/-!
# Operations that fail and leave a state

Every operation of this library that may fail leaves a state, after a failure too: a caller may go on
from there, and what happens then is part of the behaviour. `EStateM` is such an operation; this
module adds the state left, whichever way the operation ended, and what an operation keeps.
-/

set_option autoImplicit false

namespace EStateM

variable {ε σ α β : Type}

instance decidableEqResult [DecidableEq ε] [DecidableEq σ] [DecidableEq α] :
    DecidableEq (Result ε σ α)
  | .ok a s, .ok b t => decidable_of_iff (a = b ∧ s = t) (by simp)
  | .error d s, .error e t => decidable_of_iff (d = e ∧ s = t) (by simp)
  | .ok _ _, .error _ _ => isFalse nofun
  | .error _ _, .ok _ _ => isFalse nofun

/-- The state that an operation leaves, whether it failed or not. -/
def Result.left : Result ε σ α → σ
  | .ok _ s => s
  | .error _ s => s

@[simp] theorem Result.left_ok (a : α) (s : σ) : (Result.ok a s : Result ε σ α).left = s := rfl

@[simp] theorem Result.left_error (e : ε) (s : σ) : (Result.error e s : Result ε σ α).left = s := rfl

/-- Another answer with the same state. -/
def Result.mapAnswer (f : α → β) : Result ε σ α → Result ε σ β
  | .ok a s => .ok (f a) s
  | .error e s => .error e s

/-- The answer or the error, without the state. -/
def Result.answer : Result ε σ α → Except ε α
  | .ok a _ => .ok a
  | .error e _ => .error e

@[simp] theorem Result.left_mapAnswer (f : α → β) (r : Result ε σ α) :
    (r.mapAnswer f).left = r.left := by
  cases r <;> rfl

theorem Result.answer_eq_ok_iff {r : Result ε σ α} {a : α} : r.answer = .ok a ↔ r = .ok a r.left := by
  cases r <;> simp [answer]

theorem Result.answer_eq_error_iff {r : Result ε σ α} {e : ε} :
    r.answer = .error e ↔ r = .error e r.left := by
  cases r <;> simp [answer]

/-- An operation leads from each state to a related one. -/
def Leads (related : σ → σ → Prop) (m : EStateM ε σ α) : Prop :=
  ∀ s, related s (m s).left

theorem Leads.of_ok {related : σ → σ → Prop} {m : EStateM ε σ α} (h : Leads related m) {s t : σ} {a : α}
    (hs : m s = .ok a t) : related s t := by
  have hrelated := h s
  rw [hs] at hrelated
  exact hrelated

theorem Leads.of_error {related : σ → σ → Prop} {m : EStateM ε σ α} (h : Leads related m) {s t : σ}
    {e : ε} (hs : m s = .error e t) : related s t := by
  have hrelated := h s
  rw [hs] at hrelated
  exact hrelated

theorem Leads.pure {related : σ → σ → Prop} (refl : ∀ s, related s s) (a : α) :
    Leads related (Pure.pure a : EStateM ε σ α) :=
  refl

theorem Leads.bind {related : σ → σ → Prop}
    (trans : ∀ {a b c}, related a b → related b c → related a c)
    {m : EStateM ε σ α} {f : α → EStateM ε σ β} (hm : Leads related m)
    (hf : ∀ a, Leads related (f a)) : Leads related (m >>= f) := by
  intro s
  have h := hm s
  change related s (EStateM.bind m f s).left
  unfold EStateM.bind
  split
  next a t heq => rw [heq] at h; exact trans h (hf a t)
  next e t heq => rw [heq] at h; exact h

/-- A sequence of two operations does what the second does behind the first. -/
theorem bind_of_ok {m : EStateM ε σ α} {f : α → EStateM ε σ β} {s t : σ} {a : α}
    (h : m s = .ok a t) : (m >>= f) s = f a t := by
  change EStateM.bind m f s = _
  unfold EStateM.bind
  rw [h]

/-- A sequence of two operations ends well when both do. -/
theorem bind_eq_ok {m : EStateM ε σ α} {f : α → EStateM ε σ β} {s u : σ} {b : β} :
    (m >>= f) s = .ok b u ↔ ∃ a t, m s = .ok a t ∧ f a t = .ok b u := by
  change EStateM.bind m f s = .ok b u ↔ _
  unfold EStateM.bind
  cases m s <;> simp [and_assoc]

/-- A sequence of two operations fails when the first does, or the second behind it. -/
theorem bind_eq_error {m : EStateM ε σ α} {f : α → EStateM ε σ β} {s u : σ} {e : ε} :
    (m >>= f) s = .error e u ↔
      m s = .error e u ∨ ∃ a t, m s = .ok a t ∧ f a t = .error e u := by
  change EStateM.bind m f s = .error e u ↔ _
  unfold EStateM.bind
  cases m s <;> simp [and_assoc]

/-- With its errors told in another way an operation ends well when it does. -/
theorem adaptExcept_eq_ok {δ : Type} {f : ε → δ} {m : EStateM ε σ α} {s t : σ} {a : α} :
    m.adaptExcept f s = .ok a t ↔ m s = .ok a t := by
  unfold EStateM.adaptExcept
  cases m s <;> simp

/-- And it fails when it does. -/
theorem adaptExcept_eq_error {δ : Type} {f : ε → δ} {m : EStateM ε σ α} {s t : σ} {e : δ} :
    m.adaptExcept f s = .error e t ↔ ∃ fault, m s = .error fault t ∧ e = f fault := by
  unfold EStateM.adaptExcept
  cases m s with
  | ok a u => simp
  | error fault u =>
    constructor
    · intro h
      cases h
      exact ⟨fault, rfl, rfl⟩
    · rintro ⟨_, h, rfl⟩
      cases h
      rfl

theorem pure_eq_ok {a b : α} {s t : σ} :
    (Pure.pure a : EStateM ε σ α) s = .ok b t ↔ a = b ∧ s = t := by
  change EStateM.pure a s = .ok b t ↔ _
  simp [EStateM.pure]

theorem get_eq_ok {s t u : σ} : (get : EStateM ε σ σ) s = .ok t u ↔ s = t ∧ s = u := by
  change Result.ok s s = Result.ok t u ↔ _
  simp

end EStateM

namespace Except

variable {ε α β : Type} {f : α → β} {r : Except ε α}

theorem map_eq_ok {b : β} : r.map f = .ok b ↔ ∃ a, r = .ok a ∧ f a = b := by
  cases r <;> simp [Except.map]

theorem map_eq_error {e : ε} : r.map f = .error e ↔ r = .error e := by
  cases r <;> simp [Except.map]

end Except
