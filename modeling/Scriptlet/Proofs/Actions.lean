/-!
Actions on a state that can fail and keep their effects when they do. Compiling and running
are both made of them. A sequence is taken apart at its first action.
-/
namespace Scriptlet.Actions

variable {ε σ α β : Type} {x : EStateM ε σ α} {s s' : σ} {e : ε} {f : α → EStateM ε σ β}

theorem bind_apply (x : EStateM ε σ α) (f : α → EStateM ε σ β) (s : σ) :
    (x >>= f) s = match x s with
      | .ok a s' => f a s'
      | .error e s' => .error e s' := by
  change EStateM.bind x f s = _
  unfold EStateM.bind
  cases x s <;> rfl

theorem bind_ok {a : α} (f : α → EStateM ε σ β) (ok : x s = .ok a s') : (x >>= f) s = f a s' := by
  rw [bind_apply, ok]

theorem bind_error (f : α → EStateM ε σ β) (error : x s = .error e s') :
    (x >>= f) s = .error e s' := by
  rw [bind_apply, error]

theorem of_bind_ok {b : β} (ok : (x >>= f) s = .ok b s') :
    ∃ a t, x s = .ok a t ∧ f a t = .ok b s' := by
  rw [bind_apply] at ok
  cases first : x s with
  | ok a t =>
    rw [first] at ok
    exact ⟨a, t, rfl, ok⟩
  | error e t =>
    rw [first] at ok
    cases ok

theorem of_bind_error (error : (x >>= f) s = .error e s') :
    x s = .error e s' ∨ ∃ a t, x s = .ok a t ∧ f a t = .error e s' := by
  rw [bind_apply] at error
  cases first : x s with
  | ok a t =>
    rw [first] at error
    exact Or.inr ⟨a, t, rfl, error⟩
  | error e' t =>
    rw [first] at error
    cases error
    exact Or.inl rfl

theorem get_bind (f : σ → EStateM ε σ β) (s : σ) : (get >>= f) s = f s s := rfl

theorem set_bind (t : σ) (f : PUnit → EStateM ε σ β) (s : σ) : (set t >>= f) s = f ⟨⟩ t := rfl

theorem modify_bind (g : σ → σ) (f : PUnit → EStateM ε σ β) (s : σ) :
    (modify g >>= f) s = f ⟨⟩ (g s) := rfl

theorem discard_apply (x : EStateM ε σ α) (s : σ) :
    discard x s = match x s with
      | .ok _ s' => .ok ⟨⟩ s'
      | .error e s' => .error e s' := by
  change EStateM.map (fun _ => PUnit.unit) x s = _
  unfold EStateM.map
  cases x s <;> rfl

theorem of_discard_ok {u : PUnit} (ok : discard x s = .ok u s') : ∃ a, x s = .ok a s' := by
  rw [discard_apply] at ok
  cases ran : x s with
  | ok a t =>
    rw [ran] at ok
    cases ok
    exact ⟨a, rfl⟩
  | error e t =>
    rw [ran] at ok
    cases ok

end Scriptlet.Actions
