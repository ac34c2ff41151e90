/-!
# One step after another

Parsers, evaluations and conversations are steps that go through a state and may break off. What two
such steps come to, one after the other, is told by how the first of them ends.
-/

namespace Monkey

variable {ε σ α β : Type} {x : EStateM ε σ α} {f : α → EStateM ε σ β} {s s' : σ}

theorem bind_of_ok {a : α} (h : x s = .ok a s') : (x >>= f) s = f a s' := by
  simp only [bind, EStateM.bind, h]

theorem bind_of_error {e : ε} (h : x s = .error e s') : (x >>= f) s = .error e s' := by
  simp only [bind, EStateM.bind, h]

/-- Two steps that have come to their end have both done so. -/
theorem ok_of_bind {b : β} (h : (x >>= f) s = .ok b s') :
    ∃ a s1, x s = .ok a s1 ∧ f a s1 = .ok b s' := by
  cases hx : x s with
  | ok a s1 => exact ⟨a, s1, rfl, (bind_of_ok hx).symm.trans h⟩
  | error e s1 => cases (bind_of_error hx).symm.trans h

end Monkey
