import Mathlib.Tactic.Common

/-!
# Programs with state and exceptions

Postconditions for programs in `EStateM`. A program that stops with an exception
keeps the state it had reached, so a specification has two postconditions: one for
a normal end and one for an exception and the state it leaves behind.

## Main definitions

- `Ends`, `Preserves`: postconditions and invariants of programs with state
- `Raises`: the exceptions of programs without state
-/

namespace Fabric.Common

variable {ε σ : Type} {α γ : Type}

/-- Run from `s`, the program ends normally within `Q`, or with an exception within
`E`. -/
def Ends (x : EStateM ε σ α) (s : σ) (Q : α → σ → Prop) (E : ε → σ → Prop) : Prop :=
  match x s with
  | .ok a s' => Q a s'
  | .error e s' => E e s'

variable {x : EStateM ε σ α} {f : α → EStateM ε σ γ} {s : σ} {Q Q' : α → σ → Prop}
  {R : γ → σ → Prop} {E E' : ε → σ → Prop} {result : Option α} {c : γ}

instance [∀ a s, Decidable (Q a s)] [∀ e s, Decidable (E e s)] : Decidable (Ends x s Q E) := by
  unfold Ends
  split <;> infer_instance

theorem Ends.mono (h : Ends x s Q E) (hQ : ∀ a s', Q a s' → Q' a s')
    (hE : ∀ e s', E e s' → E' e s') : Ends x s Q' E' := by
  unfold Ends at h ⊢
  split <;> rename_i heq <;> rw [heq] at h
  · exact hQ _ _ h
  · exact hE _ _ h

/-- A sharper postcondition, with the same exceptions. -/
theorem Ends.imp (h : Ends x s Q E) (hQ : ∀ a s', Q a s' → Q' a s') : Ends x s Q' E :=
  h.mono hQ fun _ _ => id

theorem Ends.of_run_eq_ok {a : α} {s' : σ} (h : Ends x s Q E) (hrun : x.run s = .ok a s') :
    Q a s' := by
  unfold Ends at h
  rwa [show x s = .ok a s' from hrun] at h

theorem Ends.of_run_eq_error {e : ε} {s' : σ} (h : Ends x s Q E) (hrun : x.run s = .error e s') :
    E e s' := by
  unfold Ends at h
  rwa [show x s = .error e s' from hrun] at h

/-- The postconditions that say how the program ended. -/
theorem ends_run (x : EStateM ε σ α) (s : σ) :
    Ends x s (fun a s' => x.run s = .ok a s') (fun e s' => x.run s = .error e s') := by
  unfold Ends
  split <;> assumption

theorem Ends.trivial : Ends x s (fun _ _ => True) (fun _ _ => True) := by
  unfold Ends
  split <;> exact True.intro

theorem Ends.and (h : Ends x s Q E) (h' : Ends x s Q' E') :
    Ends x s (fun a s' => Q a s' ∧ Q' a s') (fun e s' => E e s' ∧ E' e s') := by
  unfold Ends at *
  split <;> rename_i heq <;> rw [heq] at h h' <;> exact ⟨h, h'⟩

/-- A program that cannot stop with an exception returns. -/
theorem Ends.exists_run_eq_ok (h : Ends x s Q fun _ _ => False) :
    ∃ a s', x.run s = .ok a s' ∧ Q a s' := by
  unfold Ends at h
  split at h
  · exact ⟨_, _, ‹_›, h⟩
  · exact h.elim

@[simp] theorem ends_pure (a : α) : Ends (pure a : EStateM ε σ α) s Q E ↔ Q a s := Iff.rfl

@[simp] theorem ends_throw (e : ε) : Ends (throw e : EStateM ε σ α) s Q E ↔ E e s := Iff.rfl

@[simp] theorem ends_bind : Ends (x >>= f) s R E ↔ Ends x s (fun a s' => Ends (f a) s' R E) E := by
  simp only [Ends, bind, EStateM.bind]
  cases x s <;> rfl

@[simp] theorem ends_get {Q : σ → σ → Prop} : Ends (get : EStateM ε σ σ) s Q E ↔ Q s s := Iff.rfl

@[simp] theorem ends_set {Q : PUnit → σ → Prop} (t : σ) :
    Ends (set t : EStateM ε σ PUnit) s Q E ↔ Q ⟨⟩ t := Iff.rfl

@[simp] theorem ends_modify {Q : PUnit → σ → Prop} (g : σ → σ) :
    Ends (modify g : EStateM ε σ PUnit) s Q E ↔ Q ⟨⟩ (g s) := Iff.rfl

@[simp] theorem ends_ite {c : Prop} [Decidable c] {y : EStateM ε σ α} :
    Ends (if c then x else y) s Q E ↔ (c → Ends x s Q E) ∧ (¬ c → Ends y s Q E) := by
  split_ifs with h <;> simp [h]

/-- A handler starts in the state in which the exception left the program. -/
@[simp] theorem ends_tryCatch {h : ε → EStateM ε σ α} :
    Ends (tryCatch x h) s Q E ↔ Ends x s Q (fun e s' => Ends (h e) s' Q E) := by
  have htry : tryCatch x h s = match x s with
    | .ok a s' => .ok a s'
    | .error e s' => h e s' := by
    change EStateM.tryCatch x h s = _
    unfold EStateM.tryCatch
    cases x s <;> rfl
  simp only [Ends, htry]
  cases x s <;> rfl

/-- A fold keeps a relation between what is accumulated and the state. -/
theorem Ends.foldlM {f : γ → α → EStateM ε σ γ} {I : γ → σ → Prop} {l : List α}
    (hf : ∀ a ∈ l, ∀ c s, I c s → Ends (f c a) s I E) (hI : I c s) :
    Ends (l.foldlM f c) s I E := by
  induction l generalizing c s with
  | nil => exact hI
  | cons a _ ih =>
    rw [List.foldlM_cons, ends_bind]
    apply (hf a List.mem_cons_self c s hI).imp
    intro c' s' hI'
    exact ih (fun b hb => hf b (List.mem_cons_of_mem a hb)) hI'

/-- The program keeps `I`, and where it stops with an exception it leaves `E`. -/
def Preserves (I : σ → Prop) (E : ε → σ → Prop) (x : EStateM ε σ α) : Prop :=
  ∀ s, I s → Ends x s (fun _ => I) E

namespace Preserves

variable {I : σ → Prop}

theorem pure (a : α) : Preserves I E (pure a : EStateM ε σ α) := fun _ h => h

theorem bind (hx : Preserves I E x) (hf : ∀ a, Preserves I E (f a)) : Preserves I E (x >>= f) := by
  intro s hs
  rw [ends_bind]
  exact (hx s hs).imp fun a s' => hf a s'

end Preserves

/-! ### Programs without state -/

@[simp] theorem ok_bind (a : α) (f : α → Except ε γ) : (Except.ok a >>= f) = f a := rfl

@[simp] theorem error_bind (e : ε) (f : α → Except ε γ) : (Except.error e >>= f) = .error e := rfl

@[simp] theorem pure_eq_ok (a : α) : (pure a : Except ε α) = .ok a := rfl

/-- A sequence that returns, returns from both its parts. -/
theorem bind_eq_ok_iff {x : Except ε α} {f : α → Except ε γ} :
    x >>= f = .ok c ↔ ∃ a, x = .ok a ∧ f a = .ok c := by
  cases x with
  | error => simp
  | ok => simp

theorem map_eq_ok_iff {x : Except ε α} {f : α → γ} :
    x.map f = .ok c ↔ ∃ a, x = .ok a ∧ f a = c := by
  cases x with
  | error => simp [Except.map]
  | ok => simp [Except.map]

/-- The exceptions of the program satisfy `φ`. -/
def Raises (φ : ε → Prop) (x : Except ε α) : Prop := ∀ e, x = .error e → φ e

namespace Raises

variable {φ : ε → Prop} {x : Except ε α} {f : α → Except ε γ} {p : γ → Except ε Bool}

theorem ok (a : α) : Raises φ (.ok a : Except ε α) := by simp [Raises]

theorem bind_iff : Raises φ (x >>= f) ↔ Raises φ x ∧ ∀ a, x = .ok a → Raises φ (f a) := by
  cases x with
  | error => simp [Raises]
  | ok => simp [Raises]

/-- What the first part returned is known in the second. -/
theorem bind_of_eq (hx : Raises φ x) (hf : ∀ a, x = .ok a → Raises φ (f a)) : Raises φ (x >>= f) :=
  bind_iff.mpr ⟨hx, hf⟩

theorem bind (hx : Raises φ x) (hf : ∀ a, Raises φ (f a)) : Raises φ (x >>= f) :=
  hx.bind_of_eq fun a _ => hf a

theorem ite {c : Prop} [Decidable c] {y : Except ε α} (hx : Raises φ x) (hy : Raises φ y) :
    Raises φ (if c then x else y) := by
  split_ifs
  · exact hx
  · exact hy

theorem allM (hp : ∀ a, Raises φ (p a)) (l : List γ) : Raises φ (l.allM p) := by
  induction l with
  | nil => exact ok true
  | cons a _ ih =>
    refine (hp a).bind fun b => ?_
    cases b
    · exact ok false
    · exact ih

theorem anyM (hp : ∀ a, Raises φ (p a)) (l : List γ) : Raises φ (l.anyM p) := by
  induction l with
  | nil => exact ok false
  | cons a _ ih =>
    refine (hp a).bind fun b => ?_
    cases b
    · exact ih
    · exact ok true

end Raises

/-- A property of the result of a program is checked by evaluating the run. -/
instance decidableExistsEqSome {p : α → Prop} [∀ a, Decidable (p a)] :
    Decidable (∃ a, result = some a ∧ p a) :=
  match result with
  | none => isFalse (by simp)
  | some a => decidable_of_iff (p a) (by simp)

instance decidableExistsEqSomeMk {result : Option (γ × α)} {p : α → Prop} [DecidableEq γ]
    [∀ a, Decidable (p a)] : Decidable (∃ a, result = some (c, a) ∧ p a) :=
  match result with
  | none => isFalse (by simp)
  | some (c', a) => decidable_of_iff (c' = c ∧ p a) (by simp [and_assoc])

/-- A result that was checked has what follows from the check. -/
theorem exists_of_checked {r : α → Prop} (q : α → Prop) (h : ∃ a, result = some a ∧ q a)
    (hr : ∀ a, result = some a → q a → r a) : ∃ a, result = some a ∧ r a := by
  obtain ⟨a, ha, hq⟩ := h
  exact ⟨a, ha, hr a ha hq⟩

/-- The same, with a part that is checked only. -/
theorem exists_and_of_checked {p r : α → Prop} (q : α → Prop)
    (h : ∃ a, result = some a ∧ p a ∧ q a) (hr : ∀ a, result = some a → q a → r a) :
    ∃ a, result = some a ∧ p a ∧ r a :=
  exists_of_checked _ h fun a ha hpq => ⟨hpq.1, hr a ha hpq.2⟩

end Fabric.Common
