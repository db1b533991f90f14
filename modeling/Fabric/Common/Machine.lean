import Mathlib.Data.List.Induction
import Mathlib.Data.Option.Basic

/-!
# Machines

A machine takes steps with labels; a label that is not enabled in a state has no step from it.
What every step keeps holds after every run. Where only some steps keep it, it holds after the
runs all of whose steps meet a condition on the state before them.

## Main results

- `runSteps_invariant`: what steps keep holds after runs
- `along_iff`: a condition on steps that is necessary and sufficient for a property of runs
-/

namespace Fabric.Common

variable {σ ι ω : Type} {step : σ → ι → Option σ} {φ : σ → ι → Prop} {out : σ → ι → List ω}
  {s s' s₁ : σ} {a : ι} {labels labels' : List ι} {ψ : σ → ι → Prop} {I : σ → Prop}

/-- The state after a run, unless one of its steps is not enabled. -/
def runSteps (step : σ → ι → Option σ) (s : σ) (labels : List ι) : Option σ :=
  labels.foldlM step s

@[simp] theorem runSteps_nil : runSteps step s [] = some s := rfl

theorem runSteps_cons : runSteps step s (a :: labels) =
    (step s a).bind fun s' => runSteps step s' labels := rfl

theorem runSteps_append : runSteps step s (labels ++ labels') =
    (runSteps step s labels).bind fun s' => runSteps step s' labels' := by
  rw [runSteps, List.foldlM_append]
  rfl

theorem runSteps_concat :
    runSteps step s (labels ++ [a]) = (runSteps step s labels).bind fun s' => step s' a := by
  rw [runSteps_append]
  congr 1
  funext s'
  exact Option.bind_fun_some (step s' a)

theorem runSteps_concat_eq_some : runSteps step s (labels ++ [a]) = some s' ↔
    ∃ s₁, runSteps step s labels = some s₁ ∧ step s₁ a = some s' := by
  rw [runSteps_concat, Option.bind_eq_some_iff]

/-! ### Conditions along a run -/

/-- Every step of the run meets the condition on the state before it. -/
def Along (step : σ → ι → Option σ) (φ : σ → ι → Prop) (s : σ) : List ι → Prop
  | [] => True
  | a :: labels => φ s a ∧ match step s a with
    | none => True
    | some s' => Along step φ s' labels

@[simp] theorem along_nil : Along step φ s [] := trivial

theorem along_cons_of_step (h : step s a = some s') :
    Along step φ s (a :: labels) ↔ φ s a ∧ Along step φ s' labels := by
  rw [Along, h]

theorem along_append (h : runSteps step s labels = some s') :
    Along step φ s (labels ++ labels') ↔ Along step φ s labels ∧ Along step φ s' labels' := by
  induction labels generalizing s with
  | nil =>
    cases h
    simp
  | cons _ _ ih =>
    obtain ⟨s₁, ha, h⟩ := Option.bind_eq_some_iff.mp h
    rw [List.cons_append, along_cons_of_step ha, along_cons_of_step ha, ih h, and_assoc]

/-- A condition that the labels of the run meet in every state. -/
theorem along_of_forall_mem (h : ∀ a ∈ labels, ∀ s, φ s a) : Along step φ s labels := by
  induction labels generalizing s with
  | nil => trivial
  | cons a _ ih =>
    refine ⟨h a List.mem_cons_self s, ?_⟩
    split
    · trivial
    · exact ih fun b hb => h b (List.mem_cons_of_mem a hb)

/-- A condition that every step meets. -/
theorem along_of_forall (h : ∀ s a, φ s a) : Along step φ s labels :=
  along_of_forall_mem fun a _ s => h s a

instance decidableAlong [∀ s a, Decidable (φ s a)] :
    (s : σ) → (labels : List ι) → Decidable (Along step φ s labels)
  | _, [] => .isTrue trivial
  | s, a :: labels =>
    match h : step s a with
    | none => decidable_of_iff (φ s a) (by rw [Along, h]; simp)
    | some s' =>
      have := decidableAlong s' labels
      decidable_of_iff (φ s a ∧ Along step φ s' labels) (along_cons_of_step h).symm

/-! ### Induction along a run -/

/-- Induction along a run from its start, for runs along a condition. -/
theorem runSteps_induction {P : List ι → σ → Prop} (hnil : P [] s)
    (hstep : ∀ done a s₁ s₂, runSteps step s done = some s₁ → φ s₁ a → P done s₁ →
      step s₁ a = some s₂ → P (done ++ [a]) s₂)
    (halong : Along step φ s labels) (hrun : runSteps step s labels = some s') : P labels s' := by
  induction labels using List.reverseRecOn generalizing s' with
  | nil =>
    cases hrun
    exact hnil
  | append_singleton labels a ih =>
    obtain ⟨s₁, hrun, ha⟩ := runSteps_concat_eq_some.mp hrun
    obtain ⟨halong, hlast⟩ := (along_append hrun).mp halong
    exact hstep labels a s₁ s' hrun hlast.1 (ih halong hrun) ha

/-- What the steps under a condition keep holds after a run along it. -/
theorem runSteps_invariant (hs : I s) (hstep : ∀ s a s', φ s a → I s → step s a = some s' → I s')
    (halong : Along step φ s labels) (hrun : runSteps step s labels = some s') : I s' :=
  runSteps_induction hs (fun _ a s₁ s₂ _ => hstep s₁ a s₂) halong hrun

/-- Steps under a condition that keep an invariant meet what the two imply. -/
theorem along_of_invariant (hs : I s) (hstep : ∀ s a s', φ s a → I s → step s a = some s' → I s')
    (himp : ∀ s a, φ s a → I s → ψ s a) (halong : Along step φ s labels) :
    Along step ψ s labels := by
  induction labels generalizing s with
  | nil => trivial
  | cons a _ ih =>
    refine ⟨himp s a halong.1 hs, ?_⟩
    split
    case h_1 => trivial
    case h_2 s' ha =>
      obtain ⟨hφ, hrest⟩ := (along_cons_of_step ha).mp halong
      exact ih (hstep s a s' hφ hs ha) hrest

/-- A condition `ψ` is exact for a property if the steps under it keep an invariant that has the
property, and a step from the invariant to a state with the property meets it. -/
theorem along_iff {I P : σ → Prop} (hproperty : ∀ s, I s → P s)
    (hkeep : ∀ s a s', φ s a → ψ s a → I s → step s a = some s' → I s')
    (hexact : ∀ s a s', φ s a → I s → step s a = some s' → P s' → ψ s a)
    (hI : I s) (halong : Along step φ s labels) (hrun : runSteps step s labels = some s') :
    Along step ψ s labels ↔
      ∀ done, done <+: labels → ∀ s₁, runSteps step s done = some s₁ → P s₁ := by
  induction labels generalizing s with
  | nil => simpa using hproperty s hI
  | cons a _ ih =>
    obtain ⟨s₁, ha, htail⟩ := Option.bind_eq_some_iff.mp hrun
    rw [along_cons_of_step ha] at halong ⊢
    constructor
    · rintro ⟨hψ, hrest⟩ done hdone s₂ hs₂
      cases done with
      | nil =>
        cases hs₂
        exact hproperty s hI
      | cons b done =>
        obtain ⟨rfl, hsub⟩ := List.cons_prefix_cons.mp hdone
        rw [runSteps_cons, ha] at hs₂
        exact (ih (hkeep s b s₁ halong.1 hψ hI ha) halong.2 htail).mp hrest done hsub s₂ hs₂
    · intro hall
      have hfirst := hall [a] (by simp) s₁ (by simp [runSteps_cons, ha])
      have hψ := hexact s a s₁ halong.1 hI ha hfirst
      refine ⟨hψ, (ih (hkeep s a s₁ halong.1 hψ hI ha) halong.2 htail).mpr ?_⟩
      intro done hdone s₂ hs₂
      exact hall (a :: done) (by simpa using hdone) s₂ (by simpa [runSteps_cons, ha] using hs₂)

/-! ### What a run puts out -/

/-- What the steps of the run put out, each in the state before it. -/
def outputs (step : σ → ι → Option σ) (out : σ → ι → List ω) (s : σ) : List ι → List ω
  | [] => []
  | a :: labels => out s a ++ match step s a with
    | none => []
    | some s' => outputs step out s' labels

@[simp] theorem outputs_nil : outputs step out s [] = [] := rfl

theorem outputs_cons_of_step (h : step s a = some s') :
    outputs step out s (a :: labels) = out s a ++ outputs step out s' labels := by
  rw [outputs, h]

theorem outputs_append (h : runSteps step s labels = some s') :
    outputs step out s (labels ++ labels') =
      outputs step out s labels ++ outputs step out s' labels' := by
  induction labels generalizing s with
  | nil =>
    cases h
    rfl
  | cons _ _ ih =>
    obtain ⟨s₁, ha, h⟩ := Option.bind_eq_some_iff.mp h
    rw [List.cons_append, outputs_cons_of_step ha, outputs_cons_of_step ha, ih h, List.append_assoc]

theorem outputs_concat (h : runSteps step s labels = some s') (ha : step s' a = some s₁) :
    outputs step out s (labels ++ [a]) = outputs step out s labels ++ out s' a := by
  rw [outputs_append h, outputs_cons_of_step ha]
  simp

end Fabric.Common
