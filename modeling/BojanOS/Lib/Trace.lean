import Mathlib.Logic.Relation

/-!
# Runs of a partial labelled step function

`step a s = some (b, s')` says that the operation `a` in the state `s` answers `b` and leaves `s'`;
`none` is an operation that has no defined result there. A run records the operations with their
answers. `Run.inv` is the invariant rule, `Run.replay` says that an abstraction which every step
respects can be computed by replaying the record on the abstract side.
-/

namespace Trace

variable {α β σ τ : Type} {step : α → σ → Option (β × σ)}

/-- `Run step s tr t`: the run `tr` leads from `s` to `t`. -/
inductive Run (step : α → σ → Option (β × σ)) (s : σ) : List (α × β) → σ → Prop
  | nil : Run step s [] s
  | snoc {tr : List (α × β)} {a : α} {b : β} {t u : σ} :
    Run step s tr t → step a t = some (b, u) → Run step s (tr ++ [(a, b)]) u

/-- The operations one after the other, as far as all of them have a result. -/
def exec (step : α → σ → Option (β × σ)) : List α → σ → Option (List (α × β) × σ)
  | [], s => some ([], s)
  | a :: as, s =>
    match step a s with
    | none => none
    | some (b, s) => (exec step as s).map fun (tr, s) => ((a, b) :: tr, s)

namespace Run

variable {s t u : σ} {tr : List (α × β)}

theorem inv {I : σ → Prop} (hI : ∀ a b s t, I s → step a s = some (b, t) → I t) (h0 : I s)
    (H : Run step s tr t) : I t := by
  induction H with
  | nil => exact h0
  | snoc _ h ih => exact hI _ _ _ _ ih h

theorem nil_inv (H : Run step s [] t) : t = s := by
  generalize he : ([] : List (α × β)) = tr at H
  cases H with
  | nil => rfl
  | snoc => exact absurd he (by simp)

theorem snoc_inv {a : α} {b : β} (H : Run step s (tr ++ [(a, b)]) t) :
    ∃ u, Run step s tr u ∧ step a u = some (b, t) := by
  generalize he : tr ++ [(a, b)] = tr' at H
  cases H with
  | nil => exact absurd he (by simp)
  | @snoc tr' a' b' u _ H h =>
    obtain ⟨rfl, hab⟩ := List.append_inj' he rfl
    obtain ⟨rfl, rfl⟩ := Prod.mk.inj (List.cons.inj hab).1
    exact ⟨u, H, h⟩

theorem of_prefix {tr' : List (α × β)} (H : Run step s tr t) (h : tr' <+: tr) :
    ∃ u, Run step s tr' u := by
  induction H with
  | nil => exact ⟨s, List.prefix_nil.mp h ▸ .nil⟩
  | snoc H hs ih =>
    rcases List.prefix_concat_iff.mp h with rfl | h
    · exact ⟨_, H.snoc hs⟩
    · exact ih h

/-- The record determines the state. -/
theorem det (H : Run step s tr t) (H' : Run step s tr u) : t = u := by
  induction H generalizing u with
  | nil => exact H'.nil_inv.symm
  | snoc _ h ih =>
    obtain ⟨t', H', h'⟩ := H'.snoc_inv
    obtain rfl := ih H'
    rw [h] at h'
    exact (Prod.mk.inj (Option.some.inj h')).2

theorem steps_nil {C : α → β → σ → Prop} :
    ∀ tr' a b u, Run step s tr' u → tr' ++ [(a, b)] <+: [] → C a b u :=
  fun _ _ _ _ _ hp => absurd (List.prefix_nil.mp hp) (by simp)

/-- A condition on the steps of a run, one step further. -/
theorem steps_snoc {C : α → β → σ → Prop} {a : α} {b : β} (H : Run step s tr t)
    (hC : ∀ tr' a b u, Run step s tr' u → tr' ++ [(a, b)] <+: tr → C a b u) (h : C a b t) :
    ∀ tr' a' b' u, Run step s tr' u → tr' ++ [(a', b')] <+: tr ++ [(a, b)] → C a' b' u := by
  intro tr' a' b' u H' hp
  rcases List.prefix_concat_iff.mp hp with he | hp
  · obtain ⟨rfl, hab⟩ := List.append_inj' he rfl
    obtain ⟨rfl, rfl⟩ := Prod.mk.inj (List.cons.inj hab).1
    exact H.det H' ▸ h
  · exact hC tr' a' b' u H' hp

/-- The invariant rule for runs whose steps all meet a condition on the operation and the state
before it. -/
theorem inv_of {I : σ → Prop} {C : α → σ → Prop}
    (hI : ∀ a b s t, I s → C a s → step a s = some (b, t) → I t) (h0 : I s)
    (H : Run step s tr t)
    (hC : ∀ tr' a b u, Run step s tr' u → tr' ++ [(a, b)] <+: tr → C a u) : I t := by
  induction H with
  | nil => exact h0
  | @snoc tr a b t u H h ih =>
    refine hI _ _ _ _ (ih fun tr' a' b' u' hu hp => ?_) (hC tr a b t H (List.prefix_refl _)) h
    exact hC tr' a' b' u' hu (hp.trans (List.prefix_append _ _))

/-- The abstraction of the last state is the replay of the record from the abstraction of the
first one. -/
theorem replay {I : σ → Prop} {abs : σ → τ} {astep : τ → α × β → τ}
    (hI : ∀ a b s t, I s → step a s = some (b, t) → I t)
    (habs : ∀ a b s t, I s → step a s = some (b, t) → abs t = astep (abs s) (a, b)) (h0 : I s)
    (H : Run step s tr t) : abs t = tr.foldl astep (abs s) := by
  induction H with
  | nil => rfl
  | snoc H h ih => rw [List.foldl_append, ← ih, habs _ _ _ _ (H.inv hI h0) h]; rfl

theorem cons {a : α} {b : β} (h : step a s = some (b, t)) (H : Run step t tr u) :
    Run step s ((a, b) :: tr) u := by
  induction H with
  | nil => exact .snoc .nil h
  | snoc _ h' ih => exact ih.snoc h'

theorem of_exec (ops : List α) (h : exec step ops s = some (tr, t)) : Run step s tr t := by
  induction ops generalizing s tr with
  | nil =>
    obtain ⟨rfl, rfl⟩ : [] = tr ∧ s = t := by simpa [exec] using h
    exact .nil
  | cons a ops ih =>
    rw [exec] at h
    cases hs : step a s with
    | none => rw [hs] at h; cases h
    | some r =>
      rw [hs] at h
      obtain ⟨⟨tr', u⟩, hr, he⟩ := Option.map_eq_some_iff.mp h
      obtain ⟨rfl, rfl⟩ := Prod.mk.inj he
      exact .cons hs (ih hr)

theorem trans {tr' : List (α × β)} (H : Run step s tr t) (H' : Run step t tr' u) :
    Run step s (tr ++ tr') u := by
  induction H' with
  | nil => rwa [List.append_nil]
  | snoc _ h ih => rw [← List.append_assoc]; exact ih.snoc h

end Run

/-! ## Runs of a relation -/

/-- The record as the states of `R` may follow on it. -/
inductive Follows (R : σ → α → β → σ → Prop) (s : σ) : List (α × β) → σ → Prop
  | nil : Follows R s [] s
  | snoc {tr : List (α × β)} {a : α} {b : β} {t u : σ} :
    Follows R s tr t → R t a b u → Follows R s (tr ++ [(a, b)]) u

/-- When every step of the function is one of the relation on the abstractions, so is every run. -/
theorem Run.follows {I : σ → Prop} {abs : σ → τ} {R : τ → α → β → τ → Prop} {s t : σ}
    {tr : List (α × β)} (hI : ∀ a b s t, I s → step a s = some (b, t) → I t)
    (habs : ∀ a b s t, I s → step a s = some (b, t) → R (abs s) a b (abs t)) (h0 : I s)
    (H : Run step s tr t) : Follows R (abs s) tr (abs t) := by
  induction H with
  | nil => exact .nil
  | snoc H h ih => exact ih.snoc (habs _ _ _ _ (H.inv hI h0) h)

end Trace
