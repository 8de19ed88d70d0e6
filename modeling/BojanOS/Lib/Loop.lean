import Mathlib.Logic.Relation

/-!
# While loops over an explicit state

A loop body is a function `step : σ → Option (σ ⊕ ρ)`: `some (.inl s)` goes round again in the
state `s`, `some (.inr r)` leaves the loop with `r`, and `none` is a fault (an access outside the
memory the loop may touch). `exec step m s` runs the body from `s` with as much fuel as the variant
`m` allows. When `m` really decreases (`Variant`), `exec` satisfies the unfolding equation of a
while loop (`exec_eq`), so a proof never sees the fuel.

`Reaches` is the relation between the states at the head of the loop. Partial correctness is
`Reaches.inv` with `exec_sound`, total correctness is `exec_total`, a loop that cannot end is
`exec_eq_none`, and `exec_sim` transports a run along a simulation. A walk (`Advances`), waiting
(`poll`) and a counted loop (`upTo`) have rules of their own.
-/

namespace Loop

variable {σ τ ρ π : Type}

/-- `n` rounds of the body at most. -/
def run (step : σ → Option (σ ⊕ ρ)) : Nat → σ → Option ρ
  | 0, _ => none
  | n + 1, s =>
    match step s with
    | none => none
    | some (.inl s') => run step n s'
    | some (.inr r) => some r

/-- The loop, with the fuel that the variant `m` asks for. -/
def exec (step : σ → Option (σ ⊕ ρ)) (m : σ → Nat) (s : σ) : Option ρ := run step (m s + 1) s

/-- `s'` is a state at the head of the loop in the run from `s`. -/
def Reaches (step : σ → Option (σ ⊕ ρ)) : σ → σ → Prop :=
  Relation.ReflTransGen fun s s' => step s = some (.inl s')

/-- Every round that does not leave the loop makes `m` smaller. -/
def Variant (step : σ → Option (σ ⊕ ρ)) (m : σ → Nat) : Prop :=
  ∀ ⦃s s'⦄, step s = some (.inl s') → m s' < m s

variable {step : σ → Option (σ ⊕ ρ)} {m : σ → Nat} {s s' : σ} {r : ρ}

theorem run_fuel (hm : Variant step m) {n k : Nat} (hn : m s < n) (hk : m s < k) :
    run step n s = run step k s := by
  induction n generalizing s k with
  | zero => omega
  | succ n ih =>
    cases k with
    | zero => omega
    | succ k =>
      simp only [run]
      cases hs : step s with
      | none => rfl
      | some o =>
        cases o with
        | inr r => rfl
        | inl s' =>
          have hlt := hm hs
          exact ih (by omega) (by omega)

/-- The result does not depend on the fuel. -/
theorem run_det {n k : Nat} {r' : ρ} (hn : run step n s = some r) (hk : run step k s = some r') :
    r = r' := by
  induction n generalizing s k with
  | zero => cases hn
  | succ n ih =>
    cases k with
    | zero => cases hk
    | succ k =>
      rw [run] at hn hk
      cases hs : step s with
      | none =>
        rw [hs] at hn
        cases hn
      | some o =>
        rw [hs] at hn hk
        cases o with
        | inr r => exact Option.some.inj (hn.symm.trans hk)
        | inl s' => exact ih hn hk

/-- The unfolding equation of the loop. -/
theorem exec_eq (hm : Variant step m) (s : σ) :
    exec step m s = match step s with
      | none => none
      | some (.inl s') => exec step m s'
      | some (.inr r) => some r := by
  rw [exec, run]
  cases hs : step s with
  | none => rfl
  | some o =>
    cases o with
    | inr r => rfl
    | inl s' => exact run_fuel hm (hm hs) (Nat.lt_succ_self _)

theorem exec_next (hm : Variant step m) (h : step s = some (.inl s')) :
    exec step m s = exec step m s' := by rw [exec_eq hm, h]

theorem exec_done (h : step s = some (.inr r)) : exec step m s = some r := by rw [exec, run, h]

theorem exec_fault (h : step s = none) : exec step m s = none := by rw [exec, run, h]

namespace Reaches

theorem refl : Reaches step s s := Relation.ReflTransGen.refl

theorem tail {t : σ} (H : Reaches step s s') (h : step s' = some (.inl t)) : Reaches step s t :=
  Relation.ReflTransGen.tail H h

theorem head (h : step s = some (.inl s')) {t : σ} (H : Reaches step s' t) : Reaches step s t :=
  Relation.ReflTransGen.head h H

theorem inv {I : σ → Prop} (hI : ∀ s s', I s → step s = some (.inl s') → I s') (h0 : I s)
    (H : Reaches step s s') : I s' := by
  induction H with
  | refl => exact h0
  | tail _ h ih => exact hI _ _ ih h

end Reaches

/-- A loop that returns does so from a state it reaches. -/
theorem run_sound {n : Nat} (h : run step n s = some r) :
    ∃ t, Reaches step s t ∧ step t = some (.inr r) := by
  induction n generalizing s with
  | zero => simp [run] at h
  | succ n ih =>
    rw [run] at h
    cases hs : step s with
    | none => simp [hs] at h
    | some o =>
      cases o with
      | inr r' =>
        simp only [hs, Option.some.injEq] at h
        exact ⟨s, .refl, h ▸ hs⟩
      | inl s' =>
        simp only [hs] at h
        obtain ⟨t, ht, hr⟩ := ih h
        exact ⟨t, .head hs ht, hr⟩

theorem exec_sound (h : exec step m s = some r) :
    ∃ t, Reaches step s t ∧ step t = some (.inr r) := run_sound h

/-- Termination: an invariant under which the body never faults. -/
theorem exec_total (hm : Variant step m) {I : σ → Prop}
    (hI : ∀ s, I s → ∃ o, step s = some o ∧ ∀ s', o = .inl s' → I s') (h0 : I s) :
    ∃ r, exec step m s = some r := by
  induction hn : m s using Nat.strongRecOn generalizing s with
  | _ n ih =>
    obtain ⟨o, ho, hnext⟩ := hI s h0
    cases o with
    | inr r => exact ⟨r, exec_done ho⟩
    | inl s' =>
      rw [exec_next hm ho]
      exact ih _ (hn ▸ hm ho) (hnext s' rfl) rfl

/-- A loop that keeps an invariant under which it never leaves does not return. -/
theorem exec_eq_none {I : σ → Prop} (hI : ∀ s, I s → step s = none ∨
    ∃ s', step s = some (.inl s') ∧ I s') (h0 : I s) : exec step m s = none := by
  have aux : ∀ n s, I s → run step n s = none := by
    intro n
    induction n with
    | zero => intro s _; rfl
    | succ n ih =>
      intro s hs
      rw [run]
      obtain h | ⟨s', h, hs'⟩ := hI s hs
      · rw [h]
      · rw [h]; exact ih s' hs'
  exact aux _ _ h0

/-- Simulation: related states make related steps, so related runs have related results. -/
theorem exec_sim {stepT : τ → Option (τ ⊕ π)} {mT : τ → Nat} (hm : Variant step m)
    (hmT : Variant stepT mT) {R : σ → τ → Prop} {Q : Option ρ → Option π → Prop}
    (hfault : ∀ s t, R s t → stepT t = none → Q (exec step m s) none)
    (hnext : ∀ s t t', R s t → stepT t = some (.inl t') → ∃ s', step s = some (.inl s') ∧ R s' t')
    (hdone : ∀ s t q, R s t → stepT t = some (.inr q) →
      ∃ r, step s = some (.inr r) ∧ Q (some r) (some q))
    {t : τ} (h0 : R s t) : Q (exec step m s) (exec stepT mT t) := by
  induction hn : mT t using Nat.strongRecOn generalizing s t with
  | _ n ih =>
    cases ht : stepT t with
    | none => rw [exec_fault ht]; exact hfault s t h0 ht
    | some o =>
      cases o with
      | inl t' =>
        obtain ⟨s', hs', hR⟩ := hnext s t t' h0 ht
        rw [exec_next hm hs', exec_next hmT ht]
        exact ih _ (hn ▸ hmT ht) hR rfl
      | inr q =>
        obtain ⟨r, hr, hQ⟩ := hdone s t q h0 ht
        rw [exec_done hr, exec_done ht]
        exact hQ

/-- The loop whose body faults where `P` fails. -/
def guarded (P : σ → Prop) [DecidablePred P] (step : σ → Option (σ ⊕ ρ)) (s : σ) :
    Option (σ ⊕ ρ) := if P s then step s else none

section guarded
variable {P : σ → Prop} [DecidablePred P]

theorem Variant.guarded (hm : Variant step m) : Variant (guarded P step) m := by
  intro s s' h
  rw [Loop.guarded] at h
  split at h
  · exact hm h
  · simp at h

/-- A guarded loop returns exactly when the loop does and every state it reaches passes. -/
theorem exec_guarded_eq_some (hm : Variant step m) :
    exec (guarded P step) m s = some r ↔
      exec step m s = some r ∧ ∀ t, Reaches step s t → P t := by
  induction hn : m s using Nat.strongRecOn generalizing s with
  | _ n ih =>
    by_cases hP : P s
    · cases hs : step s with
      | none =>
        have hg : guarded P step s = none := by rw [guarded, if_pos hP, hs]
        rw [exec_fault hs, exec_fault hg]
        simp
      | some o =>
        have hg : guarded P step s = some o := by rw [guarded, if_pos hP, hs]
        cases o with
        | inr r' =>
          rw [exec_done hs, exec_done hg]
          refine ⟨fun h => ⟨h, fun t ht => ?_⟩, fun h => h.1⟩
          obtain rfl | ⟨u, hu, _⟩ := Relation.ReflTransGen.cases_head ht
          · exact hP
          · rw [hs] at hu; simp at hu
        | inl s' =>
          rw [exec_next hm hs, exec_next hm.guarded hg, ih _ (hn ▸ hm hs) rfl]
          refine and_congr_right fun _ => ⟨fun h t ht => ?_, fun h t ht => h t (.head hs ht)⟩
          obtain rfl | ⟨u, hu, hut⟩ := Relation.ReflTransGen.cases_head ht
          · exact hP
          · rw [hs] at hu
            obtain rfl : s' = u := by simpa using hu
            exact h t hut
    · have hg : guarded P step s = none := by rw [guarded, if_neg hP]
      rw [exec_fault hg]
      simp only [reduceCtorEq, false_iff, not_and]
      exact fun _ h => hP (h s .refl)

end guarded

/-! ## Walks

A loop that moves a place over some data, by lengths that it reads there. -/

/-- Every round leaves the loop, or moves the place `off` on to `next`, which is beyond it and below
`top`. -/
def Advances (step : σ → Option (σ ⊕ ρ)) (off next : σ → Nat) (top : Nat) (s₀ : σ) : Prop :=
  ∀ s, Reaches step s₀ s → (∃ r, step s = some (.inr r)) ∨
    ∃ s', step s = some (.inl s') ∧ off s' = next s ∧ off s < next s ∧ next s < top

section walks
variable {off next : σ → Nat} {top : Nat} {s₀ : σ}

/-- A walk ends, because there are not more rounds than places. -/
theorem Advances.run (A : Advances step off next top s) {n : Nat} (hn : top - off s < n) :
    ∃ r, run step n s = some r := by
  induction n generalizing s with
  | zero => exact absurd hn (Nat.not_lt_zero _)
  | succ n ih =>
    rw [Loop.run]
    obtain ⟨r, hr⟩ | ⟨s', hs', hoff, hlt, htop⟩ := A s .refl
    · rw [hr]
      exact ⟨r, rfl⟩
    · rw [hs']
      exact ih (fun t ht => A t (.head hs' ht)) (by omega)

/-- The rule for a walk: an invariant, which says for every round how the place moves. -/
theorem Advances.of_inv {I : σ → Prop} (h0 : I s₀) (hI : ∀ s, I s → (∃ r, step s = some (.inr r)) ∨
    ∃ s', step s = some (.inl s') ∧ I s' ∧ off s' = next s ∧ off s < next s ∧ next s < top) :
    Advances step off next top s₀ ∧ ∀ s, Reaches step s₀ s → I s := by
  have hinv : ∀ s, Reaches step s₀ s → I s := by
    intro s hs
    refine hs.inv (fun t u ht htu => ?_) h0
    obtain ⟨r, hr⟩ | ⟨u', hu', hI', -⟩ := hI t ht
    · rw [hr] at htu
      cases htu
    · rw [hu'] at htu
      obtain rfl : u' = u := by simpa using htu
      exact hI'
  refine ⟨fun s hs => ?_, hinv⟩
  obtain hr | ⟨s', hs', -, hrest⟩ := hI s (hinv s hs)
  · exact Or.inl hr
  · exact Or.inr ⟨s', hs', hrest⟩

/-- A round that does not leave goes on to `next`. -/
theorem Advances.next_lt (A : Advances step off next top s₀) (hs : Reaches step s₀ s)
    (h : step s = some (.inl s')) : off s' = next s ∧ off s < next s ∧ next s < top := by
  obtain ⟨r, hr⟩ | ⟨t, ht, hrest⟩ := A s hs
  · rw [hr] at h
    cases h
  · rw [ht] at h
    obtain rfl : t = s' := by simpa using h
    exact hrest

end walks

/-! ## Waiting -/

section poll

variable {p : Nat → Prop} [DecidablePred p] {k n a : Nat}

/-- `while (!p());`, with the number of the check as its state. -/
def poll (p : Nat → Prop) [DecidablePred p] (k : Nat) : Option (Nat ⊕ Nat) :=
  if p k then some (.inr k) else some (.inl (k + 1))

/-- The loop is left at the first check that `p` passes. -/
theorem run_poll : run (poll p) n a = some k ↔
    a ≤ k ∧ k < a + n ∧ p k ∧ ∀ j, a ≤ j → j < k → ¬ p j := by
  induction n generalizing a with
  | zero =>
    simp only [run, reduceCtorEq, false_iff, not_and]
    omega
  | succ n ih =>
    rw [run, poll]
    by_cases ha : p a
    · simp only [if_pos ha, Option.some.injEq]
      constructor
      · rintro rfl
        exact ⟨Nat.le_refl _, by omega, ha, fun j hj hj' => by omega⟩
      · rintro ⟨hle, -, -, hfirst⟩
        rcases Nat.eq_or_lt_of_le hle with h | h
        · exact h
        · exact absurd ha (hfirst a (Nat.le_refl _) h)
    · simp only [if_neg ha, ih]
      constructor
      · rintro ⟨hle, hlt, hk, hfirst⟩
        refine ⟨by omega, by omega, hk, fun j hj hj' => ?_⟩
        rcases Nat.eq_or_lt_of_le hj with rfl | h
        · exact ha
        · exact hfirst j h hj'
      · rintro ⟨hle, hlt, hk, hfirst⟩
        have hne : a ≠ k := by
          rintro rfl
          exact ha hk
        exact ⟨by omega, by omega, hk, fun j hj hj' => hfirst j (by omega) hj'⟩

end poll

/-! ## Counted loops -/

/-- `for (i = 0; i < n; i++)` -/
def upTo (f : Nat → σ → Option σ) : Nat → σ → Option σ
  | 0, s => some s
  | n + 1, s => (upTo f n s).bind (f n)

/-- The states between the rounds. -/
theorem upTo_eq {f : Nat → σ → Option σ} {g : Nat → σ} {n : Nat}
    (h : ∀ i < n, f i (g i) = some (g (i + 1))) : upTo f n (g 0) = some (g n) := by
  induction n with
  | zero => rfl
  | succ n ih =>
    rw [upTo, ih fun i hi => h i (Nat.lt_succ_of_lt hi)]
    exact h n (Nat.lt_succ_self n)

/-- `I i` holds in front of the round of `i`, and makes it go through. -/
theorem upTo_total {f : Nat → σ → Option σ} {I : Nat → σ → Prop} {n : Nat}
    (h : ∀ i s, i < n → I i s → ∃ s', f i s = some s' ∧ I (i + 1) s') (h0 : I 0 s) :
    ∃ s', upTo f n s = some s' ∧ I n s' := by
  induction n with
  | zero => exact ⟨s, rfl, h0⟩
  | succ n ih =>
    obtain ⟨t, ht, hI⟩ := ih fun i s hi => h i s (Nat.lt_succ_of_lt hi)
    obtain ⟨s', hs', hI'⟩ := h n t (Nat.lt_succ_self n) hI
    exact ⟨s', by rw [upTo, ht]; exact hs', hI'⟩

section pure

variable {f : Nat → σ → σ} {I : Nat → σ → Prop} {n : Nat}

/-- `for (i = 0; i < n; i++)` with a body that cannot fault. -/
def countUp (f : Nat → σ → σ) : Nat → σ → σ
  | 0, s => s
  | n + 1, s => f n (countUp f n s)

/-- `for (i = n - 1; i >= 0; i--)` -/
def countDown (f : Nat → σ → σ) : Nat → σ → σ
  | 0, s => s
  | n + 1, s => countDown f n (f n s)

/-- `I i` holds in front of the round of `i`. -/
theorem countUp_inv (h : ∀ i s, i < n → I i s → I (i + 1) (f i s)) (h0 : I 0 s) :
    I n (countUp f n s) := by
  induction n with
  | zero => exact h0
  | succ n ih =>
    apply h n _ (Nat.lt_succ_self n)
    exact ih fun i s hi => h i s (Nat.lt_succ_of_lt hi)

/-- `I i` holds behind the round of `i`. -/
theorem countDown_inv (h : ∀ i s, i < n → I (i + 1) s → I i (f i s)) (hn : I n s) :
    I 0 (countDown f n s) := by
  induction n generalizing s with
  | zero => exact hn
  | succ n ih =>
    apply ih fun i s hi => h i s (Nat.lt_succ_of_lt hi)
    exact h n s (Nat.lt_succ_self n) hn

end pure

end Loop
