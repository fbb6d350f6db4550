import Mathlib.Tactic

/-! While loops. A step goes on to another state, or ends with a result, or has no answer; a
run is given a number of steps that it may take. -/
namespace Loop
variable {σ ρ : Type*}

def run (step : σ → Option (σ ⊕ ρ)) : ℕ → σ → Option ρ
  | 0, _ => none
  | fuel + 1, s =>
    match step s with
    | none => none
    | some (.inl t) => run step fuel t
    | some (.inr r) => some r

inductive Reaches (step : σ → Option (σ ⊕ ρ)) : σ → σ → Prop where
  | refl (s : σ) : Reaches step s s
  | head {s t u : σ} (first : step s = some (.inl t)) (rest : Reaches step t u) : Reaches step s u

variable {step : σ → Option (σ ⊕ ρ)} {s t u : σ} {r : ρ} {fuel : ℕ}

theorem run_inl (h : step s = some (.inl t)) (hfuel : 0 < fuel) :
    run step fuel s = run step (fuel - 1) t := by
  obtain ⟨fuel, rfl⟩ := Nat.exists_eq_succ_of_ne_zero (Nat.ne_zero_of_lt hfuel)
  simp only [run, h, Nat.succ_eq_add_one, Nat.add_sub_cancel]

theorem run_inr (h : step s = some (.inr r)) (hfuel : 0 < fuel) : run step fuel s = some r := by
  obtain ⟨fuel, rfl⟩ := Nat.exists_eq_succ_of_ne_zero (Nat.ne_zero_of_lt hfuel)
  simp only [run, h]

theorem Reaches.trans (h : Reaches step s t) (k : Reaches step t u) : Reaches step s u := by
  induction h with
  | refl s => exact k
  | head first rest ih => exact .head first (ih k)

theorem Reaches.tail (h : Reaches step s t) (last : step t = some (.inl u)) : Reaches step s u :=
  h.trans (.head last (.refl u))

/-- What every step preserves holds in every state that is reached. -/
theorem Reaches.invariant {P : σ → Prop} (hstep : ∀ s t, P s → step s = some (.inl t) → P t)
    (h : Reaches step s t) (hs : P s) : P t := by
  induction h with
  | refl s => exact hs
  | head first rest ih => exact ih (hstep _ _ hs first)

/-- A run that ends has reached a state whose step ends. -/
theorem exists_of_run (h : run step fuel s = some r) :
    ∃ t, Reaches step s t ∧ step t = some (.inr r) := by
  induction fuel generalizing s with
  | zero => cases h
  | succ fuel ih =>
    rw [run] at h
    split at h
    · cases h
    · next t hstep =>
      obtain ⟨u, hreaches, hend⟩ := ih h
      exact ⟨u, .head hstep hreaches, hend⟩
    · next r' hstep =>
      obtain rfl : r' = r := Option.some.inj h
      exact ⟨s, .refl s, hstep⟩

/-- Enough steps for the states on the way are enough for the run. -/
theorem Reaches.run (h : Reaches step s t) (hend : step t = some (.inr r)) :
    ∃ n, ∀ fuel, n < fuel → Loop.run step fuel s = some r := by
  induction h with
  | refl s => exact ⟨0, fun fuel hfuel => run_inr hend hfuel⟩
  | head first rest ih =>
    obtain ⟨n, hn⟩ := ih hend
    refine ⟨n + 1, fun fuel hfuel => ?_⟩
    rw [run_inl first (by omega)]
    exact hn (fuel - 1) (by omega)

/-- A loop whose steps another one follows, state by state and result by result, is followed
to its end. -/
theorem run_map {σ' ρ' : Type*} {step' : σ' → Option (σ' ⊕ ρ')} (f : σ → σ') (g : ρ → ρ')
    (h : ∀ s, step' (f s) = (step s).map (Sum.map f g)) (fuel : ℕ) (s : σ) :
    run step' fuel (f s) = (run step fuel s).map g := by
  induction fuel generalizing s with
  | zero => rfl
  | succ fuel ih =>
    rw [run, run, h]
    cases hstep : step s with
    | none => rfl
    | some next =>
      cases next with
      | inl t => exact ih t
      | inr r => rfl

/-- A loop ends if a measure gets smaller with each step, and it takes no more steps than that.
What then holds of a state and the result is what the last step establishes and every other
step carries back. -/
theorem run_of_measure {I : σ → Prop} {P : σ → ρ → Prop} (m : σ → ℕ)
    (hstep : ∀ s, I s → (∃ r, step s = some (.inr r) ∧ P s r) ∨
      ∃ t, step s = some (.inl t) ∧ I t ∧ m t < m s ∧ ∀ r, P t r → P s r)
    (s : σ) (hs : I s) (fuel : ℕ) (hfuel : m s < fuel) : ∃ r, run step fuel s = some r ∧ P s r := by
  induction fuel generalizing s with
  | zero => exact absurd hfuel (Nat.not_lt_zero _)
  | succ fuel ih =>
    obtain ⟨r, hend, hr⟩ | ⟨t, hnext, ht, hlt, hback⟩ := hstep s hs
    · exact ⟨r, run_inr hend (Nat.succ_pos fuel), hr⟩
    · obtain ⟨r, hrun, hr⟩ := ih t ht (by omega)
      refine ⟨r, ?_, hback r hr⟩
      rw [run_inl hnext (Nat.succ_pos fuel)]
      exact hrun

end Loop
