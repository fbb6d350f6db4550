import Mathlib.Tactic

/-! Deterministic machines with outputs, their finite runs, and the induction rules that
safety arguments over runs need. -/
namespace Machine
variable {σ ι ο : Type*} (step : σ → ι → σ×ο)

def final (s : σ) : List ι → σ
  | [] => s
  | i :: is => final (step s i).1 is

def outputs (s : σ) : List ι → List ο
  | [] => []
  | i :: is => (step s i).2 :: outputs (step s i).1 is

structure Event (σ ι ο : Type*) where
  state : σ
  input : ι
  output : ο

def event (s : σ) (i : ι) : Event σ ι ο := ⟨s, i, (step s i).2⟩

def trace (s : σ) : List ι → List (Event σ ι ο)
  | [] => []
  | i :: is => event step s i :: trace (step s i).1 is

@[simp] theorem final_nil (s : σ) : final step s [] = s := rfl
@[simp] theorem final_cons (s : σ) (i : ι) (is : List ι) :
    final step s (i :: is) = final step (step s i).1 is := rfl
@[simp] theorem outputs_nil (s : σ) : outputs step s [] = [] := rfl
@[simp] theorem outputs_cons (s : σ) (i : ι) (is : List ι) :
    outputs step s (i :: is) = (step s i).2 :: outputs step (step s i).1 is := rfl
@[simp] theorem trace_nil (s : σ) : trace step s [] = [] := rfl
@[simp] theorem trace_cons (s : σ) (i : ι) (is : List ι) :
    trace step s (i :: is) = event step s i :: trace step (step s i).1 is := rfl

theorem final_append (s : σ) (u v : List ι) :
    final step s (u++v) = final step (final step s u) v := by
  induction u generalizing s with
  | nil => rfl
  | cons i u ih => exact ih (step s i).1

theorem final_snoc (s : σ) (u : List ι) (i : ι) :
    final step s (u++[i]) = (step (final step s u) i).1 := final_append step s u [i]

theorem outputs_append (s : σ) (u v : List ι) :
    outputs step s (u++v) = outputs step s u++outputs step (final step s u) v := by
  induction u generalizing s with
  | nil => rfl
  | cons i u ih => simp [ih]

theorem trace_append (s : σ) (u v : List ι) :
    trace step s (u++v) = trace step s u++trace step (final step s u) v := by
  induction u generalizing s with
  | nil => rfl
  | cons i u ih => simp [ih]

theorem mem_trace {s : σ} {is : List ι} {e : Event σ ι ο} (h : e ∈ trace step s is) :
    ∃ u i v, is = u++i :: v ∧ e = event step (final step s u) i := by
  induction is generalizing s with
  | nil => cases h
  | cons i is ih =>
    cases List.mem_cons.mp h with
    | inl hhead => exact ⟨[], i, is, rfl, hhead⟩
    | inr htail =>
      obtain ⟨u, j, v, hsplit, he⟩ := ih htail
      exact ⟨i :: u, j, v, by rw [hsplit, List.cons_append], he⟩

def both {τ π : Type*} (step₁ : σ → ι → σ×ο) (step₂ : τ → ι → τ×π) (s : σ×τ) (i : ι) :
    (σ×τ)×(ο×π) :=
  (((step₁ s.1 i).1, (step₂ s.2 i).1), ((step₁ s.1 i).2, (step₂ s.2 i).2))

theorem final_both {τ π : Type*} (step₁ : σ → ι → σ×ο) (step₂ : τ → ι → τ×π) (s : σ) (t : τ)
    (is : List ι) : final (both step₁ step₂) (s, t) is = (final step₁ s is, final step₂ t is) := by
  induction is generalizing s t with
  | nil => rfl
  | cons i is ih => exact ih _ _

/-- What every step preserves holds after every run. -/
theorem final_invariant {P : σ → Prop} (hstep : ∀ s i, P s → P (step s i).1)
    (s : σ) (is : List ι) (h : P s) : P (final step s is) := by
  induction is generalizing s with
  | nil => exact h
  | cons i is ih => exact ih _ (hstep s i h)

/-- The same with everything that has happened in the invariant, for runs whose inputs
all satisfy a condition. -/
theorem trace_invariant {A : ι → Prop} {P : List (Event σ ι ο) → σ → Prop} (s : σ)
    (h0 : P [] s) (hstep : ∀ tr t i, A i → P tr t → P (tr++[event step t i]) (step t i).1)
    (is : List ι) (hall : ∀ i ∈ is, A i) : P (trace step s is) (final step s is) := by
  induction is using List.reverseRecOn with
  | nil => exact h0
  | append_singleton u i ih =>
    have hu := ih fun j hj => hall j (List.mem_append_left _ hj)
    have h := hstep _ _ i (hall i (by simp)) hu
    simpa [final_append, trace_append] using h

/-- An invariant that steps of a certain kind keep holds all along a run of such steps. -/
theorem guarded_invariant {I : σ → Prop} {A : σ → ι → Prop}
    (hinv : ∀ s i, A s i → I s → I (step s i).1) (s : σ) (hi : I s) (is : List ι)
    (hall : ∀ u i v, is = u++i :: v → A (final step s u) i) (u v : List ι) (hsplit : is = u++v) :
    I (final step s u) := by
  induction u using List.reverseRecOn generalizing v with
  | nil => exact hi
  | append_singleton u i ih =>
    have hprev : is = u++i :: v := by simp [hsplit]
    rw [final_snoc]
    exact hinv _ i (hall u i v hprev) (ih _ hprev)

theorem forall_steps_nil {Q : σ → ι → Prop} (s : σ) :
    ∀ u i v, [] = u++i :: v → Q (final step s u) i := by
  intro u i v hsplit
  simp at hsplit

theorem forall_steps_cons {Q : σ → ι → Prop} (s : σ) (i : ι) (is : List ι) :
    (∀ u j v, i :: is = u++j :: v → Q (final step s u) j) ↔
      Q s i ∧ ∀ u j v, is = u++j :: v → Q (final step (step s i).1 u) j := by
  constructor
  · exact fun h => ⟨h [] i is rfl, fun u j v hsplit => h (i :: u) j v (by simp [hsplit])⟩
  · rintro ⟨hfirst, hrest⟩ u j v hsplit
    cases u with
    | nil =>
      simp only [List.nil_append, List.cons.injEq] at hsplit
      exact hsplit.1 ▸ hfirst
    | cons k u =>
      simp only [List.cons_append, List.cons.injEq] at hsplit
      exact hsplit.1 ▸ hrest u j v hsplit.2

/-- If on states that satisfy an invariant a step of a certain kind is right exactly under a
condition, and right steps keep the invariant, then all steps of a run are right exactly if
all meet the condition. -/
theorem steps_iff {I : σ → Prop} {A R C : σ → ι → Prop}
    (hiff : ∀ s i, A s i → I s → (R s i ↔ C s i))
    (hinv : ∀ s i, A s i → I s → R s i → I (step s i).1)
    (s : σ) (hi : I s) (is : List ι) (hall : ∀ u i v, is = u++i :: v → A (final step s u) i) :
    (∀ u i v, is = u++i :: v → R (final step s u) i) ↔
      ∀ u i v, is = u++i :: v → C (final step s u) i := by
  induction is generalizing s with
  | nil => exact ⟨fun _ => forall_steps_nil step s, fun _ => forall_steps_nil step s⟩
  | cons i is ih =>
    rw [forall_steps_cons step] at hall
    rw [forall_steps_cons step, forall_steps_cons step, hiff s i hall.1 hi]
    apply and_congr_right
    intro hc
    exact ih _ (hinv s i hall.1 hi ((hiff s i hall.1 hi).mpr hc)) hall.2

/-- The same for a property of states. -/
theorem throughout_iff {I P : σ → Prop} {A C : σ → ι → Prop}
    (hinv : ∀ s i, A s i → I s → I (step s i).1)
    (hstep : ∀ s i, A s i → I s → P s → (P (step s i).1 ↔ C s i))
    (s : σ) (hi : I s) (h0 : P s) (is : List ι)
    (hall : ∀ u i v, is = u++i :: v → A (final step s u) i) :
    (∀ u v, is = u++v → P (final step s u)) ↔
      ∀ u i v, is = u++i :: v → C (final step s u) i := by
  rw [← steps_iff step (I := fun s => I s ∧ P s) (R := fun s i => P (step s i).1)
    (fun s i ha h => hstep s i ha h.1 h.2) (fun s i ha h hr => ⟨hinv s i ha h.1, hr⟩)
    s ⟨hi, h0⟩ is hall]
  constructor
  · intro h u i v hsplit
    rw [← final_snoc]
    exact h (u++[i]) v (by simp [hsplit])
  · intro h u v hsplit
    cases u using List.reverseRecOn with
    | nil => exact h0
    | append_singleton u i =>
      rw [final_snoc]
      exact h u i v (by simp [hsplit])

/-- A machine that only ever puts out the next item of a list has put out a front part. -/
theorem outputs_front {α : Type*} (step : σ → ι → σ×Option α) (sent : List α) {A : ι → Prop}
    {I : ℕ → σ → Prop}
    (hstep : ∀ n s i, A i → I n s → ((step s i).2 = none ∧ I n (step s i).1) ∨
      ((step s i).2 = sent[n]? ∧ n < sent.length ∧ I (n + 1) (step s i).1))
    (n : ℕ) (s : σ) (h : I n s) (is : List ι) (hall : ∀ i ∈ is, A i) :
    (outputs step s is).filterMap id <+: sent.drop n := by
  induction is generalizing n s with
  | nil => exact List.nil_prefix
  | cons i is ih =>
    have hrest : ∀ j ∈ is, A j := fun j hj => hall j (List.mem_cons_of_mem _ hj)
    cases hstep n s i (hall i List.mem_cons_self) h with
    | inl hkept =>
      rw [outputs_cons, hkept.1, List.filterMap_cons]
      exact ih n _ hkept.2 hrest
    | inr hnext =>
      obtain ⟨hout, hlt, hinv⟩ := hnext
      rw [outputs_cons, hout, List.getElem?_eq_getElem hlt, List.filterMap_cons,
        List.drop_eq_getElem_cons hlt]
      exact List.cons_prefix_cons.mpr ⟨rfl, ih (n + 1) _ hinv hrest⟩

end Machine
