import Mathlib.Tactic

/-! Streams of code words no one of which begins another: whatever has been cut off
the front of such a stream in whole words is an initial segment of its words. -/
namespace PrefixFree
variable {α : Type*}

/-- Two words that begin the same string are equal, and no word is empty. -/
structure Code (C : List α → Prop) : Prop where
  ne_nil : ∀ w, C w → w ≠ []
  unique : ∀ v w x y, C v → C w → v++x = w++y → v = w

variable {C : List α → Prop}

/-- Cutting words off the front of a stream recovers its words, in order. -/
theorem Code.split (h : Code C) {vs ws : List (List α)} {x : List α}
    (hv : ∀ v ∈ vs, C v) (hw : ∀ w ∈ ws, C w) (he : vs.flatten++x = ws.flatten) :
    ∃ rest, ws = vs++rest ∧ x = rest.flatten := by
  induction vs generalizing ws with
  | nil => exact ⟨ws, rfl, by simpa using he⟩
  | cons v vs ih =>
    have hCv := hv v (by simp)
    cases ws with
    | nil =>
      simp only [List.flatten_cons, List.flatten_nil, List.append_eq_nil_iff] at he
      exact absurd he.1.1 (h.ne_nil v hCv)
    | cons w ws =>
      simp only [List.flatten_cons, List.append_assoc] at he
      have hvw := h.unique v w _ _ hCv (hw w (by simp)) he
      subst hvw
      obtain ⟨rest, hr, hx⟩ := ih (fun u hu => hv u (by simp [hu]))
        (fun u hu => hw u (by simp [hu])) (List.append_cancel_left he)
      exact ⟨rest, by simp [hr], hx⟩

end PrefixFree
