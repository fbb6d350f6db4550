import Mathlib.Tactic

/-! A sequence cut into full chunks and a last one that is never empty after a full one:
what a writer leaves that fills one buffer after the other. -/
namespace Chunks
variable {α : Type*}

structure Cut (size : ℕ) (full : List (List α)) (last s : List α) : Prop where
  flatten : full.flatten++last = s
  full_length : ∀ c ∈ full, c.length = size
  last_length : last.length ≤ size
  last_ne_nil : full ≠ [] → last ≠ []

variable {size : ℕ} {full more : List (List α)} {last last' s t : List α}

theorem Cut.one (h : s.length ≤ size) : Cut size [] s s :=
  ⟨rfl, by simp, h, fun hn => absurd rfl hn⟩

theorem Cut.append (h : Cut size full last s) (k : Cut size more last' (last++t)) :
    Cut size (full++more) last' (s++t) := by
  refine ⟨?_, ?_, k.last_length, ?_⟩
  · rw [List.flatten_append, List.append_assoc, k.flatten, ← List.append_assoc, h.flatten]
  · intro c hc
    cases List.mem_append.mp hc with
    | inl hin => exact h.full_length c hin
    | inr hin => exact k.full_length c hin
  · intro hne hnil
    cases more with
    | cons c more => exact k.last_ne_nil (by simp) hnil
    | nil =>
      -- nothing was cut off, so the old last chunk is still in front
      have hlast : last++t = [] := by rw [← k.flatten, hnil, List.flatten_nil, List.append_nil]
      exact h.last_ne_nil (by simpa using hne) (List.append_eq_nil_iff.mp hlast).1

theorem Cut.cons {c : List α} (hc : c.length = size) (ht : t ≠ [])
    (k : Cut size more last' t) : Cut size (c :: more) last' (c++t) := by
  refine ⟨by rw [List.flatten_cons, List.append_assoc, k.flatten], ?_, k.last_length, ?_⟩
  · intro d hd
    cases List.mem_cons.mp hd with
    | inl he => rw [he, hc]
    | inr hin => exact k.full_length d hin
  · intro _ hnil
    cases more with
    | cons d more => exact k.last_ne_nil (by simp) hnil
    | nil => exact ht (by rw [← k.flatten, hnil, List.flatten_nil, List.append_nil])

theorem Cut.length_le (h : Cut size full last s) : ∀ q ∈ full++[last], q.length ≤ size := by
  intro q hq
  cases List.mem_append.mp hq with
  | inl hin => exact le_of_eq (h.full_length q hin)
  | inr hin => exact List.mem_singleton.mp hin ▸ h.last_length

theorem Cut.length (h : Cut size full last s) :
    s.length = full.length*size + last.length := by
  have hfull : full.flatten.length = full.length*size := by
    rw [List.length_flatten, List.map_congr_left h.full_length, List.map_const']
    simp
  rw [← h.flatten, List.length_append, hfull]

theorem Cut.front {front : List α} (h : Cut size full last (front++t)) (hfront : front.length ≤ size) :
    (full = [] ∧ last = front++t) ∨
      ∃ c more, full = (front++c) :: more ∧ c++more.flatten++last = t := by
  have hflat := h.flatten
  cases full with
  | nil => exact Or.inl ⟨rfl, hflat⟩
  | cons d more =>
    have hd := h.full_length d (by simp)
    rw [List.flatten_cons, List.append_assoc] at hflat
    have hpre : front <+: d := List.prefix_of_prefix_length_le ⟨t, hflat.symm⟩ ⟨_, rfl⟩ (by omega)
    obtain ⟨c, rfl⟩ := hpre
    refine Or.inr ⟨c, more, rfl, ?_⟩
    rw [List.append_assoc, List.append_cancel_left_eq] at hflat
    rw [List.append_assoc]
    exact hflat

/-- What passes a test is a front part exactly if nothing that fails it comes before
something that passes. -/
theorem filter_prefix_iff (q : α → Bool) (l : List α) :
    l.filter q <+: l ↔ l.Pairwise fun a b => q b = true → q a = true := by
  induction l with
  | nil => simp
  | cons a l ih =>
    cases ha : q a with
    | true =>
      rw [List.filter_cons_of_pos ha, List.prefix_cons_inj, ih, List.pairwise_cons]
      exact ⟨fun h => ⟨fun _ _ _ => ha, h⟩, fun h => h.2⟩
    | false =>
      rw [List.filter_cons_of_neg (by simp [ha]), List.pairwise_cons]
      constructor
      · intro h
        have hnone : ∀ b ∈ l, q b = false := by
          cases hf : l.filter q with
          | nil => simpa using hf
          | cons b bs =>
            rw [hf, List.cons_prefix_cons] at h
            have hb : q b = true := List.of_mem_filter (by rw [hf]; exact List.mem_cons_self)
            rw [h.1, ha] at hb
            cases hb
        have hno : ∀ c : α, ∀ b ∈ l, q b = true → q c = true := by
          intro c b hb hq
          rw [hnone b hb] at hq
          cases hq
        exact ⟨hno a, List.pairwise_of_forall_mem_list fun c _ => hno c⟩
      · intro h
        have hnone : l.filter q = [] := by
          rw [List.filter_eq_nil_iff]
          intro b hb hq
          have hqa := h.1 b hb hq
          rw [ha] at hqa
          cases hqa
        rw [hnone]
        exact List.nil_prefix

end Chunks
