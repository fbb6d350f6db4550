import Mathlib.Tactic

/-! Padded Base64 over the standard alphabet. Equal texts are encodings of equal octet
strings, and the length of a text depends on the length of its string alone. -/
namespace Base64

def digit (n : Nat) : UInt8 :=
  if n < 26 then UInt8.ofNat (65 + n)
  else if n < 52 then UInt8.ofNat (71 + n)
  else if n < 62 then UInt8.ofNat (n - 4)
  else if n = 62 then 43
  else 47

def pad : UInt8 := 61

def encode : List UInt8 → List UInt8
  | [] => []
  | [a] => [digit (a.toNat/4), digit (a.toNat%4*16), pad, pad]
  | [a, b] =>
    [digit (a.toNat/4), digit (a.toNat%4*16 + b.toNat/16), digit (b.toNat%16*4), pad]
  | a :: b :: c :: rest =>
    digit (a.toNat/4) :: digit (a.toNat%4*16 + b.toNat/16) ::
      digit (b.toNat%16*4 + c.toNat/64) :: digit (c.toNat%64) :: encode rest

theorem digit_injective : ∀ {m n : Nat}, m < 64 → n < 64 → digit m = digit n → m = n := by
  have hall : ∀ m n : Fin 64, digit m = digit n → m = n := by decide
  intro m n hm hn h
  exact congrArg Fin.val (hall ⟨m, hm⟩ ⟨n, hn⟩ h)

theorem digit_ne_zero (n : Nat) : digit n ≠ 0 := by
  by_cases h : n < 64
  · have hall : ∀ n : Fin 64, digit n ≠ 0 := by decide
    exact hall ⟨n, h⟩
  · have h26 : ¬ n < 26 := by omega
    have h52 : ¬ n < 52 := by omega
    have h62 : ¬ n < 62 := by omega
    have hne : n ≠ 62 := by omega
    simp [digit, h26, h52, h62, hne]

theorem digit_ne_pad {n : Nat} (h : n < 64) : digit n ≠ pad := by
  have hall : ∀ n : Fin 64, digit n ≠ pad := by decide
  exact hall ⟨n, h⟩

@[simp] theorem length_encode (s : List UInt8) : (encode s).length = 4*((s.length + 2)/3) := by
  induction s using encode.induct with
  | case1 => rfl
  | case2 a => simp [encode]
  | case3 a b => simp [encode]
  | case4 a b c rest ih =>
    simp only [encode, List.length_cons, ih]
    omega

theorem zero_not_mem_encode (s : List UInt8) : 0 ∉ encode s := by
  have hd : ∀ n, ¬ 0 = digit n := fun n h => digit_ne_zero n h.symm
  have hp : ¬ 0 = pad := by decide
  induction s using encode.induct with
  | case1 => simp [encode]
  | case2 a => simp [encode, hd, hp]
  | case3 a b => simp [encode, hd, hp]
  | case4 a b c rest ih => simp [encode, hd, ih]

section
variable {a b c x y z : UInt8}

theorem first_octet {m n : Nat} (hm : m < 16) (hn : n < 16)
    (h₀ : digit (a.toNat/4) = digit (x.toNat/4))
    (h₁ : digit (a.toNat%4*16 + m) = digit (x.toNat%4*16 + n)) : a = x ∧ m = n := by
  have ha := a.toNat_lt
  have hx := x.toNat_lt
  have e₀ := digit_injective (by omega) (by omega) h₀
  have e₁ := digit_injective (by omega) (by omega) h₁
  exact ⟨UInt8.toNat.inj (by omega), by omega⟩

theorem second_octet {m n : Nat} (hm : m < 4) (hn : n < 4) (he : b.toNat/16 = y.toNat/16)
    (h₂ : digit (b.toNat%16*4 + m) = digit (y.toNat%16*4 + n)) : b = y ∧ m = n := by
  have e₂ := digit_injective (by omega) (by omega) h₂
  exact ⟨UInt8.toNat.inj (by omega), by omega⟩

end

theorem encode_injective {s t : List UInt8} (h : encode s = encode t) : s = t := by
  have hnot : ∀ {n}, n < 64 → ¬ pad = digit n := fun hn e => digit_ne_pad hn e.symm
  induction s using encode.induct generalizing t with
  | case1 =>
    match t with
    | [] => rfl
    | [_] | [_, _] | _ :: _ :: _ :: _ => simp [encode] at h
  | case2 a =>
    match t with
    | [] => simp [encode] at h
    | [x] =>
      simp only [encode, List.cons.injEq, and_true] at h
      have hax := first_octet (by decide : 0 < 16) (by decide : 0 < 16) h.1 (by simpa using h.2)
      rw [hax.1]
    | [x, y] =>
      simp only [encode, List.cons.injEq, and_true] at h
      exact absurd h.2.2 (hnot (by omega))
    | x :: y :: z :: rest =>
      simp only [encode, List.cons.injEq] at h
      have hz := z.toNat_lt
      exact absurd h.2.2.1 (hnot (by omega))
  | case3 a b =>
    have hb := b.toNat_lt
    match t with
    | [] => simp [encode] at h
    | [x] =>
      simp only [encode, List.cons.injEq, and_true] at h
      exact absurd h.2.2.symm (hnot (by omega))
    | [x, y] =>
      have hy := y.toNat_lt
      simp only [encode, List.cons.injEq, and_true] at h
      have hax := first_octet (by omega) (by omega) h.1 h.2.1
      have hby := second_octet (by decide : 0 < 4) (by decide : 0 < 4) hax.2 (by simpa using h.2.2)
      rw [hax.1, hby.1]
    | x :: y :: z :: rest =>
      simp only [encode, List.cons.injEq] at h
      exact absurd h.2.2.2.1 (hnot (by omega))
  | case4 a b c rest ih =>
    have hb := b.toNat_lt
    have hc := c.toNat_lt
    match t with
    | [] => simp [encode] at h
    | [x] =>
      simp only [encode, List.cons.injEq] at h
      exact absurd h.2.2.1.symm (hnot (by omega))
    | [x, y] =>
      simp only [encode, List.cons.injEq] at h
      exact absurd h.2.2.2.1.symm (hnot (by omega))
    | x :: y :: z :: rest' =>
      have hy := y.toNat_lt
      have hz := z.toNat_lt
      simp only [encode, List.cons.injEq] at h
      have hax := first_octet (by omega) (by omega) h.1 h.2.1
      have hby := second_octet (by omega) (by omega) hax.2 h.2.2.1
      have hlow := digit_injective (by omega) (by omega) h.2.2.2.1
      have hcz : c = z := UInt8.toNat.inj (by omega)
      rw [hax.1, hby.1, hcz, ih h.2.2.2.2]

example : encode [0x66, 0x6f, 0x6f, 0x62] = [0x5a, 0x6d, 0x39, 0x76, 0x59, 0x67, pad, pad] := by decide

end Base64
