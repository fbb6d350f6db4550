import Mathlib.Tactic

/-! Sixteen-bit big-endian fields in octet strings. Writing truncates to the
field's width; reading looks at the first two octets only. -/
namespace Octets

def putBe16 (n : Nat) : List UInt8 := [UInt8.ofNat (n/256), UInt8.ofNat n]

def getBe16 : List UInt8 → Nat
  | a :: b :: _ => a.toNat*256 + b.toNat
  | _ => 0

@[simp] theorem length_putBe16 (n : Nat) : (putBe16 n).length = 2 := rfl

theorem getBe16_lt (s : List UInt8) : getBe16 s < 65536 := by
  match s with
  | [] | [_] => simp [getBe16]
  | a :: b :: _ =>
    have ha := a.toNat_lt
    have hb := b.toNat_lt
    simp only [getBe16]
    omega

@[simp] theorem getBe16_putBe16_append (n : Nat) (t : List UInt8) :
    getBe16 (putBe16 n ++ t) = n % 65536 := by
  simp only [putBe16, List.cons_append, List.nil_append, getBe16, UInt8.toNat_ofNat']
  omega

theorem putBe16_getBe16 (a b : UInt8) (t : List UInt8) : putBe16 (getBe16 (a :: b :: t)) = [a, b] := by
  have hb := b.toNat_lt
  have hhigh : (a.toNat*256 + b.toNat) / 256 = a.toNat := by omega
  simp [putBe16, getBe16, hhigh]

theorem getBe16_append (s t : List UInt8) (h : 2 ≤ s.length) : getBe16 (s ++ t) = getBe16 s := by
  match s with
  | [] | [_] => simp at h
  | a :: b :: _ => rfl

theorem getBe16_eq_of_take (s t : List UInt8) (h : s.take 2 = t.take 2) : getBe16 s = getBe16 t := by
  match s, t with
  | [], [] | [], [_] | [_], [] | [_], [_] => simp_all [getBe16]
  | [], _ :: _ :: _ | [_], _ :: _ :: _ | _ :: _ :: _, [] | _ :: _ :: _, [_] => simp at h
  | a :: b :: s, c :: d :: t =>
    simp only [List.take_succ_cons, List.take_zero, List.cons.injEq, and_true] at h
    simp only [getBe16, h.1, h.2]

end Octets
