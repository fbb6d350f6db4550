import Mathlib.Tactic

/-! CBOR items in their shortest form: unsigned integers, byte and text strings, arrays and maps
of definite length. An array is given by the encodings of its elements, a map by those of its
keys and values. Items are put into a buffer of limited size one after the other. -/
namespace Cbor

def octets (k n : Nat) : List UInt8 := (List.range k).reverse.map fun i => UInt8.ofNat (n / 256^i)

def head (major n : Nat) : List UInt8 :=
  if n < 24 then [UInt8.ofNat (32*major + n)]
  else if n < 2^8 then UInt8.ofNat (32*major + 24) :: octets 1 n
  else if n < 2^16 then UInt8.ofNat (32*major + 25) :: octets 2 n
  else if n < 2^32 then UInt8.ofNat (32*major + 26) :: octets 4 n
  else UInt8.ofNat (32*major + 27) :: octets 8 n

def uint (n : Nat) : List UInt8 := head 0 n
def bstr (b : List UInt8) : List UInt8 := head 2 b.length++b
def tstr (b : List UInt8) : List UInt8 := head 3 b.length++b
def array (items : List (List UInt8)) : List UInt8 := head 4 items.length++items.flatten

def map (pairs : List (List UInt8 × List UInt8)) : List UInt8 :=
  head 5 pairs.length++pairs.flatMap fun p => p.1++p.2

def put (size : Nat) (buf item : List UInt8) : Option (List UInt8) :=
  if buf.length + item.length ≤ size then some (buf++item) else none

def putAll (size : Nat) (buf : List UInt8) (items : List (List UInt8)) : Option (List UInt8) :=
  items.foldlM (put size) buf

@[simp] theorem length_octets (k n : Nat) : (octets k n).length = k := by
  simp [octets]

def headLen (n : Nat) : Nat :=
  if n < 24 then 1 else if n < 2^8 then 2 else if n < 2^16 then 3 else if n < 2^32 then 5 else 9

@[simp] theorem length_head (major n : Nat) : (head major n).length = headLen n := by
  unfold head headLen
  split_ifs <;> simp

theorem headLen_small {n : Nat} (h : n < 24) : headLen n = 1 := if_pos h

theorem headLen_le (n : Nat) : headLen n ≤ 9 := by
  unfold headLen
  split_ifs <;> omega

theorem headLen_mono {m n : Nat} (h : m ≤ n) : headLen m ≤ headLen n := by
  unfold headLen
  split_ifs <;> omega

@[simp] theorem length_uint (n : Nat) : (uint n).length = headLen n := length_head 0 n

@[simp] theorem length_bstr (b : List UInt8) : (bstr b).length = headLen b.length + b.length := by
  simp [bstr]

@[simp] theorem length_tstr (b : List UInt8) : (tstr b).length = headLen b.length + b.length := by
  simp [tstr]

@[simp] theorem length_array (items : List (List UInt8)) :
    (array items).length = headLen items.length + (items.map List.length).sum := by
  simp [array, List.length_flatten]

/-- Items can be put one after the other exactly if there is room for all of them. -/
theorem putAll_eq {size : Nat} (buf : List UInt8) (h : buf.length ≤ size)
    (items : List (List UInt8)) :
    putAll size buf items =
      if buf.length + items.flatten.length ≤ size then some (buf++items.flatten) else none := by
  induction items generalizing buf with
  | nil => simp [putAll, h]
  | cons item items ih =>
    by_cases hitem : buf.length + item.length ≤ size
    · have hrest : putAll size buf (item :: items) = putAll size (buf++item) items := by
        simp [putAll, put, hitem]
      rw [hrest, ih (buf++item) (by simpa using hitem)]
      simp only [List.flatten_cons, List.length_append, List.append_assoc, Nat.add_assoc]
    · have hall : ¬ buf.length + (item :: items).flatten.length ≤ size := by
        simp only [List.flatten_cons, List.length_append]
        omega
      rw [if_neg hall]
      simp [putAll, put, hitem]

end Cbor
