import Mathlib.Data.Finset.Card
import Mathlib.Tactic

/-! An allocator that counts what it has handed out, and the accounting of who owns it. An
address is never handed out twice, so a pointer that is freed again is always noticed. -/

structure Heap where
  live : Finset Nat
  next : Nat
  fresh : ∀ a ∈ live, a < next
  active : Int
  /- Something was freed that was not live. -/
  misfreed : Bool

structure Ref (α : Type*) where
  addr : Nat
  val : α
  deriving DecidableEq, Repr

namespace Heap
variable {α : Type*}

def empty : Heap := ⟨∅, 0, by simp, 0, false⟩

def malloc (h : Heap) : Nat × Heap :=
  (h.next,
    { live := insert h.next h.live
      next := h.next + 1
      fresh := by
        intro a ha
        cases Finset.mem_insert.mp ha with
        | inl hnew => omega
        | inr hold => exact Nat.lt_succ_of_lt (h.fresh a hold)
      active := h.active + 1
      misfreed := h.misfreed })

def free (h : Heap) (a : Nat) : Heap where
  live := h.live.erase a
  next := h.next
  fresh b hb := h.fresh b (Finset.mem_of_mem_erase hb)
  active := h.active - 1
  misfreed := h.misfreed || decide (a ∉ h.live)

/- Exactly these addresses are live, each of them listed once, and all has been counted. -/
structure Owns (h : Heap) (owners : Multiset Nat) : Prop where
  live : h.live.val = owners
  active : h.active = Multiset.card owners
  sound : h.misfreed = false

theorem owns_empty : empty.Owns 0 := ⟨rfl, rfl, rfl⟩

theorem Owns.malloc {h : Heap} {owners : Multiset Nat} (ho : h.Owns owners) :
    h.malloc.2.Owns ({h.malloc.1}+owners) where
  live := by
    have hnew : h.next ∉ h.live := fun hmem => Nat.lt_irrefl _ (h.fresh _ hmem)
    simp only [Heap.malloc, Finset.insert_val_of_notMem hnew, ho.live, Multiset.singleton_add]
  active := by
    simp only [Heap.malloc, ho.active, Multiset.card_add, Multiset.card_singleton]
    omega
  sound := ho.sound

theorem Owns.free {h : Heap} {a : Nat} {owners : Multiset Nat} (ho : h.Owns ({a}+owners)) :
    (h.free a).Owns owners where
  live := by
    simp only [Heap.free, Finset.erase_val, ho.live, Multiset.singleton_add,
      Multiset.erase_cons_head]
  active := by
    simp only [Heap.free, ho.active, Multiset.card_add, Multiset.card_singleton]
    omega
  sound := by
    have hlive : a ∈ h.live := by
      rw [← Finset.mem_val, ho.live]
      simp
    simp [Heap.free, ho.sound, hlive]

def Turns (h : Heap) (before : Multiset Nat) (h' : Heap) (after : Multiset Nat) : Prop :=
  ∀ rest, h.Owns (before+rest) → h'.Owns (after+rest)

theorem Turns.refl (h : Heap) (owners : Multiset Nat) : Turns h owners h owners := fun _ ho => ho

theorem Turns.trans {h h' h'' : Heap} {as bs cs : Multiset Nat} (h₁ : Turns h as h' bs)
    (h₂ : Turns h' bs h'' cs) : Turns h as h'' cs := fun rest ho => h₂ rest (h₁ rest ho)

/-- Owners that are not concerned stay as they are. -/
theorem Turns.frame {h h' : Heap} {as bs : Multiset Nat} (ht : Turns h as h' bs)
    (cs : Multiset Nat) : Turns h (as+cs) h' (bs+cs) := by
  intro rest ho
  rw [add_assoc] at ho ⊢
  exact ht (cs+rest) ho

theorem Turns.congr {h h' : Heap} {as bs as' bs' : Multiset Nat} (ht : Turns h as h' bs)
    (ha : as' = as) (hb : bs = bs') : Turns h as' h' bs' := by
  rwa [ha, ← hb]

def owned (refs : List (Ref α)) : Multiset Nat := ↑(refs.map Ref.addr)

@[simp] theorem owned_nil : owned ([] : List (Ref α)) = 0 := rfl
@[simp] theorem owned_cons (r : Ref α) (refs : List (Ref α)) :
    owned (r :: refs) = {r.addr}+owned refs := by
  simp [owned, ← Multiset.cons_coe, Multiset.singleton_add]
@[simp] theorem owned_append (refs refs' : List (Ref α)) :
    owned (refs++refs') = owned refs+owned refs' := by
  simp [owned, ← Multiset.coe_add]
@[simp] theorem card_owned (refs : List (Ref α)) : Multiset.card (owned refs) = refs.length := by
  simp [owned]

end Heap
