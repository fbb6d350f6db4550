import PouchNode.Buf
import PouchNode.Lib.Heap

/-! Buffers as pointers (buf.c): what the other modules say about the contents of buffers is
said here about the buffers themselves, with the heap they come from and the count of
buf_active_count. -/
namespace Pouch.Mem
open Heap

abbrev BufRef := Ref Buf

def BufRef.set (buf : BufRef) (bytes : Buf) : BufRef := { buf with val := bytes }

def bufAlloc (malloc : Bool) (h : Heap) : Option BufRef × Heap :=
  if malloc then
    let (addr, h) := h.malloc
    (some ⟨addr, []⟩, h)
  else (none, h)

def bufFree (buf : BufRef) (h : Heap) : Heap := h.free buf.addr

def bufActiveCount (h : Heap) : Int := h.active

structure WorkQueue where
  queue : List BufRef
  pending : Bool

def WorkQueue.submit (w : WorkQueue) (buf : BufRef) : WorkQueue := ⟨w.queue++[buf], true⟩

def WorkQueue.erase (w : WorkQueue) : Pouch.WorkQueue := ⟨w.queue.map Ref.val, w.pending⟩

def held (buf : Option BufRef) : Multiset Nat := owned buf.toList

@[simp] theorem held_none : held none = 0 := rfl
@[simp] theorem held_some (buf : BufRef) : held (some buf) = {buf.addr} := rfl

@[simp] theorem BufRef.set_addr (buf : BufRef) (bytes : Buf) : (buf.set bytes).addr = buf.addr := rfl
@[simp] theorem BufRef.set_val (buf : BufRef) (bytes : Buf) : (buf.set bytes).val = bytes := rfl

@[simp] theorem WorkQueue.erase_submit (w : WorkQueue) (buf : BufRef) :
    (w.submit buf).erase = w.erase.submit buf.val := by
  simp [WorkQueue.submit, WorkQueue.erase, Pouch.WorkQueue.submit, bufQueueSubmit]

theorem bufAlloc_cases (malloc : Bool) (h : Heap) :
    (malloc = false ∧ bufAlloc malloc h = (none, h)) ∨
    (malloc = true ∧ bufAlloc malloc h = (some ⟨h.malloc.1, []⟩, h.malloc.2)) := by
  cases malloc with
  | false => exact Or.inl ⟨rfl, rfl⟩
  | true => exact Or.inr ⟨rfl, rfl⟩

theorem turns_bufAlloc (malloc : Bool) (h : Heap) :
    Turns h 0 (bufAlloc malloc h).2 (held (bufAlloc malloc h).1) := by
  rcases bufAlloc_cases malloc h with ⟨-, he⟩ | ⟨-, he⟩
  · rw [he]
    exact Turns.refl h 0
  · rw [he]
    intro rest ho
    rw [zero_add] at ho
    exact ho.malloc

theorem turns_bufFree (buf : BufRef) (h : Heap) : Turns h {buf.addr} (bufFree buf h) 0 := by
  intro rest ho
  rw [zero_add]
  exact ho.free

end Pouch.Mem
