import PouchNode.DownlinkMem

/-! Who owns the buffers of the receiver: pouch_buf and the two queues, and nobody else. Every
handler and every push hands its buffers on or frees them; a start does not look at the
buffer that the last pouch has left in pouch_buf. -/
namespace Pouch.Mem
open Heap Machine

def Downlink.queued (s : Downlink) : Multiset Nat := owned s.decrypt.queue+owned s.consume.queue

def Downlink.owners (s : Downlink) : Multiset Nat := held s.pouchBuf+s.queued

def Downlink.places (s : Downlink) : Nat :=
  (if s.pouchBuf.isSome then 1 else 0)+s.decrypt.queue.length+s.consume.queue.length

structure DownlinkOwned (s : Downlink) : Prop where
  active : bufActiveCount s.heap = s.places
  live : s.heap.live.card = s.places
  freedOnce : s.heap.misfreed = false

theorem card_owners (s : Downlink) : Multiset.card s.owners = s.places := by
  cases hbuf : s.pouchBuf with
  | none => simp [Downlink.owners, Downlink.queued, Downlink.places, hbuf]
  | some buf =>
    simp [Downlink.owners, Downlink.queued, Downlink.places, hbuf]
    omega

/-- With nothing but the owners and what has been lost on the heap, the numbers agree exactly
if nothing has been lost. -/
theorem downlinkOwned_iff {s : Downlink} {lost : Multiset Nat} (h : s.heap.Owns (s.owners+lost)) :
    DownlinkOwned s ↔ lost = 0 := by
  have hcard : s.heap.live.card = s.places+Multiset.card lost := by
    rw [← Finset.card_val, h.live, Multiset.card_add, card_owners]
  have hactive : bufActiveCount s.heap = s.places+Multiset.card lost := by
    rw [bufActiveCount, h.active, Multiset.card_add, card_owners]
    push_cast
    rfl
  rw [← Multiset.card_eq_zero]
  constructor
  · intro ho
    have := ho.live
    omega
  · intro h0
    refine ⟨?_, ?_, h.sound⟩
    · rw [hactive, h0]
      simp
    · rw [hcard, h0]
      rfl

section
variable (cfg : Config) (r : SaeadReceiver)

theorem turns_alloc (s : Downlink) :
    Turns s.heap 0 (s.alloc cfg r).heap (held (s.alloc cfg r).pouchBuf) :=
  turns_bufAlloc ((receiverEnv cfg r).bufAlloc s.allocs) s.heap

theorem owners_blockDownlinkPush (s : Downlink) (buf : BufRef) :
    (blockDownlinkPush s buf).owners = s.owners+{buf.addr} := by
  simp only [Downlink.owners, Downlink.queued, blockDownlinkPush, WorkQueue.submit, owned_append,
    owned_cons, owned_nil]
  abel

theorem turns_pushBlock (s : Downlink) {buf : BufRef} {addr : Nat} (haddr : buf.addr = addr) :
    Turns s.heap ({addr}+s.queued) (pushBlock cfg r s buf).1.heap
      (pushBlock cfg r s buf).1.owners := by
  subst haddr
  have hkept : Turns s.heap ({buf.addr}+s.queued) s.heap
      { s with pouchBuf := some buf : Downlink }.owners :=
    Turns.refl s.heap _
  have hsent : Turns s.heap ({buf.addr}+s.queued) (s.alloc cfg r).heap
      ((s.alloc cfg r).owners+{buf.addr}) := by
    apply ((turns_alloc cfg r s).frame ({buf.addr}+s.queued)).congr
    · rw [zero_add]
    · have hqueued : (s.alloc cfg r).queued = s.queued := rfl
      rw [Downlink.owners, hqueued]
      abel
  simp only [pushBlock]
  split
  · split
    · exact hkept
    · split
      · cases hbuf : (s.alloc cfg r).pouchBuf with
        | none => exact hsent.congr rfl (owners_blockDownlinkPush _ buf).symm
        | some fresh =>
          dsimp only
          split
          -- the new buffer gets the remaining bytes, but is the same buffer
          · apply hsent.congr rfl
            rw [owners_blockDownlinkPush, Downlink.owners, hbuf]
            rfl
          · exact hsent.congr rfl (owners_blockDownlinkPush _ buf).symm
      · exact hkept
  · exact hkept

theorem turns_pushPass (s : Downlink) (input : Buf) :
    Turns s.heap s.owners (pushPass cfg r s input).1.1.heap (pushPass cfg r s input).1.1.owners := by
  cases hbuf : s.pouchBuf with
  | none =>
    simp only [pushPass, hbuf]
    exact Turns.refl s.heap _
  | some buf =>
    have howners : s.owners = {buf.addr}+s.queued := by rw [Downlink.owners, hbuf, held_some]
    rw [howners]
    simp only [pushPass, hbuf]
    split
    · exact (Turns.refl s.heap _).congr rfl howners.symm
    · split
      · exact turns_pushBlock cfg r s rfl
      · split
        · exact Turns.refl s.heap _
        · next headerLen crypto _ =>
          exact turns_pushBlock cfg r { s with pouchBuf := some buf, pouchHeader := true, crypto } rfl

theorem turns_pushLoop (fuel : Nat) (s : Downlink) (input : Buf) :
    Turns s.heap s.owners (pushLoop cfg r fuel s input).heap (pushLoop cfg r fuel s input).owners := by
  induction fuel generalizing s input with
  | zero => exact Turns.refl s.heap _
  | succ fuel ih =>
    cases input with
    | nil => exact Turns.refl s.heap _
    | cons b input =>
      have hpass := turns_pushPass cfg r s (b :: input)
      simp only [pushLoop]
      cases hp : pushPass cfg r s (b :: input) with
      | mk p rest =>
      obtain ⟨t, exit⟩ := p
      rw [hp] at hpass
      cases exit with
      | some e => exact hpass
      | none => exact hpass.trans (ih t rest)

theorem turns_decryptBlocks (s : Downlink) :
    Turns s.heap s.owners (decryptBlocks cfg r s).heap (decryptBlocks cfg r s).owners := by
  cases hq : s.decrypt.queue with
  | nil =>
    simp only [decryptBlocks, hq]
    apply (Turns.refl s.heap _).congr rfl
    simp [Downlink.owners, Downlink.queued, hq]
  | cons block queue =>
    have hcrypto := turns_cryptoDecryptBlock cfg r block s.crypto s.heap
    have hrest := hcrypto.frame (held s.pouchBuf+owned queue+owned s.consume.queue)
    simp only [decryptBlocks, hq]
    cases hd : cryptoDecryptBlock cfg r block s.crypto s.heap with
    | mk d heap =>
    obtain ⟨decrypted, crypto⟩ := d
    rw [hd] at hrest
    cases decrypted with
    | none =>
      apply hrest.congr
      · simp only [Downlink.owners, Downlink.queued, hq, owned_cons]
        abel
      · simp only [Downlink.owners, Downlink.queued, held_none]
        abel
    | some decrypted =>
      apply hrest.congr
      · simp only [Downlink.owners, Downlink.queued, hq, owned_cons]
        abel
      · simp only [Downlink.owners, Downlink.queued, held_some, WorkQueue.submit, owned_append,
          owned_cons, owned_nil]
        abel

theorem turns_consumeBlocks (s : Downlink) :
    Turns s.heap s.owners (consumeBlocks s).1.heap (consumeBlocks s).1.owners := by
  cases hq : s.consume.queue with
  | nil =>
    simp only [consumeBlocks, hq]
    apply (Turns.refl s.heap _).congr rfl
    simp [Downlink.owners, Downlink.queued, hq]
  | cons buf queue =>
    simp only [consumeBlocks, hq]
    apply ((turns_bufFree buf s.heap).frame (held s.pouchBuf+owned s.decrypt.queue+owned queue)).congr
    · simp only [Downlink.owners, Downlink.queued, hq, owned_cons]
      abel
    · simp only [Downlink.owners, Downlink.queued]
      abel

def StartsEmpty (s : Downlink) : DownlinkOp → Prop
  | .start => s.pouchBuf = none
  | _ => True

def dropped (s : Downlink) : DownlinkOp → Multiset Nat
  | .start => held s.pouchBuf
  | _ => 0

/-- Every step hands on what is owned, less what it drops. -/
theorem turns_downlinkStep (s : Downlink) (op : DownlinkOp) :
    Turns s.heap s.owners (downlinkStep cfg r s op).1.heap
      ((downlinkStep cfg r s op).1.owners+dropped s op) := by
  cases op with
  | start =>
    apply ((turns_alloc cfg r { s with pouchHeader := false }).frame s.owners).congr
    · rw [zero_add]
    · have hqueued : (pouchDownlinkStart cfg r s).queued = s.queued := rfl
      simp only [downlinkStep, dropped, Downlink.owners, hqueued]
      rw [add_comm (held s.pouchBuf), ← add_assoc]
      rfl
  | push chunk =>
    simp only [dropped, add_zero]
    exact turns_pushLoop cfg r chunk.length s chunk
  | finish =>
    simp only [dropped, add_zero]
    exact Turns.refl s.heap _
  | decrypt =>
    simp only [dropped, add_zero]
    simp only [downlinkStep]
    split
    · exact turns_decryptBlocks cfg r s
    · exact Turns.refl s.heap _
  | consume =>
    simp only [dropped, add_zero]
    simp only [downlinkStep]
    split
    · exact turns_consumeBlocks s
    · exact Turns.refl s.heap _
  | session f =>
    simp only [dropped, add_zero]
    exact Turns.refl s.heap _

theorem dropped_eq_zero_iff (s : Downlink) (op : DownlinkOp) : dropped s op = 0 ↔ StartsEmpty s op := by
  cases op with
  | start =>
    cases hbuf : s.pouchBuf with
    | none => simp [dropped, StartsEmpty, hbuf]
    | some buf => simp [dropped, StartsEmpty, hbuf]
  | _ => simp [dropped, StartsEmpty]

/-- In every run, every buffer has its owner and none is freed twice in all states reached,
exactly if no start finds a buffer in pouch_buf. -/
theorem downlink_buffers_owned_iff (ops : List DownlinkOp) :
    (∀ u v, ops = u++v → DownlinkOwned (downlinkFinal cfg r .boot u)) ↔
      ∀ u op v, ops = u++op :: v → StartsEmpty (downlinkFinal cfg r .boot u) op := by
  have hboot : Downlink.boot.heap.Owns (Downlink.boot.owners+0) := owns_empty
  apply throughout_iff (downlinkStep cfg r) (I := fun s => ∃ lost, s.heap.Owns (s.owners+lost))
    (P := DownlinkOwned) (A := fun _ _ => True) ?_ ?_ .boot ⟨0, hboot⟩
    ((downlinkOwned_iff hboot).mpr rfl) ops (fun _ _ _ _ => trivial)
  · rintro s op - ⟨lost, ho⟩
    have hnext := turns_downlinkStep cfg r s op lost ho
    rw [add_assoc] at hnext
    exact ⟨_, hnext⟩
  · rintro s op - ⟨lost, ho⟩ howned
    have hlost := (downlinkOwned_iff ho).mp howned
    have hnext := turns_downlinkStep cfg r s op lost ho
    rw [add_assoc] at hnext
    rw [downlinkOwned_iff hnext, hlost, add_zero, dropped_eq_zero_iff]

end

/-- Two pouches with one block each, the first all done when the second starts: its spare
buffer is lost. -/
theorem next_pouch_loses_buffer :
    ¬ DownlinkOwned (downlinkFinal saeadConfig twoPouches .boot
      [.start, .push (serverRandomHeader 3++sealedBlock), .finish, .decrypt, .consume, .start]) := by
  intro h
  exact absurd h.active (by decide)

end Pouch.Mem
