import PouchNode.DownlinkQueue

/-! Wake-ups of the decrypt work item. block_downlink_push and decrypt_blocks are taken apart
where the other can get in between. Both announce a block: the transport thread the one it
has just appended, the handler any that it sees in the queue. A block that is announced twice
is taken once, and the handler does not test for an empty queue before it decrypts. -/
namespace Pouch
open Machine
variable {κ ι : Type*}

inductive DecryptPhase where
  | idle
  | take
  | decrypt (block : Option Buf)
  | submitBlock (decrypted : Buf)
  | submitConsume
  | testQueue
  | resubmit
  deriving DecidableEq

inductive PushPhase where
  | idle
  | submit
  deriving DecidableEq

structure Decrypting (κ : Type*) where
  down : Downlink κ
  handler : DecryptPhase
  transport : PushPhase

def Decrypting.boot (k : κ) : Decrypting κ := ⟨.boot k, .idle, .idle⟩

inductive DecryptOp where
  | push (block : Buf)
  | transport
  | handler
  deriving DecidableEq

def Downlink.withDecrypt (s : Downlink κ) (queue : BufQueue) (pending : Bool) : Downlink κ :=
  { s with decrypt := ⟨queue, pending⟩ }

def Downlink.withConsume (s : Downlink κ) (queue : BufQueue) (pending : Bool) : Downlink κ :=
  { s with consume := ⟨queue, pending⟩ }

def pushStep (s : Decrypting κ) (block : Buf) : Decrypting κ :=
  match s.transport with
  | .idle =>
    { s with
      down := s.down.withDecrypt (bufQueueSubmit s.down.decrypt.queue block) s.down.decrypt.pending
      transport := .submit }
  | .submit => s

def transportStep (s : Decrypting κ) : Decrypting κ :=
  match s.transport with
  | .idle => s
  | .submit => { s with down := s.down.withDecrypt s.down.decrypt.queue true, transport := .idle }

section
variable (env : DownlinkEnv κ ι)

def decryptPhaseStep (s : Downlink κ) : DecryptPhase → (DecryptPhase × Downlink κ) × Option (Option Buf)
  | .idle =>
    if s.decrypt.pending then ((.take, s.withDecrypt s.decrypt.queue false), none)
    else ((.idle, s), none)
  | .take =>
    let (block, queue) := bufQueueGet s.decrypt.queue
    ((.decrypt block, s.withDecrypt queue s.decrypt.pending), none)
  | .decrypt block =>
    match env.cryptoDecryptBlock block s.crypto with
    | (none, crypto) => ((.idle, { s with crypto }), some block)
    | (some decrypted, crypto) => ((.submitBlock decrypted, { s with crypto }), some block)
  | .submitBlock decrypted =>
    ((.submitConsume,
      s.withConsume (bufQueueSubmit s.consume.queue decrypted) s.consume.pending), none)
  | .submitConsume => ((.testQueue, s.withConsume s.consume.queue true), none)
  | .testQueue => ((if s.decrypt.queue.isEmpty then .idle else .resubmit, s), none)
  | .resubmit => ((.idle, s.withDecrypt s.decrypt.queue true), none)

def decryptingStep (s : Decrypting κ) : DecryptOp → Decrypting κ × Option (Option Buf)
  | .push block => (pushStep s block, none)
  | .transport => (transportStep s, none)
  | .handler =>
    let ((handler, down), argument) := decryptPhaseStep env s.down s.handler
    ({ s with down, handler }, argument)

abbrev decryptingFinal : Decrypting κ → List DecryptOp → Decrypting κ := final (decryptingStep env)

def decryptCalls (s : Decrypting κ) (ops : List DecryptOp) : List (Option Buf) :=
  (outputs (decryptingStep env) s ops).filterMap id

end

section
variable (env : DownlinkEnv κ ι)

/-- Uninterrupted, the two steps of the transport thread are block_downlink_push. -/
theorem blockDownlinkPush_steps (down : Downlink κ) (handler : DecryptPhase) (block : Buf) :
    decryptingFinal env ⟨down, handler, .idle⟩ [.push block, .transport] =
      ⟨blockDownlinkPush down block, handler, .idle⟩ := rfl

/-- Uninterrupted, the steps of the work queue are decrypt_blocks. -/
theorem decryptBlocks_steps (down : Downlink κ) (transport : PushPhase)
    (h : down.decrypt.pending = true) :
    ∃ n, decryptingFinal env ⟨down, .idle, transport⟩ (List.replicate n .handler) =
      ⟨decryptBlocks env down, .idle, transport⟩ := by
  cases he : env.cryptoDecryptBlock down.decrypt.queue.head? down.crypto with
  | mk decrypted crypto =>
    cases decrypted with
    | none =>
      use 3
      simp [List.replicate, decryptingStep, decryptPhaseStep, h, Downlink.withDecrypt,
        bufQueueGet_eq, decryptBlocks, he]
    | some buf =>
      cases hq : down.decrypt.queue.tail with
      | nil =>
        use 6
        simp [List.replicate, decryptingStep, decryptPhaseStep, h, Downlink.withDecrypt,
          Downlink.withConsume, WorkQueue.submit, bufQueueGet_eq, decryptBlocks, he, hq]
      | cons next queue =>
        use 7
        simp [List.replicate, decryptingStep, decryptPhaseStep, h, Downlink.withDecrypt,
          Downlink.withConsume, WorkQueue.submit, bufQueueGet_eq, decryptBlocks, he, hq]

end

/- A step that starts decrypt_blocks while the transport thread still has to submit the block
   it has appended, and there is no other in the queue. -/
def StartsEarly (s : Decrypting κ) (op : DecryptOp) : Prop :=
  op = .handler ∧ s.handler = .idle ∧ s.down.decrypt.pending = true ∧ s.transport = .submit ∧
    s.down.decrypt.queue.length ≤ 1

instance (s : Decrypting κ) (op : DecryptOp) : Decidable (StartsEarly s op) :=
  inferInstanceAs (Decidable (_ ∧ _))

def DecryptPhase.takes : DecryptPhase → Nat
  | .take => 1
  | _ => 0

/- Whoever is going to start the handler again leaves a block for it, beyond the one that
   the handler is about to take. -/
structure Announced (s : Decrypting κ) : Prop where
  found : s.handler ≠ .decrypt none
  takes : s.handler.takes ≤ s.down.decrypt.queue.length
  pending : s.down.decrypt.pending = true → s.handler.takes < s.down.decrypt.queue.length
  transport : s.transport = .submit → s.handler.takes < s.down.decrypt.queue.length
  resubmit : s.handler = .resubmit → 0 < s.down.decrypt.queue.length

theorem Announced.push {s : Decrypting κ} (h : Announced s) (block : Buf) :
    Announced (pushStep s block) := by
  cases ht : s.transport with
  | submit => simpa [pushStep, ht] using h
  | idle =>
    have htakes := h.takes
    have hlt : s.handler.takes < (bufQueueSubmit s.down.decrypt.queue block).length := by
      simp only [bufQueueSubmit, List.length_append, List.length_singleton]
      omega
    simp only [pushStep, ht]
    constructor
    · exact h.found
    · exact hlt.le
    · exact fun _ => hlt
    · exact fun _ => hlt
    · exact fun _ => Nat.zero_lt_of_lt hlt

theorem Announced.submit {s : Decrypting κ} (h : Announced s) : Announced (transportStep s) := by
  cases ht : s.transport with
  | idle => simpa [transportStep, ht] using h
  | submit =>
    simp only [transportStep, ht]
    exact ⟨h.found, h.takes, fun _ => h.transport ht, by simp, h.resubmit⟩

theorem Announced.goesOn {down down' : Downlink κ} {phase phase' : DecryptPhase}
    {transport : PushPhase} (h : Announced ⟨down, phase, transport⟩)
    (hsame : down'.decrypt = down.decrypt) (hfound : phase' ≠ .decrypt none)
    (htakes : phase'.takes ≤ phase.takes)
    (hresubmit : phase' = .resubmit → 0 < down.decrypt.queue.length) :
    Announced ⟨down', phase', transport⟩ := by
  constructor
  · exact hfound
  · simp only [hsame]
    exact htakes.trans h.takes
  · simp only [hsame]
    exact fun hp => htakes.trans_lt (h.pending hp)
  · simp only [hsame]
    exact fun ht => htakes.trans_lt (h.transport ht)
  · simp only [hsame]
    exact hresubmit

section
variable {env : DownlinkEnv κ ι}

theorem Announced.handler {s : Decrypting κ} (h : Announced s) (hearly : ¬ StartsEarly s .handler) :
    Announced (decryptingStep env s .handler).1 := by
  obtain ⟨down, phase, transport⟩ := s
  cases phase with
  | idle =>
    cases hp : down.decrypt.pending with
    | false => simpa [decryptingStep, decryptPhaseStep, hp] using h
    | true =>
      -- the mark is cleared, and the block it stood for is about to be taken
      have hqueue : 0 < down.decrypt.queue.length := h.pending hp
      simp only [decryptingStep, decryptPhaseStep, hp, if_true]
      constructor
      · simp
      · exact hqueue
      · simp [Downlink.withDecrypt]
      · intro ht
        by_contra hlast
        exact hearly ⟨rfl, rfl, hp, ht, Nat.le_of_not_lt hlast⟩
      · simp
  | take =>
    cases hq : down.decrypt.queue with
    | nil =>
      have htakes : 1 ≤ down.decrypt.queue.length := h.takes
      simp [hq] at htakes
    | cons block queue =>
      have hpending : down.decrypt.pending = true → 1 < down.decrypt.queue.length := h.pending
      have htransport : transport = .submit → 1 < down.decrypt.queue.length := h.transport
      simp only [hq, List.length_cons] at hpending htransport
      simp only [decryptingStep, decryptPhaseStep, hq, bufQueueGet, Downlink.withDecrypt]
      constructor
      · simp
      · exact Nat.zero_le _
      · exact fun hp => Nat.lt_of_succ_lt_succ (hpending hp)
      · exact fun ht => Nat.lt_of_succ_lt_succ (htransport ht)
      · simp
  | decrypt block =>
    simp only [decryptingStep, decryptPhaseStep]
    split
    · exact h.goesOn rfl (by simp) le_rfl (by simp)
    · exact h.goesOn rfl (by simp) le_rfl (by simp)
  | submitBlock decrypted => exact h.goesOn rfl (by simp) le_rfl (by simp)
  | submitConsume => exact h.goesOn rfl (by simp) le_rfl (by simp)
  | testQueue =>
    simp only [decryptingStep, decryptPhaseStep]
    split
    · exact h.goesOn rfl (by simp) le_rfl (by simp)
    · rename_i hq
      refine h.goesOn rfl (by simp) le_rfl fun _ => ?_
      exact List.length_pos_iff.mpr (by simpa using hq)
  | resubmit =>
    have hqueue := h.resubmit rfl
    simp only [decryptingStep, decryptPhaseStep]
    exact ⟨by simp, h.takes, fun _ => hqueue, h.transport, by simp⟩

theorem Announced.step {s : Decrypting κ} (op : DecryptOp) (hearly : ¬ StartsEarly s op)
    (h : Announced s) : Announced (decryptingStep env s op).1 := by
  cases op with
  | push block => exact h.push block
  | transport => exact h.submit
  | handler => exact h.handler hearly

theorem decryptingStep_missing {s : Decrypting κ} {op : DecryptOp}
    (h : (decryptingStep env s op).2 = some none) : s.handler = .decrypt none := by
  obtain ⟨down, phase, transport⟩ := s
  cases op with
  | push block => cases h
  | transport => cases h
  | handler =>
    cases phase with
    | decrypt block =>
      simp only [decryptingStep, decryptPhaseStep] at h
      split at h <;> cases h <;> rfl
    | idle =>
      simp only [decryptingStep, decryptPhaseStep] at h
      split at h <;> cases h
    | _ => cases h

/-- As long as no run of the handler starts early, every call gets a block. -/
theorem calls_found {s : Decrypting κ} (h : Announced s) (ops : List DecryptOp)
    (hall : ∀ u op v, ops = u++op :: v → ¬ StartsEarly (decryptingFinal env s u) op) :
    none ∉ decryptCalls env s ops := by
  induction ops generalizing s with
  | nil => simp [decryptCalls]
  | cons op ops ih =>
    rw [forall_steps_cons (decryptingStep env) (Q := fun s op => ¬ StartsEarly s op)] at hall
    intro hmem
    simp only [decryptCalls, outputs_cons, List.mem_filterMap, id_eq, exists_eq_right,
      List.mem_cons] at hmem
    obtain hnow | hlater := hmem
    · exact h.found (decryptingStep_missing hnow.symm)
    · exact ih (h.step op hall.1) hall.2 (by simpa [decryptCalls] using hlater)

end

section
variable (env : DownlinkEnv κ ι)

theorem decryptCalls_append (s : Decrypting κ) (u v : List DecryptOp) :
    decryptCalls env s (u++v) = decryptCalls env s u++decryptCalls env (decryptingFinal env s u) v := by
  simp [decryptCalls, outputs_append]

def decryptRun : List DecryptOp := List.replicate 6 .handler

theorem decryptRun_last (down : Downlink κ) (transport : PushPhase) (block : Buf)
    (h : down.decrypt = ⟨[block], true⟩) :
    (decryptingFinal env ⟨down, .idle, transport⟩ decryptRun).handler = .idle ∧
    (decryptingFinal env ⟨down, .idle, transport⟩ decryptRun).down.decrypt = ⟨[], false⟩ ∧
    (decryptingFinal env ⟨down, .idle, transport⟩ decryptRun).transport = transport := by
  cases he : env.cryptoDecryptBlock (some block) down.crypto with
  | mk decrypted crypto =>
    cases decrypted with
    | none =>
      simp [decryptRun, List.replicate, decryptingStep, decryptPhaseStep, h, Downlink.withDecrypt,
        bufQueueGet, he]
    | some buf =>
      simp [decryptRun, List.replicate, decryptingStep, decryptPhaseStep, h, Downlink.withDecrypt,
        Downlink.withConsume, bufQueueGet, he]

theorem decryptRun_missing (s : Decrypting κ) (hhandler : s.handler = .idle)
    (h : s.down.decrypt = ⟨[], true⟩) : none ∈ decryptCalls env s decryptRun := by
  have hcall : ∀ t : Decrypting κ, t.handler = .decrypt none →
      (decryptingStep env t .handler).2 = some none := by
    intro t ht
    simp only [decryptingStep, decryptPhaseStep, ht]
    split <;> rfl
  have hthird : none ∈ decryptCalls env (decryptingFinal env s [.handler, .handler])
      (List.replicate 4 .handler) := by
    rw [List.replicate_succ, decryptCalls, outputs_cons, hcall]
    · simp
    · simp [decryptingStep, decryptPhaseStep, hhandler, h, Downlink.withDecrypt, bufQueueGet]
  have hsplit : decryptRun = [.handler, .handler]++List.replicate 4 .handler := rfl
  rw [hsplit, decryptCalls_append]
  exact List.mem_append_right _ hthird

/-- From an early start the handler takes the block before it is submitted, and finds none
when it is. -/
theorem startsEarly_missing {s : Decrypting κ} (h : StartsEarly s .handler) :
    none ∈ decryptCalls env s (decryptRun++.transport :: decryptRun) := by
  obtain ⟨down, phase, transport⟩ := s
  obtain ⟨-, rfl, hpending, rfl, hlen⟩ := h
  rw [decryptCalls_append]
  cases hq : down.decrypt.queue with
  | nil =>
    have hdecrypt : down.decrypt = ⟨[], true⟩ := by rw [← hq, ← hpending]
    exact List.mem_append_left _ (decryptRun_missing env _ rfl hdecrypt)
  | cons block queue =>
    have hnil : queue = [] := by simpa [hq] using hlen
    have hdecrypt : down.decrypt = ⟨[block], true⟩ := by rw [← hpending, ← hnil, ← hq]
    obtain ⟨hhandler, hempty, htransport⟩ := decryptRun_last env down .submit block hdecrypt
    apply List.mem_append_right
    have hsubmit : decryptCalls env (decryptingFinal env ⟨down, .idle, .submit⟩ decryptRun)
        (.transport :: decryptRun) =
        decryptCalls env (transportStep (decryptingFinal env ⟨down, .idle, .submit⟩ decryptRun))
          decryptRun := by
      simp [decryptCalls, decryptingStep]
    rw [hsubmit]
    apply decryptRun_missing
    · simp only [transportStep, htransport]
      exact hhandler
    · simp only [transportStep, htransport, Downlink.withDecrypt, hempty]

/-- In a run in which no early start occurs crypto_decrypt_block always gets a block; after
an early start the transport thread and the handler can go on to a call with NULL. -/
theorem decrypt_never_missing (k : κ) :
    (∀ ops, (∀ u op v, ops = u++op :: v → ¬ StartsEarly (decryptingFinal env (.boot k) u) op) →
      none ∉ decryptCalls env (.boot k) ops) ∧
    (∀ u op, StartsEarly (decryptingFinal env (.boot k) u) op →
      ∃ v, none ∈ decryptCalls env (.boot k) (u++op :: v)) := by
  constructor
  · intro ops hall
    have hboot : Announced (Decrypting.boot k) := by
      constructor <;> simp [Decrypting.boot, Downlink.boot, DecryptPhase.takes]
    exact calls_found hboot ops hall
  · intro u op hearly
    obtain ⟨rfl, -⟩ := id hearly
    refine ⟨List.replicate 5 .handler++.transport :: decryptRun, ?_⟩
    rw [decryptCalls_append]
    exact List.mem_append_right _ (startsEarly_missing env hearly)

end

/-- The second block is appended and submitted between the start of the handler and its
look at the queue. -/
theorem decrypt_never_missing_good_run :
    none ∉ decryptCalls openedEnv (.boot openedPouch.crypto)
      ([.push sealedBlock, .transport, .handler, .push sealedBlock, .transport]++decryptRun) := by
  refine (decrypt_never_missing openedEnv openedPouch.crypto).1 _ ?_
  simp only [decryptRun, List.replicate, List.cons_append, List.nil_append]
  iterate 11
    rw [forall_steps_cons (decryptingStep openedEnv) (Q := fun s op => ¬ StartsEarly s op)]
    refine ⟨by decide, ?_⟩
  exact forall_steps_nil (decryptingStep openedEnv) (Q := fun s op => ¬ StartsEarly s op) _

def crossedSchedule : List DecryptOp :=
  [.push sealedBlock, .transport, .handler, .handler, .push sealedBlock]++
    List.replicate 5 .handler++decryptRun++.transport :: decryptRun

theorem decrypt_null_after_crossing :
    decryptCalls openedEnv (.boot openedPouch.crypto) crossedSchedule =
      [some sealedBlock, some sealedBlock, none] ∧
    (decryptingFinal openedEnv (.boot openedPouch.crypto) crossedSchedule).down.consume.queue.length = 2 := by
  decide

end Pouch
