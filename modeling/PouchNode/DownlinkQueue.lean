import PouchNode.Downlink
import PouchNode.Lib.Machine
import PouchNode.Replay

/-! The two queues behind the receiver. Each handler takes one block at a time and has to
submit itself again while there are more; a failed decryption returns before it does. -/
namespace Pouch
open Machine
variable {κ ι : Type*}

inductive PipelineOp where
  | push (block : Buf)
  | decrypt
  | consume

section
variable (env : DownlinkEnv κ ι)

/- A handler only runs when it is pending. The output is the block that a run of
   consume_blocks hands over. -/
def pipelineStep (s : Downlink κ) : PipelineOp → Downlink κ × Option Buf
  | .push block => (blockDownlinkPush s block, none)
  | .decrypt => (if s.decrypt.pending then decryptBlocks env s else s, none)
  | .consume => if s.consume.pending then consumeBlocks s else (s, none)

abbrev pipelineFinal : Downlink κ → List PipelineOp → Downlink κ := final (pipelineStep env)

def DecryptFails (s : Downlink κ) : Prop :=
  (env.cryptoDecryptBlock s.decrypt.queue.head? s.crypto).1 = none

end

structure NotStranded (s : Downlink κ) : Prop where
  decrypt : s.decrypt.queue ≠ [] → s.decrypt.pending = true
  consume : s.consume.queue ≠ [] → s.consume.pending = true

section
variable {env : DownlinkEnv κ ι} {s : Downlink κ}

theorem bufQueueGet_eq (queue : BufQueue) : bufQueueGet queue = (queue.head?, queue.tail) := by
  cases queue with
  | nil => rfl
  | cons b queue => rfl

/-- Everything a run of decrypt_blocks can do to the queues. -/
theorem decryptBlocks_cases (env : DownlinkEnv κ ι) (s : Downlink κ) :
    (DecryptFails env s ∧ (decryptBlocks env s).decrypt = ⟨s.decrypt.queue.tail, false⟩ ∧
      (decryptBlocks env s).consume = s.consume) ∨
    (¬ DecryptFails env s ∧
      (decryptBlocks env s).decrypt = ⟨s.decrypt.queue.tail, !s.decrypt.queue.tail.isEmpty⟩ ∧
      ∃ block, (decryptBlocks env s).consume = s.consume.submit block) := by
  cases he : env.cryptoDecryptBlock s.decrypt.queue.head? s.crypto with
  | mk decrypted crypto =>
    cases decrypted with
    | none =>
      refine Or.inl ⟨by simp [DecryptFails, he], ?_, ?_⟩
      · simp [decryptBlocks, bufQueueGet_eq, he]
      · simp [decryptBlocks, bufQueueGet_eq, he]
    | some block =>
      refine Or.inr ⟨by simp [DecryptFails, he], ?_, block, ?_⟩
      · simp [decryptBlocks, bufQueueGet_eq, he]
      · simp [decryptBlocks, bufQueueGet_eq, he]

theorem consumeBlocks_notStranded (h : NotStranded s) : NotStranded (consumeBlocks s).1 := by
  cases hq : s.consume.queue with
  | nil => exact ⟨by simpa [consumeBlocks, bufQueueGet, hq] using h.decrypt,
      by simp [consumeBlocks, bufQueueGet, hq]⟩
  | cons block queue => exact ⟨by simpa [consumeBlocks, bufQueueGet, hq] using h.decrypt,
      by simp [consumeBlocks, bufQueueGet, hq]⟩

/-- A step keeps every waiting block in reach, unless it is a run of decrypt_blocks that
fails with another block behind the first. -/
theorem pipelineStep_notStranded (h : NotStranded s) (op : PipelineOp) :
    NotStranded (pipelineStep env s op).1 ↔
      (op = .decrypt → s.decrypt.pending = true → DecryptFails env s →
        s.decrypt.queue.length ≤ 1) := by
  cases op with
  | push block =>
    refine iff_of_true ⟨?_, ?_⟩ nofun
    · simp [pipelineStep, blockDownlinkPush, WorkQueue.submit]
    · simpa [pipelineStep, blockDownlinkPush] using h.consume
  | consume =>
    refine iff_of_true ?_ nofun
    cases hp : s.consume.pending with
    | false => simpa [pipelineStep, hp] using h
    | true => simpa [pipelineStep, hp] using consumeBlocks_notStranded h
  | decrypt =>
    cases hp : s.decrypt.pending with
    | false => simpa [pipelineStep, hp] using h
    | true =>
      simp only [pipelineStep, hp, if_true, true_implies]
      cases decryptBlocks_cases env s with
      | inl hr =>
        obtain ⟨hfails, hdecrypt, hconsume⟩ := hr
        have htail : s.decrypt.queue.tail = [] ↔ s.decrypt.queue.length ≤ 1 := by
          rw [← List.length_eq_zero_iff, List.length_tail]
          omega
        constructor
        · intro hok _
          by_contra hlong
          have hpending := hok.decrypt (by simpa [hdecrypt, htail] using hlong)
          simp [hdecrypt] at hpending
        · intro hshort
          refine ⟨?_, by simpa [hconsume] using h.consume⟩
          intro hne
          exact absurd (htail.mpr (hshort hfails)) (by simpa [hdecrypt] using hne)
      | inr hr =>
        obtain ⟨hok, hdecrypt, block, hconsume⟩ := hr
        refine iff_of_true ⟨?_, ?_⟩ fun hfails => absurd hfails hok
        · simp [hdecrypt]
        · simp [hconsume, WorkQueue.submit]

end

/-- In every run, no block is stranded in any state reached, exactly if no run of
decrypt_blocks fails while another block waits behind the one it takes. -/
theorem not_stranded_iff (env : DownlinkEnv κ ι) (s : Downlink κ)
    (hdecrypt : s.decrypt = ⟨[], false⟩) (hconsume : s.consume = ⟨[], false⟩)
    (ops : List PipelineOp) :
    (∀ u v, ops = u++v → NotStranded (pipelineFinal env s u)) ↔
      ∀ u v, ops = u++.decrypt :: v → (pipelineFinal env s u).decrypt.pending = true →
        DecryptFails env (pipelineFinal env s u) →
        (pipelineFinal env s u).decrypt.queue.length ≤ 1 := by
  have hall := throughout_iff (pipelineStep env) (I := fun _ => True) (P := NotStranded)
    (A := fun _ _ => True) (fun _ _ _ h => h) (fun _ op _ _ h => pipelineStep_notStranded h op)
    s trivial ⟨by simp [hdecrypt], by simp [hconsume]⟩ ops (fun _ _ _ _ => trivial)
  rw [hall]
  constructor
  · intro h u v hsplit
    exact h u .decrypt v hsplit rfl
  · intro h u op v hsplit hop
    subst hop
    exact h u v hsplit

def openedEnv : DownlinkEnv Saead EncryptionInfo where
  cborDecodePouchHeader _ := none
  cryptoDownlinkStart info s := cryptoDownlinkStart saeadConfig keysWork s info
  cryptoDecryptBlock block s :=
    match block with
    | none => (none, s)
    | some b => saeadDownlinkBlockDecrypt saeadConfig opens s b
  bufAlloc _ := true
def openedPouch : Downlink Saead :=
  ⟨some [], true, ⟨[], false⟩, ⟨[], false⟩,
    saeadFinal saeadConfig .boot [serverHeader serverRandom 3], 0⟩

theorem not_stranded_good_block :
    NotStranded (pipelineFinal openedEnv openedPouch [.push sealedBlock, .decrypt, .consume]) := by
  refine (not_stranded_iff openedEnv openedPouch rfl rfl
    [.push sealedBlock, .decrypt, .consume]).mpr ?_ _ [] rfl
  intro u v hsplit
  cases u with
  | nil => cases hsplit
  | cons first u =>
    cases u with
    | nil =>
      cases hsplit
      exact fun _ _ => le_refl 1
    | cons second u =>
      cases u with
      | nil => cases hsplit
      | cons third u => simp at hsplit

/-- A block that is too short to hold a tag is followed by a good one. -/
theorem block_stranded_behind_bad_one :
    ¬ NotStranded (pipelineFinal openedEnv openedPouch
      [.push [0, 5, 1, 2, 3, 4, 5], .push sealedBlock, .decrypt]) := by
  intro h
  exact absurd (h.decrypt (by decide)) (by decide)

end Pouch
