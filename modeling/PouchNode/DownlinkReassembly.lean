import PouchNode.Lib.PrefixFree
import PouchNode.DownlinkStream

/-! Main results about the receiver: no byte is lost, duplicated or reordered, and the
blocks come out whole; but a pass hands over one block only, so a stream is reassembled
alike under every cut only if its last two blocks do not fit into the buffer together. -/
namespace Pouch
open Octets
variable {κ ι : Type*} {cfg : Config} {env : DownlinkEnv κ ι} {header : Buf}

/-- After every pass of every call the accepted bytes are, in order, the header, the
blocks handed over and the buffer; every pass takes a byte and always finds room for
it, so each call uses up its input. -/
theorem push_conserves_bytes (s : Downlink κ) (body : Buf) (chunks : List Buf)
    (hv : ValidHeader env s.crypto header)
    (hlen : header.length ≤ cfg.maxCiphertextBlockSize)
    (ha : ∀ n, env.bufAlloc n = true) (hstream : chunks.flatten = header++body)
    (hsize : ∀ p ∈ downlinkPasses cfg env (pouchDownlinkStart env s) chunks,
      p.exit ≠ some .badBlockSize) :
    accepted (downlinkPasses cfg env (pouchDownlinkStart env s) chunks) = chunks.flatten ∧
    ∀ pre p post, downlinkPasses cfg env (pouchDownlinkStart env s) chunks = pre++p :: post →
      p.taken ≠ [] ∧ p.exit ≠ some .noSpace ∧ p.exit ≠ some .noBuf ∧
      (∃ buf, ((pouchDownlinkStart env s).after pre).pouchBuf = some buf ∧
        (buf++p.taken).length ≤ cfg.maxCiphertextBlockSize) ∧
      ∃ buf sub, p.state.pouchBuf = some buf ∧ buf.length ≤ cfg.maxCiphertextBlockSize ∧
        p.state.decrypt.queue = s.decrypt.queue++sub ∧
        (∀ b ∈ sub, b.length = 2 + getBe16 b) ∧
        (p.state.pouchHeader = true ↔ header.length ≤ (accepted (pre++[p])).length) ∧
        (p.state.pouchHeader = true → buf.length < cfg.maxCiphertextBlockSize ∧
          sub.flatten++buf = (accepted (pre++[p])).drop header.length) := by
  have hstart := pouchDownlinkStart_received cfg s hv ha
  have hpre : []++chunks.flatten <+: header++body := by simp [hstream]
  rcases downlinkPasses_received chunks hv hlen ha hstart hpre with ⟨p, hmem, hm⟩ | ⟨hok, hacc, -⟩
  · exact absurd hm.1 (hsize p hmem)
  refine ⟨hacc, fun pre p post hsplit => ?_⟩
  rw [hsplit] at hok
  have hp := hok.at
  have hexit : p.exit ≠ some .noSpace ∧ p.exit ≠ some .noBuf := by
    rcases hp.exit with h | ⟨h, -⟩ <;> simp [h]
  refine ⟨hp.taken_ne_nil, hexit.1, hexit.2, hp.capacity, ?_⟩
  have hrec := hp.received
  have hacc' : []++accepted pre++p.taken = accepted (pre++[p]) := by simp [accepted]
  rw [hacc'] at hrec
  generalize accepted (pre++[p]) = acc at hrec
  generalize p.state = t at hrec
  cases hrec with
  | header hl hh hb hq hk =>
    exact ⟨acc, [], hb, by omega, by simpa using hq, by simp, by simp [hh]; omega, by simp [hh]⟩
  | blocks sub r hsub hr ho hh hb hq =>
    refine ⟨back r, sub++front r, hb, (length_back_lt hr ho).le, hq, ?_, by simp [hh], ?_⟩
    · intro b hmem
      rcases List.mem_append.mp hmem with h | h
      · exact hsub b h
      · exact isBlock_of_mem_front h
    · intro _
      refine ⟨length_back_lt hr ho, ?_⟩
      rw [List.drop_left, List.flatten_append, List.append_assoc, front_flatten_back]

def plainConfig : Config := .ofLog 9 .none
def plainHeader : Buf := [0x82, 0x01, 0x82, 0x00, 0x61, 0x61]
def plainEnv : DownlinkEnv Unit Unit where
  cborDecodePouchHeader raw :=
    if plainHeader.isPrefixOf raw then some ((), plainHeader.length) else none
  cryptoDownlinkStart _ k := (.ok, k)
  cryptoDecryptBlock block k := (block, k)
  bufAlloc _ := true
def plainBoot : Downlink Unit := ⟨none, false, ⟨[], false⟩, ⟨[], false⟩, (), 0⟩

theorem plainHeader_valid (k : Unit) : ValidHeader plainEnv k plainHeader where
  ne_nil := by decide
  short p hp hne := by
    have hno : ¬ plainHeader <+: p := fun h =>
      hne (hp.eq_of_length (Nat.le_antisymm hp.length_le h.length_le))
    simp [plainEnv, hno]
  full := ⟨(), by simp [plainEnv], rfl⟩

theorem push_conserves_bytes_plain :
    accepted (downlinkPasses plainConfig plainEnv (pouchDownlinkStart plainEnv plainBoot)
      [plainHeader++[0], [1, 0xC0, 0], [2, 0xC0]]) = plainHeader++[0, 1, 0xC0, 0, 2, 0xC0] :=
  (push_conserves_bytes plainBoot [0, 1, 0xC0, 0, 2, 0xC0]
    [plainHeader++[0], [1, 0xC0, 0], [2, 0xC0]] (plainHeader_valid ()) (by decide)
    (fun _ => rfl) rfl (by decide)).1

structure WellFormedBlock (cfg : Config) (b : Buf) : Prop where
  isBlock : IsBlock b
  pos : 1 ≤ getBe16 b
  le : getBe16 b ≤ cfg.maxBlockSizeFieldValue

theorem isBlock_code : PrefixFree.Code IsBlock where
  ne_nil b h he := by
    simp only [IsBlock, he, List.length_nil] at h
    omega
  unique b c x y hb hc he := by
    unfold IsBlock at hb hc
    have hf : getBe16 b = getBe16 c := by
      rw [← getBe16_append b x (by omega), ← getBe16_append c y (by omega), he]
    exact (List.append_inj he (by omega)).1

theorem WellFormedBlock.ready {b : Buf} (h : WellFormedBlock cfg b) (t : Buf) :
    Ready (b++t) ∧ getBe16 (b++t) = getBe16 b ∧ ¬ Oversize cfg (b++t) := by
  have hb := h.isBlock
  have hp := h.pos
  have hl := h.le
  unfold IsBlock at hb
  have hf : getBe16 (b++t) = getBe16 b := getBe16_append b t (by omega)
  refine ⟨⟨?_, ?_⟩, hf, ?_⟩
  · rw [List.length_append]
    omega
  · rw [hf, List.length_append]
    omega
  · rintro ⟨-, ho⟩
    omega

theorem WellFormedBlock.front_back {b : Buf} (h : WellFormedBlock cfg b) (t : Buf) :
    front (b++t) = [b] ∧ back (b++t) = t := by
  obtain ⟨hr, hf, -⟩ := h.ready t
  have hl : 2 + getBe16 (b++t) = b.length := by rw [hf]; exact h.isBlock.symm
  simp [front, back, hr, hl]

/-- A stream of well-formed blocks never shows the parser an oversized field. -/
theorem not_meetsOversize {blocks : List Buf} (hw : ∀ b ∈ blocks, WellFormedBlock cfg b)
    (p : Pass κ) : ¬ MeetsOversize cfg blocks.flatten p := by
  rintro ⟨-, sub, t, hsub, ⟨rest, hpre⟩, ho⟩
  rw [List.append_assoc] at hpre
  obtain ⟨later, hl, ht⟩ := isBlock_code.split hsub (fun b hb => (hw b hb).isBlock) hpre
  cases later with
  | nil =>
    simp only [List.flatten_nil, List.append_eq_nil_iff] at ht
    simp [Oversize, ht.1] at ho
  | cons b later =>
    have hb := hw b (by simp [hl])
    obtain ⟨ho2, hog⟩ := ho
    have hg : getBe16 t = getBe16 b := by
      rw [← getBe16_append t rest (by omega), ht, List.flatten_cons]
      exact (hb.ready later.flatten).2.1
    have hle := hb.le
    omega

def Reassembles (cfg : Config) (env : DownlinkEnv κ ι) (s : Downlink κ) (header : Buf)
    (blocks : List Buf) : Prop :=
  ∀ chunks : List Buf, chunks.flatten = header++blocks.flatten →
    (pouchDownlinkPushAll cfg env (pouchDownlinkStart env s) chunks).decrypt.queue =
      s.decrypt.queue++blocks

def LastPairExceeds (cfg : Config) (blocks : List Buf) : Prop :=
  ∀ pre b c, blocks = pre++[b, c] → cfg.maxCiphertextBlockSize < b.length + c.length

/-- The state at the end of a stream: everything before the last pass has been handed
over, and of the blocks cs the last pass saw, the first one. -/
theorem pushAll_end {s : Downlink κ} {blocks chunks : List Buf}
    (hv : ValidHeader env s.crypto header)
    (hlen : header.length ≤ cfg.maxCiphertextBlockSize) (ha : ∀ n, env.bufAlloc n = true)
    (hw : ∀ b ∈ blocks, WellFormedBlock cfg b)
    (hc : chunks.flatten = header++blocks.flatten) :
    ∃ done cs, blocks = done++cs ∧ cs.flatten.length ≤ cfg.maxCiphertextBlockSize ∧
      (pouchDownlinkPushAll cfg env (pouchDownlinkStart env s) chunks).pouchHeader = true ∧
      (pouchDownlinkPushAll cfg env (pouchDownlinkStart env s) chunks).pouchBuf =
        some cs.tail.flatten ∧
      (pouchDownlinkPushAll cfg env (pouchDownlinkStart env s) chunks).decrypt.queue =
        s.decrypt.queue++(done++cs.take 1) := by
  have hstart := pouchDownlinkStart_received cfg s hv ha
  have hpre : []++chunks.flatten <+: header++blocks.flatten := by simp [hc]
  rcases downlinkPasses_received chunks hv hlen ha hstart hpre with ⟨p, -, hm⟩ | ⟨-, -, hrec⟩
  · exact absurd hm (not_meetsOversize hw p)
  rw [hc, List.nil_append] at hrec
  generalize pouchDownlinkPushAll cfg env (pouchDownlinkStart env s) chunks = e at hrec ⊢
  generalize hacc : header++blocks.flatten = acc at hrec
  cases hrec with
  | header hl =>
    rw [← hacc, List.length_append] at hl
    omega
  | blocks sub t hsub ht ho hh hb hq =>
    have hflat := List.append_cancel_left hacc
    obtain ⟨cs, hcs, hts⟩ := isBlock_code.split hsub (fun b hb => (hw b hb).isBlock) hflat.symm
    refine ⟨sub, cs, hcs, hts ▸ ht, hh, ?_⟩
    subst hts
    cases cs with
    | nil => exact ⟨by simp [hb, back, Ready], by simp [hq, front, Ready]⟩
    | cons b cs =>
      have hwb := (hw b (by simp [hcs])).front_back cs.flatten
      rw [List.flatten_cons, hwb.1] at hq
      rw [List.flatten_cons, hwb.2] at hb
      exact ⟨by simpa using hb, by simpa using hq⟩

theorem pouchDownlinkPush_single (env : DownlinkEnv κ ι) {s : Downlink κ} {c : Buf} (hh : s.pouchHeader = true)
    (hb : s.pouchBuf = some []) (hc : c ≠ []) (hlen : c.length ≤ cfg.maxCiphertextBlockSize) :
    pouchDownlinkPush cfg env s c = (pushBlock cfg env s c).1 := by
  have hpos := List.length_pos_iff.mpr hc
  have hroom : room cfg [] c = c := by
    rw [room, List.length_nil]
    exact List.take_of_length_le (by omega)
  have hempty : ([] : Buf).length < cfg.maxCiphertextBlockSize := by
    rw [List.length_nil]
    omega
  have hpass := pushPass_blocks env c hb hh hempty
  rw [hroom, List.drop_length, List.nil_append] at hpass
  cases c with
  | nil => exact absurd rfl hc
  | cons x xs =>
    simp only [pouchDownlinkPush, List.length_cons, pushPasses, hpass]
    cases (pushBlock cfg env s (x :: xs)).2 <;> simp [Downlink.after]

theorem pushAll_one_each {s : Downlink κ} (blocks : List Buf) (ha : ∀ n, env.bufAlloc n = true)
    (hw : ∀ b ∈ blocks, WellFormedBlock cfg b) (hh : s.pouchHeader = true)
    (hb : s.pouchBuf = some []) :
    (pouchDownlinkPushAll cfg env s blocks).pouchHeader = true ∧
      (pouchDownlinkPushAll cfg env s blocks).pouchBuf = some [] ∧
      (pouchDownlinkPushAll cfg env s blocks).decrypt.queue = s.decrypt.queue++blocks := by
  induction blocks generalizing s with
  | nil => exact ⟨hh, hb, by simp [pouchDownlinkPushAll]⟩
  | cons b bs ih =>
    have hwb := hw b (by simp)
    have hle : b.length ≤ cfg.maxCiphertextBlockSize := by
      have h1 := hwb.isBlock
      have h2 := hwb.le
      have h3 := cfg.four_le_maxCiphertextBlockSize
      unfold IsBlock at h1
      unfold Config.maxBlockSizeFieldValue at h2
      omega
    have hr := hwb.ready []
    have hl : 2 + getBe16 b = b.length := hwb.isBlock.symm
    rw [List.append_nil] at hr
    have hstep := pouchDownlinkPush_single env hh hb (isBlock_code.ne_nil b hwb.isBlock) hle
    rw [pushBlock_eq env s hle (ha _), if_neg hr.2.2, if_pos hr.1, hl, List.drop_length,
      List.take_length] at hstep
    have htail := ih (s := pouchDownlinkPush cfg env s b) (fun c hc => hw c (by simp [hc]))
      (by rw [hstep]; exact hh) (by rw [hstep])
    refine ⟨htail.1, htail.2.1, htail.2.2.trans ?_⟩
    simp [hstep, WorkQueue.submit, bufQueueSubmit]

/-- The receiver reassembles a stream under every cut exactly if the last two blocks do
not fit into its buffer together: a call that ends with two complete blocks in the
buffer hands over the first one only, and nothing looks at the buffer again. -/
theorem reassembles_iff (s : Downlink κ) (blocks : List Buf)
    (hv : ValidHeader env s.crypto header)
    (hlen : header.length ≤ cfg.maxCiphertextBlockSize) (ha : ∀ n, env.bufAlloc n = true)
    (hw : ∀ b ∈ blocks, WellFormedBlock cfg b) :
    Reassembles cfg env s header blocks ↔ LastPairExceeds cfg blocks := by
  constructor
  · intro h pre b c hsplit
    by_contra hfit
    subst hsplit
    -- the header, then one block a chunk, then the last two in one chunk
    have hcut := h (([header]++pre)++[b++c]) (by simp)
    have hcut0 : [header].flatten = header++([] : List Buf).flatten := by simp
    obtain ⟨done, cs, hnil, -, hh, hb, hq⟩ := pushAll_end hv hlen ha (by simp) hcut0
    obtain ⟨rfl, rfl⟩ := List.append_eq_nil_iff.mp hnil.symm
    have hpre := pushAll_one_each pre ha (fun b hb => hw b (by simp [hb])) hh hb
    rw [hq] at hpre
    have hwb := hw b (by simp)
    have hr := hwb.ready c
    have hl : 2 + getBe16 (b++c) = b.length := by rw [hr.2.1]; exact hwb.isBlock.symm
    have hfit' : (b++c).length ≤ cfg.maxCiphertextBlockSize := by
      rw [List.length_append]
      omega
    have hlast := pouchDownlinkPush_single env hpre.1 hpre.2.1
      (by simp [isBlock_code.ne_nil b hwb.isBlock]) hfit'
    rw [pushBlock_eq env _ hfit' (ha _), if_neg hr.2.2, if_pos hr.1, hl,
      List.take_left, List.drop_left] at hlast
    simp only [pouchDownlinkPushAll, List.foldl_append, List.foldl_cons, List.foldl_nil]
      at hcut hpre hlast
    rw [hlast] at hcut
    simp [WorkQueue.submit, bufQueueSubmit, hpre.2.2] at hcut
  · intro hlast chunks hc
    obtain ⟨done, cs, hcs, hfit, -, -, hq⟩ := pushAll_end hv hlen ha hw hc
    rw [hq]
    suffices hone : cs.take 1 = cs by rw [hone, hcs]
    by_contra hmany
    have htwo : 2 ≤ cs.length := by
      by_contra hshort
      exact hmany (List.take_of_length_le (by omega))
    obtain ⟨rest, b, c, rfl⟩ : ∃ rest b c, cs = rest++[b, c] := by
      rcases List.eq_nil_or_concat' cs with rfl | ⟨u, c, rfl⟩
      · simp at htwo
      · rcases List.eq_nil_or_concat' u with rfl | ⟨v, b, rfl⟩
        · simp at htwo
        · exact ⟨v, b, c, by simp⟩
    have hex := hlast (done++rest) b c (by rw [hcs]; simp)
    simp only [List.flatten_append, List.length_append, List.flatten_cons, List.flatten_nil,
      List.append_nil] at hfit
    omega

theorem reassembles_one_block :
    Reassembles plainConfig plainEnv plainBoot plainHeader [[0, 1, 0xC0]] := by
  refine (reassembles_iff plainBoot [[0, 1, 0xC0]] (plainHeader_valid ()) (by decide)
    (fun _ => rfl) ?_).mpr ?_
  · intro b hb
    obtain rfl := List.mem_singleton.mp hb
    exact ⟨by decide, by decide, by decide⟩
  · intro pre b c h
    have hl := congrArg List.length h
    simp at hl

/-- Two short blocks in the chunk that brings the header: the second one stays behind. -/
theorem reassembles_two_blocks_false :
    (pouchDownlinkPushAll plainConfig plainEnv (pouchDownlinkStart plainEnv plainBoot)
      [plainHeader++[0, 1, 0xC0]++[0, 2, 0xC0, 7]]).decrypt.queue = [[0, 1, 0xC0]] ∧
    ¬ Reassembles plainConfig plainEnv plainBoot plainHeader [[0, 1, 0xC0], [0, 2, 0xC0, 7]] := by
  have hrun : (pouchDownlinkPushAll plainConfig plainEnv (pouchDownlinkStart plainEnv plainBoot)
      [plainHeader++[0, 1, 0xC0]++[0, 2, 0xC0, 7]]).decrypt.queue = [[0, 1, 0xC0]] := by
    decide
  refine ⟨hrun, fun h => ?_⟩
  have hc := h [plainHeader++[0, 1, 0xC0]++[0, 2, 0xC0, 7]] rfl
  rw [hrun] at hc
  exact absurd hc (by decide)

end Pouch
