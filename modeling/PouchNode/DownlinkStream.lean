import PouchNode.DownlinkPass

/-! The receiver over whole streams. The invariant describes the state by the bytes
accepted so far alone: before the header is complete they are the buffer, afterwards
they are the header, whole blocks already handed over, and the rest t of the last pass,
whose first block (if complete) has been handed over as well. -/
namespace Pouch
open Octets
variable {κ ι : Type*} {cfg : Config} {env : DownlinkEnv κ ι}

structure ValidHeader (env : DownlinkEnv κ ι) (k : κ) (header : Buf) : Prop where
  ne_nil : header ≠ []
  short : ∀ p, p <+: header → p ≠ header → env.cborDecodePouchHeader p = none
  full : ∃ info, (∀ t, env.cborDecodePouchHeader (header++t) = some (info, header.length)) ∧
    (env.cryptoDownlinkStart info k).1 = .ok

def front (t : Buf) : List Buf := if Ready t then [t.take (2 + getBe16 t)] else []
def back (t : Buf) : Buf := if Ready t then t.drop (2 + getBe16 t) else t

theorem front_flatten_back (t : Buf) : (front t).flatten++back t = t := by
  unfold front back
  split <;> simp

theorem isBlock_of_mem_front {t b : Buf} (h : b ∈ front t) : IsBlock b := by
  unfold front at h
  split at h
  · rename_i hr
    rw [List.mem_singleton.mp h]
    exact isBlock_take hr
  · simp at h

/-- A full buffer always holds a complete block. -/
theorem length_back_lt {t : Buf} (ht : t.length ≤ cfg.maxCiphertextBlockSize)
    (ho : ¬ Oversize cfg t) : (back t).length < cfg.maxCiphertextBlockSize := by
  have hc := cfg.four_le_maxCiphertextBlockSize
  unfold back
  split
  · rw [List.length_drop]
    omega
  · rename_i hr
    simp only [Oversize, Ready, Config.maxBlockSizeFieldValue] at ho hr
    omega

inductive Received (cfg : Config) (header : Buf) (k : κ) (q : BufQueue) :
    Buf → Downlink κ → Prop where
  | header {s : Downlink κ} {acc : Buf} (hlen : acc.length < header.length)
      (hh : s.pouchHeader = false) (hb : s.pouchBuf = some acc)
      (hq : s.decrypt.queue = q) (hk : s.crypto = k) : Received cfg header k q acc s
  | blocks {s : Downlink κ} (sub : List Buf) (t : Buf) (hsub : ∀ b ∈ sub, IsBlock b)
      (ht : t.length ≤ cfg.maxCiphertextBlockSize) (ho : ¬ Oversize cfg t)
      (hh : s.pouchHeader = true) (hb : s.pouchBuf = some (back t))
      (hq : s.decrypt.queue = q++(sub++front t)) :
      Received cfg header k q (header++(sub.flatten++t)) s

theorem pushBlock_received (header : Buf) (k : κ) {q : BufQueue} {s : Downlink κ}
    {sub : List Buf} {t : Buf} (ha : ∀ n, env.bufAlloc n = true)
    (hsub : ∀ b ∈ sub, IsBlock b) (ht : t.length ≤ cfg.maxCiphertextBlockSize)
    (hh : s.pouchHeader = true) (hq : s.decrypt.queue = q++sub) (ho : ¬ Oversize cfg t) :
    (pushBlock cfg env s t).2 = none ∧
      Received cfg header k q (header++(sub.flatten++t)) (pushBlock cfg env s t).1 := by
  rw [pushBlock_eq env s ht (ha _), if_neg ho]
  by_cases hr : Ready t
  · rw [if_pos hr]
    exact ⟨rfl, .blocks sub t hsub ht ho hh (by simp [back, hr])
      (by simp [front, hr, WorkQueue.submit, bufQueueSubmit, hq])⟩
  · rw [if_neg hr]
    exact ⟨rfl, .blocks sub t hsub ht ho hh (by simp [back, hr]) (by simp [front, hr, hq])⟩

def MeetsOversize (cfg : Config) (body : Buf) (p : Pass κ) : Prop :=
  p.exit = some .badBlockSize ∧
    ∃ (sub : List Buf) (t : Buf), (∀ b ∈ sub, IsBlock b) ∧ sub.flatten++t <+: body ∧
      Oversize cfg t

structure PassOk (cfg : Config) (header : Buf) (k : κ) (q : BufQueue) (acc : Buf)
    (s : Downlink κ) (p : Pass κ) : Prop where
  taken_ne_nil : p.taken ≠ []
  capacity : ∃ buf, s.pouchBuf = some buf ∧ (buf++p.taken).length ≤ cfg.maxCiphertextBlockSize
  received : Received cfg header k q (acc++p.taken) p.state
  exit : p.exit = none ∨ p.exit = some .badHeader ∧ p.rest = []

section
variable {header body : Buf} {k : κ} {q : BufQueue}

theorem room_ne_nil {buf input : Buf} (hb : buf.length < cfg.maxCiphertextBlockSize)
    (hi : input ≠ []) : room cfg buf input ≠ [] := by
  have h := List.length_pos_iff.mpr hi
  rw [← List.length_pos_iff, room, List.length_take]
  omega

theorem pushPass_header_ok {acc : Buf} {s : Downlink κ} {input : Buf}
    (hv : ValidHeader env k header) (hlen : header.length ≤ cfg.maxCiphertextBlockSize)
    (ha : ∀ n, env.bufAlloc n = true) (hacc : acc.length < header.length)
    (hh : s.pouchHeader = false) (hb : s.pouchBuf = some acc) (hq : s.decrypt.queue = q)
    (hk : s.crypto = k) (hi : input ≠ []) (hc : acc++input <+: header++body) :
    MeetsOversize cfg body (pushPass cfg env s input) ∨
      PassOk cfg header k q acc s (pushPass cfg env s input) := by
  have hroom := room_append_drop cfg acc input
  have hcap := length_append_room input (by omega : acc.length ≤ cfg.maxCiphertextBlockSize)
  have hpre : acc++room cfg acc input <+: header++body := by
    refine List.IsPrefix.trans ?_ hc
    conv_rhs => rw [← hroom, ← List.append_assoc]
    exact List.prefix_append _ _
  obtain ⟨info, hdec, hok⟩ := hv.full
  rw [pushPass_header env input hb hh (by omega)]
  by_cases hshort : (acc++room cfg acc input).length < header.length
  · -- the header is still incomplete: the decoder refuses it and the call is over
    have hp : acc++room cfg acc input <+: header :=
      List.prefix_of_prefix_length_le hpre (List.prefix_append _ _) hshort.le
    have hnone := hv.short _ hp (fun he => by rw [he] at hshort; exact lt_irrefl _ hshort)
    rw [hnone]
    refine Or.inr ⟨room_ne_nil (by omega) hi, ⟨acc, hb, hcap⟩, ?_, Or.inr ⟨rfl, ?_⟩⟩
    · exact .header hshort hh rfl hq hk
    · simp only [room, List.length_append, List.length_take] at hshort
      apply List.drop_eq_nil_of_le
      rw [room, List.length_take]
      omega
  · obtain ⟨t, ht⟩ : header <+: acc++room cfg acc input :=
      List.prefix_of_prefix_length_le (List.prefix_append _ _) hpre (by omega)
    have htlen : t.length ≤ cfg.maxCiphertextBlockSize := by
      rw [← ht, List.length_append] at hcap
      omega
    have htb : t <+: body := by
      rw [← ht] at hpre
      exact (List.prefix_append_right_inj header).mp hpre
    rw [← ht, hdec t]
    cases hcr : env.cryptoDownlinkStart info s.crypto with
    | mk ret crypto =>
      have hret : ret = .ok := by rw [hk] at hcr; rw [hcr] at hok; exact hok
      subst hret
      simp only [hcr, List.drop_left]
      by_cases ho : Oversize cfg t
      · left
        refine ⟨?_, [], t, by simp, by simpa using htb, ho⟩
        simp only [pushBlock_eq env _ htlen (ha _), if_pos ho]
      · right
        have hq' : s.decrypt.queue = q++[] := by simpa using hq
        have hr := pushBlock_received (s := { s with pouchHeader := true, crypto }) header k ha
          (by simp) htlen rfl hq' ho
        refine ⟨room_ne_nil (by omega) hi, ⟨acc, hb, hcap⟩, ?_, Or.inl hr.1⟩
        simpa [ht] using hr.2

theorem pushPass_blocks_ok {sub : List Buf} {t : Buf} {s : Downlink κ} {input : Buf}
    (ha : ∀ n, env.bufAlloc n = true) (hsub : ∀ b ∈ sub, IsBlock b)
    (htl : t.length ≤ cfg.maxCiphertextBlockSize) (ho : ¬ Oversize cfg t)
    (hh : s.pouchHeader = true) (hb : s.pouchBuf = some (back t))
    (hq : s.decrypt.queue = q++(sub++front t)) (hi : input ≠ [])
    (hc : header++(sub.flatten++t)++input <+: header++body) :
    MeetsOversize cfg body (pushPass cfg env s input) ∨
      PassOk cfg header k q (header++(sub.flatten++t)) s (pushPass cfg env s input) := by
  have hlt := length_back_lt htl ho
  have hroom := room_append_drop cfg (back t) input
  have hcap := length_append_room input hlt.le
  have hsub' : ∀ b ∈ sub++front t, IsBlock b := by
    intro b hm
    rcases List.mem_append.mp hm with hm | hm
    · exact hsub b hm
    · exact isBlock_of_mem_front hm
  -- the handed-over blocks now include the front of t, the buffer is its back
  have hflat : (sub++front t).flatten++(back t++room cfg (back t) input) =
      sub.flatten++t++room cfg (back t) input := by
    calc
      _ = sub.flatten++((front t).flatten++back t)++room cfg (back t) input := by
        simp [List.append_assoc]
      _ = _ := by rw [front_flatten_back]
  rw [pushPass_blocks env input hb hh hlt]
  by_cases hov : Oversize cfg (back t++room cfg (back t) input)
  · left
    refine ⟨?_, sub++front t, _, hsub', ?_, hov⟩
    · simp only [pushBlock_eq env _ hcap (ha _), if_pos hov]
    · rw [hflat]
      have hp : sub.flatten++t++input <+: body := by
        rw [List.append_assoc] at hc
        exact (List.prefix_append_right_inj header).mp hc
      refine List.IsPrefix.trans ?_ hp
      conv_rhs => rw [← hroom, ← List.append_assoc]
      exact List.prefix_append _ _
  · right
    have hr := pushBlock_received header k ha hsub' hcap hh hq hov
    refine ⟨room_ne_nil hlt hi, ⟨back t, hb, hcap⟩, ?_, Or.inl hr.1⟩
    have h2 := hr.2
    rw [hflat] at h2
    simpa [List.append_assoc] using h2

/-- One pass keeps the invariant, unless it meets an oversized field. -/
theorem pushPass_received {acc : Buf} {s : Downlink κ} {input : Buf}
    (hv : ValidHeader env k header) (hlen : header.length ≤ cfg.maxCiphertextBlockSize)
    (ha : ∀ n, env.bufAlloc n = true) (hr : Received cfg header k q acc s)
    (hi : input ≠ []) (hc : acc++input <+: header++body) :
    MeetsOversize cfg body (pushPass cfg env s input) ∨
      PassOk cfg header k q acc s (pushPass cfg env s input) := by
  cases hr with
  | header hl hh hb hq hk => exact pushPass_header_ok hv hlen ha hl hh hb hq hk hi hc
  | blocks sub t hsub ht ho hh hb hq => exact pushPass_blocks_ok ha hsub ht ho hh hb hq hi hc

def PassesOk (cfg : Config) (header : Buf) (k : κ) (q : BufQueue) :
    Buf → Downlink κ → List (Pass κ) → Prop
  | _, _, [] => True
  | acc, s, p :: ps => PassOk cfg header k q acc s p ∧
      PassesOk cfg header k q (acc++p.taken) p.state ps

def accepted (ps : List (Pass κ)) : Buf := ps.flatMap Pass.taken

theorem accepted_append (ps qs : List (Pass κ)) :
    accepted (ps++qs) = accepted ps++accepted qs := by
  simp [accepted]

theorem Downlink.after_append (s : Downlink κ) (ps qs : List (Pass κ)) :
    s.after (ps++qs) = (s.after ps).after qs := by
  cases qs using List.reverseRecOn with
  | nil => simp [Downlink.after]
  | append_singleton qs p => simp [Downlink.after, ← List.append_assoc]

@[simp] theorem Downlink.after_cons (s : Downlink κ) (p : Pass κ) (ps : List (Pass κ)) :
    s.after (p :: ps) = p.state.after ps :=
  Downlink.after_append s [p] ps

theorem PassesOk.append {acc : Buf} {s : Downlink κ} {ps qs : List (Pass κ)}
    (hp : PassesOk cfg header k q acc s ps)
    (hq : PassesOk cfg header k q (acc++accepted ps) (s.after ps) qs) :
    PassesOk cfg header k q acc s (ps++qs) := by
  induction ps generalizing acc s with
  | nil => simpa [accepted, Downlink.after] using hq
  | cons p ps ih => exact ⟨hp.1, ih hp.2 (by simpa [accepted, List.append_assoc] using hq)⟩

theorem PassesOk.at {acc : Buf} {s : Downlink κ} {pre post : List (Pass κ)} {p : Pass κ}
    (h : PassesOk cfg header k q acc s (pre++p :: post)) :
    PassOk cfg header k q (acc++accepted pre) (s.after pre) p := by
  induction pre generalizing acc s with
  | nil => simpa [accepted, Downlink.after] using h.1
  | cons r pre ih => simpa [accepted, List.append_assoc] using ih h.2

theorem pushPass_taken_append_rest (cfg : Config) (env : DownlinkEnv κ ι) (s : Downlink κ) (input : Buf) :
    (pushPass cfg env s input).taken++(pushPass cfg env s input).rest = input := by
  unfold pushPass
  split
  · rfl
  · dsimp only
    split_ifs
    · rfl
    · exact List.take_append_drop _ _
    · split <;> exact List.take_append_drop _ _

@[simp] theorem pushPasses_nil (fuel : Nat) (s : Downlink κ) :
    pushPasses cfg env fuel s [] = [] := by
  cases fuel <;> rfl

/-- The passes of one call: they use up the input, whatever its length. -/
theorem pushPasses_received {acc : Buf} {s : Downlink κ} {fuel : Nat} {input : Buf}
    (hv : ValidHeader env k header) (hlen : header.length ≤ cfg.maxCiphertextBlockSize)
    (ha : ∀ n, env.bufAlloc n = true) (hfuel : input.length ≤ fuel)
    (hr : Received cfg header k q acc s) (hc : acc++input <+: header++body) :
    (∃ p ∈ pushPasses cfg env fuel s input, MeetsOversize cfg body p) ∨
      PassesOk cfg header k q acc s (pushPasses cfg env fuel s input) ∧
      accepted (pushPasses cfg env fuel s input) = input ∧
      Received cfg header k q (acc++input) (s.after (pushPasses cfg env fuel s input)) := by
  induction fuel generalizing acc s input with
  | zero =>
    obtain rfl := List.length_eq_zero_iff.mp (Nat.le_zero.mp hfuel)
    exact Or.inr ⟨trivial, rfl, by simpa [Downlink.after] using hr⟩
  | succ fuel ih =>
    cases input with
    | nil => exact Or.inr ⟨trivial, rfl, by simpa [Downlink.after] using hr⟩
    | cons x xs =>
      have hpass := pushPass_received hv hlen ha hr (List.cons_ne_nil x xs) hc
      have hsplit := pushPass_taken_append_rest cfg env s (x :: xs)
      simp only [pushPasses]
      generalize pushPass cfg env s (x :: xs) = p at hpass hsplit ⊢
      rcases hpass with hm | hp
      · exact Or.inl ⟨p, by cases p.exit <;> simp, hm⟩
      · rcases hp.exit with he | ⟨he, hrest⟩
        · simp only [he]
          have hpos := List.length_pos_iff.mpr hp.taken_ne_nil
          have hshort : p.rest.length ≤ fuel := by
            have hl := congrArg List.length hsplit
            simp only [List.length_append, List.length_cons] at hl hfuel
            omega
          have hc' : acc++p.taken++p.rest <+: header++body := by
            rw [List.append_assoc, hsplit]
            exact hc
          rcases ih hshort hp.received hc' with ⟨r, hmem, hm⟩ | ⟨h1, h2, h3⟩
          · exact Or.inl ⟨r, by simp [hmem], hm⟩
          · refine Or.inr ⟨⟨hp, h1⟩, ?_, ?_⟩
            · exact (congrArg (p.taken++·) h2).trans hsplit
            · simpa [← hsplit, List.append_assoc] using h3
        · simp only [he]
          have ht : p.taken = x :: xs := by simpa [hrest] using hsplit
          refine Or.inr ⟨⟨hp, trivial⟩, by simp [accepted, ht], ?_⟩
          simpa [Downlink.after, ht] using hp.received

/-- The passes of successive calls, whatever the cut. -/
theorem downlinkPasses_received {acc : Buf} {s : Downlink κ} (chunks : List Buf)
    (hv : ValidHeader env k header) (hlen : header.length ≤ cfg.maxCiphertextBlockSize)
    (ha : ∀ n, env.bufAlloc n = true) (hr : Received cfg header k q acc s)
    (hc : acc++chunks.flatten <+: header++body) :
    (∃ p ∈ downlinkPasses cfg env s chunks, MeetsOversize cfg body p) ∨
      PassesOk cfg header k q acc s (downlinkPasses cfg env s chunks) ∧
      accepted (downlinkPasses cfg env s chunks) = chunks.flatten ∧
      Received cfg header k q (acc++chunks.flatten) (pouchDownlinkPushAll cfg env s chunks) := by
  induction chunks generalizing acc s with
  | nil => exact Or.inr ⟨trivial, rfl, by simpa [pouchDownlinkPushAll] using hr⟩
  | cons c cs ih =>
    rw [List.flatten_cons, ← List.append_assoc] at hc
    have hcall := pushPasses_received hv hlen ha (le_refl c.length) hr
      ((List.prefix_append _ _).trans hc)
    simp only [downlinkPasses]
    rcases hcall with ⟨p, hmem, hm⟩ | ⟨h1, h2, h3⟩
    · exact Or.inl ⟨p, by simp [hmem], hm⟩
    · rcases ih h3 hc with ⟨p, hmem, hm⟩ | ⟨g1, g2, g3⟩
      · exact Or.inl ⟨p, List.mem_append_right _ hmem, hm⟩
      · refine Or.inr ⟨h1.append ?_, ?_, ?_⟩
        · rw [h2]
          exact g1
        · rw [accepted_append, h2]
          exact congrArg (c++·) g2
        · rw [List.flatten_cons, ← List.append_assoc]
          exact g3

theorem pouchDownlinkStart_received (cfg : Config) (s : Downlink κ) (hv : ValidHeader env s.crypto header)
    (ha : ∀ n, env.bufAlloc n = true) :
    Received cfg header s.crypto s.decrypt.queue [] (pouchDownlinkStart env s) :=
  .header (List.length_pos_iff.mpr hv.ne_nil) rfl
    (by simp [pouchDownlinkStart, Downlink.alloc, ha]) rfl rfl

end
end Pouch
