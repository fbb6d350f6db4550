import PouchNode.ServerSerial

/-! The server certificate on its way: it is written in packets (server_cert_characteristic.c),
installed when the last of them has come (cert.c), and its serial number can be read. -/
namespace Pouch
open Machine Fragments
variable {pubkeyLen : Nat}

structure ServerCertWriteOp (pubkeyLen : Nat) where
  packet : Buf
  malloc : Bool
  answers : Buf → CertAnswers pubkeyLen

def CertRet.toRet (set : CertRet) : Ret := if set = .ok then .ok else .err .eio

def ServerCertWriteOp.write (op : ServerCertWriteOp pubkeyLen) (set : Ret) : CertWrite :=
  ⟨op.packet, op.malloc, set⟩

def serverCertWriteSet (certCfg : CertConfig) (maxLen : Nat) (ctx : ServerCertChrc pubkeyLen)
    (op : ServerCertWriteOp pubkeyLen) : ServerCertChrc pubkeyLen × CertWriteOut :=
  match (serverCertWrite maxLen ctx.cert (op.write .ok)).2.certificate with
  | none =>
    let (cert, out) := serverCertWrite maxLen ctx.cert (op.write .ok)
    ({ ctx with cert }, out)
  | some bytes =>
    let (set, server) :=
      certServerSet certCfg (some ⟨some bytes, bytes.length⟩) (op.answers bytes) ctx.server
    let (cert, out) := serverCertWrite maxLen ctx.cert (op.write set.toRet)
    ({ ctx with cert, server }, out)

def Transfer.got (t : Transfer) : Option Buf := if t.inProgress then some t.received else none

def CertWrite.fragment (w : CertWrite) : Fragment UInt8 := ⟨w.payload, w.isFirst, w.isLast⟩

theorem certCopy_set (ctx : ServerCertCtx) (len : Nat) (payload : Buf) (isLast : Bool) (set : Ret) :
    certCopy ctx len payload isLast set =
      ((certCopy ctx len payload isLast .ok).1, { (certCopy ctx len payload isLast .ok).2 with
        disconnect := (certCopy ctx len payload isLast .ok).2.certificate.isSome &&
          decide (set ≠ .ok) }) := by
  cases hbuffer : ctx.buffer with
  | none => simp [certCopy, hbuffer]
  | some buffer => cases isLast <;> simp [certCopy, hbuffer]

theorem serverCertWrite_set (maxLen : Nat) (ctx : ServerCertCtx)
    (op : ServerCertWriteOp pubkeyLen) (set : Ret) :
    serverCertWrite maxLen ctx (op.write set) =
      ((serverCertWrite maxLen ctx (op.write .ok)).1,
        { (serverCertWrite maxLen ctx (op.write .ok)).2 with
          disconnect := (serverCertWrite maxLen ctx (op.write .ok)).2.certificate.isSome &&
            decide (set ≠ .ok) }) := by
  simp only [serverCertWrite, ServerCertWriteOp.write]
  cases packetizerDecode op.packet with
  | none => rfl
  | some decoded =>
    dsimp only
    split_ifs
    · rfl
    all_goals exact certCopy_set _ _ _ _ _

section
variable (certCfg : CertConfig) (maxLen : Nat)

/-- A write leaves what is installed alone, or it passes on a certificate, with which it is
installed. -/
theorem serverCertWriteSet_eq (ctx : ServerCertChrc pubkeyLen) (op : ServerCertWriteOp pubkeyLen) :
    serverCertWriteSet certCfg maxLen ctx op =
      match (serverCertWrite maxLen ctx.cert (op.write .ok)).2.certificate with
      | none => ({ ctx with cert := (serverCertWrite maxLen ctx.cert (op.write .ok)).1 },
          (serverCertWrite maxLen ctx.cert (op.write .ok)).2)
      | some bytes =>
        let set := certServerSet certCfg (some ⟨some bytes, bytes.length⟩) (op.answers bytes)
          ctx.server
        ({ ctx with cert := (serverCertWrite maxLen ctx.cert (op.write .ok)).1, server := set.2 },
          { (serverCertWrite maxLen ctx.cert (op.write .ok)).2 with
            disconnect := decide (set.1 ≠ .ok) }) := by
  cases hcert : (serverCertWrite maxLen ctx.cert (op.write .ok)).2.certificate with
  | none => simp only [serverCertWriteSet, hcert]
  | some bytes =>
    simp only [serverCertWriteSet, hcert]
    rw [serverCertWrite_set]
    simp [hcert, CertRet.toRet]

theorem serverCertWriteSet_out (ctx : ServerCertChrc pubkeyLen) (op : ServerCertWriteOp pubkeyLen) :
    (serverCertWriteSet certCfg maxLen ctx op).1.cert =
      (serverCertWrite maxLen ctx.cert (op.write .ok)).1 ∧
    (serverCertWriteSet certCfg maxLen ctx op).2.certificate =
      (serverCertWrite maxLen ctx.cert (op.write .ok)).2.certificate ∧
    (serverCertWriteSet certCfg maxLen ctx op).2.copied =
      (serverCertWrite maxLen ctx.cert (op.write .ok)).2.copied := by
  rw [serverCertWriteSet_eq]
  cases hcert : (serverCertWrite maxLen ctx.cert (op.write .ok)).2.certificate <;> simp [hcert]

def ServerCertWriteOp.Proper (op : ServerCertWriteOp pubkeyLen) : Prop :=
  (op.write .ok).payload ≠ [] ∧ ((op.write .ok).isFirst = true → op.malloc = true)

end

/-- Packets that a packetizer has made of a buffer carry the pieces that it was cut into. -/
theorem drain_cut {α σ ε : Type*} {cb : FillCallback α σ ε} {s : σ} {sizes : List Nat}
    {src : Buf} {first : Bool} {error : Option PacketizerError} {packets : List (Buf × Nat)}
    (h : packetizerDrain cb ⟨.buffer src, first, error⟩ s sizes = some packets) :
    ∃ chunks, CutAlong src sizes chunks ∧ Carries first packets chunks := by
  induction sizes generalizing src first error packets with
  | nil => cases h
  | cons dstLen sizes ih =>
    by_cases hroom : dstLen ≤ packetOverhead
    · simp [packetizerDrain, packetizerGet, hroom] at h
    · by_cases hfits : src.length ≤ dstLen - packetOverhead
      · simp only [packetizerDrain, packetizerGet, hroom, if_false, hfits, if_true,
          reduceCtorEq, Option.some.injEq] at h
        subst h
        exact ⟨[src], .last src dstLen sizes hfits, .last first src⟩
      · simp only [packetizerDrain, packetizerGet, hroom, if_false, hfits, reduceCtorEq,
          Option.map_eq_some_iff] at h
        obtain ⟨rest, hrest, rfl⟩ := h
        obtain ⟨chunks, hcut, hcarries⟩ := ih hrest
        have hmore := hcarries.more hcut.ne_nil first (src.take (dstLen - packetOverhead))
        rw [List.length_take_of_le (Nat.le_of_not_le hfits)] at hmore
        exact ⟨_, .more (Nat.lt_of_not_le hfits) hcut, by simpa [packetFlags] using hmore⟩

structure Accepts (certCfg : CertConfig) (answers : CertAnswers pubkeyLen) (crt : X509Crt)
    (key : Buf) : Prop where
  parse : answers.parse = some crt
  key : crt.key = some key
  exported : answers.exportError = none
  serial : crt.serial.length ≤ certSerialMaxlen
  authentic : certCfg.validateServerCert = true →
    certCfg.rawCaCert ≠ [] ∧ answers.parseCa = true ∧ answers.verify = true

structure Installed (certCfg : CertConfig) (answers : CertAnswers pubkeyLen)
    (before after : ServerCertState pubkeyLen) (serial : Buf) : Prop where
  taken : ∃ crt key, answers.parse = some crt ∧ crt.key = some key ∧
    Authentic certCfg answers before ∧ crt.serial = serial ∧ after.pubkey.value = key
  value : after.serial.value = serial
  fits : after.serial.len ≤ certSerialMaxlen

/-- What is done to authenticate a certificate changes nothing that is installed. -/
theorem certServerInstall_eq (certCfg : CertConfig) (answers : CertAnswers pubkeyLen) (crt : X509Crt)
    (s : ServerCertState pubkeyLen) :
    ∃ err t, t.pubkey = s.pubkey ∧ t.serial = s.serial ∧
      (err = CertRet.ok ↔ Authentic certCfg answers s) ∧
      certServerInstall certCfg answers crt s =
        if err ≠ .ok then (err, t)
        else if certSerialMaxlen < crt.serial.length then (err, t)
        else
          let (err, pubkey) := extractPubkey crt.key answers.exportError t.pubkey
          if err ≠ .ok then (err, { t with pubkey })
          else (err, { t with pubkey, serial := t.serial.store crt.serial }) := by
  cases hvalidate : certCfg.validateServerCert with
  | false =>
    refine ⟨.ok, s, rfl, rfl, iff_of_true rfl fun h => ?_, by simp [certServerInstall, hvalidate]⟩
    rw [hvalidate] at h
    cases h
  | true =>
    refine ⟨(authenticateServerCert certCfg answers s).1, (authenticateServerCert certCfg answers s).2,
      rfl, rfl, ?_, by simp [certServerInstall, hvalidate]⟩
    rw [authenticateServerCert_ok, Authentic, hvalidate, forall_prop_of_true rfl]

/-- The serial number is the one before, or that of the certificate. -/
theorem certServerSet_serial (certCfg : CertConfig) (certbuf : Option PouchCert)
    (answers : CertAnswers pubkeyLen) (s : ServerCertState pubkeyLen) :
    (certServerSet certCfg certbuf answers s).2.serial = s.serial ∨
    ∃ serial, Installed certCfg answers s (certServerSet certCfg certbuf answers s).2 serial := by
  cases hvalid : certIsValid certbuf with
  | false => exact Or.inl (by simp [certServerSet, hvalid])
  | true =>
    cases hparse : answers.parse with
    | none => exact Or.inl (by simp [certServerSet, hvalid, hparse, parseX509Cert])
    | some crt =>
      have hinstall : certServerSet certCfg certbuf answers s =
          certServerInstall certCfg answers crt s := by
        simp [certServerSet, hvalid, hparse, parseX509Cert]
      obtain ⟨err, t, -, hserial, hauthentic, heq⟩ := certServerInstall_eq certCfg answers crt s
      rw [hinstall, heq]
      by_cases hok : err = .ok
      · by_cases hlong : certSerialMaxlen < crt.serial.length
        · exact Or.inl (by simp [hok, hlong, hserial])
        · rcases extractPubkey_cases answers crt hparse t.pubkey with
            ⟨key, hkey, hexport, hfits, hextract⟩ | ⟨hkey, hextract⟩ | ⟨written, -, -, hextract⟩
          · refine Or.inr ⟨crt.serial, ⟨crt, key, hparse, hkey, hauthentic.mp hok, rfl, ?_⟩, ?_, ?_⟩
            · simpa [hok, hlong, hextract] using LenArray.store_value t.pubkey key hfits
            · simpa [hok, hlong, hextract] using
                LenArray.store_value t.serial crt.serial (Nat.le_of_not_lt hlong)
            · simpa [hok, hlong, hextract, LenArray.store] using Nat.le_of_not_lt hlong
          · exact Or.inl (by simp [hok, hlong, hextract, hserial])
          · exact Or.inl (by simp [hok, hlong, hextract, hserial])
      · exact Or.inl (by simp [hok, hserial])

section
variable (cfg : Config) (certCfg : CertConfig) (maxLen : Nat)

def serverCertAct (ctx : ServerCertChrc pubkeyLen) (op : ServerCertWriteOp pubkeyLen) :
    ServerCertChrc pubkeyLen :=
  (serverCertWriteSet certCfg maxLen ctx op).1

theorem serverCertAct_reading (ctx : ServerCertChrc pubkeyLen) (op : ServerCertWriteOp pubkeyLen) :
    (serverCertAct certCfg maxLen ctx op).serial = ctx.serial ∧
    (serverCertAct certCfg maxLen ctx op).serialLen = ctx.serialLen ∧
    (serverCertAct certCfg maxLen ctx op).serialOffset = ctx.serialOffset := by
  rw [serverCertAct, serverCertWriteSet_eq]
  cases (serverCertWrite maxLen ctx.cert (op.write .ok)).2.certificate <;> exact ⟨rfl, rfl, rfl⟩

theorem serverCertAct_undisturbed : Undisturbed (@serverCertAct pubkeyLen certCfg maxLen)
    ServerCertChrc.rest ServerCertChrc.Running where
  rest ctx op := by
    obtain ⟨hserial, hlen, hoffset⟩ := serverCertAct_reading certCfg maxLen ctx op
    rw [ServerCertChrc.rest, hserial, hlen, hoffset]
    rfl
  running ctx op h := by
    obtain ⟨hserial, hlen, hoffset⟩ := serverCertAct_reading certCfg maxLen ctx op
    rw [ServerCertChrc.Running, hlen, hoffset]
    exact h

abbrev serialFinal : List (ReadOp (ServerCertWriteOp pubkeyLen)) → ReadRun Unit (ServerCertChrc pubkeyLen) :=
  readFinal (serverCertSerialRead cfg) (serverCertAct certCfg maxLen) (.boot (.boot pubkeyLen))

def Installs (s : ServerCertChrc pubkeyLen) (op : ReadOp (ServerCertWriteOp pubkeyLen))
    (serial : Buf) : Prop :=
  ∃ w bytes, op = .other w ∧ (serverCertWriteSet certCfg maxLen s w).2.certificate = some bytes ∧
    Installed certCfg (w.answers bytes) s.server (serverCertAct certCfg maxLen s w).server serial

def Originates (rd : ReadHandler Unit (ServerCertChrc pubkeyLen) Unit)
    (u : List (ReadOp (ServerCertWriteOp pubkeyLen))) (serial : Buf) : Prop :=
  serial = [] ∨ ∃ a op b, u = a++op :: b ∧
    Installs certCfg maxLen
      (readFinal rd (serverCertAct certCfg maxLen) (.boot (.boot pubkeyLen)) a).ctx.state op serial

theorem Originates.snoc {rd : ReadHandler Unit (ServerCertChrc pubkeyLen) Unit}
    {u : List (ReadOp (ServerCertWriteOp pubkeyLen))} {serial : Buf}
    (h : Originates certCfg maxLen rd u serial) (op : ReadOp (ServerCertWriteOp pubkeyLen)) :
    Originates certCfg maxLen rd (u++[op]) serial := by
  rcases h with hempty | ⟨a, op', b, rfl, hinstalls⟩
  · exact Or.inl hempty
  · exact Or.inr ⟨a, op', b++[op], by simp, hinstalls⟩

theorem serial_originates {rd : ReadHandler Unit (ServerCertChrc pubkeyLen) Unit}
    (hrd : ∀ server, rd.Keeps fun s => s.server = server)
    (u : List (ReadOp (ServerCertWriteOp pubkeyLen))) :
    Originates certCfg maxLen rd u
      (readFinal rd (serverCertAct certCfg maxLen) (.boot (.boot pubkeyLen))
        u).ctx.state.server.serial.value := by
  induction u using List.reverseRecOn with
  | nil => exact Or.inl rfl
  | append_singleton u op ih =>
    rw [readFinal, final_snoc]
    rw [readFinal] at ih
    generalize hr : final (readStep rd (serverCertAct certCfg maxLen)) (.boot (.boot pubkeyLen)) u = r
      at ih ⊢
    cases op with
    | read malloc len offset =>
      rw [readStep]
      cases hread : chrcRead rd malloc len offset r.ctx with
      | error e => exact ih.snoc certCfg maxLen _
      | ok out =>
        obtain ⟨ret, next⟩ := out
        have hsame := (hrd _).chrcRead hread rfl
        simp only [hsame]
        exact ih.snoc certCfg maxLen _
    | other w =>
      rw [readStep]
      have hact := serverCertWriteSet_eq certCfg maxLen r.ctx.state w
      have hout := (serverCertWriteSet_out certCfg maxLen r.ctx.state w).2.1
      cases hpassed : (serverCertWrite maxLen r.ctx.state.cert (w.write .ok)).2.certificate with
      | none =>
        rw [hpassed] at hact
        simp only [serverCertAct, hact]
        exact ih.snoc certCfg maxLen _
      | some bytes =>
        rw [hpassed] at hact hout
        rcases certServerSet_serial certCfg (some ⟨some bytes, bytes.length⟩) (w.answers bytes)
          r.ctx.state.server with hsame | ⟨serial, hinstalled⟩
        · simp only [serverCertAct, hact, hsame]
          exact ih.snoc certCfg maxLen _
        · have hvalue := hinstalled.value
          refine Or.inr ⟨u, .other w, [], rfl, ?_⟩
          rw [readFinal, hr]
          refine ⟨w, bytes, rfl, hout, ?_⟩
          simp only [serverCertAct, hact, hvalue]
          exact hinstalled

theorem serverCertSerialRead_keeps_server (server : ServerCertState pubkeyLen) :
    (serverCertSerialRead cfg).Keeps fun s => s.server = server where
  start malloc s h := by
    simp only [serverCertSerialRead]
    cases pouchServerCertificateSerialGet certSerialMaxlen s.server <;> exact h
  cb arg n s filled t ht h := by
    simp only [serverCertSerialRead, serverCertSerialFillCb] at ht
    split_ifs at ht
    all_goals
      cases ht
      exact h

theorem infoRead_keeps_server (encode : InfoEncoder) (server : ServerCertState pubkeyLen) :
    (infoRead cfg encode).Keeps fun s => s.server = server where
  start malloc s h := by
    simp only [infoRead]
    cases buildInfoData cfg encode s.server <;> exact h
  cb arg n s filled t ht h := by cases ht

/-- In every run of reads and writes in which packetizers can be allocated, a message that the
peer has put together is the serial number that was installed when its transfer began, also if a
certificate has been written since: empty, or that of a certificate that mbedTLS has taken. -/
theorem server_serial_delivered (ops : List (ReadOp (ServerCertWriteOp pubkeyLen)))
    (hall : ∀ op ∈ ops, op.Allocates) :
    ∀ u op v, ops = u++op :: v → ∀ message,
      (readStep (serverCertSerialRead cfg) (serverCertAct certCfg maxLen)
        (serialFinal cfg certCfg maxLen u) op).2 = some message →
      ∃ w, BegunAt (serverCertSerialRead cfg) (serverCertAct certCfg maxLen) (.boot pubkeyLen) u w ∧
        message = (serialFinal cfg certCfg maxLen w).ctx.state.server.serial.value ∧
        Originates certCfg maxLen (serverCertSerialRead cfg) w message := by
  rintro u op v rfl message hout
  obtain ⟨w, hbegun, hcurrent⟩ := readStep_message (serverCertSerialRead_readable cfg)
    (serverCertAct_undisturbed certCfg maxLen) (.boot pubkeyLen) u op
    (fun o ho => hall o (by rw [List.append_cons]; exact List.mem_append_left _ ho)) message hout
  have hvalue : message = (serialFinal cfg certCfg maxLen w).ctx.state.server.serial.value := by
    rw [ServerCertChrc.current, pouchServerCertificateSerialGet] at hcurrent
    split_ifs at hcurrent
    exact (Option.some.inj hcurrent).symm
  refine ⟨w, hbegun, hvalue, ?_⟩
  rw [hvalue]
  exact serial_originates certCfg maxLen (serverCertSerialRead_keeps_server cfg) w

abbrev infoFinal (encode : InfoEncoder) :
    List (ReadOp (ServerCertWriteOp pubkeyLen)) → ReadRun Unit (ServerCertChrc pubkeyLen) :=
  readFinal (infoRead cfg encode) (serverCertAct certCfg maxLen) (.boot (.boot pubkeyLen))

theorem serverCertAct_info : Undisturbed (@serverCertAct pubkeyLen certCfg maxLen)
    (fun _ => []) fun _ => False where
  rest _ _ := rfl
  running _ _ h := h

theorem infoFinal_fits (encode : InfoEncoder) (u : List (ReadOp (ServerCertWriteOp pubkeyLen))) :
    (infoFinal cfg certCfg maxLen encode u).ctx.state.server.serial.len ≤ certSerialMaxlen := by
  refine readFinal_invariant
    (P := fun s : ServerCertChrc pubkeyLen => s.server.serial.len ≤ certSerialMaxlen)
    ⟨?_, ?_⟩ ?_ (Nat.zero_le _) u
  · intro malloc s h
    rw [(infoRead_keeps_server cfg encode s.server).start malloc s rfl]
    exact h
  · intro arg n s filled t hcb h
    rw [(infoRead_keeps_server cfg encode s.server).cb arg n s filled t hcb rfl]
    exact h
  · intro s op h
    rw [serverCertAct, serverCertWriteSet_eq]
    cases (serverCertWrite maxLen s.cert (op.write .ok)).2.certificate with
    | none => exact h
    | some bytes =>
      rcases certServerSet_serial certCfg (some ⟨some bytes, bytes.length⟩) (op.answers bytes)
        s.server with hsame | ⟨serial, hinstalled⟩
      · simp only [hsame]
        exact h
      · exact hinstalled.fits

theorem currentInfo_eq (encode : InfoEncoder) (u : List (ReadOp (ServerCertWriteOp pubkeyLen))) :
    (infoFinal cfg certCfg maxLen encode u).ctx.state.currentInfo cfg =
      some (GattInfo.cbor ⟨0, match cfg.encryption with
        | .saead => (infoFinal cfg certCfg maxLen encode u).ctx.state.server.serial.value
        | .none => []⟩) := by
  have hfits := infoFinal_fits cfg certCfg maxLen encode u
  rw [ServerCertChrc.currentInfo]
  cases cfg.encryption with
  | none => rfl
  | saead =>
    rw [ServerCertChrc.current, pouchServerCertificateSerialGet, if_neg (Nat.not_lt.mpr hfits)]
    rfl

/-- The info record is always there, and it is never mixed of two: what the peer puts together
is the record with the serial number that was installed when its transfer began, and with none
in a build without encryption. It comes with reads from the start, with room, of which the first
finds no transfer going on. -/
theorem info_delivered {encode : InfoEncoder} (hencode : encode.Canonical)
    (ops : List (ReadOp (ServerCertWriteOp pubkeyLen))) (hall : ∀ op ∈ ops, op.Allocates) :
    (∀ u op v, ops = u++op :: v → ∀ message,
      (readStep (infoRead cfg encode) (serverCertAct certCfg maxLen)
        (infoFinal cfg certCfg maxLen encode u) op).2 = some message →
      ∃ w snr, BegunAt (infoRead cfg encode) (serverCertAct certCfg maxLen) (.boot pubkeyLen) u w ∧
        message = GattInfo.cbor ⟨0, snr⟩ ∧
        snr = (match cfg.encryption with
          | .saead => (infoFinal cfg certCfg maxLen encode w).ctx.state.server.serial.value
          | .none => []) ∧
        Originates certCfg maxLen (infoRead cfg encode) w snr) ∧
    ∀ u len v, ops = u++.read true len 0 :: v →
      (infoFinal cfg certCfg maxLen encode u).ctx.packetizer = none → 2 ≤ len.toNat →
      (∀ op ∈ v, op.Serves) → infoChrcMaxSize ≤ v.countP ReadOp.isRead →
      ∃ message, some message ∈ outputs (readStep (infoRead cfg encode) (serverCertAct certCfg maxLen))
        (infoFinal cfg certCfg maxLen encode u) (.read true len 0 :: v) := by
  constructor
  · rintro u op v rfl message hout
    obtain ⟨w, hbegun, hcurrent⟩ := readStep_message (infoRead_readable cfg hencode)
      (serverCertAct_info certCfg maxLen) (.boot pubkeyLen) u op
      (fun o ho => hall o (by rw [List.append_cons]; exact List.mem_append_left _ ho)) message hout
    rw [currentInfo_eq] at hcurrent
    refine ⟨w, _, hbegun, (Option.some.inj hcurrent).symm, rfl, ?_⟩
    cases cfg.encryption with
    | none => exact Or.inl rfl
    | saead => exact serial_originates certCfg maxLen (infoRead_keeps_server cfg encode) w
  · intro u len v _ hidle hlen hserves hcount
    have hcurrent := currentInfo_eq cfg certCfg maxLen encode u
    refine ⟨_, outputs_current (infoRead_readable cfg hencode) (serverCertAct_info certCfg maxLen)
      hidle hcurrent hlen v hserves (le_trans ?_ hcount)⟩
    apply length_info_le
    cases cfg.encryption with
    | none => exact Nat.zero_le _
    | saead => exact LenArray.value_length _

end

def tinyAnswers (_ : Buf) : CertAnswers 65 where
  parse := some ⟨[7, 8, 9], some [4]⟩
  parseCa := false
  verify := false
  exportError := none
  fits crt key hcrt hkey _ := by
    cases hcrt
    cases hkey
    decide
def tinyWrites : List (ServerCertWriteOp 65) :=
  [⟨[packetFirst, 0x30, 1], true, tinyAnswers⟩, ⟨[packetLast, 2], true, tinyAnswers⟩]
def tinyRun : List (ReadOp (ServerCertWriteOp 65)) :=
  tinyWrites.map .other++[.read true 3 0, .read true 3 0]

theorem server_serial_delivered_tiny :
    ∃ w, BegunAt (serverCertSerialRead (Config.ofLog 9 .saead)) (serverCertAct noValidation 4096)
        (.boot 65) (tinyRun.take 3) w ∧
      [7, 8, 9] = (serialFinal (Config.ofLog 9 .saead) noValidation 4096
        w).ctx.state.server.serial.value ∧
      Originates noValidation 4096 (serverCertSerialRead (Config.ofLog 9 .saead)) w [7, 8, 9] :=
  server_serial_delivered (Config.ofLog 9 .saead) noValidation 4096 tinyRun
    (by simp [tinyRun, tinyWrites, ReadOp.Allocates]) _ (.read true 3 0) [] rfl [7, 8, 9]
    (by decide)

def shortestInfo : InfoEncoder := fun info maxlen =>
  if info.cbor.length ≤ maxlen then some info.cbor else none

theorem shortestInfo_canonical : shortestInfo.Canonical where
  room _ _ h := if_pos h
  noRoom _ _ h := if_neg (Nat.not_le.mpr h)

theorem info_delivered_tiny :
    ∃ w snr, BegunAt (infoRead (Config.ofLog 9 .saead) shortestInfo) (serverCertAct noValidation 4096)
        (.boot 65) (tinyWrites.map .other) w ∧
      GattInfo.cbor ⟨0, [7, 8, 9]⟩ = GattInfo.cbor ⟨0, snr⟩ ∧
      snr = (infoFinal (Config.ofLog 9 .saead) noValidation 4096 shortestInfo
        w).ctx.state.server.serial.value ∧
      Originates noValidation 4096 (infoRead (Config.ofLog 9 .saead) shortestInfo) w snr :=
  (info_delivered (Config.ofLog 9 .saead) noValidation 4096 shortestInfo_canonical
    (tinyWrites.map .other++[.read true 40 0]) (by simp [tinyWrites, ReadOp.Allocates])).1
    _ (.read true 40 0) [] rfl (GattInfo.cbor ⟨0, [7, 8, 9]⟩) (by decide)

end Pouch
