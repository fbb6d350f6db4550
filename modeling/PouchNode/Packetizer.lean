import PouchNode.Buf

/-! Packets of the GATT transport (packetizer.c): one byte of flags, then the payload. A
packetizer cuts a buffer, or what a callback fills in, into packets of the sizes it is
asked for. -/
namespace Pouch

def packetFirst : UInt8 := 0x01
def packetLast : UInt8 := 0x02
def packetOverhead : Nat := 1

inductive PacketizerResult where
  | moreData | noMoreData | emptyPayload | error
  deriving DecidableEq, Repr

inductive PacketizerError where
  | enomem | enodata
  deriving DecidableEq, Repr

inductive PacketizerFill (α : Type*) where
  | buffer (src : Buf)
  | callback (userArg : α)

structure Packetizer (α : Type*) where
  fill : PacketizerFill α
  isFirst : Bool
  error : Option PacketizerError

section
variable {α σ ε : Type*}

def packetizerStartBuffer (malloc : Bool) (src : Buf) : Option (Packetizer α) :=
  if malloc then some ⟨.buffer src, true, none⟩ else none

def packetizerStartCallback (malloc : Bool) (userArg : α) : Option (Packetizer α) :=
  if malloc then some ⟨.callback userArg, true, none⟩ else none

abbrev FillCallback (α σ ε : Type*) := α → Nat → σ → Except ε ((PacketizerResult × Buf) × σ)

structure Got (α σ : Type*) where
  result : PacketizerResult
  packet : Buf
  dstLen : Nat
  packetizer : Packetizer α
  state : σ

def packetizerGet (cb : FillCallback α σ ε) (packetizer : Packetizer α) (dstLen : Nat) (s : σ) :
    Except ε (Got α σ) :=
  if dstLen ≤ packetOverhead then
    .ok ⟨.error, [0], dstLen, { packetizer with error := some .enomem }, s⟩
  else
    let flags := if packetizer.isFirst then packetFirst else 0
    let packetizer := { packetizer with isFirst := false }
    match packetizer.fill with
    | .buffer src =>
      let bytesToCopy := dstLen - packetOverhead
      if src.length ≤ bytesToCopy then
        .ok ⟨.noMoreData, (flags ||| packetLast) :: src, packetOverhead + src.length,
          { packetizer with fill := .buffer [] }, s⟩
      else
        .ok ⟨.moreData, flags :: src.take bytesToCopy, packetOverhead + bytesToCopy,
          { packetizer with fill := .buffer (src.drop bytesToCopy) }, s⟩
    | .callback userArg =>
      match cb userArg (dstLen - packetOverhead) s with
      | .error e => .error e
      | .ok ((cbResult, bytes), s) =>
        if cbResult = .error then
          .ok ⟨.error, [flags], 0, { packetizer with error := some .enodata }, s⟩
        else if cbResult = .noMoreData then
          .ok ⟨.noMoreData, (flags ||| packetLast) :: bytes, packetOverhead + bytes.length,
            packetizer, s⟩
        else
          .ok ⟨if bytes.length = 0 then .emptyPayload else .moreData, flags :: bytes,
            packetOverhead + bytes.length, packetizer, s⟩

end

def packetizerDecode : Buf → Option (Buf × Bool × Bool)
  | [] => none
  | flags :: data =>
    some (data, decide (flags &&& packetFirst ≠ 0), decide (flags &&& packetLast ≠ 0))

end Pouch
