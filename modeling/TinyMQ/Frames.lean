/-
WebSocket frames between the SDK (`client/ws.go`) and the server
(`internal/transport/ws/client.go`).

Each side writes and reads frames by its own code: the SDK masks what it
writes and assembles lengths by shifts, the server uses `encoding/binary`.
`readFrames_written` says that the SDK reads back every sequence of frames
the server writes. In the other direction `readPump` answers a ping before
it has read the mask key of the ping, so that the key is taken for the
start of the next frame; `readPump_written` says what is read when every
key is one that `readPump` passes over.
-/
import TinyMQ.Data
import TinyMQ.Lib.Codec
import TinyMQ.Lib.Stream

namespace TinyMQ

open List Option
open Stream (readFull bigEndian ofBigEndian drain)

namespace Ws

variable {n : UInt64} {s rest payload : List UInt8} {b1 b0 : UInt8}

def opCodeText : UInt8 := 1
def opCodeClose : UInt8 := 8
def opCodePing : UInt8 := 9
def opCodePong : UInt8 := 10

/-- `payload[i] ^= maskKey[i%4]`, for every `i`. -/
def mask (maskKey payload : List UInt8) : List UInt8 := payload.mapIdx fun i b => b ^^^ maskKey.getD (i % 4) 0

@[simp] theorem length_mask (maskKey payload : List UInt8) : (mask maskKey payload).length = payload.length := by
  simp [mask]

theorem mask_mask (maskKey payload : List UInt8) : mask maskKey (mask maskKey payload) = payload := by
  rw [mask, mask, mapIdx_mapIdx]
  refine ext_getElem (by simp) fun i hi hi' => ?_
  simp only [getElem_mapIdx, Function.comp, UInt8.xor_assoc, UInt8.xor_self, UInt8.xor_zero]

/-- What `rand.Read` fills in. -/
abbrev MaskKey := { k : List UInt8 // k.length = 4 }

/-! ## Writing -/

/-- The length in a header of `writeFrame`, with the mask bit. -/
def writeFrameLength (length : Nat) : List UInt8 :=
  if length ≤ 125 then [length.toUInt8 ||| 0x80]
  else if length ≤ 65535 then [126 ||| 0x80, (length >>> 8).toUInt8, length.toUInt8]
  else (127 ||| 0x80) :: [7, 6, 5, 4, 3, 2, 1, 0].map fun i => (length >>> (i * 8)).toUInt8

def writeFrame (payload : GoString) (maskKey : MaskKey) : List UInt8 :=
  0x81 :: writeFrameLength payload.length ++ maskKey.val ++ mask maskKey.val payload

def writePingFrame (maskKey : MaskKey) : List UInt8 := [0x89, 0x80] ++ maskKey.val

/-- The length in a header of `sendMessage`. -/
def sendMessageLength (length : Nat) : List UInt8 :=
  if length ≤ 125 then [length.toUInt8]
  else if length ≤ 65535 then 126 :: bigEndian 2 length
  else 127 :: bigEndian 8 length

def sendMessage (data : GoString) : List UInt8 := (0x80 ||| opCodeText) :: sendMessageLength data.length ++ data

def writePong : List UInt8 := [0x80 ||| opCodePong, 0]

/-! ## `readPump` -/

/-- What `readPump` does for a frame. -/
inductive PumpEvent
  | handleCommand (raw : List UInt8)
  | pong
  deriving DecidableEq, Repr

/-- Why `readPump` leaves its loop: it cannot read a header, with the bytes
that are left, it cannot read on inside a frame, the client closes, or a
frame is too long. -/
inductive PumpEnd
  | header (left : List UInt8)
  | cut
  | closed
  | tooLong
  deriving DecidableEq, Repr

instance : Inhabited PumpEnd := ⟨.cut⟩

/-- `payloadLen` with the extended length that follows the header. -/
def pumpLength (payloadLen : UInt64) (s : List UInt8) : Option (UInt64 × List UInt8) :=
  if payloadLen = 126 then (readFull 2 s).map fun (extLen, s) => (UInt64.ofNat (ofBigEndian extLen), s)
  else if payloadLen = 127 then (readFull 8 s).map fun (extLen, s) => (UInt64.ofNat (ofBigEndian extLen), s)
  else some (payloadLen, s)

def readMaskKey (isMasked : Bool) (s : List UInt8) : Option (List UInt8 × List UInt8) :=
  if isMasked then readFull 4 s else some ([], s)

/-- The rest of a frame that is no control frame: its payload, unmasked. -/
def pumpPayload (b1 : UInt8) (s : List UInt8) : Except PumpEnd (List UInt8 × List UInt8) :=
  let isMasked := b1 &&& 0x80 != 0
  match pumpLength (b1 &&& 0x7F).toUInt64 s with
  | none => .error .cut
  | some (payloadLen, s) =>
    if (2 : UInt64) <<< 20 < payloadLen then .error .tooLong
    else
      match readMaskKey isMasked s with
      | none => .error .cut
      | some (maskKey, s) =>
        match readFull payloadLen.toNat s with
        | none => .error .cut
        | some (payload, s) => .ok (if isMasked then mask maskKey payload else payload, s)

/-- One pass of the loop of `readPump`. A control frame ends with its header. -/
def pumpFrame : List UInt8 → Except PumpEnd (Option PumpEvent × List UInt8)
  | b0 :: b1 :: s =>
    let opCode := b0 &&& 0x0F
    if opCode = opCodeClose then .error .closed
    else if opCode = opCodePing then .ok (some .pong, s)
    else if opCode = opCodePong then .ok (none, s)
    else
      match pumpPayload b1 s with
      | .error e => .error e
      | .ok (payload, s) => .ok (if opCode = opCodeText then some (.handleCommand payload) else none, s)
  | left => .error (.header left)

/-- `readPump` on the bytes of a connection: what it does, in its order, and
how it ends. -/
def readPump (s : List UInt8) : List PumpEvent × PumpEnd :=
  let (events, e) := drain pumpFrame List.length s
  (events.reduceOption, e)

theorem pumpLength_length (h : pumpLength n s = some (m, rest)) : rest.length ≤ s.length := by
  unfold pumpLength at h
  split_ifs at h
  · obtain ⟨⟨l, r⟩, hr, h⟩ := map_eq_some_iff.mp h
    cases h
    have := Stream.readFull_length hr
    omega
  · obtain ⟨⟨l, r⟩, hr, h⟩ := map_eq_some_iff.mp h
    cases h
    have := Stream.readFull_length hr
    omega
  · cases h
    exact Nat.le_refl _

theorem readMaskKey_length (h : readMaskKey isMasked s = some (k, rest)) : rest.length ≤ s.length := by
  unfold readMaskKey at h
  split_ifs at h
  · have := Stream.readFull_length h
    omega
  · cases h
    exact Nat.le_refl _

theorem pumpPayload_length (h : pumpPayload b1 s = .ok (payload, rest)) : rest.length ≤ s.length := by
  simp only [pumpPayload] at h
  split at h
  next => cases h
  next payloadLen s₁ hlen =>
    have hle₁ := pumpLength_length hlen
    split at h
    next => cases h
    split at h
    next => cases h
    next k s₂ hkey =>
      have hle₂ := readMaskKey_length hkey
      split at h
      next => cases h
      next payload s₃ hread =>
        have hle₃ := Stream.readFull_length hread
        cases h
        omega

theorem pumpFrame_shrinks : Stream.Shrinks pumpFrame List.length := by
  intro s e s' h
  rcases s with _ | ⟨b0, _ | ⟨b1, s⟩⟩
  · cases h
  · cases h
  simp only [pumpFrame] at h
  split at h
  next => cases h
  split at h
  next =>
    cases h
    simp
  split at h
  next =>
    cases h
    simp
  split at h
  next => cases h
  next payload s₁ hpayload =>
    have hle := pumpPayload_length hpayload
    cases h
    simp only [length_cons]
    omega

theorem readPump_of_ok (h : pumpFrame s = .ok (e, rest)) :
    readPump s = (e.toList ++ (readPump rest).1, (readPump rest).2) := by
  rw [readPump, Stream.drain_ok pumpFrame_shrinks h]
  cases e <;> rfl

theorem readPump_nil : readPump [] = ([], .header []) := rfl

/-! ## From the SDK to the server -/

/-- The frames the SDK writes. -/
inductive SdkFrame
  | text (payload : GoString) (maskKey : MaskKey)
  | ping (maskKey : MaskKey)
  deriving DecidableEq

namespace SdkFrame

def bytes : SdkFrame → List UInt8
  | .text payload maskKey => writeFrame payload maskKey
  | .ping maskKey => writePingFrame maskKey

def event : SdkFrame → PumpEvent
  | .text payload _ => .handleCommand payload
  | .ping _ => .pong

/-- A text is of at most 2 MiB. -/
def Fits : SdkFrame → Prop
  | .text payload _ => payload.length ≤ 2 <<< 20
  | .ping _ => True

instance : DecidablePred Fits := fun f => by cases f <;> unfold Fits <;> infer_instance

end SdkFrame

/-- An opcode that `readPump` reads to its end without an effect. -/
def isOther (b0 : UInt8) : Bool :=
  b0 &&& 0x0F != opCodeText && b0 &&& 0x0F != opCodeClose && b0 &&& 0x0F != opCodePing && b0 &&& 0x0F != opCodePong

/-- Two bytes that `readPump` takes for a frame and passes over. -/
def passesOver (b0 b1 : UInt8) : Bool := b0 &&& 0x0F == opCodePong || isOther b0 && b1 == 0

/-- Four bytes that `readPump` takes for one or two frames and passes over. -/
def keyPassedOver : List UInt8 → Bool
  | [k0, k1, k2, k3] =>
    passesOver k0 k1 && passesOver k2 k3 || isOther k0 && (k1 == 2 || k1 == 126 && k2 == 0 && k3 == 0)
  | _ => false

/-- The mask key of a ping is passed over. -/
def SdkFrame.PassedOver : SdkFrame → Prop
  | .text _ _ => True
  | .ping maskKey => keyPassedOver maskKey.val = true

instance : DecidablePred SdkFrame.PassedOver := fun f => by cases f <;> unfold SdkFrame.PassedOver <;> infer_instance

theorem header_bits : ∀ m < 128, (m.toUInt8 &&& 0x80 != 0) = false ∧ (m.toUInt8 &&& 0x7F).toUInt64 = UInt64.ofNat m ∧
    ((m.toUInt8 ||| 0x80) &&& 0x80 != 0) = true ∧ ((m.toUInt8 ||| 0x80) &&& 0x7F).toUInt64 = UInt64.ofNat m := by
  decide

/-- Both sides write a length in the same way, up to the bit of the mask. -/
theorem pumpLength_written {n : Nat} (h : n ≤ 16 * 1024 * 1024) (rest : List UInt8) : ∃ m ext, m < 128 ∧
    sendMessageLength n = m.toUInt8 :: ext ∧ writeFrameLength n = (m.toUInt8 ||| 0x80) :: ext ∧
      pumpLength (UInt64.ofNat m) (ext ++ rest) = some (UInt64.ofNat n, rest) := by
  have hread : ∀ k, n < 256 ^ k →
      (readFull k (bigEndian k n ++ rest)).map (fun (ext, s) => (UInt64.ofNat (ofBigEndian ext), s)) =
        some (UInt64.ofNat n, rest) := fun k hk => by
    simp only [Stream.readFull_append (Stream.length_bigEndian k n), map_some, Stream.ofBigEndian_bigEndian hk]
  unfold sendMessageLength writeFrameLength
  split_ifs with h₁ h₂
  · have hsmall : ∀ m < 126, UInt64.ofNat m ≠ 126 ∧ UInt64.ofNat m ≠ 127 := by decide
    obtain ⟨h126, h127⟩ := hsmall n (by omega)
    exact ⟨n, [], by omega, rfl, rfl, by rw [pumpLength, if_neg h126, if_neg h127]; rfl⟩
  · exact ⟨126, bigEndian 2 n, by decide, rfl, by simp [bigEndian], hread 2 (by omega)⟩
  · exact ⟨127, bigEndian 8 n, by decide, rfl, by simp [bigEndian], hread 8 (by omega)⟩

theorem pumpFrame_text {payload : GoString} (maskKey : MaskKey) (h : payload.length ≤ 2 <<< 20) (rest : List UInt8) :
    pumpFrame (writeFrame payload maskKey ++ rest) = .ok (some (.handleCommand payload), rest) := by
  have hsize : payload.length ≤ 2097152 := h
  obtain ⟨m, ext, hm, -, hlen, hread⟩ :=
    pumpLength_written (n := payload.length) (by omega) (maskKey.val ++ (mask maskKey.val payload ++ rest))
  obtain ⟨-, -, hbit, hlow⟩ := header_bits m hm
  rw [← hlow] at hread
  have hbytes : writeFrame payload maskKey ++ rest =
      0x81 :: (m.toUInt8 ||| 0x80) :: (ext ++ (maskKey.val ++ (mask maskKey.val payload ++ rest))) := by
    simp [writeFrame, hlen]
  have hnat : (UInt64.ofNat payload.length).toNat = payload.length := by
    rw [UInt64.toNat_ofNat']
    omega
  have hfits : ¬ (2 : UInt64) <<< 20 < UInt64.ofNat payload.length := by
    rw [UInt64.lt_iff_toNat_lt, hnat]
    exact Nat.not_lt.mpr hsize
  have hpayload : pumpPayload (m.toUInt8 ||| 0x80) (ext ++ (maskKey.val ++ (mask maskKey.val payload ++ rest))) =
    .ok (payload, rest) := by
    simp only [pumpPayload, hread, hfits, hbit, readMaskKey, if_true, if_false, hnat, mask_mask,
      Stream.readFull_append maskKey.property, Stream.readFull_append (length_mask maskKey.val payload)]
  rw [hbytes]
  simp only [pumpFrame, hpayload]
  rw [if_neg (by decide), if_neg (by decide), if_neg (by decide), if_pos (by decide)]

theorem pumpPayload_plain (hbit : b1 &&& 0x80 = 0)
    (hlen : pumpLength (b1 &&& 0x7F).toUInt64 s = some (n, s')) (hfits : ¬ (2 : UInt64) <<< 20 < n)
    (hread : readFull n.toNat s' = some (payload, rest)) : pumpPayload b1 s = .ok (payload, rest) := by
  have hplain : (b1 &&& 0x80 != 0) = false := by rw [hbit]; rfl
  simp only [pumpPayload, hlen, hfits, hplain, readMaskKey, hread, if_false, Bool.false_eq_true]

theorem pumpFrame_other (h : isOther b0 = true)
    (hp : pumpPayload b1 s = .ok (payload, rest)) : pumpFrame (b0 :: b1 :: s) = .ok (none, rest) := by
  simp only [isOther, Bool.and_eq_true, bne_iff_ne, ne_eq] at h
  obtain ⟨⟨⟨htext, hclose⟩, hping⟩, hpong⟩ := h
  simp only [pumpFrame, hp, htext, hclose, hping, hpong, if_false]

theorem pumpFrame_passesOver (h : passesOver b0 b1 = true) (rest : List UInt8) :
    pumpFrame (b0 :: b1 :: rest) = .ok (none, rest) := by
  simp only [passesOver, Bool.or_eq_true, Bool.and_eq_true, beq_iff_eq] at h
  rcases h with hpong | ⟨hother, rfl⟩
  · simp only [pumpFrame, hpong]
    rw [if_neg (by decide), if_neg (by decide), if_pos trivial]
  · exact pumpFrame_other hother (pumpPayload_plain (n := 0) rfl rfl (by decide) (Stream.readFull_zero rest))

theorem readPump_key (h : keyPassedOver key = true) (rest : List UInt8) : readPump (key ++ rest) = readPump rest := by
  unfold keyPassedOver at h
  split at h
  next k0 k1 k2 k3 =>
    simp only [Bool.or_eq_true, Bool.and_eq_true, beq_iff_eq] at h
    rcases h with ⟨h₁, h₂⟩ | ⟨hother, rfl | ⟨⟨rfl, rfl⟩, rfl⟩⟩
    · -- Two frames of a header each.
      rw [show [k0, k1, k2, k3] ++ rest = k0 :: k1 :: k2 :: k3 :: rest from rfl,
        readPump_of_ok (pumpFrame_passesOver h₁ _), readPump_of_ok (pumpFrame_passesOver h₂ _)]
      rfl
    · -- One frame with a payload of two bytes.
      have hp : pumpPayload 2 (k2 :: k3 :: rest) = .ok ([k2, k3], rest) :=
        pumpPayload_plain (n := 2) rfl rfl (by decide) (Stream.readFull_append (l := [k2, k3]) rfl rest)
      exact readPump_of_ok (pumpFrame_other hother hp)
    · -- One frame with an extended length of 0.
      have hlen : pumpLength 126 (0 :: 0 :: rest) = some (0, rest) := by
        have hread : readFull 2 (0 :: 0 :: rest) = some ([0, 0], rest) :=
          Stream.readFull_append (l := [0, 0]) rfl rest
        rw [pumpLength, if_pos rfl, hread]
        rfl
      have hp : pumpPayload 126 (0 :: 0 :: rest) = .ok ([], rest) :=
        pumpPayload_plain (n := 0) rfl hlen (by decide) (Stream.readFull_zero rest)
      exact readPump_of_ok (pumpFrame_other hother hp)
  next => cases h

theorem readPump_frame {f : SdkFrame} (hfits : f.Fits) (hkey : f.PassedOver) (rest : List UInt8) :
    readPump (f.bytes ++ rest) = (f.event :: (readPump rest).1, (readPump rest).2) := by
  cases f with
  | text payload maskKey => exact readPump_of_ok (pumpFrame_text maskKey hfits rest)
  | ping maskKey =>
    have hping : pumpFrame (0x89 :: 0x80 :: (maskKey.val ++ rest)) =
      .ok (some .pong, maskKey.val ++ rest) := rfl
    have hrest := readPump_key hkey rest
    have hread := readPump_of_ok hping
    rw [hrest] at hread
    exact hread

/-- **What the SDK writes is what the server handles**, as long as no mask
key of a ping is taken for something else than frames to pass over. -/
theorem readPump_written {frames : List SdkFrame} (hfits : ∀ f ∈ frames, f.Fits) (hkeys : ∀ f ∈ frames, f.PassedOver) :
    readPump (frames.flatMap SdkFrame.bytes) = (frames.map SdkFrame.event, .header []) := by
  induction frames with
  | nil => exact readPump_nil
  | cons f frames ih =>
    have hrest := ih (fun g hg => hfits g (mem_cons_of_mem f hg)) fun g hg =>
      hkeys g (mem_cons_of_mem f hg)
    rw [flatMap_cons, readPump_frame (hfits f mem_cons_self) (hkeys f mem_cons_self), hrest]
    rfl

def sampleFrames : List SdkFrame :=
  [.text (ascii "hi") ⟨[1, 2, 3, 4], rfl⟩, .ping ⟨[0x8A, 7, 0x1A, 0], rfl⟩, .text [] ⟨[0, 0, 0, 0], rfl⟩]

theorem readPump_written_sample : (∀ f ∈ sampleFrames, f.Fits) ∧ (∀ f ∈ sampleFrames, f.PassedOver) ∧
    readPump (sampleFrames.flatMap SdkFrame.bytes) =
      ([.handleCommand (ascii "hi"), .pong, .handleCommand []], .header []) :=
  ⟨by decide, by decide, readPump_written (by decide) (by decide)⟩

def closingPing : SdkFrame := .ping ⟨[0x88, 0, 0, 0], rfl⟩

/-- The key of a ping ends the connection: the command behind it is lost. -/
theorem readPump_closingPing : (∀ f ∈ [closingPing, .text (ascii "hi") ⟨[1, 2, 3, 4], rfl⟩], f.Fits) ∧
    readPump ([closingPing, .text (ascii "hi") ⟨[1, 2, 3, 4], rfl⟩].flatMap SdkFrame.bytes) = ([.pong], .closed) := by
  decide

/-! ## `readFrame` -/

/-- The limit of `readFrame`. -/
def maxFrameSize : UInt64 := 16 * 1024 * 1024

/-- The error of an `io.ReadFull` that does not get all it asks for. -/
def readFullError (s : List UInt8) : GoString := if s = [] then ascii "EOF" else ascii "unexpected EOF"

def frameSizeError (length : UInt64) : GoString :=
  ascii "frame size " ++ Codec.decimal length.toNat ++ ascii " exceeds safety limit of " ++
    Codec.decimal maxFrameSize.toNat ++ ascii " bytes"

/-- `io.ReadFull`. -/
def readFullE (n : Nat) (s : List UInt8) : Except GoString (List UInt8 × List UInt8) :=
  match readFull n s with
  | some r => .ok r
  | none => .error (readFullError s)

/-- `length` with the extended length that follows the header. -/
def frameLength (length : UInt64) (s : List UInt8) : Except GoString (UInt64 × List UInt8) :=
  if length = 126 then
    (readFullE 2 s).map fun (extended, s) =>
      ((extended.getD 0 0).toUInt64 <<< 8 ||| (extended.getD 1 0).toUInt64, s)
  else if length = 127 then
    (readFullE 8 s).map fun (extended, s) => (extended.foldl (fun length b => length <<< 8 ||| b.toUInt64) 0, s)
  else .ok (length, s)

/-- The opcode and the payload of a frame, and what follows it. -/
def readFrame (s : List UInt8) : Except GoString ((UInt8 × List UInt8) × List UInt8) := do
  let (header, s) ← readFullE 2 s
  let b1 := header.getD 1 0
  let isMasked := b1 &&& 0x80 != 0
  let (length, s) ← frameLength (b1 &&& 0x7F).toUInt64 s
  if maxFrameSize < length then throw (frameSizeError length)
  let (maskKey, s) ← if isMasked then readFullE 4 s else pure ([], s)
  let (payload, s) ← readFullE length.toNat s
  return ((header.getD 0 0 &&& 0x0F, if isMasked then mask maskKey payload else payload), s)

/-- `n` calls of `readFrame`. -/
def readFrames : Nat → List UInt8 → Except GoString (List (UInt8 × List UInt8) × List UInt8)
  | 0, s => .ok ([], s)
  | n + 1, s => do
    let (frame, s) ← readFrame s
    let (frames, s) ← readFrames n s
    return (frame :: frames, s)

/-! ## From the server to the SDK -/

/-- The frames the server writes. -/
inductive ServerFrame
  | message (data : GoString)
  | pong
  deriving DecidableEq

namespace ServerFrame

def bytes : ServerFrame → List UInt8
  | .message data => sendMessage data
  | .pong => writePong

def content : ServerFrame → UInt8 × List UInt8
  | .message data => (opCodeText, data)
  | .pong => (opCodePong, [])

/-- A message is of at most 16 MiB. -/
def Fits : ServerFrame → Prop
  | .message data => data.length ≤ 16 * 1024 * 1024
  | .pong => True

instance : DecidablePred Fits := fun f => by cases f <;> unfold Fits <;> infer_instance

end ServerFrame

theorem readFullE_append {l : List UInt8} {n} (h : l.length = n) (rest : List UInt8) :
    readFullE n (l ++ rest) = .ok (l, rest) := by
  rw [readFullE, Stream.readFull_append h]

/-- Both sides read a length in the same way. -/
theorem frameLength_of_pumpLength (h : pumpLength n s = some r) : frameLength n s = .ok r := by
  have hshift : ∀ {k ext s'}, k ≤ 8 → readFull k s = some (ext, s') → ext.length = k ∧
      ext.foldl (fun (n : UInt64) b => n <<< 8 ||| b.toUInt64) 0 = UInt64.ofNat (ofBigEndian ext) := by
    intro k ext s' hk hread
    have hlen : ext.length = k := by
      unfold readFull at hread
      split at hread <;> cases hread
      simp; omega
    exact ⟨hlen, by rw [← (Stream.toNat_foldl_shift (hlen.trans_le hk)).1, UInt64.ofNat_toNat]⟩
  unfold pumpLength at h
  unfold frameLength
  split_ifs at h ⊢
  · obtain ⟨⟨ext, s'⟩, hread, rfl⟩ := map_eq_some_iff.mp h
    obtain ⟨hlen, hvalue⟩ := hshift (by decide) hread
    obtain ⟨a, b, rfl⟩ := length_eq_two.mp hlen
    simp only [readFullE, hread, ← hvalue]
    simp [Except.map]
  · obtain ⟨⟨ext, s'⟩, hread, rfl⟩ := map_eq_some_iff.mp h
    simp only [readFullE, hread, ← (hshift (by decide) hread).2]
    rfl
  · cases h
    rfl

theorem readFrame_plain {data} (hbit : (b1 &&& 0x80 != 0) = false)
    (hlen : frameLength (b1 &&& 0x7F).toUInt64 s = .ok (n, data ++ rest)) (hfits : ¬ maxFrameSize < n)
    (hn : data.length = n.toNat) : readFrame (b0 :: b1 :: s) = .ok ((b0 &&& 0x0F, data), rest) := by
  have hheader : readFullE 2 (b0 :: b1 :: s) = .ok ([b0, b1], s) := readFullE_append (l := [b0, b1]) rfl s
  simp only [readFrame, hheader, bind, Except.bind, getD_cons_zero, getD_cons_succ, hlen, hfits, hbit,
    if_false, Bool.false_eq_true, pure, Except.pure, readFullE_append hn rest]

theorem readFrame_written {f : ServerFrame} (h : f.Fits) (rest : List UInt8) :
    readFrame (f.bytes ++ rest) = .ok (f.content, rest) := by
  cases f with
  | message data =>
    have hsize : data.length ≤ 16 * 1024 * 1024 := h
    obtain ⟨m, ext, hm, hlen, -, hread⟩ := pumpLength_written hsize (data ++ rest)
    obtain ⟨hbit, hlow, -⟩ := header_bits m hm
    rw [← hlow] at hread
    have hbytes : sendMessage data ++ rest = (0x80 ||| opCodeText) :: m.toUInt8 :: (ext ++ (data ++ rest)) := by
      simp [sendMessage, hlen]
    have hnat : data.length = (UInt64.ofNat data.length).toNat := by
      rw [UInt64.toNat_ofNat']
      omega
    have hfits : ¬ maxFrameSize < UInt64.ofNat data.length := by
      rw [UInt64.lt_iff_toNat_lt, ← hnat]
      exact Nat.not_lt.mpr hsize
    rw [ServerFrame.bytes, hbytes]
    exact readFrame_plain hbit (frameLength_of_pumpLength hread) hfits hnat
  | pong =>
    have hlen : frameLength ((0x00 : UInt8) &&& 0x7F).toUInt64 rest = .ok (0, [] ++ rest) := rfl
    exact readFrame_plain rfl hlen (by decide) rfl

/-- **What the server writes is what the SDK reads**, frame by frame and to
the last byte. -/
theorem readFrames_written {frames : List ServerFrame} (h : ∀ f ∈ frames, f.Fits) (rest : List UInt8) :
    readFrames frames.length (frames.flatMap ServerFrame.bytes ++ rest) =
      .ok (frames.map ServerFrame.content, rest) := by
  induction frames with
  | nil => rfl
  | cons f frames ih =>
    have hfirst := readFrame_written (h f mem_cons_self) (frames.flatMap ServerFrame.bytes ++ rest)
    have hrest := ih fun g hg => h g (mem_cons_of_mem f hg)
    rw [flatMap_cons, append_assoc, length_cons, readFrames, hfirst]
    simp only [bind, Except.bind, hrest]
    rfl

theorem readFrames_written_sample : (∀ f ∈ [ServerFrame.message (ascii "hi"), .pong], f.Fits) ∧
    readFrames 2 ([ServerFrame.message (ascii "hi"), .pong].flatMap ServerFrame.bytes ++ [0x81]) =
      .ok ([(opCodeText, ascii "hi"), (opCodePong, [])], [0x81]) := by
  have hfits : ∀ f ∈ [ServerFrame.message (ascii "hi"), .pong], f.Fits := by decide
  exact ⟨hfits, readFrames_written hfits [0x81]⟩

end Ws

end TinyMQ
