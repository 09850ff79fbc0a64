import XnuPod.Kit.Transducer

/-! The framing of packets on the serial line of the kernel debugger, `kdp/kdp_serial.c`.  A frame is
a start character, the four bytes of the checksum, a start character, the packet and an end character,
with bytes escaped.  The decoder keeps its state in static variables, and its caller's variable `len` is
only written on some paths. -/

namespace XnuPod.Kdp

open Kit.Transducer

def skdpStartChar : UInt8 := 0xFA

def skdpEndChar : UInt8 := 0xFB

def skdpEscChar : UInt8 := 0xFE

def kdpSerialOut (byte : UInt8) : List UInt8 :=
  if byte = skdpStartChar ∨ byte = skdpEndChar ∨ byte = skdpEscChar ∨ byte = 10 then
    [skdpEscChar, ~~~byte]
  else [byte]

def crcBytes (crc : UInt32) : List UInt8 :=
  [(crc >>> 0).toUInt8, (crc >>> 8).toUInt8, (crc >>> 16).toUInt8, (crc >>> 24).toUInt8]

/-- `kdp_serialize_packet`; `crc32` is `z_crc32` with the initial value 0. -/
def kdpSerializePacket (crc32 : List UInt8 → UInt32) (packet : List UInt8) : List UInt8 :=
  [skdpStartChar] ++ (crcBytes (crc32 packet)).flatMap kdpSerialOut ++
    ([skdpStartChar] ++ packet.flatMap kdpSerialOut ++ [skdpEndChar])

inductive DsState
  | waitStart
  | reading
  | escaped
  deriving DecidableEq, Repr

abbrev bufferSize : Nat := 1518

structure Decoder where
  dsState : DsState
  dsBuffer : Vector UInt8 bufferSize
  dsPos : Fin bufferSize
  dsCRC : UInt32
  dsHaveCRC : Bool

def serializeWaitStart : UInt32 := 0

def serializeReading : UInt32 := 1

/-- `dsBuffer[dsPos++] = byte` in the state `DS_READING`, with the test behind the switch. -/
def Decoder.store (d : Decoder) (byte : UInt8) (len : UInt32) : Decoder × UInt32 :=
  let d := { d with dsBuffer := d.dsBuffer.set d.dsPos byte, dsState := .reading }
  if h : d.dsPos + 1 < bufferSize then ({ d with dsPos := ⟨d.dsPos + 1, h⟩ }, len)
  else ({ d with dsState := .waitStart, dsPos := 0 }, serializeWaitStart)

def Decoder.contents (d : Decoder) : List UInt8 := d.dsBuffer.toList.take d.dsPos

/-- `kdp_unserialize_packet`.  The state is that of the decoder and the caller's `len`, and the reply
is the buffer if it is returned. -/
def kdpUnserializePacket (crc32 : List UInt8 → UInt32) (s : Decoder × UInt32) (byte : UInt8) :
    (Decoder × UInt32) × UInt32 × Option (Vector UInt8 bufferSize) :=
  let (d, len) := s
  let answer (s : Decoder × UInt32) (buffer : Option (Vector UInt8 bufferSize)) := (s, s.2, buffer)
  match d.dsState with
  | .waitStart =>
    if byte = skdpStartChar then
      answer ({ d with dsState := .reading, dsPos := 0, dsHaveCRC := false }, serializeReading) none
    else answer (d, serializeWaitStart) none
  | .reading =>
    if byte = skdpEscChar then answer ({ d with dsState := .escaped }, serializeReading) none
    else if byte = skdpStartChar then
      let d := if d.dsPos.val ≥ 4 then
          { d with
            dsHaveCRC := true
            dsCRC := d.dsBuffer[0].toUInt32 ||| d.dsBuffer[1].toUInt32 <<< 8 |||
              d.dsBuffer[2].toUInt32 <<< 16 ||| d.dsBuffer[3].toUInt32 <<< 24 }
        else d
      answer ({ d with dsPos := 0 }, serializeReading) none
    else if byte = skdpEndChar then
      let pos := d.dsPos
      let contents := d.contents
      let d := { d with dsState := .waitStart, dsPos := 0 }
      if d.dsHaveCRC ∧ crc32 contents ≠ d.dsCRC then answer (d, serializeWaitStart) none
      else answer (d, UInt32.ofNat pos) (some d.dsBuffer)
    else answer (d.store byte len) none
  | .escaped => answer (d.store (~~~byte) serializeReading) none

/-! A decoder in any state.  Only an escape character is followed by a byte that is not looked at, and
every escape sequence is complete, so that a start character leaves the decoder outside of one and the
end character of the frame is always seen. -/

section Synchronised

variable (crc32 : List UInt8 → UInt32)

theorem kdpSerialOut_cases (byte : UInt8) :
    kdpSerialOut byte = [skdpEscChar, ~~~byte] ∧ ~~~byte ≠ skdpStartChar ∨
      kdpSerialOut byte = [byte] ∧ byte ≠ skdpStartChar ∧ byte ≠ skdpEndChar ∧
        byte ≠ skdpEscChar := by
  unfold kdpSerialOut
  split
  · rename_i h
    rcases h with rfl | rfl | rfl | rfl <;> decide
  · rename_i h
    simp only [not_or] at h
    exact Or.inr ⟨rfl, h.1, h.2.1, h.2.2.1⟩

theorem Decoder.store_ne_escaped (d : Decoder) (byte : UInt8) (len : UInt32) :
    (d.store byte len).1.dsState ≠ .escaped := by
  unfold Decoder.store
  dsimp only
  split <;> simp

variable {s : Decoder × UInt32}

theorem step_escaped (h : s.1.dsState = .escaped) (byte : UInt8) :
    kdpUnserializePacket crc32 s byte =
      (s.1.store (~~~byte) serializeReading, (s.1.store (~~~byte) serializeReading).2, none) := by
  simp only [kdpUnserializePacket, h]

theorem step_reading_esc (h : s.1.dsState = .reading) : kdpUnserializePacket crc32 s skdpEscChar =
      (({ s.1 with dsState := .escaped }, serializeReading), serializeReading, none) := by
  simp only [kdpUnserializePacket, h, ↓reduceIte]

theorem step_reading_plain (h : s.1.dsState = .reading) (hstart : byte ≠ skdpStartChar)
    (hend : byte ≠ skdpEndChar) (hesc : byte ≠ skdpEscChar) :
    kdpUnserializePacket crc32 s byte = (s.1.store byte s.2, (s.1.store byte s.2).2, none) := by
  simp only [kdpUnserializePacket, h, hstart, hend, hesc, ↓reduceIte]

theorem step_waitStart (h : s.1.dsState = .waitStart) (hstart : byte ≠ skdpStartChar) :
    kdpUnserializePacket crc32 s byte = ((s.1, serializeWaitStart), serializeWaitStart, none) := by
  simp only [kdpUnserializePacket, h, hstart, ↓reduceIte]

theorem step_start_ne_escaped (s : Decoder × UInt32) :
    (kdpUnserializePacket crc32 s skdpStartChar).1.1.dsState ≠ .escaped := by
  rcases h : s.1.dsState with _ | _ | _
  · simp [kdpUnserializePacket, h]
  · have hesc : skdpStartChar ≠ skdpEscChar := by decide
    simp only [kdpUnserializePacket, h, hesc, ↓reduceIte]
    split <;> simp [h]
  · rw [step_escaped crc32 h]
    exact s.1.store_ne_escaped _ _

section

variable (h : s.1.dsState ≠ .escaped)
include h

theorem step_end_waitStart :
    (kdpUnserializePacket crc32 s skdpEndChar).1.1.dsState = .waitStart := by
  have hstart : skdpEndChar ≠ skdpStartChar := by decide
  have hesc : skdpEndChar ≠ skdpEscChar := by decide
  rcases hs : s.1.dsState with _ | _ | _
  · rw [step_waitStart crc32 hs hstart]
    exact hs
  · simp only [kdpUnserializePacket, hs, hstart, hesc, ↓reduceIte]
    split <;> rfl
  · exact absurd hs h

theorem after_kdpSerialOut_ne_escaped (byte : UInt8) :
    (after (kdpUnserializePacket crc32) s (kdpSerialOut byte)).1.dsState ≠ .escaped := by
  have hesc : skdpEscChar ≠ skdpStartChar := by decide
  rcases hs : s.1.dsState with _ | _ | _
  · -- Without a start character nothing happens.
    rcases kdpSerialOut_cases byte with ⟨hout, hne⟩ | ⟨hout, hne, -, -⟩
    · rw [hout]
      simp only [after, step_waitStart crc32 hs hesc]
      rw [step_waitStart crc32 (s := (s.1, serializeWaitStart)) hs hne]
      exact h
    · rw [hout]
      simp only [after, step_waitStart crc32 hs hne]
      exact h
  · rcases kdpSerialOut_cases byte with ⟨hout, -⟩ | ⟨hout, hstart, hend, hne⟩
    · rw [hout]
      simp only [after, step_reading_esc crc32 hs]
      exact Decoder.store_ne_escaped _ _ _
    · rw [hout]
      simp only [after, step_reading_plain crc32 hs hstart hend hne]
      exact Decoder.store_ne_escaped _ _ _
  · exact absurd hs h

theorem after_flatMap_ne_escaped (bytes : List UInt8) :
    (after (kdpUnserializePacket crc32) s (bytes.flatMap kdpSerialOut)).1.dsState ≠ .escaped := by
  induction bytes generalizing s with
  | nil => exact h
  | cons byte bytes ih =>
    rw [List.flatMap_cons, after_append]
    exact ih (after_kdpSerialOut_ne_escaped crc32 h byte)

end

theorem after_kdpSerializePacket (s : Decoder × UInt32) (packet : List UInt8) :
    (after (kdpUnserializePacket crc32) s (kdpSerializePacket crc32 packet)).1.dsState =
      .waitStart := by
  simp only [kdpSerializePacket, after_append]
  apply step_end_waitStart
  apply after_flatMap_ne_escaped
  apply step_start_ne_escaped

end Synchronised

/-! A decoder that waits for a start character.  It reads the four bytes of the checksum, then the
packet, and answers nothing before the end character. -/

section Reading

variable (crc32 : List UInt8 → UInt32)

def Decoder.expected (d : Decoder) : Option UInt32 := if d.dsHaveCRC then some d.dsCRC else none

structure Reading (expected : Option UInt32) (bytes : List UInt8) (d : Decoder) : Prop where
  state : d.dsState = .reading
  expects : d.expected = expected
  pos : d.dsPos.val = bytes.length
  contents : d.dsBuffer.toList.take bytes.length = bytes

def Silent (replies : List (UInt32 × Option (Vector UInt8 bufferSize))) : Prop :=
  ∀ reply ∈ replies, reply.2 = none

theorem Silent.append (hx : Silent xs) (hy : Silent ys) : Silent (xs ++ ys) := by
  intro reply h
  rcases List.mem_append.mp h with h | h
  · exact hx reply h
  · exact hy reply h

theorem getLsbD_byte (x : BitVec 32) (hi : i < 32) (k : Nat) :
    (((x >>> k).setWidth 8).setWidth 32 <<< k).getLsbD i =
      (decide (k ≤ i ∧ i < k + 8) && x.getLsbD i) := by
  simp only [BitVec.getLsbD_shiftLeft, BitVec.getLsbD_setWidth, BitVec.getLsbD_ushiftRight, hi]
  rcases lt_or_ge i k with h | h
  · simp [h]
  have hsum : k + (i - k) = i := by omega
  have hwidth : i - k < 32 := by omega
  have hbyte : (i - k < 8) = (k ≤ i ∧ i < k + 8) := by
    apply propext
    omega
  simp only [hsum, hwidth, hbyte, not_lt.mpr h, decide_false, decide_true, Bool.not_false,
    Bool.true_and]

theorem crcBytes_word (crc : UInt32) :
    (crc >>> 0).toUInt8.toUInt32 ||| (crc >>> 8).toUInt8.toUInt32 <<< 8 |||
      (crc >>> 16).toUInt8.toUInt32 <<< 16 ||| (crc >>> 24).toUInt8.toUInt32 <<< 24 = crc := by
  apply UInt32.eq_of_toBitVec_eq
  apply BitVec.eq_of_getLsbD_eq
  intro i hi
  have h0 := getLsbD_byte crc.toBitVec hi 0
  have h8 := getLsbD_byte crc.toBitVec hi 8
  have h16 := getLsbD_byte crc.toBitVec hi 16
  have h24 := getLsbD_byte crc.toBitVec hi 24
  rw [BitVec.shiftLeft_zero] at h0
  change ((_ ||| _) ||| _ ||| _ : BitVec 32).getLsbD i = _
  rw [BitVec.getLsbD_or, BitVec.getLsbD_or, BitVec.getLsbD_or]
  refine (congrArg₂ or (congrArg₂ or (congrArg₂ or h0 h8) h16) h24).trans ?_
  cases crc.toBitVec.getLsbD i with
  | false => simp
  | true =>
    simp only [Bool.and_true, Bool.or_eq_true, decide_eq_true_eq]
    omega

variable {s : Decoder × UInt32}

theorem Reading.store (h : Reading expected bytes d) (hroom : bytes.length + 1 < bufferSize)
    (byte : UInt8) (len : UInt32) : Reading expected (bytes ++ [byte]) (d.store byte len).1 := by
  have hpos : d.dsPos.val + 1 < bufferSize := h.pos ▸ hroom
  unfold Decoder.store
  rw [dif_pos hpos]
  refine ⟨rfl, h.expects, ?_, ?_⟩
  · rw [List.length_append]
    exact congrArg (· + 1) h.pos
  have hlen : bytes.length < d.dsBuffer.toList.length := by
    rw [Vector.length_toList]
    omega
  rw [Vector.toList_set, h.pos, List.length_append, List.length_singleton,
    List.take_succ_eq_append_getElem (by rwa [List.length_set]), List.getElem_set_self,
    List.take_set_of_le (le_refl _), h.contents]

theorem Reading.kdpSerialOut (h : Reading expected bytes s.1)
    (hroom : bytes.length + 1 < bufferSize) (byte : UInt8) : Reading expected (bytes ++ [byte])
        (after (kdpUnserializePacket crc32) s (kdpSerialOut byte)).1 ∧
      Silent (replies (kdpUnserializePacket crc32) s (kdpSerialOut byte)) := by
  rcases kdpSerialOut_cases byte with ⟨hout, -⟩ | ⟨hout, hstart, hend, hne⟩
  · have hescaped : Reading expected bytes { s.1 with dsState := .reading } :=
      { h with state := rfl }
    rw [hout]
    simp only [after, replies, step_reading_esc crc32 h.state]
    rw [step_escaped crc32 rfl, UInt8.not_not]
    refine ⟨hescaped.store hroom byte serializeReading, ?_⟩
    simp [Silent]
  · rw [hout]
    simp only [after, replies, step_reading_plain crc32 h.state hstart hend hne]
    refine ⟨h.store hroom byte s.2, ?_⟩
    simp [Silent]

theorem Reading.flatMap (h : Reading expected bytes s.1) (more : List UInt8)
    (hroom : bytes.length + more.length < bufferSize) : Reading expected (bytes ++ more)
        (after (kdpUnserializePacket crc32) s (more.flatMap Kdp.kdpSerialOut)).1 ∧
      Silent (replies (kdpUnserializePacket crc32) s (more.flatMap Kdp.kdpSerialOut)) := by
  induction more generalizing s bytes with
  | nil =>
    constructor
    · rw [List.append_nil]
      exact h
    · simp [Silent, replies]
  | cons byte more ih =>
    rw [List.length_cons] at hroom
    obtain ⟨hread, hsilent⟩ := h.kdpSerialOut crc32 (by omega) byte
    have hlen : (bytes ++ [byte]).length + more.length < bufferSize := by
      rw [List.length_append, List.length_singleton]
      omega
    obtain ⟨hreads, hsilents⟩ := ih hread hlen
    rw [List.flatMap_cons, after_append, replies_append]
    rw [List.append_assoc] at hreads
    exact ⟨hreads, hsilent.append hsilents⟩

theorem Reading.first (h : s.1.dsState = .waitStart) :
    Reading none [] (after (kdpUnserializePacket crc32) s [skdpStartChar]).1 ∧
      Silent (replies (kdpUnserializePacket crc32) s [skdpStartChar]) := by
  simp only [after, replies, kdpUnserializePacket, h]
  refine ⟨⟨rfl, rfl, rfl, rfl⟩, ?_⟩
  simp [Silent]

theorem Reading.getElem (h : Reading expected bytes d) (hi : i < bytes.length)
    (hbuf : i < bufferSize) : d.dsBuffer[i] = bytes[i] := by
  have htake := List.getElem_of_eq h.contents.symm hi
  rw [List.getElem_take] at htake
  exact htake.symm

theorem Reading.second (h : Reading none (crcBytes crc) s.1) :
    Reading (some crc) [] (after (kdpUnserializePacket crc32) s [skdpStartChar]).1 ∧
      Silent (replies (kdpUnserializePacket crc32) s [skdpStartChar]) := by
  have hesc : skdpStartChar ≠ skdpEscChar := by decide
  have hfour : s.1.dsPos.val ≥ 4 := le_of_eq h.pos.symm
  have h0 := h.getElem (show 0 < 4 by decide) (by decide)
  have h1 := h.getElem (show 1 < 4 by decide) (by decide)
  have h2 := h.getElem (show 2 < 4 by decide) (by decide)
  have h3 := h.getElem (show 3 < 4 by decide) (by decide)
  simp only [after, replies, kdpUnserializePacket, h.state, hesc, hfour]
  refine ⟨⟨rfl, ?_, rfl, rfl⟩, ?_⟩
  · simp only [h0, h1, h2, h3]
    exact congrArg some (crcBytes_word crc)
  · simp [Silent]

theorem Reading.last (h : Reading (some (crc32 bytes)) bytes s.1) :
    ∃ buffer, replies (kdpUnserializePacket crc32) s [skdpEndChar] =
        [(UInt32.ofNat bytes.length, some buffer)] ∧ buffer.toList.take bytes.length = bytes := by
  have hstart : skdpEndChar ≠ skdpStartChar := by decide
  have hesc : skdpEndChar ≠ skdpEscChar := by decide
  have hcontents : s.1.contents = bytes := by
    rw [Decoder.contents, h.pos]
    exact h.contents
  have hgood : ¬ (s.1.dsHaveCRC = true ∧ crc32 s.1.contents ≠ s.1.dsCRC) := by
    rintro ⟨hhave, hne⟩
    have hexpects := h.expects
    rw [Decoder.expected, if_pos hhave] at hexpects
    apply hne
    rw [hcontents]
    exact (Option.some.inj hexpects).symm
  refine ⟨s.1.dsBuffer, ?_, h.contents⟩
  simp only [replies, kdpUnserializePacket, h.state, hstart, hesc, hgood, h.pos, ↓reduceIte]

theorem replies_kdpSerializePacket (h : s.1.dsState = .waitStart) (hq : q.length < bufferSize) :
    ∃ frame buffer, replies (kdpUnserializePacket crc32) s (kdpSerializePacket crc32 q) =
        frame ++ [(UInt32.ofNat q.length, some buffer)] ∧
      Silent frame ∧ buffer.toList.take q.length = q := by
  obtain ⟨hread, hsilent⟩ := Reading.first crc32 h
  have hfour : ([] : List UInt8).length + (crcBytes (crc32 q)).length < bufferSize := by
    show 0 + 4 < 1518
    decide
  obtain ⟨hread, hsilent₁⟩ := hread.flatMap crc32 (crcBytes (crc32 q)) hfour
  obtain ⟨hread, hsilent₂⟩ := Reading.second crc32 hread
  have hroom : ([] : List UInt8).length + q.length < bufferSize := by
    rw [List.length_nil, zero_add]
    exact hq
  obtain ⟨hread, hsilent₃⟩ := hread.flatMap crc32 q hroom
  obtain ⟨buffer, hlast, hbuffer⟩ := Reading.last crc32 hread
  have hsilents := (hsilent.append hsilent₁).append (hsilent₂.append hsilent₃)
  refine ⟨_, buffer, ?_, hsilents, hbuffer⟩
  simp only [kdpSerializePacket, replies_append, List.append_assoc]
  rw [hlast]

end Reading

/-- Two frames, of any packet and of one that fits into the buffer, are fed to a decoder in any state.
In the second frame nothing is handed out before the last byte, and there the second packet is. -/
theorem kdpUnserializePacket_frames (crc32 : List UInt8 → UInt32) (s : Decoder × UInt32)
    (p q : List UInt8) (hq : q.length < bufferSize) :
    ∃ (before frame : List (UInt32 × Option (Vector UInt8 bufferSize)))
      (buffer : Vector UInt8 bufferSize),
      replies (kdpUnserializePacket crc32) s
          (kdpSerializePacket crc32 p ++ kdpSerializePacket crc32 q) =
        before ++ (frame ++ [(UInt32.ofNat q.length, some buffer)]) ∧
      before.length = (kdpSerializePacket crc32 p).length ∧
      frame.length + 1 = (kdpSerializePacket crc32 q).length ∧
      Silent frame ∧ buffer.toList.take q.length = q := by
  have hwait := after_kdpSerializePacket crc32 s p
  obtain ⟨frame, buffer, hframe, hsilent, hbuffer⟩ := replies_kdpSerializePacket crc32 hwait hq
  refine ⟨_, frame, buffer, ?_, length_replies (kdpUnserializePacket crc32) s _, ?_, hsilent,
    hbuffer⟩
  · rw [replies_append, hframe]
  · have hlength := congrArg List.length hframe
    rw [length_replies, List.length_append] at hlength
    exact hlength.symm

/-- A decoder inside of an escape sequence, with the second packet made of special bytes. -/
theorem kdpUnserializePacket_frames_special :
    ∃ (before frame : List (UInt32 × Option (Vector UInt8 bufferSize)))
      (buffer : Vector UInt8 bufferSize),
      replies (kdpUnserializePacket fun _ => 0xFAFB0AFE)
          (⟨.escaped, Vector.replicate bufferSize 0, 7, 0, true⟩, 0)
          (kdpSerializePacket (fun _ => 0xFAFB0AFE) [1, 2] ++
            kdpSerializePacket (fun _ => 0xFAFB0AFE) [0xFA, 0xFE, 0x0A]) =
        before ++ (frame ++ [(3, some buffer)]) ∧
      before.length = (kdpSerializePacket (fun _ => 0xFAFB0AFE) [1, 2]).length ∧
      frame.length + 1 = (kdpSerializePacket (fun _ => 0xFAFB0AFE) [0xFA, 0xFE, 0x0A]).length ∧
      Silent frame ∧ buffer.toList.take 3 = [0xFA, 0xFE, 0x0A] :=
  kdpUnserializePacket_frames (fun _ => 0xFAFB0AFE) _ [1, 2] [0xFA, 0xFE, 0x0A] (by decide)

end XnuPod.Kdp
