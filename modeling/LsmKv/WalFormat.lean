import LsmKv.DurableFile

/-!
# WAL segments byte by byte

The record framing `Wal::append` writes and `scan_segment` reads back. A record is framed as
`payload_len | payload | crc32(payload)` with
`payload = type | seqno | key_len | value_len | key | value`.
-/

namespace LsmKv

/-- One replayed mutation; the value of a delete is empty. -/
structure Record where
  del : Bool
  key : Bytes
  value : Bytes
  seqno : ℕ
  deriving DecidableEq, Repr

namespace WalFormat

def kMagic : Bytes := [0x4C, 0x53, 0x4D, 0x57]
def kVersion : UInt8 := 1
def kHeaderSize : ℕ := 8
def kTypePut : UInt8 := 1
def kTypeDel : UInt8 := 2
def kMinPayload : ℕ := 1 + 8 + 4 + 4
def kMaxPayload : ℕ := 2 ^ 30
def kFrameOverhead : ℕ := 4 + 4

def header : Bytes := kMagic ++ [kVersion] ++ [0, 0, 0]

def typeCode (del : Bool) : UInt8 := if del then kTypeDel else kTypePut

def payload (r : Record) : Bytes :=
  typeCode r.del :: (leBytes 8 r.seqno ++ (leBytes 4 r.key.length ++
    (leBytes 4 r.value.length ++ (r.key ++ r.value))))

def payloadSize (r : Record) : ℕ := kMinPayload + r.key.length + r.value.length

/-- The bytes `append` writes; `payload_len` is cast to 32 bits. -/
def frame (r : Record) : Bytes :=
  let payload_len := payloadSize r % 2 ^ 32
  leBytes 4 payload_len ++ (payload r ++ leBytes 4 (crc32 ((payload r).take payload_len)))

/-- The self-description of a payload whose checksum has matched. -/
def decodePayload (payload_len : ℕ) (buf : Bytes) : Option Record := do
  let type ← buf[0]?
  let seqno ← readLe buf 1 8
  let key_len ← readLe buf 9 4
  let val_len ← readLe buf 13 4
  if (type ≠ kTypePut ∧ type ≠ kTypeDel) ∨ kMinPayload + key_len + val_len ≠ payload_len ∨
      (type = kTypeDel ∧ val_len ≠ 0) then none
  else
    some ⟨type == kTypeDel, (buf.drop kMinPayload).take key_len,
      (buf.drop (kMinPayload + key_len)).take val_len, seqno⟩

/-- One turn of the loop in `scan_segment`: every `break` but the clean end is `none`. -/
def readFrame (b : Bytes) : Option (Record × Bytes) :=
  if b.length < 4 then none
  else
    let payload_len := leNat (b.take 4)
    if payload_len < kMinPayload ∨ kMaxPayload < payload_len then none
    else
      let buf := (b.drop 4).take (payload_len + 4)
      if buf.length ≠ payload_len + 4 then none
      else if crc32 (buf.take payload_len) ≠ leNat (buf.drop payload_len) then none
      else (decodePayload payload_len (buf.take payload_len)).map
        (fun r => (r, b.drop (4 + (payload_len + 4))))

/-- What the scanner accepts as a record. -/
structure Readable (r : Record) : Prop where
  size : payloadSize r ≤ kMaxPayload
  seqno : r.seqno < 2 ^ 64
  del : r.del = true → r.value = []

@[simp] theorem length_header : header.length = kHeaderSize := rfl

@[simp] theorem length_payload (r : Record) : (payload r).length = payloadSize r := by
  simp only [payload, payloadSize, kMinPayload, List.length_cons, List.length_append,
    length_leBytes]
  omega

@[simp] theorem length_frame (r : Record) :
    (frame r).length = kFrameOverhead + payloadSize r := by
  simp only [frame, kFrameOverhead, List.length_append, length_leBytes, length_payload]
  omega

theorem length_frame_pos (r : Record) : 0 < (frame r).length := by
  rw [length_frame]
  exact Nat.add_pos_left (by decide) _

theorem payloadSize_lt {r : Record} (h : payloadSize r ≤ kMaxPayload) :
    payloadSize r < 2 ^ 32 := by
  unfold kMaxPayload at h
  omega

theorem key_lt {r : Record} (h : payloadSize r < 2 ^ 32) : r.key.length < 256 ^ 4 := by
  unfold payloadSize at h
  omega

theorem value_lt {r : Record} (h : payloadSize r < 2 ^ 32) : r.value.length < 256 ^ 4 := by
  unfold payloadSize at h
  omega

theorem hasAt_payload (r : Record) :
    HasAt (payload r) 1 (leBytes 8 r.seqno) ∧ HasAt (payload r) 9 (leBytes 4 r.key.length) ∧
      HasAt (payload r) 13 (leBytes 4 r.value.length) := by
  have h : HasAt (payload r) 1 (leBytes 8 r.seqno ++ (leBytes 4 r.key.length ++
      (leBytes 4 r.value.length ++ (r.key ++ r.value)))) :=
    ⟨[typeCode r.del], [], by simp [payload], rfl⟩
  have h₂ := h.right
  have h₃ := h₂.right
  simp only [length_leBytes] at h₂ h₃
  exact ⟨h.left, h₂.left, h₃.left⟩

theorem drop_payload (r : Record) : (payload r).drop kMinPayload = r.key ++ r.value := by
  have h : payload r = (typeCode r.del :: (leBytes 8 r.seqno ++ (leBytes 4 r.key.length ++
      leBytes 4 r.value.length))) ++ (r.key ++ r.value) := by simp [payload]
  rw [h, List.drop_left' (by simp [kMinPayload])]

theorem decodePayload_payload {r : Record} (h : Readable r) :
    decodePayload (payloadSize r) (payload r) = some r := by
  have hlt := payloadSize_lt h.size
  obtain ⟨h₁, h₂, h₃⟩ := hasAt_payload r
  have hkey : ((payload r).drop kMinPayload).take r.key.length = r.key := by
    rw [drop_payload, List.take_left]
  have hval : ((payload r).drop (kMinPayload + r.key.length)).take r.value.length = r.value := by
    rw [← List.drop_drop, drop_payload, List.drop_left, List.take_length]
  have hseq : r.seqno < 256 ^ 8 := lt_of_lt_of_eq h.seqno (by norm_num)
  have hdel : ¬(typeCode r.del = kTypeDel ∧ r.value.length ≠ 0) := by
    rintro ⟨hd, hv⟩
    cases hb : r.del with
    | false => simp [typeCode, hb, kTypePut, kTypeDel] at hd
    | true => simp [h.del hb] at hv
  have htype : ¬(typeCode r.del ≠ kTypePut ∧ typeCode r.del ≠ kTypeDel) := by
    cases r.del <;> simp [typeCode]
  have hcode : (typeCode r.del == kTypeDel) = r.del := by
    cases r.del <;> simp [typeCode, kTypePut, kTypeDel]
  simp only [decodePayload, h₁.readLe hseq, h₂.readLe (key_lt hlt), h₃.readLe (value_lt hlt),
    Option.bind_eq_bind, Option.bind_some]
  rw [show (payload r)[0]? = some (typeCode r.del) from rfl, Option.bind_some, hkey, hval]
  rw [if_neg (by simp only [payloadSize, ne_eq, not_true, false_or]; tauto), hcode]

theorem frame_of_lt {r : Record} (h : payloadSize r < 2 ^ 32) :
    frame r = leBytes 4 (payloadSize r) ++ (payload r ++ leBytes 4 (crc32 (payload r))) := by
  simp only [frame]
  rw [Nat.mod_eq_of_lt h, List.take_of_length_le (by simp)]

theorem readFrame_frame {r : Record} (h : Readable r) (rest : Bytes) :
    readFrame (frame r ++ rest) = some (r, rest) := by
  have hlt := payloadSize_lt h.size
  have hf : frame r ++ rest = leBytes 4 (payloadSize r) ++
      (payload r ++ (leBytes 4 (crc32 (payload r)) ++ rest)) := by
    simp only [frame_of_lt hlt, List.append_assoc]
  have hlen : ¬(frame r ++ rest).length < 4 := by
    simp only [List.length_append, length_frame, kFrameOverhead]
    omega
  have htake : leNat ((frame r ++ rest).take 4) = payloadSize r := by
    rw [hf, List.take_left' (by simp), leNat_leBytes_of_lt (lt_of_lt_of_eq hlt (by norm_num))]
  have hmin : ¬(payloadSize r < kMinPayload ∨ kMaxPayload < payloadSize r) := by
    rintro (h' | h')
    · unfold payloadSize at h'
      omega
    · exact absurd h' (not_lt.mpr h.size)
  have hbuf : ((frame r ++ rest).drop 4).take (payloadSize r + 4) =
      payload r ++ leBytes 4 (crc32 (payload r)) := by
    rw [hf, List.drop_left' (by simp), ← List.append_assoc, List.take_left' (by simp)]
  have hrest : (frame r ++ rest).drop (4 + (payloadSize r + 4)) = rest := by
    rw [List.drop_left' (by simp only [length_frame, kFrameOverhead]; omega)]
  have hbl : ¬(payload r ++ leBytes 4 (crc32 (payload r))).length ≠ payloadSize r + 4 := by simp
  have htp : (payload r ++ leBytes 4 (crc32 (payload r))).take (payloadSize r) = payload r :=
    List.take_left' (by simp)
  have hdp : leNat ((payload r ++ leBytes 4 (crc32 (payload r))).drop (payloadSize r)) =
      crc32 (payload r) := by
    rw [List.drop_left' (by simp), leNat_leBytes_of_lt (crc32_lt _)]
  unfold readFrame
  simp only [hlen, htake, hmin, hbuf, hbl, htp, hdp, hrest, decodePayload_payload h, if_false,
    ne_eq, not_true, Option.map_some]

theorem readAt_eq_some {b s : Bytes} {off n : ℕ} (h : readAt b off n = some s) :
    s.length = n ∧ (b.drop off) = s ++ b.drop (off + n) := by
  unfold readAt at h
  split at h
  · cases h
    refine ⟨by simp only [List.length_take, List.length_drop]; omega, ?_⟩
    rw [← List.drop_drop, List.take_append_drop]
  · cases h

theorem readLe_eq_some {b : Bytes} {off n v : ℕ} (h : readLe b off n = some v) :
    v < 256 ^ n ∧ b.drop off = leBytes n v ++ b.drop (off + n) := by
  obtain ⟨s, hs, rfl⟩ := Option.map_eq_some_iff.mp h
  obtain ⟨hl, hd⟩ := readAt_eq_some hs
  refine ⟨hl ▸ leNat_lt s, ?_⟩
  rw [leBytes_leNat_of_length hl]
  exact hd

theorem decodePayload_sound {n : ℕ} {buf : Bytes} {r : Record} (hn : buf.length = n)
    (h : decodePayload n buf = some r) :
    payload r = buf ∧ payloadSize r = n ∧ r.seqno < 2 ^ 64 ∧ (r.del = true → r.value = []) := by
  simp only [decodePayload, Option.bind_eq_bind, Option.bind_eq_some_iff] at h
  obtain ⟨t, ht, s, hs, k, hk, v, hv, h⟩ := h
  split at h
  · cases h
  rename_i hc
  push Not at hc
  obtain ⟨htype, hsum, hdel⟩ := hc
  obtain ⟨hs₁, hs₂⟩ := readLe_eq_some hs
  obtain ⟨-, hk₂⟩ := readLe_eq_some hk
  obtain ⟨-, hv₂⟩ := readLe_eq_some hv
  obtain rfl := Option.some.inj h
  have hbuf : buf = t :: buf.drop 1 := by
    cases buf with
    | nil => simp at ht
    | cons a l => simpa using ht
  have hk : ((buf.drop kMinPayload).take k).length = k := by
    simp only [List.length_take, List.length_drop]
    omega
  have hv : ((buf.drop (kMinPayload + k)).take v).length = v := by
    simp only [List.length_take, List.length_drop]
    omega
  have hcode : typeCode (t == kTypeDel) = t := by
    by_cases h : t = kTypeDel
    · simp [h, typeCode]
    · have hp : t = kTypePut := by
        by_contra hp
        exact h (htype hp)
      simp [hp, typeCode, kTypePut, kTypeDel]
  have hbody : (buf.drop kMinPayload).take k ++ (buf.drop (kMinPayload + k)).take v =
      buf.drop kMinPayload := by
    have hall : (buf.drop (kMinPayload + k)).take v = buf.drop (kMinPayload + k) :=
      List.take_of_length_le (by simp only [List.length_drop]; omega)
    rw [hall, ← List.drop_drop, List.take_append_drop]
  refine ⟨?_, by simp only [payloadSize, hk, hv]; exact hsum, ?_, ?_⟩
  · simp only [payload, hk, hv, hcode, hbody]
    conv_rhs => rw [hbuf, hs₂, hk₂, hv₂]
    rfl
  · exact lt_of_lt_of_eq hs₁ (by norm_num)
  · intro hd
    have hz := hdel (by simpa using hd)
    rw [hz, List.take_zero]

/-- The scanner reads nothing but frames `append` writes. -/
theorem readFrame_sound {b rest : Bytes} {r : Record} (h : readFrame b = some (r, rest)) :
    Readable r ∧ b = frame r ++ rest := by
  simp only [readFrame] at h
  split_ifs at h with h₁ h₂ h₃ h₄
  obtain ⟨r', hr', he⟩ := Option.map_eq_some_iff.mp h
  cases he
  push Not at h₂ h₃ h₄
  set n := leNat (b.take 4) with hn
  have hbl : ((b.drop 4).take (n + 4)).length = n + 4 := h₃
  obtain ⟨hp, hsz, hsq, hdel⟩ := decodePayload_sound
    (by rw [List.length_take, hbl]; omega) hr'
  have hread : Readable r := ⟨by omega, hsq, hdel⟩
  refine ⟨hread, ?_⟩
  rw [frame_of_lt (payloadSize_lt hread.size), hsz, hp, h₄]
  have hn4 : leBytes 4 n = b.take 4 :=
    leBytes_leNat_of_length (by rw [List.length_take]; omega)
  have hcrc : leBytes 4 (leNat (((b.drop 4).take (n + 4)).drop n)) =
      ((b.drop 4).take (n + 4)).drop n :=
    leBytes_leNat_of_length (by rw [List.length_drop, hbl]; omega)
  rw [hn4, hcrc, List.take_append_drop, ← List.drop_drop, List.append_assoc,
    List.take_append_drop, List.take_append_drop]

theorem frame_ne_nil (r : Record) : frame r ≠ [] := by
  intro h
  have := congrArg List.length h
  simp [kFrameOverhead] at this

/-- The record framing as a self-delimiting format. -/
def codec : FrameCodec Record where
  Good := Readable
  encode := frame
  read := readFrame
  read_encode _ _ h := readFrame_frame h _
  read_sound _ _ _ h := readFrame_sound h
  encode_ne_nil := frame_ne_nil

/-- A record over the scanner's cap is where scanning stops. -/
theorem readFrame_oversize {r : Record} (h : kMaxPayload < payloadSize r)
    (hlt : payloadSize r < 2 ^ 32) (rest : Bytes) : readFrame (frame r ++ rest) = none := by
  have htake : leNat ((frame r ++ rest).take 4) = payloadSize r := by
    rw [frame_of_lt hlt, List.append_assoc, List.take_left' (by simp),
      leNat_leBytes_of_lt (lt_of_lt_of_eq hlt (by norm_num))]
  unfold readFrame
  simp only [htake, h, or_true, if_true, ite_self]

end WalFormat
end LsmKv
