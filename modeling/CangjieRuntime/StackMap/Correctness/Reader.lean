import CangjieRuntime.StackMap.BitsManager

/-!
# `StackMap.Correctness.Reader` — the reader reads the bit stream

A cursor is a *position* in the stream of bits of the memory (`pos`), and it is nothing else: two cursors at one
position are equal. `GetBits` is then a window of the stream and `GetNext` is addition, and what follows about
`VarInt` and `ResolveHeader` never looks at bytes again.
-/

namespace CangjieRuntime.StackMap

open BitStream

/-- Bit `i` of the memory, low bit first within each byte. -/
def streamBit (mem : Memory) (i : Nat) : Bool := (mem (i / 8)).toNat.testBit (i % 8)

/-- The position of a cursor in the stream. -/
def BitsManager.pos (bits : BitsManager) : Nat := 8 * bits.addr + bits.bitPos

namespace BitsManager

variable {mem : Memory} {bits : BitsManager}

theorem eq_of_pos {x y : BitsManager} (h : x.pos = y.pos) : x = y := by
  have hx := x.lt
  have hy := y.lt
  unfold pos at h
  refine BitsManager.ext ?_ ?_ <;> omega

/-! ## Reading -/

/-- The first `n` bytes put together have the bits of the stream. -/
theorem testBit_connect (addr n j : Nat) :
    ((List.range n).foldl (fun value i => value ||| (mem (addr + i)).toNat <<< (8 * i)) 0).testBit j =
      (decide (j < 8 * n) && streamBit mem (8 * addr + j)) := by
  induction n with
  | zero => simp
  | succ n ih =>
    rw [List.range_succ, List.foldl_append, List.foldl_cons, List.foldl_nil, Nat.testBit_or, ih, Nat.testBit_shiftLeft]
    have hbyte : (mem (addr + n)).toNat < 2 ^ 8 := (mem (addr + n)).toNat_lt
    rcases Nat.lt_trichotomy (j / 8) n with hlt | heq | hgt
    · -- an earlier byte
      have h1 : j < 8 * n := by omega
      have h2 : ¬ 8 * n ≤ j := by omega
      have h3 : j < 8 * (n + 1) := by omega
      simp [h1, h2, h3]
    · -- the byte just added
      have h1 : ¬ j < 8 * n := by omega
      have h2 : 8 * n ≤ j := by omega
      have h3 : j < 8 * (n + 1) := by omega
      have h4 : (8 * addr + j) / 8 = addr + n := by omega
      have h5 : (8 * addr + j) % 8 = j - 8 * n := by omega
      simp [h1, h2, h3, streamBit, h4, h5]
    · have h1 : ¬ j < 8 * n := by omega
      have h3 : ¬ j < 8 * (n + 1) := by omega
      have hbig : (mem (addr + n)).toNat < 2 ^ (j - 8 * n) :=
        lt_of_lt_of_le hbyte (Nat.pow_le_pow_right (by decide) (by omega))
      simp [h1, h3, Nat.testBit_lt_two_pow hbig]

/-- **`GetBits` reads a window of the stream.** -/
theorem getBits_eq {n : Nat} (hn : n ≤ 32) : bits.getBits mem n = window (streamBit mem) bits.pos n := by
  have hmask : (1 <<< n - 1) % 2 ^ 32 = 2 ^ n - 1 := by
    rw [Nat.one_shiftLeft]
    apply Nat.mod_eq_of_lt
    have hle : 2 ^ n ≤ 2 ^ 32 := Nat.pow_le_pow_right (by decide) hn
    have hpos : 0 < 2 ^ n := Nat.two_pow_pos n
    omega
  unfold getBits
  rw [hmask, Nat.and_two_pow_sub_one_eq_mod]
  apply eq_window (Nat.mod_lt _ (Nat.two_pow_pos n))
  intro j hj
  have hlt := bits.lt
  rw [Nat.testBit_mod_two_pow, Nat.testBit_shiftRight]
  unfold connectBytesToU64
  rw [show BITS_NUM_PER_BYTE = 8 from rfl, testBit_connect]
  -- five bytes are enough: at most 7 + 32 bits are looked at
  have h40 : bits.bitPos + j < 8 * 5 := by omega
  simp [hj, h40, pos, Nat.add_assoc]

/-! ## Moving -/

/-- **`GetNext` adds to the position.** -/
@[simp] theorem pos_getNext (a : Nat) : (bits.getNext a).pos = bits.pos + a := by
  have hand : a &&& 7 = a % 8 := Nat.and_two_pow_sub_one_eq_mod a 3
  have hshift : a >>> 3 = a / 8 := Nat.shiftRight_eq_div_pow a 3
  unfold getNext
  simp only [BITS_SHIFT_PER_BYTE, BITS_NUM_PER_BYTE, show 1 <<< 3 - 1 = 7 from rfl, hand, hshift]
  split <;> simp only [pos] <;> omega

theorem getNext_getNext (a b : Nat) : (bits.getNext a).getNext b = bits.getNext (a + b) := by
  apply eq_of_pos
  rw [pos_getNext, pos_getNext, pos_getNext, Nat.add_assoc]

end BitsManager

/-! ## `VarInt` -/

/-- **The encodings of a number**: the tag itself, or a tag and a payload wide enough for it. -/
inductive Encoding : Nat → List Bool → Prop where
  | tag {v : Nat} (h : v ≤ 11) : Encoding v (bitsOf 4 v)
  | payload {v : Nat} (k : Nat) (hk : k < 4) (h : v < 2 ^ (8 * (k + 1))) :
      Encoding v (bitsOf 4 (12 + k) ++ bitsOf (8 * (k + 1)) v)

variable {mem : Memory} {bits : BitsManager}

/-- The payload is read where it was placed. -/
theorem getPayload_eq {v n : Nat} (hn : n ≤ 32) (hv : v < 2 ^ n)
    (h : Placed (streamBit mem) (bits.pos + 4) (bitsOf n v)) : VarInt.getPayload mem bits n = v := by
  unfold VarInt.getPayload
  rw [BitsManager.getBits_eq hn, BitsManager.pos_getNext]
  exact window_of_placed hv h

/-- **`GetValue` undoes every encoding**, wherever it stands and whatever follows. -/
theorem getValue_of_encoding {v : Nat} {enc : List Bool} (henc : Encoding v enc)
    (h : Placed (streamBit mem) bits.pos enc) : VarInt.getValue mem bits = (v, enc.length) := by
  unfold VarInt.getValue
  rw [show VarInt.TAG_LEN = 4 from rfl, BitsManager.getBits_eq (by decide)]
  cases henc with
  | tag hv =>
    have htag : window (streamBit mem) bits.pos 4 = v := window_of_placed (by omega) h
    have hmod : v % 2 ^ 8 = v := by omega
    rw [htag, hmod]
    simp [VarInt.MAX_VALID_VALUE, hv]
  | payload k hk hv =>
    obtain ⟨htag', hpay⟩ := placed_append.mp h
    rw [length_bitsOf] at hpay
    have htag : window (streamBit mem) bits.pos 4 = 12 + k := window_of_placed (by omega) htag'
    have hmod : (12 + k) % 2 ^ 8 = 12 + k := by omega
    have hval : VarInt.getPayload mem bits (8 * (k + 1)) = v := getPayload_eq (by omega) hv hpay
    rw [htag, hmod]
    -- the four widths
    obtain rfl | rfl | rfl | rfl : k = 0 ∨ k = 1 ∨ k = 2 ∨ k = 3 := by omega
    all_goals
      simp only [VarInt.MAX_VALID_VALUE, VarInt.VAR_VALUE8, VarInt.VAR_VALUE16, VarInt.VAR_VALUE24,
        VarInt.FIRST_STEP_VAR_BITS, VarInt.SECOND_STEP_VAR_BITS, VarInt.THIRD_STEP_VAR_BITS,
        VarInt.FORTH_STEP_VAR_BITS, List.length_append, length_bitsOf]
      simpa using hval

/-! ## `ResolveHeader` -/

/-- The numbers of a header, each in one of its encodings. -/
inductive Encodings : List Nat → List Bool → Prop where
  | nil : Encodings [] []
  | cons {v : Nat} {vs : List Nat} {enc encs : List Bool} (h : Encoding v enc) (hs : Encodings vs encs) :
      Encodings (v :: vs) (enc ++ encs)

/-- **`ResolveHeader` recovers the header and the position behind it.** -/
theorem resolveHeader_of_encodings {vs : List Nat} {enc : List Bool} (henc : Encodings vs enc) :
    ∀ bits : BitsManager, Placed (streamBit mem) bits.pos enc →
      resolveHeader mem bits vs.length = (vs, bits.getNext enc.length) := by
  induction henc with
  | nil =>
    intro bits _
    have hstay : bits.getNext 0 = bits := BitsManager.eq_of_pos (by simp)
    simp [resolveHeader, hstay]
  | @cons v vs enc encs h _ ih =>
    intro bits hplaced
    obtain ⟨hhead, htail⟩ := placed_append.mp hplaced
    have hrest := ih (bits.getNext enc.length) (by rwa [BitsManager.pos_getNext])
    rw [List.length_cons, resolveHeader, getValue_of_encoding h hhead]
    simp only [hrest, BitsManager.getNext_getNext, List.length_append]

/-- **The stack-map reader.** For every memory and cursor: a read of at most 32 bits is the window of the stream at
    the cursor, moves add up, `VarInt` undoes each encoding of a 32-bit number and reports its length, and
    `ResolveHeader` recovers every list of numbers and ends right behind it. -/
theorem reader_reads_stream (mem : Memory) (bits : BitsManager) :
    (∀ n ≤ 32, bits.getBits mem n = window (streamBit mem) bits.pos n) ∧
    (∀ a, (bits.getNext a).pos = bits.pos + a) ∧
    (∀ a b, (bits.getNext a).getNext b = bits.getNext (a + b)) ∧
    (∀ v enc, Encoding v enc → Placed (streamBit mem) bits.pos enc → VarInt.getValue mem bits = (v, enc.length)) ∧
    (∀ vs enc, Encodings vs enc → Placed (streamBit mem) bits.pos enc →
      resolveHeader mem bits vs.length = (vs, bits.getNext enc.length)) := by
  refine ⟨?_, ?_, ?_, ?_, ?_⟩
  · intro n hn
    exact BitsManager.getBits_eq hn
  · intro a
    exact BitsManager.pos_getNext a
  · intro a b
    exact BitsManager.getNext_getNext a b
  · intro v enc henc hplaced
    exact getValue_of_encoding henc hplaced
  · intro vs enc henc hplaced
    exact resolveHeader_of_encodings henc bits hplaced

/-- The number 17 in twelve bits followed by the number 7 in four. -/
theorem reader_reads_stream_sample :
    resolveHeader (fun a => if a = 0 then 0x1C else 0x71) ⟨0, 0, by decide⟩ 2 =
      ([17, 7], BitsManager.getNext ⟨0, 0, by decide⟩ 16) := by
  have henc : Encodings [17, 7] ((bitsOf 4 12 ++ bitsOf 8 17) ++ (bitsOf 4 7 ++ [])) :=
    .cons (.payload 0 (by decide) (by decide)) (.cons (.tag (by decide)) .nil)
  exact (reader_reads_stream _ _).2.2.2.2 _ _ henc (by unfold Placed; decide)

end CangjieRuntime.StackMap
