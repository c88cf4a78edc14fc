import CangjieRuntime.Lib.Bits
import CangjieRuntime.StackMap.Correctness.Reader
import CangjieRuntime.StackMap.SlotTable

/-!
# `StackMap.Correctness.SlotVisits` — both bitmap formats visit the same slots

A bitmap denotes a list of bits, one a slot; visiting it must hand over the addresses of the true ones in increasing
order (`trueIndices`). For the WAH format the list is given by `WahStream`, the grammar of its streams, and the proof
goes by induction over that grammar: decoding takes one item off the stream and pushes one word, visiting the word
covers exactly the slots of the item. The plain format is its own list, cut into words.
-/

namespace CangjieRuntime.StackMap

open Bits BitStream SlotRoot SlotTable List

/-! ## Words -/

theorem bitsOf_succ (n w : Nat) : bitsOf (n + 1) w = w.testBit 0 :: bitsOf n (w >>> 1) := by
  unfold bitsOf
  rw [range_succ_eq_map, map_cons, map_map]
  simp [Function.comp_def, Nat.testBit_shiftRight, Nat.add_comm]

theorem bitsOf_zero_right (n : Nat) : bitsOf n 0 = replicate n false := by
  unfold bitsOf
  apply ext_getElem (by simp)
  intro i _ _
  simp

variable {n off count : Nat} {l : List Bool} {words : List Nat}

/-- Shifting a word out finds its true bits. -/
theorem setBits_eq : ∀ {w : Nat} (j : Nat), w < 2 ^ n → setBits w j = trueIndices (bitsOf n w) j := by
  induction n with
  | zero =>
    intro w j hw
    obtain rfl : w = 0 := by omega
    rw [setBits]; rfl
  | succ n ih =>
    intro w j hw
    by_cases hzero : w = 0
    · subst hzero
      rw [setBits, bitsOf_zero_right]; simp
    · have hhalf : w >>> 1 < 2 ^ n := by rw [Nat.shiftRight_one]; omega
      have hbit : w.testBit 0 = decide (w % 2 = 1) := by rw [Nat.testBit_zero]
      rw [setBits, if_neg hzero, bitsOf_succ, Nat.and_one_is_mod, ih (j + 1) hhalf]
      by_cases hodd : w % 2 = 1
      · rw [if_neg (by omega), hbit]; simp [hodd, trueIndices]
      · rw [if_pos (by omega), hbit]; simp [hodd, trueIndices]

/-! ## Biases -/

theorem toI32_eq {x : Int} (hlo : -2 ^ 31 ≤ x) (hhi : x < 2 ^ 31) : toI32 x = x := by
  unfold toI32; split <;> omega

/-- The biases of the first `n` slots are computed without overflow. -/
structure Fits (slotBias : Int) (n : Nat) : Prop where
  le : n ≤ 2 ^ 28
  lo : -2 ^ 31 ≤ slotBias - 8 * n
  hi : slotBias < 2 ^ 31

/-- The address of slot `i`. -/
def slotAt (base : Nat) (slotBias : Int) (i : Nat) : Int := slotAddress base (slotBias - 8 * i)

variable {base : Nat} {slotBias : Int}

theorem Fits.mono {m n : Nat} (h : Fits slotBias n) (hmn : m ≤ n) : Fits slotBias m := by
  obtain ⟨hle, hlo, hhi⟩ := h
  exact ⟨hmn.trans hle, by omega, hhi⟩

/-- Moving the running bias by `n` slots. -/
theorem Fits.advance (h : Fits slotBias (off + n)) :
    toI32 (slotBias - 8 * off + toI32 (toI32 n * BYTES_PER_SLOT)) = slotBias - 8 * ↑(off + n) := by
  obtain ⟨hle, hlo, hhi⟩ := h
  unfold BYTES_PER_SLOT
  rw [toI32_eq (x := (n : Int)) (by omega) (by omega), toI32_eq (x := (n : Int) * -8) (by omega) (by omega),
    toI32_eq (by push_cast at hlo; omega) (by omega)]
  push_cast; omega

theorem visitOneSlot_eq {off idx : Nat} (h : Fits slotBias (off + idx)) :
    visitOneSlot base (slotBias - 8 * off) idx = slotAt base slotBias (off + idx) := by
  unfold visitOneSlot slotAt
  rw [h.advance]

/-! ## Visiting one word -/

/-- A literal keeps its tag above its 31 bits. -/
theorem literal_word {w : Nat} (hw : w < 2 ^ 31) :
    (w ||| 1 <<< 31) &&& 1 <<< 31 ≠ 0 ∧ (w ||| 1 <<< 31) &&& (1 <<< 31 - 1) = w := by
  rw [show 1 <<< 31 = 2 ^ 31 from rfl, or_two_pow_of_lt hw, and_two_pow_ne_zero, Nat.and_two_pow_sub_one_eq_mod]
  omega

/-- A run of fewer than `2 ^ 30` groups keeps its count clear of the two tag bits. -/
theorem run_word (fill : Bool) (hcount : count < 2 ^ 30) :
    ¬ (count ||| fill.toNat <<< 30) &&& 1 <<< 31 ≠ 0 ∧
    ((count ||| fill.toNat <<< 30) &&& 1 <<< 30 ≠ 0 ↔ fill = true) ∧
    (count ||| fill.toNat <<< 30) &&& (1 <<< 30 - 1) = count := by
  have hword : count ||| fill.toNat <<< 30 = count + fill.toNat * 2 ^ 30 := by
    cases fill with
    | false => simp
    | true =>
      rw [Bool.toNat_true, Nat.one_shiftLeft, or_two_pow_of_lt hcount, Nat.one_mul]
  rw [show 1 <<< 31 = 2 ^ 31 from rfl, show 1 <<< 30 = 2 ^ 30 from rfl, hword, and_two_pow_ne_zero,
    and_two_pow_ne_zero, Nat.and_two_pow_sub_one_eq_mod]
  clear hword
  cases fill with
  | false =>
    rw [Bool.toNat_false]
    exact ⟨by omega, ⟨fun h => by omega, fun h => absurd h (by decide)⟩, by omega⟩
  | true =>
    rw [Bool.toNat_true]
    exact ⟨by omega, ⟨fun _ => rfl, fun _ => by omega⟩, by omega⟩

/-- A literal of at most 31 bits visits its true bits and moves on by 31 slots. -/
theorem visit_literal (base : Nat) {b : Nat → Bool} {p : Nat} (hl : l.length ≤ 31) (hplaced : Placed b p l)
    (hfits : Fits slotBias (off + 31)) :
    processOneSlotBits base (slotBias - 8 * off) (window b p l.length ||| 1 <<< 31) =
      ((trueIndices l off).map (slotAt base slotBias), slotBias - 8 * ↑(off + 31)) := by
  have hw : window b p l.length < 2 ^ 31 := lt_of_lt_of_le window_lt (Nat.pow_le_pow_right (by decide) hl)
  have hbits : bitsOf l.length (window b p l.length) = l := by
    have hsame := bitsOf_window (b := b) (p := p) l.length 0
    rw [replicate_zero, append_nil, slice_of_placed hplaced] at hsame
    exact hsame
  unfold processOneSlotBits
  rw [if_pos (literal_word hw).1, (literal_word hw).2, setBits_eq 0 window_lt, hbits]
  have hmove := hfits.advance
  refine Prod.ext ?_ hmove
  rw [trueIndices_eq_map l off, map_map]
  apply map_congr_left
  intro i hi
  -- a true bit of the literal is one of its first 31 slots
  have hlt : i < l.length := (List.getElem?_eq_some_iff.mp (mem_trueIndices.mp hi)).1
  exact visitOneSlot_eq (hfits.mono (by omega))

/-- A run visits all of its slots or none. -/
theorem visit_run (base : Nat) (fill : Bool) (hfits : Fits slotBias (off + 31 * count)) :
    processOneSlotBits base (slotBias - 8 * off) (count ||| fill.toNat <<< 30) =
      ((trueIndices (replicate (31 * count) fill) off).map (slotAt base slotBias),
        slotBias - 8 * ↑(off + 31 * count)) := by
  have hcount : count < 2 ^ 30 := by have := hfits.le; omega
  have hnums : count * 31 % 2 ^ 32 = 31 * count := by have := hfits.le; omega
  have hmove := hfits.advance
  obtain ⟨htag, hall, hvalue⟩ := run_word fill hcount
  unfold processOneSlotBits
  rw [if_neg htag]
  simp only [hvalue, hnums]
  refine Prod.ext ?_ hmove
  cases fill with
  | false =>
    rw [if_neg (fun h => absurd (hall.mp h) (by decide)), trueIndices_replicate_false]
    rfl
  | true =>
    rw [if_pos (hall.mpr rfl), trueIndices_replicate_true, map_map]
    apply map_congr_left
    intro i hi
    have hlt := mem_range.mp hi
    exact visitOneSlot_eq (hfits.mono (by omega))

/-! ## The WAH format -/

/-- **The WAH streams** and the slots they cover: literals of 31 slots tagged 1 (the last one may be cut short by the
    end of the bitmap, the slots cut off being clear), runs tagged 0 of a positive number of groups of 31 equal slots,
    and zero bits as padding. -/
inductive WahStream : List Bool → List Bool → Prop where
  | padding (k : Nat) : WahStream (List.replicate k false) []
  | truncated {l : List Bool} (h : l.length < 31) :
      WahStream (true :: l) (l ++ List.replicate (31 - l.length) false)
  | literal {l rest slots : List Bool} (h : l.length = 31) (hrest : WahStream rest slots) :
      WahStream (true :: l ++ rest) (l ++ slots)
  | run {fill : Bool} {count : Nat} {enc rest slots : List Bool} (hpos : 0 < count) (henc : Encoding count enc)
      (hrest : WahStream rest slots) :
      WahStream (false :: fill :: enc ++ rest) (List.replicate (31 * count) fill ++ slots)

variable {mem : Memory} {cur : BitsManager}

theorem getBits_one (bits : BitsManager) : bits.getBits mem 1 = (streamBit mem bits.pos).toNat := by
  rw [BitsManager.getBits_eq (by decide), window_one]

/-- A literal is pushed as it is; `hm` says that it is whole or the last. -/
theorem wahLoop_literal (hm : min (l.length + n) 31 = l.length)
    (hplaced : Placed (streamBit mem) cur.pos (true :: l)) :
    wahLoop mem cur (l.length + 1 + n) = (wahLoop mem (cur.getNext (l.length + 1)) n).map
      ((window (streamBit mem) (cur.pos + 1) l.length ||| 1 <<< 31) :: ·) := by
  obtain ⟨htag, -⟩ := placed_cons.mp hplaced
  have hle : l.length ≤ 32 := by omega
  rw [wahLoop, if_neg (by omega)]
  simp only [getBits_one, htag, Bool.toNat_true, show l.length + 1 + n - 1 = l.length + n by omega, hm,
    BitsManager.getNext_getNext, BitsManager.getBits_eq hle, BitsManager.pos_getNext, Nat.add_sub_cancel_left,
    Nat.add_comm 1 l.length]
  simp

/-- A run is pushed as its count and its fill bit. -/
theorem wahLoop_run {fill : Bool} {enc : List Bool} (hpos : 0 < count)
    (henc : Encoding count enc) (hplaced : Placed (streamBit mem) cur.pos (false :: fill :: enc)) :
    wahLoop mem cur (enc.length + 2 + n) = (wahLoop mem (cur.getNext (enc.length + 2)) n).map
      ((count ||| fill.toNat <<< 30) :: ·) := by
  obtain ⟨htag, hplaced⟩ := placed_cons.mp hplaced
  obtain ⟨hfill, hplaced⟩ := placed_cons.mp hplaced
  have henc4 : 4 ≤ enc.length := by cases henc <;> simp
  have hvalue : VarInt.getValue mem (cur.getNext 2) = (count, enc.length) :=
    getValue_of_encoding henc (by rw [BitsManager.pos_getNext]; exact hplaced)
  rw [wahLoop, if_neg (by omega)]
  simp only [getBits_one, htag, Bool.toNat_false, BitsManager.getNext_getNext, hvalue, BitsManager.pos_getNext, hfill]
  -- enough bits are left for the run, so neither the padding test nor the counter gets in the way
  rw [if_neg (by simp), if_neg (by unfold VarInt.TAG_LEN; omega), if_neg (by omega), if_neg (by omega)]
  rw [show enc.length + 2 + n - 1 - 1 - enc.length = n by omega, Nat.add_comm (1 + 1) enc.length]

/-- Zero bits end the stream: too few are left for a run, or the count reads zero. -/
theorem wahLoop_padding {k : Nat} (hplaced : Placed (streamBit mem) cur.pos (replicate k false)) :
    wahLoop mem cur k = some [] := by
  have hbit : ∀ i < k, streamBit mem (cur.pos + i) = false := by
    intro i hi
    rw [hplaced i (by simpa using hi)]
    simp
  rw [wahLoop]
  by_cases hk : k = 0
  · rw [if_pos hk]
  · have htag : streamBit mem cur.pos = false := hbit 0 (by omega)
    rw [if_neg hk]
    simp only [getBits_one, htag, Bool.toNat_false, BitsManager.getNext_getNext]
    rw [if_neg (by simp)]
    by_cases hshort : k - 1 < VarInt.TAG_LEN + 1
    · rw [if_pos hshort]
    · have hlen : 5 ≤ k - 1 := Nat.le_of_not_lt hshort
      have hvalue : VarInt.getValue mem (cur.getNext (1 + 1)) = (0, 4) := by
        apply getValue_of_encoding (Encoding.tag (by decide))
        intro i hi
        rw [length_bitsOf] at hi
        rw [BitsManager.pos_getNext, Nat.add_assoc, hbit _ (by omega)]
        simp [bitsOf]
      rw [if_neg hshort, hvalue]
      simp only
      rw [if_true]

/-- **Decoding and visiting a WAH stream** hands over exactly the true slots, and the counter never wraps. -/
theorem visit_wahStream (base : Nat) (slotBias : Int) {stream slots : List Bool} (h : WahStream stream slots) :
    ∀ cur : BitsManager, Placed (streamBit mem) cur.pos stream →
      ∃ words, wahLoop mem cur stream.length = some words ∧
        ∀ off, Fits slotBias (off + slots.length) →
          visitWAHGCRoots base (slotBias - 8 * off) words = (trueIndices slots off).map (slotAt base slotBias) := by
  induction h with
  | padding k =>
    intro cur hplaced
    refine ⟨[], ?_, fun _ _ => rfl⟩
    rw [length_replicate]
    exact wahLoop_padding hplaced
  | @truncated l hl =>
    intro cur hplaced
    have hend : wahLoop mem (cur.getNext (l.length + 1)) 0 = some [] := by rw [wahLoop, if_pos rfl]
    have hloop := wahLoop_literal (n := 0) (by omega) hplaced
    rw [hend, Nat.add_zero] at hloop
    refine ⟨_, hloop, ?_⟩
    intro off hfits
    simp only [length_append, length_replicate] at hfits
    have hword := visit_literal base (by omega) (placed_cons.mp hplaced).2
      (hfits.mono (by omega) : Fits slotBias (off + 31))
    rw [trueIndices_append, trueIndices_replicate_false]
    simp only [visitWAHGCRoots, hword, append_nil]
  | @literal l rest slots hl hrest ih =>
    intro cur hplaced
    obtain ⟨hhead, htail⟩ := placed_append.mp hplaced
    obtain ⟨words, hdecode, hvisit⟩ := ih (cur.getNext (l.length + 1)) (by rwa [BitsManager.pos_getNext])
    have hloop := wahLoop_literal (n := rest.length) (by omega) hhead
    rw [hdecode, Option.map_some] at hloop
    refine ⟨_, (congrArg _ (length_append ..)).trans hloop, ?_⟩
    intro off hfits
    simp only [length_append] at hfits
    have hword := visit_literal base (by omega) (placed_cons.mp hhead).2
      (hfits.mono (by omega) : Fits slotBias (off + 31))
    rw [visitWAHGCRoots, hword, hvisit (off + 31) (hfits.mono (by omega)), trueIndices_append, map_append, hl]
  | @run fill count enc rest slots hpos henc hrest ih =>
    intro cur hplaced
    obtain ⟨hhead, htail⟩ := placed_append.mp hplaced
    obtain ⟨words, hdecode, hvisit⟩ := ih (cur.getNext (enc.length + 2)) (by rwa [BitsManager.pos_getNext])
    have hloop := wahLoop_run (n := rest.length) hpos henc hhead
    rw [hdecode, Option.map_some] at hloop
    refine ⟨_, (congrArg _ (length_append ..)).trans hloop, ?_⟩
    intro off hfits
    simp only [length_append, length_replicate] at hfits
    have hword := visit_run base fill (hfits.mono (by omega) : Fits slotBias (off + 31 * count))
    rw [visitWAHGCRoots, hword, hvisit (off + 31 * count) (hfits.mono (by omega)), trueIndices_append,
      map_append, length_replicate]

/-! ## The plain format -/

/-- The slots of a list of words. -/
def wordSlots (words : List Nat) : List Bool := words.flatMap (bitsOf 32)

theorem wordSlots_append (words words' : List Nat) :
    wordSlots (words ++ words') = wordSlots words ++ wordSlots words' := flatMap_append

/-- The bias of one slot of the plain walk. -/
theorem pureBias_eq {i j : Nat} (h : Fits slotBias (32 * i + j)) :
    toI32 (toI32 (toI32 ↑(i * BIT_SIZE + j) * BYTES_PER_SLOT) + toI32 (slotBias * BIAS_COEF)) =
      slotBias - 8 * ↑(32 * i + j) := by
  obtain ⟨hle, hlo, hhi⟩ := h
  unfold BIT_SIZE BYTES_PER_SLOT BIAS_COEF
  rw [toI32_eq (x := ((i * 32 + j : Nat) : Int)) (by omega) (by omega),
    toI32_eq (x := ((i * 32 + j : Nat) : Int) * -8) (by omega) (by omega),
    toI32_eq (x := slotBias * 1) (by omega) (by omega), toI32_eq (by omega) (by omega)]
  omega

/-- Walking the words visits their true slots, as long as those fit. -/
theorem visit_words (hlt : ∀ w ∈ words, w < 2 ^ 32) :
    ∀ i, (∀ k ∈ trueIndices (wordSlots words) (32 * i), Fits slotBias k) →
      visitPureGCRoots slotBias base i words = (trueIndices (wordSlots words) (32 * i)).map (slotAt base slotBias) := by
  induction words with
  | nil => intro i _; rfl
  | cons w words ih =>
    intro i hfits
    have hsplit : trueIndices (wordSlots (w :: words)) (32 * i) =
        trueIndices (bitsOf 32 w) (32 * i) ++ trueIndices (wordSlots words) (32 * (i + 1)) := by
      rw [show wordSlots (w :: words) = bitsOf 32 w ++ wordSlots words from rfl, trueIndices_append, length_bitsOf,
        Nat.mul_add]
    rw [hsplit] at hfits ⊢
    have hrest := ih (fun v hv => hlt v (mem_cons_of_mem _ hv)) (i + 1)
      (fun k hk => hfits k (mem_append_right _ hk))
    rw [visitPureGCRoots, hrest, map_append, setBits_eq 0 (hlt w (mem_cons_self ..)),
      trueIndices_eq_map (bitsOf 32 w) (32 * i), map_map]
    refine congrArg (· ++ _) (map_congr_left ?_)
    intro j hj
    have hmem : 32 * i + j ∈ trueIndices (bitsOf 32 w) (32 * i) := by
      rw [trueIndices_eq_map]; exact mem_map_of_mem hj
    rw [pureBias_eq (hfits _ (mem_append_left _ hmem))]
    rfl

/-- The full words are the slots, 32 at a time. -/
theorem fullWords_eq (mem : Memory) (n : Nat) : ∀ cur : BitsManager,
    (fullWords mem cur n).2 = cur.getNext (32 * n) ∧ (fullWords mem cur n).1.length = n ∧
    (∀ w ∈ (fullWords mem cur n).1, w < 2 ^ 32) ∧
    wordSlots (fullWords mem cur n).1 = slice (streamBit mem) cur.pos (32 * n) := by
  induction n with
  | zero =>
    intro cur
    have hstay : cur.getNext 0 = cur := BitsManager.eq_of_pos (by simp)
    exact ⟨hstay.symm, rfl, by simp [fullWords], rfl⟩
  | succ n ih =>
    intro cur
    obtain ⟨hcur, hlen, hlt, hslots⟩ := ih (cur.getNext 32)
    have hword : cur.getBits mem 32 = window (streamBit mem) cur.pos 32 := BitsManager.getBits_eq (by decide)
    refine ⟨?_, by simp [fullWords, hlen], ?_, ?_⟩
    · rw [fullWords, hcur, BitsManager.getNext_getNext, show 32 + 32 * n = 32 * (n + 1) by omega]
    · intro w hw
      rcases mem_cons.mp hw with rfl | hw
      · rw [hword]; exact window_lt
      · exact hlt w hw
    · have hhead : bitsOf 32 (cur.getBits mem 32) = slice (streamBit mem) cur.pos 32 := by
        rw [hword]; simpa using bitsOf_window (b := streamBit mem) (p := cur.pos) 32 0
      show bitsOf 32 (cur.getBits mem 32) ++ wordSlots (fullWords mem (cur.getNext 32) n).1 = _
      rw [hhead, hslots, BitsManager.pos_getNext, ← slice_add, show 32 + 32 * n = 32 * (n + 1) by omega]

/-- The words dropped from the end are zero. -/
theorem validSize_zero {buffer : List Nat} :
    ∀ k, validSize buffer n ≤ k → k ≤ n → buffer.getD k 0 = 0 := by
  induction n with
  | zero => intro k hlo hhi; simp only [validSize] at hlo; omega
  | succ n ih =>
    intro k hlo hhi
    unfold validSize at hlo
    by_cases hne : buffer.getD (n + 1) 0 ≠ 0
    · rw [if_pos hne] at hlo; omega
    · rw [if_neg hne] at hlo
      rcases Nat.lt_or_ge k (n + 1) with hk | hk
      · exact ih k hlo (by omega)
      · obtain rfl : k = n + 1 := by omega
        exact not_not.mp hne

/-- The word that stays last is the first one, or is not zero. -/
theorem validSize_last (buffer : List Nat) (n : Nat) :
    validSize buffer n = 1 ∨ ∃ k ≤ n, validSize buffer n = k + 1 ∧ buffer.getD k 0 ≠ 0 := by
  induction n with
  | zero => exact .inl rfl
  | succ n ih =>
    unfold validSize
    split_ifs with hne
    · exact .inr ⟨n + 1, le_rfl, rfl, hne⟩
    · rcases ih with hone | ⟨k, hk, hsize, hval⟩
      · exact .inl hone
      · exact .inr ⟨k, by omega, hsize, hval⟩

theorem drop_validSize {buffer : List Nat} (hlen : buffer.length = n + 1) :
    ∀ w ∈ buffer.drop (validSize buffer n), w = 0 := by
  intro w hw
  obtain ⟨k, hk, rfl⟩ := mem_iff_getElem.mp hw
  rw [length_drop] at hk
  have hzero : buffer.getD (validSize buffer n + k) 0 = 0 := validSize_zero _ (Nat.le_add_right _ _) (by omega)
  rw [getD_eq_getElem _ _ (by omega)] at hzero
  rw [getElem_drop, hzero]

theorem trueIndices_zeros (h : ∀ w ∈ words, w = 0) (j : Nat) :
    trueIndices (wordSlots words) j = [] := by
  have hrep : words = replicate words.length 0 := eq_replicate_of_mem h
  have hflat : ∀ n, wordSlots (replicate n 0) = replicate (32 * n) false := by
    intro n
    induction n with
    | zero => rfl
    | succ n ih =>
      rw [replicate_succ, show wordSlots (0 :: replicate n 0) =
        bitsOf 32 0 ++ wordSlots (replicate n 0) from rfl, ih, bitsOf_zero_right, ← replicate_add]
      congr 1; omega
  rw [hrep, hflat, trueIndices_replicate_false]

/-- Dropping them changes no slot. -/
theorem trueIndices_take_validSize (buffer : List Nat) (hlen : buffer.length = n + 1) (j : Nat) :
    trueIndices (wordSlots (buffer.take (validSize buffer n))) j = trueIndices (wordSlots buffer) j := by
  conv_rhs => rw [← take_append_drop (validSize buffer n) buffer]
  rw [wordSlots_append, trueIndices_append, trueIndices_zeros (drop_validSize hlen), append_nil]

/-- The words of a plain bitmap of at least one bit, before the zero words are dropped: its bits in order, the last word
    padded with zeros. -/
theorem getPureSlotBitMap_eq (mem : Memory) {table : SlotTable} (row : Nat) (hpos : 0 < table.bitMapBitsLen) :
    ∃ buffer last pad, buffer.length = last + 1 ∧ pad < 32 ∧ (∀ w ∈ buffer, w < 2 ^ 32) ∧
      wordSlots buffer = slice (streamBit mem) (table.bitMapBits row).pos table.bitMapBitsLen ++ replicate pad false ∧
      getPureSlotBitMap mem table row = some (buffer.take (validSize buffer last)) := by
  have hres : table.bitMapBitsLen &&& (1 <<< 5 - 1) = table.bitMapBitsLen % 32 :=
    Nat.and_two_pow_sub_one_eq_mod table.bitMapBitsLen 5
  have hsize : table.bitMapBitsLen >>> 5 = table.bitMapBitsLen / 32 := Nat.shiftRight_eq_div_pow _ 5
  -- the last word holds the last 1 to 32 bits
  obtain ⟨last, tail, hlen, hlow, htail, hshape⟩ : ∃ last tail, table.bitMapBitsLen = 32 * last + tail ∧
      0 < tail ∧ tail ≤ 32 ∧
      (if table.bitMapBitsLen % 32 ≠ 0 then table.bitMapBitsLen / 32 + 1 else table.bitMapBitsLen / 32) = last + 1 ∧
      (if table.bitMapBitsLen % 32 = 0 then 32 else table.bitMapBitsLen % 32) = tail := by
    by_cases hzero : table.bitMapBitsLen % 32 = 0
    · exact ⟨table.bitMapBitsLen / 32 - 1, 32, by omega, by omega, by omega, by simp [hzero]; omega, by simp [hzero]⟩
    · exact ⟨table.bitMapBitsLen / 32,
        table.bitMapBitsLen % 32, by omega, by omega, by omega, by simp [hzero], by simp [hzero]⟩
  obtain ⟨hwords, hbits⟩ := hshape
  obtain ⟨hcur, hcount, hlt, hslots⟩ := fullWords_eq mem last (table.bitMapBits row)
  have hlast : (if table.bitMapBitsLen % 32 = 0 then (fullWords mem (table.bitMapBits row) last).2.getBits mem 32
      else (fullWords mem (table.bitMapBits row) last).2.getBits mem (table.bitMapBitsLen % 32)) =
      window (streamBit mem) ((table.bitMapBits row).pos + 32 * last) tail := by
    rw [← BitsManager.pos_getNext, ← hcur, ← BitsManager.getBits_eq htail, ← hbits]
    split <;> rfl
  refine ⟨(fullWords mem (table.bitMapBits row) last).1 ++
    [window (streamBit mem) ((table.bitMapBits row).pos + 32 * last) tail], last, 32 - tail, by simp [hcount], by omega,
    ?_, ?_, ?_⟩
  · intro w hw
    rcases mem_append.mp hw with h | h
    · exact hlt w h
    · rw [mem_singleton.mp h]
      exact lt_of_lt_of_le window_lt (Nat.pow_le_pow_right (by decide) htail)
  · have hpad := bitsOf_window (b := streamBit mem) (p := (table.bitMapBits row).pos + 32 * last) tail (32 - tail)
    rw [show tail + (32 - tail) = 32 by omega] at hpad
    rw [wordSlots_append, hslots, show ∀ w, wordSlots [w] = bitsOf 32 w from fun w => append_nil _, hpad, hlen,
      slice_add, ← append_assoc]
  · unfold getPureSlotBitMap
    simp only [hres, hsize, hwords, hlast]

/-- **Decoding and visiting a plain bitmap** of at least one bit hands over exactly its true slots. -/
theorem visit_pure (base : Nat) (mem : Memory) {table : SlotTable} {row : Nat} (hpos : 0 < table.bitMapBitsLen)
    (hfits : ∀ k ∈ trueIndices (slice (streamBit mem) (table.bitMapBits row).pos table.bitMapBitsLen) 0,
      Fits slotBias k) :
    ∃ words, getPureSlotBitMap mem table row = some words ∧
      visitPureGCRoots slotBias base 0 words =
        (trueIndices (slice (streamBit mem) (table.bitMapBits row).pos table.bitMapBitsLen) 0).map
          (slotAt base slotBias) := by
  obtain ⟨buffer, last, pad, hlength, -, hlt, hslots, hdecode⟩ := getPureSlotBitMap_eq mem row hpos
  refine ⟨_, hdecode, ?_⟩
  have htake : trueIndices (wordSlots (buffer.take (validSize buffer last))) 0 =
      trueIndices (slice (streamBit mem) (table.bitMapBits row).pos table.bitMapBitsLen) 0 := by
    rw [trueIndices_take_validSize _ hlength, hslots, trueIndices_append, trueIndices_replicate_false, append_nil]
  rw [visit_words ?_ 0 ?_, Nat.mul_zero, htake]
  · intro w hw
    exact hlt w (mem_of_mem_take hw)
  · intro k hk
    rw [Nat.mul_zero, htake] at hk
    exact hfits k hk

/-- Where the bitmap of a row lies in the data, in bits. -/
def rowStart (table : SlotTable) (row : Nat) : Nat :=
  row * (table.baseOffBitsLen + table.bitMapBitsLen) + table.baseOffBitsLen

/-- The reader finds the bitmap of a row there, up to a wrap of 32 bits. -/
theorem bitMapBits_pos (table : SlotTable) (row : Nat) :
    (table.bitMapBits row).pos = table.data.pos + rowStart table row % 2 ^ 32 := by
  rw [bitMapBits, BitsManager.pos_getNext, rowBitsLen, rowStart, Nat.add_mod, Nat.mul_mod_mod, ← Nat.add_mod]

/-- The words of a row are the bits of its bitmap in order, followed by the zero words that were dropped; only the first
    word may be zero and stay. -/
def Decodes (mem : Memory) (table : SlotTable) (row : Nat) : Prop :=
  ∃ words zeros pad, getSlotBitMap mem table row = some words ∧ (∀ w ∈ zeros, w = 0) ∧ pad < 32 ∧
    wordSlots (words ++ zeros) =
      slice (streamBit mem) (table.data.pos + rowStart table row) table.bitMapBitsLen ++ replicate pad false ∧
    (words.length = 1 ∨ ∃ front w, words = front ++ [w] ∧ w ≠ 0)

theorem head?_slice {b : Nat → Bool} {p n : Nat} (hn : 0 < n) (l : List Bool) :
    (slice b p n ++ l).head? = some (b p) := by
  obtain ⟨n, rfl⟩ := Nat.exists_eq_add_of_lt hn
  simp [slice, range_succ_eq_map]

/-- A table in which one bit is set. -/
def oneBit (p : Nat) : Memory := fun a => if a = p / 8 then .ofNat (2 ^ (p % 8)) else 0

theorem streamBit_oneBit (p i : Nat) : streamBit (oneBit p) i = decide (i = p) := by
  unfold streamBit oneBit
  split_ifs with hbyte
  · have hlt : 2 ^ (p % 8) < 2 ^ 8 := Nat.pow_lt_pow_right (by decide) (Nat.mod_lt _ (by decide))
    rw [UInt8.toNat_ofNat_of_lt' hlt, Nat.testBit_two_pow]
    exact decide_eq_decide.mpr (by omega)
  · rw [decide_eq_false (by rintro rfl; exact hbyte rfl)]
    exact Nat.zero_testBit _

section Plain

variable {table : SlotTable} (row : Nat) (hformat : table.slotFormat = PURE_COMPRESSED_STACKMAP)
include hformat

theorem decodes_of_fits (mem : Memory) (hpos : 0 < table.bitMapBitsLen) (hfits : rowStart table row < 2 ^ 32) :
    Decodes mem table row := by
  obtain ⟨buffer, last, pad, hlength, hpad, -, hslots, hdecode⟩ := getPureSlotBitMap_eq mem row hpos
  rw [bitMapBits_pos, Nat.mod_eq_of_lt hfits] at hslots
  refine ⟨buffer.take (validSize buffer last), buffer.drop (validSize buffer last), pad, ?_, drop_validSize hlength,
    hpad, ?_, ?_⟩
  · rw [getSlotBitMap, if_neg (not_not.mpr hformat), hdecode]
  · rw [take_append_drop, hslots]
  · rcases validSize_last buffer last with hone | ⟨k, hk, hsize, hval⟩
    · left
      rw [hone, length_take]
      omega
    · right
      rw [getD_eq_getElem _ _ (by omega)] at hval
      exact ⟨buffer.take k, _, by rw [hsize, take_succ_eq_append_getElem (by omega)], hval⟩

/-- A bitmap of no bits is never decoded. -/
theorem getSlotBitMap_eq_none (mem : Memory) (hzero : table.bitMapBitsLen = 0) :
    getSlotBitMap mem table row = none := by
  rw [getSlotBitMap, if_neg (not_not.mpr hformat), getPureSlotBitMap, hzero]
  rfl

/-- The first bit of a decoded row is the one at the place that the reader goes to. -/
theorem Decodes.first {mem : Memory} (hpos : 0 < table.bitMapBitsLen) (h : Decodes mem table row) :
    streamBit mem (table.data.pos + rowStart table row) = streamBit mem (table.bitMapBits row).pos := by
  obtain ⟨words, zeros, pad, hwords, -, -, hslots, -⟩ := h
  obtain ⟨buffer, last, pad', hlength, -, -, hslots', hdecode⟩ := getPureSlotBitMap_eq mem row hpos
  rw [getSlotBitMap, if_neg (not_not.mpr hformat), hdecode] at hwords
  cases hwords
  obtain ⟨w, buffer, rfl⟩ := exists_cons_of_length_eq_add_one hlength
  have hsize : validSize (w :: buffer) last ≠ 0 := by
    rcases validSize_last (w :: buffer) last with hone | ⟨k, -, hsize, -⟩ <;> omega
  obtain ⟨k, hk⟩ := Nat.exists_eq_succ_of_ne_zero hsize
  rw [hk, take_succ_cons] at hslots
  -- both lists of slots begin with the low bit of the first word
  have hhead := congrArg head? hslots
  have hhead' := congrArg head? hslots'
  rw [head?_slice hpos] at hhead hhead'
  exact Option.some.inj (hhead.symm.trans hhead')

/-- **The plain bitmap of a row is decoded in full, whatever the table holds, if and only if** it has at least one bit
    and its position fits 32 bits. -/
theorem getSlotBitMap_words :
    (∀ mem, Decodes mem table row) ↔ 0 < table.bitMapBitsLen ∧ rowStart table row < 2 ^ 32 := by
  refine ⟨fun hall => ?_, fun hcond mem => decodes_of_fits row hformat mem hcond.1 hcond.2⟩
  have hpos : 0 < table.bitMapBitsLen := by
    by_contra hzero
    obtain ⟨words, zeros, pad, hwords, -⟩ := hall fun _ => 0
    rw [getSlotBitMap_eq_none row hformat _ (by omega)] at hwords
    cases hwords
  refine ⟨hpos, ?_⟩
  by_contra hwrap
  -- where only the first bit of the bitmap is set, the reader misses it
  have hfirst := (hall (oneBit (table.data.pos + rowStart table row))).first row hformat hpos
  rw [streamBit_oneBit, streamBit_oneBit, bitMapBits_pos, decide_eq_true rfl] at hfirst
  have hplace := of_decide_eq_true hfirst.symm
  omega

end Plain

theorem getSlotBitMap_words_sample : Decodes (oneBit 9) ⟨0, 1, 8, 40, ⟨0, 0, by decide⟩⟩ 0 :=
  (getSlotBitMap_words 0 rfl).mpr (by decide) (oneBit 9)

/-- **A bitmap of no bits is not decoded**: the header `1, 8, 0` gives a buffer of no words, and `size - 1` wraps. -/
theorem getSlotBitMap_no_bits :
    ((SlotTable.init (fun a => if a = 0 then 0x81 else 0) ⟨0, 0, by decide⟩ PURE_COMPRESSED_STACKMAP).recordNum = 1 ∧
      (SlotTable.init (fun a => if a = 0 then 0x81 else 0) ⟨0, 0, by decide⟩ PURE_COMPRESSED_STACKMAP).baseOffBitsLen =
        8) ∧
    getSlotBitMap (fun a => if a = 0 then 0x81 else 0)
      (SlotTable.init (fun a => if a = 0 then 0x81 else 0) ⟨0, 0, by decide⟩ PURE_COMPRESSED_STACKMAP) 0 = none := by
  decide

/-! ## Both formats -/

/-- The true positions of a list of bits are the sorted elements of the set it stands for. -/
theorem trueIndices_eq_sort {S : Finset Nat} (h : ∀ i, i ∈ S ↔ l[i]? = some true) :
    trueIndices l 0 = S.sort := by
  have hset : (trueIndices l 0).toFinset = S := by
    ext i
    rw [mem_toFinset, mem_trueIndices, h i]
  have hsorted := trueIndices_sorted l 0
  have hnodup : (trueIndices l 0).Nodup := hsorted.imp Nat.ne_of_lt
  rw [← hset]
  exact ((toFinset_sort (· ≤ ·) hnodup).mpr (hsorted.imp Nat.le_of_lt)).symm

/-- **Both formats visit the slots of the set**, in increasing order and once each: any WAH stream that covers it, and
    its plain bitmap of at least one bit, as long as the biases of the covered slots are computed without overflow. -/
theorem formats_visit_same_slots {S : Finset Nat} {stream slots : List Bool} {memW memP : Memory}
    {wah plain : SlotTable} {rowW rowP : Nat} (base : Nat) {slotBias : Int}
    (hwah : wah.slotFormat ≠ PURE_COMPRESSED_STACKMAP) (hplain : plain.slotFormat = PURE_COMPRESSED_STACKMAP)
    (hstream : WahStream stream slots) (hS : ∀ i, i ∈ S ↔ slots[i]? = some true)
    (hlen : wah.bitMapBitsLen = stream.length)
    (hplaced : Placed (streamBit memW) (wah.bitMapBits rowW).pos stream)
    (hpos : 0 < plain.bitMapBitsLen)
    (hbits : ∀ i, i ∈ S ↔ i < plain.bitMapBitsLen ∧ streamBit memP ((plain.bitMapBits rowP).pos + i) = true)
    (hfits : Fits slotBias slots.length) :
    ∃ wordsW wordsP, getSlotBitMap memW wah rowW = some wordsW ∧ getSlotBitMap memP plain rowP = some wordsP ∧
      visitGCRoots ⟨slotBias, wordsW, wah.slotFormat⟩ base = S.sort.map (slotAt base slotBias) ∧
      visitGCRoots ⟨slotBias, wordsP, plain.slotFormat⟩ base = S.sort.map (slotAt base slotBias) := by
  have hsmall : ∀ i ∈ S, Fits slotBias i := by
    intro i hi
    have hlt := (List.getElem?_eq_some_iff.mp ((hS i).mp hi)).1
    exact hfits.mono (by omega)
  have hcoef : toI32 (slotBias * BIAS_COEF) = slotBias := by
    have hlo := hfits.lo
    have hhi := hfits.hi
    unfold BIAS_COEF
    rw [Int.mul_one]
    exact toI32_eq (by omega) hhi
  -- the plain bitmap, read as a list, is the same set
  have hslice : ∀ i, i ∈ S ↔
      (slice (streamBit memP) (plain.bitMapBits rowP).pos plain.bitMapBitsLen)[i]? = some true := by
    intro i
    rw [hbits i, List.getElem?_eq_some_iff]
    constructor
    · rintro ⟨hlt, hbit⟩
      exact ⟨by simpa using hlt, by simpa [slice] using hbit⟩
    · rintro ⟨hlt, hbit⟩
      exact ⟨by simpa using hlt, by simpa [slice] using hbit⟩
  have hsortP := trueIndices_eq_sort hslice
  obtain ⟨wordsW, hdecW, hvisW⟩ := visit_wahStream base slotBias hstream _ hplaced
  obtain ⟨wordsP, hdecP, hvisP⟩ := visit_pure base memP hpos
    (fun k hk => hsmall k ((Finset.mem_sort _).mp (hsortP ▸ hk)))
  refine ⟨wordsW, wordsP, ?_, ?_, ?_, ?_⟩
  · rw [getSlotBitMap, if_pos hwah, getWAHSlotBitMap, hlen]
    exact hdecW
  · rw [getSlotBitMap, if_neg (not_not.mpr hplain)]
    exact hdecP
  · have hvis := hvisW 0 (by simpa using hfits)
    rw [visitGCRoots, if_pos hwah, hcoef, ← trueIndices_eq_sort hS, ← hvis]
    simp
  · rw [visitGCRoots, if_neg (not_not.mpr hplain), ← hsortP]
    exact hvisP

/-- The set of slots 0 and 2, as one literal and as three plain bits. -/
theorem formats_visit_same_slots_sample :
    ∃ wordsW wordsP,
      getSlotBitMap (fun a => if a = 0 then 0x0B else 0) ⟨1, 1, 0, 32, ⟨0, 0, by decide⟩⟩ 0 = some wordsW ∧
      getSlotBitMap (fun a => if a = 0 then 0x05 else 0) ⟨0, 1, 0, 3, ⟨0, 0, by decide⟩⟩ 0 = some wordsP ∧
      visitGCRoots ⟨-16, wordsW, 1⟩ 0x1000 = [0x1000 - 16, 0x1000 - 32] ∧
      visitGCRoots ⟨-16, wordsP, 0⟩ 0x1000 = [0x1000 - 16, 0x1000 - 32] := by
  have hstream : WahStream (true :: ([true, false, true] ++ List.replicate 28 false) ++ List.replicate 0 false)
      (([true, false, true] ++ List.replicate 28 false) ++ []) := .literal (by decide) (.padding 0)
  have hS : ∀ i, i ∈ ({0, 2} : Finset Nat) ↔
      (([true, false, true] ++ List.replicate 28 false) ++ [])[i]? = some true := by
    intro i
    rw [← mem_trueIndices, show trueIndices (([true, false, true] ++ List.replicate 28 false) ++ []) 0 = [0, 2]
      by decide]
    simp
  have hbits : ∀ i, i ∈ ({0, 2} : Finset Nat) ↔ i < 3 ∧ streamBit (fun a => if a = 0 then 0x05 else 0)
      ((bitMapBits ⟨0, 1, 0, 3, ⟨0, 0, by decide⟩⟩ 0).pos + i) = true := by
    intro i
    constructor
    · intro hi
      have hcases : i = 0 ∨ i = 2 := by simpa using hi
      rcases hcases with rfl | rfl <;> decide
    · rintro ⟨hlt, hbit⟩
      obtain rfl | rfl | rfl : i = 0 ∨ i = 1 ∨ i = 2 := by omega
      · decide
      · exact absurd hbit (by decide)
      · decide
  have hsort : ({0, 2} : Finset Nat).sort.map (slotAt 0x1000 (-16)) = [0x1000 - 16, 0x1000 - 32] := by
    rw [← trueIndices_eq_sort hS]; decide
  rw [← hsort]
  exact formats_visit_same_slots 0x1000 (by decide) rfl hstream hS (by decide) (by unfold Placed; decide) (by decide)
    hbits ⟨by decide, by decide, by decide⟩

/-- **A count of `2 ^ 30` groups or more runs into the tag bits**: a run of clear slots is then walked as a run of
    references. Here the stream covers no reference at all and 31 slots are visited. -/
theorem wah_count_runs_into_tag :
    ∃ stream slots, WahStream stream slots ∧ (∀ i : Nat, slots[i]? ≠ some true) ∧
      stream.length = 38 ∧
      Placed (streamBit fun a => if a = 0 then 0x7C else if a = 4 then 0x10 else 0)
        (bitMapBits ⟨1, 1, 0, 38, ⟨0, 0, by decide⟩⟩ 0).pos stream ∧
      ∃ words, getSlotBitMap (fun a => if a = 0 then 0x7C else if a = 4 then 0x10 else 0)
          ⟨1, 1, 0, 38, ⟨0, 0, by decide⟩⟩ 0 = some words ∧
        (visitGCRoots ⟨0, words, 1⟩ 0x1000).length = 31 := by
  have henc : Encoding (2 ^ 30 + 1) (bitsOf 4 15 ++ bitsOf 32 (2 ^ 30 + 1)) := .payload 3 (by decide) (by decide)
  have hstream : WahStream (false :: false :: (bitsOf 4 15 ++ bitsOf 32 (2 ^ 30 + 1)) ++ List.replicate 0 false)
      (List.replicate (31 * (2 ^ 30 + 1)) false ++ []) := .run (by decide) henc (.padding 0)
  have hplaced : Placed (streamBit fun a => if a = 0 then 0x7C else if a = 4 then 0x10 else 0)
      (bitMapBits ⟨1, 1, 0, 38, ⟨0, 0, by decide⟩⟩ 0).pos
      (false :: false :: (bitsOf 4 15 ++ bitsOf 32 (2 ^ 30 + 1)) ++ List.replicate 0 false) := by
    unfold Placed; decide
  have hclear : ∀ n i : Nat, (List.replicate n false ++ [])[i]? ≠ some true := by
    intro n i hi
    rw [List.append_nil, List.getElem?_eq_some_iff] at hi
    obtain ⟨hlt, hi⟩ := hi
    rw [List.getElem_replicate] at hi
    cases hi
  have hdecode := wahLoop_run (n := 0) (by decide) henc (placed_append.mp hplaced).1
  rw [wahLoop_padding (k := 0) (by intro i hi; exact absurd hi (by simp)), Option.map_some, List.length_append,
    length_bitsOf, length_bitsOf] at hdecode
  refine ⟨_, _, hstream, hclear _, by decide, hplaced, [(2 ^ 30 + 1) ||| false.toNat <<< 30], ?_, by decide⟩
  rw [getSlotBitMap, if_pos (by decide), getWAHSlotBitMap]
  exact hdecode

end CangjieRuntime.StackMap
