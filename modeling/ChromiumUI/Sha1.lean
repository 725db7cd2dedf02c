import Mathlib

/-!
# SHA-1, padding and streaming

The blocks that Process is run on. What it computes of them is left out, but not what it does to
the buffer.
-/
namespace ChromiumUI.Sha1

open List

structure SecureHashAlgorithm where
  /-- `M`, of which the first 64 bytes count. -/
  M : Nat → UInt8
  cursor : Nat := 0
  l : UInt32 := 0
  /-- The blocks so far. -/
  processed : List (List UInt8) := []

namespace SecureHashAlgorithm

def firstBytes (M : Nat → UInt8) (count : Nat) : List UInt8 := (range count).map M

/-- `M[cursor++] = b`; `none` is a write behind the buffer. -/
def put (s : SecureHashAlgorithm) (b : UInt8) : Option SecureHashAlgorithm :=
  if s.cursor < 64 then
    some { s with M := Function.update s.M s.cursor b, cursor := s.cursor + 1 }
  else none

/-- Process swaps the ends of the words where they are. -/
def process (s : SecureHashAlgorithm) : SecureHashAlgorithm :=
  { s with
    M := fun i => if i < 64 then s.M (4 * (i / 4) + (3 - i % 4)) else s.M i
    cursor := 0
    processed := s.processed ++ [firstBytes s.M 64] }

def update (s : SecureHashAlgorithm) : List UInt8 → Option SecureHashAlgorithm
  | [] => some s
  | d :: data => (s.put d).bind fun s =>
    let s := if 64 ≤ s.cursor then s.process else s
    update { s with l := s.l + 8 } data

/-- `while (cursor < limit) M[cursor++] = 0` -/
def zerosTo (limit : Nat) (s : SecureHashAlgorithm) : Option SecureHashAlgorithm :=
  (replicate (limit - s.cursor) 0).foldlM put s

/-- The last word. -/
def putLength (s : SecureHashAlgorithm) : SecureHashAlgorithm :=
  let M := Function.update s.M (64 - 4) ((s.l &&& 0xff000000) >>> 24).toUInt8
  let M := Function.update M (64 - 3) ((s.l &&& 0xff0000) >>> 16).toUInt8
  let M := Function.update M (64 - 2) ((s.l &&& 0xff00) >>> 8).toUInt8
  { s with M := Function.update M (64 - 1) (s.l &&& 0xff).toUInt8 }

def pad (s : SecureHashAlgorithm) : Option SecureHashAlgorithm :=
  (s.put 0x80).bind fun s =>
    ((if 64 - 8 < s.cursor then (s.zerosTo 64).map process else some s).bind
      (zerosTo (64 - 4))).map putLength

def final (s : SecureHashAlgorithm) : Option SecureHashAlgorithm := s.pad.map process

/-- The message comes in pieces to a buffer of any content. -/
def hash (M : Nat → UInt8) (pieces : List (List UInt8)) : Option SecureHashAlgorithm :=
  (pieces.foldlM update { M }).bind final

/-- The last `count` bytes of a number, the highest first. -/
def bigEndian (count n : Nat) : List UInt8 :=
  ((range count).map fun i => UInt8.ofNat (n / 256 ^ i)).reverse

/-- FIPS 180-3, 5.1.1: the least padding with zeros up to a whole number of blocks. -/
def padded (message : List UInt8) : List UInt8 :=
  message ++ 0x80 :: replicate ((119 - message.length % 64) % 64) 0 ++
    bigEndian 8 (8 * message.length)

/-- What came is in the blocks and at the front of the buffer. -/
structure Holds (s : SecureHashAlgorithm) (bytes : List UInt8) : Prop where
  stream : s.processed.flatten ++ firstBytes s.M s.cursor = bytes
  blocks : ∀ block ∈ s.processed, block.length = 64

variable {s t : SecureHashAlgorithm} {bytes message : List UInt8}

theorem firstBytes_length (M : Nat → UInt8) (count : Nat) :
    (firstBytes M count).length = count := by
  rw [firstBytes, length_map, length_range]

theorem Holds.length (h : Holds s bytes) : bytes.length = 64 * s.processed.length + s.cursor := by
  have hsum : s.processed.flatten.length = 64 * s.processed.length := by
    rw [length_flatten, map_congr_left h.blocks, map_const', sum_replicate_nat,
      Nat.mul_comm]
  rw [← h.stream, length_append, hsum, firstBytes_length]

theorem firstBytes_update (M : Nat → UInt8) (count : Nat) (b : UInt8) :
    firstBytes (Function.update M count b) (count + 1) = firstBytes M count ++ [b] := by
  rw [firstBytes, range_succ, map_append, map_singleton, Function.update_self]
  congr 1
  refine map_congr_left fun i hi => Function.update_of_ne (Nat.ne_of_lt (mem_range.mp hi)) _ _

/-- What a write does that stays in the buffer. -/
structure Wrote (s t : SecureHashAlgorithm) (bytes more : List UInt8) : Prop where
  holds : Holds t (bytes ++ more)
  cursor : t.cursor = s.cursor + more.length
  l : t.l = s.l

theorem put_wrote (h : Holds s bytes) (hroom : s.cursor < 64) (b : UInt8) :
    ∃ t, s.put b = some t ∧ Wrote s t bytes [b] := by
  refine ⟨_, if_pos hroom, ⟨?_, h.blocks⟩, rfl, rfl⟩
  rw [firstBytes_update, ← append_assoc, h.stream]

theorem puts_wrote (h : Holds s bytes) {more : List UInt8} (hroom : s.cursor + more.length ≤ 64) :
    ∃ t, more.foldlM put s = some t ∧ Wrote s t bytes more := by
  induction more generalizing s bytes with
  | nil => exact ⟨s, rfl, ⟨by rwa [append_nil], rfl, rfl⟩⟩
  | cons b more ih =>
    rw [length_cons] at hroom
    obtain ⟨t, ht, hwrote⟩ := put_wrote h (by omega) b
    have hcur : t.cursor = s.cursor + 1 := hwrote.cursor
    obtain ⟨u, hu, hmore⟩ := ih hwrote.holds (by omega)
    refine ⟨u, by rw [foldlM_cons, ht]; exact hu, ?_, ?_, hmore.l.trans hwrote.l⟩
    · simpa using hmore.holds
    · rw [hmore.cursor, hcur, length_cons]
      omega

theorem Holds.process (h : Holds s bytes) (hfull : s.cursor = 64) : Holds s.process bytes := by
  refine ⟨?_, fun block hblock => ?_⟩
  · have hstream := h.stream
    rw [hfull] at hstream
    simpa [SecureHashAlgorithm.process, firstBytes] using hstream
  · rcases mem_append.mp hblock with hold | hnew
    · exact h.blocks block hold
    · rw [mem_singleton.mp hnew, firstBytes_length]

/-- Between two bytes. -/
structure Fed (s : SecureHashAlgorithm) (message : List UInt8) : Prop where
  holds : Holds s message
  room : s.cursor < 64
  l : s.l.toNat = 8 * message.length % 2 ^ 32

theorem update_fed (h : Fed s message) (data : List UInt8) :
    ∃ t, s.update data = some t ∧ Fed t (message ++ data) := by
  induction data generalizing s message with
  | nil => exact ⟨s, rfl, by rwa [append_nil]⟩
  | cons d data ih =>
    obtain ⟨t, ht, hwrote⟩ := put_wrote h.holds h.room d
    have hcur : t.cursor = s.cursor + 1 := hwrote.cursor
    have hl : (s.l + 8).toNat = 8 * (message ++ [d]).length % 2 ^ 32 := by
      rw [UInt32.toNat_add, h.l, length_append]
      simp
      omega
    have hnext : Fed { (if 64 ≤ t.cursor then t.process else t) with
        l := (if 64 ≤ t.cursor then t.process else t).l + 8 } (message ++ [d]) := by
      split_ifs with hfull
      · have hfull : t.cursor = 64 := by
          have := h.room
          omega
        exact ⟨⟨(hwrote.holds.process hfull).stream, (hwrote.holds.process hfull).blocks⟩,
          Nat.zero_lt_succ 63, hwrote.l ▸ hl⟩
      · exact ⟨⟨hwrote.holds.stream, hwrote.holds.blocks⟩, Nat.lt_of_not_le hfull, hwrote.l ▸ hl⟩
    obtain ⟨u, hu, hfed⟩ := ih hnext
    rw [append_assoc] at hfed
    exact ⟨u, by rw [update, ht]; exact hu, hfed⟩

theorem pieces_fed (h : Fed s message) (pieces : List (List UInt8)) :
    ∃ t, pieces.foldlM update s = some t ∧ Fed t (message ++ pieces.flatten) := by
  induction pieces generalizing s message with
  | nil => exact ⟨s, rfl, by rwa [flatten_nil, append_nil]⟩
  | cons piece pieces ih =>
    obtain ⟨t, ht, hfed⟩ := update_fed h piece
    obtain ⟨u, hu, hmore⟩ := ih hfed
    rw [append_assoc] at hmore
    exact ⟨u, by rw [foldlM_cons, ht]; exact hu, hmore⟩

theorem zerosTo_wrote (h : Holds s bytes) (limit : Nat) (hle : s.cursor ≤ limit)
    (hlimit : limit ≤ 64) :
    ∃ t, s.zerosTo limit = some t ∧ Holds t (bytes ++ replicate (limit - s.cursor) 0) ∧
      t.cursor = limit ∧ t.l = s.l := by
  have hroom : s.cursor + (replicate (limit - s.cursor) (0 : UInt8)).length ≤ 64 := by
    rw [length_replicate]
    omega
  obtain ⟨t, ht, hwrote⟩ := puts_wrote h hroom
  refine ⟨t, ht, hwrote.holds, ?_, hwrote.l⟩
  rw [hwrote.cursor, length_replicate]
  omega

theorem bigEndian_word (n : Nat) : bigEndian 8 n = bigEndian 4 (n / 2 ^ 32) ++ bigEndian 4 n := by
  simp [bigEndian, range_succ, Nat.div_div_eq_div_mul]

theorem bigEndian_four (n : Nat) : bigEndian 4 n = [UInt8.ofNat (n / 256 ^ 3),
    UInt8.ofNat (n / 256 ^ 2), UInt8.ofNat (n / 256 ^ 1), UInt8.ofNat (n / 256 ^ 0)] := rfl

theorem bigEndian_l (l : UInt32) :
    bigEndian 4 l.toNat = [((l &&& 0xff000000) >>> 24).toUInt8, ((l &&& 0xff0000) >>> 16).toUInt8,
      ((l &&& 0xff00) >>> 8).toUInt8, (l &&& 0xff).toUInt8] := by
  have hmask : ∀ x shift : Nat, (x &&& 0xff <<< shift) >>> shift % 256 = x / 2 ^ shift % 256 := by
    intro x shift
    rw [Nat.shiftRight_and_distrib, Nat.shiftLeft_shiftRight, Nat.shiftRight_eq_div_pow,
      Nat.and_two_pow_sub_one_eq_mod _ 8, Nat.mod_mod]
  simp only [bigEndian_four, cons.injEq, and_true]
  refine ⟨?_, ?_, ?_, ?_⟩ <;> apply UInt8.toNat_inj.mp
  · simpa using (hmask l.toNat 24).symm
  · simpa using (hmask l.toNat 16).symm
  · simpa using (hmask l.toNat 8).symm
  · simp [Nat.and_two_pow_sub_one_eq_mod _ 8]

/-- The zeros that Pad writes, in front of the word of the length. -/
theorem final_holds (h : Fed s message) :
    ∃ t, s.final = some t ∧ (∀ block ∈ t.processed, block.length = 64) ∧
      t.processed.flatten = message ++ 0x80 ::
        replicate ((119 - message.length % 64) % 64 + 4) 0 ++ bigEndian 4 s.l.toNat := by
  obtain ⟨a, ha, hwrote⟩ := put_wrote h.holds h.room 0x80
  have hcur : a.cursor = s.cursor + 1 := hwrote.cursor
  have hroom := h.room
  have hlen := h.holds.length
  -- the zeros up to the last word, behind the end of a block or not
  obtain ⟨c, hc, hholds, hcur, hl⟩ : ∃ c,
      (if 64 - 8 < a.cursor then (a.zerosTo 64).map SecureHashAlgorithm.process
        else some a).bind (zerosTo (64 - 4)) = some c ∧ Holds c (message ++ 0x80 ::
        replicate ((119 - message.length % 64) % 64 + 4) 0) ∧ c.cursor = 60 ∧ c.l = s.l := by
    by_cases hspill : 64 - 8 < a.cursor
    · rw [if_pos hspill]
      obtain ⟨b, hb, hblock, hend, hl⟩ := zerosTo_wrote hwrote.holds 64 (by omega) (Nat.le_refl 64)
      obtain ⟨c, hc, hholds, hcur', hl'⟩ :=
        zerosTo_wrote (hblock.process hend) (64 - 4) (Nat.zero_le _) (by decide)
      refine ⟨c, by rw [hb, Option.map_some, Option.bind_some, hc], ?_, hcur',
        hl'.trans (hl.trans hwrote.l)⟩
      have hcount : (119 - message.length % 64) % 64 + 4 = 64 - a.cursor + 60 := by omega
      have hempty : 64 - 4 - b.process.cursor = 60 := rfl
      rw [hempty] at hholds
      rw [hcount, replicate_add]
      simpa only [append_assoc, singleton_append, cons_append, nil_append] using hholds
    · rw [if_neg hspill]
      obtain ⟨c, hc, hholds, hcur', hl⟩ :=
        zerosTo_wrote hwrote.holds (64 - 4) (by omega) (by decide)
      refine ⟨c, by rw [Option.bind_some, hc], ?_, hcur', hl.trans hwrote.l⟩
      have hcount : (119 - message.length % 64) % 64 + 4 = 64 - 4 - a.cursor := by omega
      rw [hcount]
      simpa only [append_assoc, singleton_append] using hholds
  refine ⟨c.putLength.process, ?_, fun block hblock => ?_, ?_⟩
  · rw [final, pad, ha, Option.bind_some, hc]
    rfl
  · rcases mem_append.mp hblock with hold | hnew
    · exact hholds.blocks block hold
    · rw [mem_singleton.mp hnew, firstBytes_length]
  · have hlast : firstBytes c.putLength.M 64 = firstBytes c.M 60 ++ bigEndian 4 c.l.toNat := by
      rw [bigEndian_l]
      simp only [putLength, firstBytes_update, append_assoc]
      rfl
    have hstream := hholds.stream
    rw [hcur] at hstream
    rw [SecureHashAlgorithm.process, flatten_append, flatten_singleton, hlast, ← append_assoc, hl]
    exact congrArg (· ++ _) hstream

theorem bigEndian_mod (n : Nat) : bigEndian 4 (n % 2 ^ 32) = bigEndian 4 n := by
  simp only [bigEndian_four, cons.injEq, and_true, ← UInt8.toNat_inj, UInt8.toNat_ofNat']
  omega

theorem bigEndian_zero_iff {n : Nat} (h : n < 2 ^ 32) : bigEndian 4 n = replicate 4 0 ↔ n = 0 := by
  constructor
  · intro hzero
    simp [bigEndian_four, ← UInt8.toNat_inj] at hzero
    omega
  · rintro rfl
    decide

theorem padded_iff (h : message.length < 2 ^ 61) :
    message ++ 0x80 :: replicate ((119 - message.length % 64) % 64 + 4) 0 ++
        bigEndian 4 (8 * message.length) = padded message ↔ message.length < 2 ^ 29 := by
  have hbytes : bigEndian 4 (8 * message.length / 2 ^ 32) = replicate 4 0 ↔
      message.length < 2 ^ 29 := by
    rw [bigEndian_zero_iff (by omega)]
    omega
  rw [padded, bigEndian_word, ← hbytes, replicate_add, ← cons_append, ← append_assoc,
    append_assoc _ (replicate 4 0), append_right_inj, append_left_inj]
  exact eq_comm

theorem hash_holds (M : Nat → UInt8) (pieces : List (List UInt8)) :
    ∃ s, hash M pieces = some s ∧ (∀ block ∈ s.processed, block.length = 64) ∧
      s.processed.flatten = pieces.flatten ++ 0x80 ::
        replicate ((119 - pieces.flatten.length % 64) % 64 + 4) 0 ++
          bigEndian 4 (8 * pieces.flatten.length) := by
  have hinit : Fed { M } [] := ⟨⟨rfl, nofun⟩, Nat.zero_lt_succ 63, rfl⟩
  obtain ⟨s, hs, hfed⟩ := pieces_fed hinit pieces
  rw [nil_append] at hfed
  obtain ⟨t, ht, hblk, hflatten⟩ := final_holds hfed
  rw [hfed.l, bigEndian_mod] at hflatten
  exact ⟨t, by rw [hash, hs]; exact ht, hblk, hflatten⟩

/-- A message in pieces is processed as it is in one, whatever was in the buffers. -/
theorem hash_pieces (M M' : Nat → UInt8) (pieces : List (List UInt8)) :
    (hash M pieces).map processed = (hash M' [pieces.flatten]).map processed := by
  obtain ⟨s, hs, hblocks, hflatten⟩ := hash_holds M pieces
  obtain ⟨t, ht, hblocks', hflatten'⟩ := hash_holds M' [pieces.flatten]
  rw [flatten_singleton, ← hflatten] at hflatten'
  have hcount := congrArg length hflatten'
  rw [length_flatten, length_flatten, map_congr_left hblocks, map_congr_left hblocks',
    map_const', map_const', sum_replicate_nat, sum_replicate_nat] at hcount
  rw [hs, ht, Option.map_some, Option.map_some, Option.some_inj, eq_iff_flatten_eq,
    map_congr_left hblocks, map_congr_left hblocks', map_const', map_const']
  exact ⟨hflatten'.symm, by rw [Nat.eq_of_mul_eq_mul_right (Nat.succ_pos 63) hcount]⟩

/-- Every message, in any pieces, is processed in whole blocks with no write behind the buffer, and
they are the padded message exactly when its bits fit the counter. -/
theorem hash_blocks (M : Nat → UInt8) (pieces : List (List UInt8))
    (h : pieces.flatten.length < 2 ^ 61) :
    ∃ s, hash M pieces = some s ∧ (∀ block ∈ s.processed, block.length = 64) ∧
      (s.processed.flatten = padded pieces.flatten ↔ pieces.flatten.length < 2 ^ 29) := by
  obtain ⟨s, hs, hblocks, hflatten⟩ := hash_holds M pieces
  exact ⟨s, hs, hblocks, by rw [hflatten]; exact padded_iff h⟩

/-- "abc" in two pieces. -/
theorem hash_blocks_abc :
    ∃ s, hash (fun _ => 0) [[0x61, 0x62], [0x63]] = some s ∧
      s.processed.flatten = padded [0x61, 0x62, 0x63] := by
  obtain ⟨s, hs, -, hpadded⟩ := hash_blocks (fun _ => 0) [[0x61, 0x62], [0x63]] (by decide)
  exact ⟨s, hs, hpadded.mpr (by decide)⟩

/-- 512 MiB of zeros. -/
theorem hash_wraps :
    ∃ s, hash (fun _ => 0) [replicate (2 ^ 29) 0] = some s ∧
      s.processed.flatten ≠ padded (replicate (2 ^ 29) 0) := by
  obtain ⟨s, hs, -, hflatten⟩ := hash_holds (fun _ => 0) [replicate (2 ^ 29) 0]
  rw [flatten_singleton] at hflatten
  refine ⟨s, hs, fun hpadded => ?_⟩
  rw [hflatten, padded_iff (by rw [length_replicate]; decide), length_replicate] at hpadded
  exact absurd hpadded (Nat.lt_irrefl _)

end SecureHashAlgorithm

end ChromiumUI.Sha1
