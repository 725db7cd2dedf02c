import ChromiumUI.PickleReads

/-!
# The pickle round trip

The payload is a sequence of chunks, each at the next multiple of four. A write
appends the chunks of a value, a read takes them from the front.
-/
namespace ChromiumUI.Base

open ByteMemory List Option Nat Pickle

variable {t : Target}

/-- What WriteBytes is called with for a value. -/
def chunks : Value t → List (List UInt8)
  | .bool value => [leBytes 4 (if value then 1 else 0)]
  | .int value => [leBytes 4 value.toNat]
  | .long value => [leBytes t.longSize value.toNat]
  | .uint16 value => [leBytes 2 value.toNat]
  | .uint32 value => [leBytes 4 value.toNat]
  | .int64 value => [leBytes 8 value.toNat]
  | .uint64 value => [leBytes 8 value.toNat]
  | .string value => [leBytes 4 value.length, value]
  | .wstring value => [leBytes 4 value.length, value.flatMap fun c => leBytes t.wcharSize c.toNat]
  | .string16 value => [leBytes 4 value.length, value.flatMap fun c => leBytes 2 c.toNat]
  | .data value => [leBytes 4 value.length, value]
  | .bytes value => [value]

/-- The payload size after chunks were appended to a payload of this size. -/
def sizeAfter (size : Nat) : List (List UInt8) → Nat
  | [] => size
  | c :: cs => sizeAfter (alignInt size 4 + c.length) cs

theorem le_sizeAfter (size : Nat) (cs : List (List UInt8)) : size ≤ sizeAfter size cs := by
  induction cs generalizing size with
  | nil => exact le_refl _
  | cons c cs ih =>
    have halign := le_alignInt size 4
    have hrest := ih (alignInt size 4 + c.length)
    rw [sizeAfter]
    omega

theorem sizeAfter_append (size : Nat) (cs cs' : List (List UInt8)) :
    sizeAfter size (cs ++ cs') = sizeAfter (sizeAfter size cs) cs' := by
  induction cs generalizing size with
  | nil => rfl
  | cons c cs ih => exact ih _

/-- From `ptr` on the memory holds the chunks, the last one ending at `stop`. -/
def Holds (mem : Memory) (stop : Nat) : Nat → List (List UInt8) → Prop
  | ptr, [] => ptr = alignInt stop 4
  | ptr, c :: cs => ptr + c.length ≤ stop ∧ load mem ptr c.length = c ∧
      Holds mem stop (ptr + alignInt c.length 4) cs

variable {mem : Memory} {cs : List (List UInt8)}

theorem Holds.congr {mem' : Memory} {stop ptr : Nat} (h : Holds mem stop ptr cs)
    (hmem : ∀ i, ptr ≤ i → i < stop → mem i = mem' i) : Holds mem' stop ptr cs := by
  induction cs generalizing ptr with
  | nil => exact h
  | cons c cs ih =>
    obtain ⟨hroom, hload, hrest⟩ := h
    refine ⟨hroom, ?_, ih hrest fun i h₁ h₂ => hmem i (by omega) h₂⟩
    rw [← hload, length_load]
    exact (load_congr fun i h₁ h₂ => hmem i h₁ (by omega)).symm

variable {n : Nat}

theorem alignInt_add {m : Nat} (hm : m % 4 = 0) : alignInt (m + n) 4 = m + alignInt n 4 := by
  unfold alignInt
  omega

theorem Holds.append {mem mem' : Memory} {stop ptr : Nat} {cs : List (List UInt8)}
    {c : List UInt8} (h : Holds mem stop ptr cs) (hptr : ptr % 4 = 0)
    (hmem : ∀ i, ptr ≤ i → i < stop → mem i = mem' i)
    (hc : load mem' (alignInt stop 4) c.length = c) :
    Holds mem' (alignInt stop 4 + c.length) ptr (cs ++ [c]) := by
  induction cs generalizing ptr with
  | nil =>
    obtain rfl : ptr = alignInt stop 4 := h
    exact ⟨le_refl _, hc, (alignInt_add hptr).symm⟩
  | cons d ds ih =>
    obtain ⟨hroom, hload, hrest⟩ := h
    have hd := (alignInt_four d.length).1
    have hstop := le_alignInt stop 4
    refine ⟨by omega, ?_, ih hrest (by omega) fun i h₁ h₂ => hmem i (by omega) h₂⟩
    rw [← hload, length_load]
    exact (load_congr fun i h₁ h₂ => hmem i h₁ (by omega)).symm

/-- The pickle has this header size and a payload of these chunks. -/
structure Represents (p : Pickle) (headerSize : Nat) (cs : List (List UInt8)) (mem : Memory) :
    Prop where
  header : p.header = some mem
  headerSize_eq : p.headerSize = headerSize
  aligned : headerSize % 4 = 0
  room : 4 ≤ headerSize
  payloadSize : payloadSizeOf mem = sizeAfter 0 cs
  small : headerSize + sizeAfter 0 cs < 2 ^ 31
  holds : Holds mem (headerSize + sizeAfter 0 cs) headerSize cs

theorem Target.wcharSize_pos (t : Target) : 0 < t.wcharSize := by
  rcases t.wcharSize_eq with h | h <;> omega

/-! ## Writing -/

theorem sizeT_of_lt {n : Nat} (h : n < 2 ^ 32) : t.sizeT n = n := by
  unfold Target.sizeT
  rcases t.sizeBits_eq with h' | h' <;> rw [h'] <;> omega

theorem toInt32_of_lt (h : n < 2 ^ 31) : toInt32 n = n := by
  unfold toInt32
  rw [Int.bmod_eq_of_le] <;> omega

variable {heap : Heap} {p p' : Pickle}

theorem resize_header {newCapacity : Nat} (h : p.resize t heap newCapacity = some p')
    (hmem : p.header = some mem) : p'.header = some mem ∧ p'.headerSize = p.headerSize := by
  simp only [resize] at h
  split_ifs at h
  cases h
  simp [hmem]

/-- BeginWrite stores the new payload size, whether or not it had to resize. -/
theorem beginWrite_header {length dest : Nat} (h : p.beginWrite t heap length = some (dest, p'))
    (hmem : p.header = some mem) : let offset := t.sizeT (alignInt (payloadSizeOf mem) 4)
    p'.header = some (store mem 0 (leBytes 4 (t.sizeT (offset + length)))) ∧
      p'.headerSize = p.headerSize ∧ dest = p.headerSize + offset := by
  simp only [beginWrite, hmem] at h
  cases hcap : p.capacity with
  | none =>
    rw [hcap] at h
    cases h
  | some capacity =>
    rw [hcap] at h
    obtain ⟨q, hq, heq⟩ := map_eq_some_iff.mp h
    cases heq
    have hsame : q.header = some mem ∧ q.headerSize = p.headerSize := by
      split_ifs at hq
      · exact resize_header hq hmem
      · cases hq
        exact ⟨hmem, rfl⟩
    simp [hsame.1, hsame.2]

theorem endWrite_header (hmem : p.header = some mem) (dest length : Nat) :
    ∃ mem', (p.endWrite dest length).header = some mem' ∧
      (p.endWrite dest length).headerSize = p.headerSize ∧
      ∀ i, i < dest + length → mem' i = mem i := by
  unfold endWrite
  by_cases hpad : length % 4 ≠ 0
  · rw [if_pos hpad]
    exact ⟨store mem (dest + length) (List.replicate (4 - length % 4) 0), by simp [hmem], rfl,
      fun i hi => store_before _ hi⟩
  · rw [if_neg hpad]
    exact ⟨mem, hmem, rfl, fun _ _ => rfl⟩

variable {headerSize : Nat}

/-- One chunk more: WriteBytes puts it at the next multiple of four. -/
theorem writeBytes_represents {c : List UInt8} (h : Represents p headerSize cs mem)
    (hw : p.writeBytes t heap c c.length = some p')
    (hsmall : headerSize + sizeAfter 0 (cs ++ [c]) < 2 ^ 31) :
    ∃ mem', Represents p' headerSize (cs ++ [c]) mem' := by
  obtain ⟨hhead, hsize, halign, hroom, hpayload, -, hholds⟩ := h
  have hsizeAfter : sizeAfter 0 (cs ++ [c]) = alignInt (sizeAfter 0 cs) 4 + c.length :=
    sizeAfter_append 0 cs [c]
  rw [hsizeAfter] at hsmall
  have hlen : t.sizeT (c.length : Int) = c.length := sizeT_of_lt (by omega)
  simp only [writeBytes, hlen, take_length] at hw
  obtain ⟨⟨dest, q⟩, hbegin, rfl⟩ := map_eq_some_iff.mp hw
  obtain ⟨hq, hqsize, hdest⟩ := beginWrite_header hbegin hhead
  rw [hpayload, hsize] at *
  have hoff : t.sizeT (alignInt (sizeAfter 0 cs) 4 : Nat) = alignInt (sizeAfter 0 cs) 4 :=
    sizeT_of_lt (by omega)
  rw [hoff] at hq hdest
  have hnew : t.sizeT (alignInt (sizeAfter 0 cs) 4 + c.length) =
      alignInt (sizeAfter 0 cs) 4 + c.length := by
    exact_mod_cast sizeT_of_lt (t := t) (n := alignInt (sizeAfter 0 cs) 4 + c.length) (by omega)
  rw [hnew] at hq
  have hcopied : ({ q with header := q.header.map (store · dest c) } : Pickle).header =
      some (store (store mem 0 (leBytes 4 (alignInt (sizeAfter 0 cs) 4 + c.length))) dest c) := by
    simp [hq]
  obtain ⟨mem', hmem', hsize', hsame⟩ := endWrite_header hcopied dest c.length
  have hle := le_alignInt (sizeAfter 0 cs) 4
  refine ⟨mem', hmem', by rw [hsize', ← hsize]; exact hqsize, halign, hroom, ?_, ?_, ?_⟩
  · rw [hsizeAfter, payloadSizeOf, load_congr (fun i _ hi => hsame i (by omega)),
      load_store_before _ (by omega)]
    have hlen4 : (leBytes 4 (alignInt (sizeAfter 0 cs) 4 + c.length)).length = 4 := by simp
    have hload := load_store_self mem 0 (leBytes 4 (alignInt (sizeAfter 0 cs) 4 + c.length))
    rw [hlen4] at hload
    rw [hload, leValue_leBytes, mod_eq_of_lt (by omega)]
  · rwa [hsizeAfter]
  · rw [hsizeAfter, ← Nat.add_assoc, ← alignInt_add halign]
    refine hholds.append halign (fun i h₁ h₂ => ?_) ?_
    · have hlen4 : (leBytes 4 (alignInt (sizeAfter 0 cs) 4 + c.length)).length = 4 := by simp
      rw [hsame i (by omega), store_before _ (by omega), store_after (by omega)]
    · rw [alignInt_add halign, ← hdest, load_congr (fun i _ hi => hsame i (by omega)),
        load_store_self]

/-- The chunks of a list are written one after the other. -/
def writeChunks (t : Target) (heap : Heap) : List (List UInt8) → Pickle → Option Pickle
  | [], p => some p
  | c :: cs, p => (p.writeBytes t heap c c.length).bind (writeChunks t heap cs)

theorem writeChunks_represents {new : List (List UInt8)} (h : Represents p headerSize cs mem)
    (hw : writeChunks t heap new p = some p')
    (hsmall : headerSize + sizeAfter 0 (cs ++ new) < 2 ^ 31) :
    ∃ mem', Represents p' headerSize (cs ++ new) mem' := by
  induction new generalizing p cs mem with
  | nil =>
    cases hw
    exact ⟨mem, by simpa using h⟩
  | cons c new ih =>
    obtain ⟨q, hq, hrest⟩ := bind_eq_some_iff.mp hw
    have happ : cs ++ c :: new = (cs ++ [c]) ++ new := by simp
    rw [happ] at hsmall ⊢
    have hmono := le_sizeAfter (sizeAfter 0 (cs ++ [c])) new
    rw [← sizeAfter_append] at hmono
    obtain ⟨mem', hmem'⟩ := writeBytes_represents h hq (by omega)
    exact ih hmem' hrest hsmall

theorem length_flatMap_leBytes {α : Type} (size : Nat) (f : α → Nat) (units : List α) :
    (units.flatMap fun u => leBytes size (f u)).length = units.length * size := by
  induction units with
  | nil => simp
  | cons u us ih =>
    rw [flatMap_cons, length_append, length_leBytes, ih, length_cons, succ_mul,
      Nat.add_comm]

theorem leBytes_ofNat (h : n < 2 ^ 32) : leBytes 4 (BitVec.ofNat 32 n).toNat = leBytes 4 n := by
  rw [BitVec.toNat_ofNat, mod_eq_of_lt h]

theorem writeBytes_eq (heap : Heap) (p : Pickle) (c : List UInt8) {dataLen : Int}
    (h : dataLen = c.length) : p.writeBytes t heap c dataLen = writeChunks t heap [c] p := by
  rw [h]
  simp [writeChunks]

/-- A length of at most 31 bits, then the data. -/
theorem writeSized_eq (heap : Heap) (p : Pickle) {c : List UInt8} {dataLen : Int} (hn : n < 2 ^ 32)
    (h : dataLen = c.length) :
    (p.writeInt t heap (BitVec.ofNat 32 n)).bind (writeBytes t heap c dataLen) =
      writeChunks t heap [leBytes 4 n, c] p := by
  have hbytes : writeBytes t heap c dataLen = writeChunks t heap [c] :=
    funext fun q => writeBytes_eq heap q c h
  rw [writeInt, leBytes_ofNat hn, hbytes]
  simp [writeChunks]

variable {v : Value t}

/-- Every write method writes the chunks of its value. -/
theorem write_eq (hsmall : ∀ c ∈ chunks v, c.length < 2 ^ 31) :
    p.write t heap v = writeChunks t heap (chunks v) p := by
  cases v with
  | bool value => cases value <;> exact writeBytes_eq heap p _ rfl
  | int value | long value | uint16 value | uint32 value | int64 value | uint64 value =>
    exact writeBytes_eq heap p _ (by simp)
  | string value =>
    have hlen : value.length < 2 ^ 31 := hsmall value (by simp [chunks])
    exact writeSized_eq heap p (by omega) (toInt32_of_lt hlen)
  | wstring value =>
    have hlen := hsmall (value.flatMap fun c => leBytes t.wcharSize c.toNat) (by simp [chunks])
    rw [length_flatMap_leBytes] at hlen
    have hcount : value.length ≤ value.length * t.wcharSize :=
      Nat.le_mul_of_pos_right _ t.wcharSize_pos
    refine writeSized_eq heap p (by omega) ?_
    rw [length_flatMap_leBytes]
    exact_mod_cast toInt32_of_lt hlen
  | string16 value =>
    have hlen := hsmall (value.flatMap fun c => leBytes 2 c.toNat) (by simp [chunks])
    rw [length_flatMap_leBytes] at hlen
    refine writeSized_eq heap p (by omega) ?_
    rw [length_flatMap_leBytes, toInt32_of_lt (by omega)]
    exact_mod_cast toInt32_of_lt hlen
  | data value =>
    have hlen : value.length < 2 ^ 31 := hsmall value (by simp [chunks])
    simp only [write]
    rw [if_pos (by rw [toInt32_of_lt hlen]; omega)]
    exact writeSized_eq heap p (by omega) (toInt32_of_lt hlen)
  | bytes value =>
    have hlen : value.length < 2 ^ 31 := hsmall value (by simp [chunks])
    exact writeBytes_eq heap p _ (toInt32_of_lt hlen)

theorem writeChunks_append (heap : Heap) (cs cs' : List (List UInt8)) (p : Pickle) :
    writeChunks t heap (cs ++ cs') p =
      (writeChunks t heap cs p).bind (writeChunks t heap cs') := by
  induction cs generalizing p with
  | nil => rfl
  | cons c cs ih =>
    simp only [cons_append, writeChunks]
    cases p.writeBytes t heap c c.length with
    | none => rfl
    | some q => exact ih q

theorem length_le_sizeAfter (size : Nat) {c : List UInt8} (h : c ∈ cs) :
    c.length ≤ sizeAfter size cs := by
  induction cs generalizing size with
  | nil => cases h
  | cons d cs ih =>
    rcases mem_cons.mp h with rfl | hmem
    · exact le_trans (le_add_left _ _) (le_sizeAfter _ cs)
    · exact ih _ hmem

variable {vs : List (Value t)}

theorem writeAll_eq (hsmall : ∀ c ∈ vs.flatMap chunks, c.length < 2 ^ 31) (p : Pickle) :
    p.writeAll t heap vs = writeChunks t heap (vs.flatMap chunks) p := by
  induction vs generalizing p with
  | nil => rfl
  | cons v vs ih =>
    rw [flatMap_cons] at hsmall
    have hv : ∀ c ∈ chunks v, c.length < 2 ^ 31 := fun c hc => hsmall c (mem_append_left _ hc)
    have hrest : writeAll t heap vs = writeChunks t heap (vs.flatMap chunks) :=
      funext (ih fun c hc => hsmall c (mem_append_right _ hc))
    rw [writeAll, write_eq hv, hrest, flatMap_cons, writeChunks_append]

/-- A new pickle has no chunks; its header is rounded up to whole words. -/
theorem new_represents (hmin : 4 ≤ headerSize) (hmax : headerSize ≤ kPayloadUnit)
    (h : new t heap headerSize = some p) :
    ∃ mem, Represents p (alignInt headerSize 4) [] mem := by
  obtain ⟨q, hq, rfl⟩ := map_eq_some_iff.mp h
  simp only [resize] at hq
  split_ifs at hq
  cases hq
  have hle := le_alignInt headerSize 4
  obtain ⟨halign, hlt⟩ := alignInt_four headerSize
  refine ⟨store heap.fresh 0 (leBytes 4 0), rfl, rfl, halign, by omega, ?_, ?_, ?_⟩
  · exact congrArg leValue (load_store_self heap.fresh 0 (leBytes 4 0))
  · unfold kPayloadUnit at hmax
    simp only [sizeAfter]
    omega
  · simp only [Holds, sizeAfter, alignInt]
    omega

/-! ## Copies and views -/

/-- Another pickle over the same bytes represents the same chunks. -/
theorem Represents.transfer {mem' : Memory} (h : Represents p headerSize cs mem)
    (hhead : p'.header = some mem') (hsize : p'.headerSize = headerSize)
    (hsame : ∀ i, i < headerSize + sizeAfter 0 cs → mem i = mem' i) :
    Represents p' headerSize cs mem' := by
  obtain ⟨-, -, halign, hroom, hpayload, hsmall, hholds⟩ := h
  have hload : load mem 0 4 = load mem' 0 4 := load_congr fun i _ hi => hsame i (by omega)
  refine ⟨hhead, hsize, halign, hroom, ?_, hsmall, hholds.congr fun i _ hi => hsame i hi⟩
  rw [← hpayload, payloadSizeOf, payloadSizeOf, hload]

theorem store_load {mem' : Memory} {i : Nat} (hi : i < n) :
    mem i = store mem' 0 (load mem 0 n) i := by
  have hget := ofBytes_load mem hi
  have hlt : i < (load mem 0 n).length := by simpa using hi
  unfold ofBytes at hget
  unfold store
  rw [if_pos (Nat.zero_le i), Nat.sub_zero]
  rw [List.getElem?_eq_getElem hlt] at hget ⊢
  exact hget.symm

theorem copy_represents (h : Represents p headerSize cs mem)
    (hcopy : copy t heap p = some p') : ∃ mem', Represents p' headerSize cs mem' := by
  simp only [copy, h.header, bind_some] at hcopy
  obtain ⟨q, hq, rfl⟩ := map_eq_some_iff.mp hcopy
  simp only [resize] at hq
  split_ifs at hq
  cases hq
  rw [h.headerSize_eq, h.payloadSize]
  exact ⟨_, h.transfer rfl rfl fun i hi => store_load hi⟩

theorem ofData_represents (h : Represents p headerSize cs mem) :
    ∃ mem', Represents (ofData p.toData) headerSize cs mem' := by
  obtain ⟨hhead, hsize, halign, hroom, hpayload, hsmall, hholds⟩ := h
  have hdata : p.toData = load mem 0 (headerSize + sizeAfter 0 cs) := by
    simp only [toData, hhead, hsize, hpayload]
  have hsame : ∀ i, i < headerSize + sizeAfter 0 cs → mem i = ofBytes p.toData i := by
    intro i hi
    rw [hdata]
    exact (ofBytes_load mem hi).symm
  have hload : load mem 0 4 = load (ofBytes p.toData) 0 4 :=
    load_congr fun i _ hi => hsame i (by omega)
  have hpayload' : payloadSizeOf (ofBytes p.toData) = sizeAfter 0 cs := by
    rw [← hpayload, payloadSizeOf, payloadSizeOf, hload]
  have hlen : p.toData.length = headerSize + sizeAfter 0 cs := by
    rw [hdata, length_load]
  have hround : ¬ headerSize ≠ alignInt headerSize 4 := by
    unfold alignInt
    omega
  have hfour : (p.toData.length : Int) ≥ 4 := by omega
  have hdiff : (((p.toData.length : Int) - sizeAfter 0 cs) % (2 ^ 32 : Nat)).toNat =
      headerSize := by omega
  have hfits : ¬ headerSize > ((p.toData.length : Int) % (2 ^ 32 : Nat)).toNat := by omega
  have hnonzero : ¬ headerSize = 0 := by omega
  have hview : ofData p.toData = ⟨some (ofBytes p.toData), headerSize, none, 0⟩ := by
    simp only [ofData, hpayload', if_pos hfour, hdiff, if_neg hfits, if_neg hround,
      if_neg hnonzero]
  rw [hview]
  have hrep : Represents p headerSize cs mem :=
    ⟨hhead, hsize, halign, hroom, hpayload, hsmall, hholds⟩
  exact ⟨_, hrep.transfer rfl rfl hsame⟩

/-! ## Reading -/

/-- The call that reads a value of the type of this one. -/
def readOf : Value t → Read
  | .bool _ => .bool
  | .int _ => .int
  | .long _ => .long
  | .uint16 _ => .uint16
  | .uint32 _ => .uint32
  | .int64 _ => .int64
  | .uint64 _ => .uint64
  | .string _ => .string
  | .wstring _ => .wstring
  | .string16 _ => .string16
  | .data _ => .data
  | .bytes value => .bytes value.length

/-- The reads of a type of a fixed size. -/
def Read.isFixed : Read → Bool
  | .bool | .int | .long | .uint16 | .uint32 | .int64 | .uint64 => true
  | _ => false

namespace PickleIterator

variable {mem : Memory} {ptr stop : Nat} {c : List UInt8} {cs : List (List UInt8)}

theorem getReadPointerAndAdvance_holds (h : Holds mem stop ptr (c :: cs)) :
    getReadPointerAndAdvance c.length ⟨mem, ptr, stop⟩ =
      (ptr, ⟨mem, ptr + alignInt c.length 4, stop⟩) := by
  obtain ⟨hroom, -, -⟩ := h
  unfold getReadPointerAndAdvance
  rw [if_neg (by simp only; omega)]
  simp

theorem ifNotNull_of_pos {α : Type} {answer : Nat → Memory → Answer α} {it : PickleIterator}
    (hptr : 0 < ptr) : ifNotNull (ptr, it) answer = (some (answer ptr it.memory), it) :=
  if_neg (ne_of_gt hptr)

/-- A builtin type takes the first bytes of the chunk. -/
theorem readBuiltinType_holds (size : Nat) (h : Holds mem stop ptr (c :: cs)) (hptr : 0 < ptr)
    (hsize : size ≤ c.length)
    (halign : (if size < 4 then alignInt size 4 else size) = alignInt c.length 4) :
    readBuiltinType size ⟨mem, ptr, stop⟩ =
      (some ⟨leValue (c.take size), [⟨ptr, size⟩]⟩, ⟨mem, ptr + alignInt c.length 4, stop⟩) := by
  obtain ⟨hroom, hload, -⟩ := h
  have htake : load mem ptr size = c.take size := by
    obtain ⟨k, hk⟩ := Nat.exists_eq_add_of_le hsize
    rw [hk, load_add] at hload
    rw [← hload]
    simp
  have hget : getReadPointerAndAdvanceType size ⟨mem, ptr, stop⟩ =
      (ptr, ⟨mem, ptr + alignInt c.length 4, stop⟩) := by
    unfold getReadPointerAndAdvanceType
    rw [if_neg (by simp only; omega), halign]
  rw [readBuiltinType, hget, ifNotNull_of_pos hptr, htake]

theorem readInt_holds (h : Holds mem stop ptr (leBytes 4 n :: cs)) (hptr : 0 < ptr) :
    readInt ⟨mem, ptr, stop⟩ =
      (some ⟨BitVec.ofNat 32 n, [⟨ptr, 4⟩]⟩, ⟨mem, ptr + 4, stop⟩) := by
  have hread := readBuiltinType_holds 4 h hptr (by simp) (by simp [alignInt])
  have htake : (leBytes 4 n).take 4 = leBytes 4 n := take_of_length_le (by simp)
  have hvalue : BitVec.ofNat 32 (leValue (leBytes 4 n)) = BitVec.ofNat 32 n := by
    rw [leValue_leBytes]
    apply BitVec.eq_of_toNat_eq
    simp
  have hstop : alignInt (leBytes 4 n).length 4 = 4 := by
    rw [length_leBytes]
    rfl
  rw [readInt, hread, htake, hstop]
  simp only [map_some, Answer.map, hvalue]

theorem readBytes_holds (h : Holds mem stop ptr (c :: cs)) (hptr : 0 < ptr) :
    readBytes c.length ⟨mem, ptr, stop⟩ =
      (some ⟨c, [⟨ptr, c.length⟩]⟩, ⟨mem, ptr + alignInt c.length 4, stop⟩) := by
  rw [readBytes, getReadPointerAndAdvance_holds h, ifNotNull_of_pos hptr]
  simp only [Int.toNat_natCast]
  rw [h.2.1]

/-- A length and that many units of `size` bytes each. -/
theorem getReadPointerAndAdvanceElements_holds {size : Nat} (h : Holds mem stop ptr (c :: cs))
    (hc : c.length = n * size) (hsmall : stop < 2 ^ 31) :
    getReadPointerAndAdvanceElements n size ⟨mem, ptr, stop⟩ =
      (ptr, ⟨mem, ptr + alignInt c.length 4, stop⟩) := by
  have hroom := h.1
  have hlen : toInt32 c.length = c.length := toInt32_of_lt (by omega)
  have hprod : (n : Int) * size = c.length := by
    rw [hc]
    push_cast
    rfl
  unfold getReadPointerAndAdvanceElements
  simp only [hprod, hlen]
  rw [if_neg (fun hne => hne rfl), getReadPointerAndAdvance_holds h]

theorem toInt_ofNat (h : n < 2 ^ 31) : (BitVec.ofNat 32 n).toInt = n := by
  have hnat : (BitVec.ofNat 32 n).toNat = n := by
    rw [BitVec.toNat_ofNat]
    omega
  rw [BitVec.toInt_eq_toNat_of_lt (by omega), hnat]

/-- What a read finds in front of the other chunks: the value, and the chunks are behind it. -/
def Finds (mem : Memory) (stop ptr : Nat) (cs : List (List UInt8)) (v : Value t) : Prop :=
  ∃ spans next, read t ⟨mem, ptr, stop⟩ (readOf v) = (some ⟨some v, spans⟩, ⟨mem, next, stop⟩) ∧
    0 < next ∧ Holds mem stop next cs

theorem read_builtin {size : Nat} {f : Nat → Value t}
    (h : Holds mem stop ptr (leBytes size n :: cs)) (hptr : 0 < ptr)
    (halign : (if size < 4 then alignInt size 4 else size) = alignInt size 4)
    (hread : ∀ it, read t it (readOf v) = tag f (it.readBuiltinType size))
    (hv : f (n % 256 ^ size) = v) : Finds mem stop ptr cs v := by
  have hbuiltin := readBuiltinType_holds size h hptr (by simp) (by simpa using halign)
  have htake : (leBytes size n).take size = leBytes size n := take_of_length_le (by simp)
  refine ⟨[⟨ptr, size⟩], ptr + alignInt size 4, ?_, by omega, by simpa using h.2.2⟩
  rw [hread, hbuiltin, htake, leValue_leBytes]
  simp [tag, Answer.map, hv]

/-- A length of 31 bits at most, then the data of a variable size. -/
theorem read_sized {α : Type} {f : α → Value t} {a : α}
    {next : BitVec 32 → PickleIterator → Option (Answer α) × PickleIterator}
    (h : Holds mem stop ptr (leBytes 4 n :: c :: cs)) (hptr : 0 < ptr) (hn : n < 2 ^ 31)
    (hread : ∀ it, read t it (readOf v) = tag f (andThen it.readInt next)) (hv : f a = v)
    (hnext : ∀ len : BitVec 32, len.toInt = n → Holds mem stop (ptr + 4) (c :: cs) →
      ∃ spans, next len ⟨mem, ptr + 4, stop⟩ =
        (some ⟨a, spans⟩, ⟨mem, ptr + 4 + alignInt c.length 4, stop⟩)) :
    Finds mem stop ptr cs v := by
  have hint := readInt_holds h hptr
  have hdata : Holds mem stop (ptr + 4) (c :: cs) := by simpa [alignInt] using h.2.2
  obtain ⟨spans, hnext⟩ := hnext (BitVec.ofNat 32 n) (toInt_ofNat hn) hdata
  have hrest : Holds mem stop (ptr + 4 + alignInt c.length 4) cs := hdata.2.2
  refine ⟨[⟨ptr, 4⟩] ++ spans, ptr + 4 + alignInt c.length 4, ?_, by omega, hrest⟩
  rw [hread, hint, andThen]
  simp only [hnext]
  simp [tag, Answer.map, hv]

theorem map_ofNat_toNat {w : Nat} (value : List (BitVec w)) :
    (value.map BitVec.toNat).map (BitVec.ofNat w) = value := by
  induction value with
  | nil => rfl
  | cons c cs ih => rw [map_cons, map_cons, ih, BitVec.ofNat_toNat, BitVec.setWidth_eq]

theorem ofNat_mod {w : Nat} (size : Nat) (hw : w = 8 * size) (v : BitVec w) :
    BitVec.ofNat w (v.toNat % 256 ^ size) = v := by
  subst hw
  have hlt : v.toNat < 256 ^ size := by
    have h := v.isLt
    rwa [Nat.pow_mul] at h
  rw [mod_eq_of_lt hlt, BitVec.ofNat_toNat, BitVec.setWidth_eq]

theorem loadUnits_holds {w size : Nat} {value : List (BitVec w)} (hw : w = 8 * size)
    (h : load mem ptr (value.length * size) = value.flatMap fun c => leBytes size c.toNat) :
    (loadUnits mem size ptr value.length).map (BitVec.ofNat w) = value := by
  subst hw
  have hunits := @loadUnits_eq mem size ptr (value.map BitVec.toNat) ?_ ?_
  · rw [length_map] at hunits
    rw [hunits, map_ofNat_toNat]
  · intro u hu
    obtain ⟨c, -, rfl⟩ := mem_map.mp hu
    have hlt := c.isLt
    rwa [Nat.pow_mul] at hlt
  · rw [length_map, Nat.mul_comm, h, flatMap_map]

theorem read_bool {value : Bool}
    (h : Holds mem stop ptr (leBytes 4 (if value then 1 else 0) :: cs)) (hptr : 0 < ptr) :
    Finds mem stop ptr cs (.bool value : Value t) := by
  have hbuiltin := readBuiltinType_holds 1 h hptr (by simp) (by simp [alignInt])
  refine ⟨[⟨ptr, 1⟩], ptr + 4, ?_, by omega, by simpa [alignInt] using h.2.2⟩
  simp only [readOf, read, hbuiltin]
  cases value <;> simp [tag, Answer.map, leBytes, leValue, alignInt]

/-- Every read method finds the value its write method has written. -/
theorem read_finds (h : Holds mem stop ptr (chunks v ++ cs)) (hptr : 0 < ptr)
    (hsmall : stop < 2 ^ 31) : Finds mem stop ptr cs v := by
  have hstop : ∀ {d ds}, Holds mem stop ptr (leBytes 4 d :: ds :: cs) → ds.length < 2 ^ 31 := by
    intro d ds hh
    have hroom := hh.2.2.1
    omega
  cases v with
  | bool value => exact read_bool h hptr
  | int value =>
    refine read_builtin (f := fun n => .int (BitVec.ofNat 32 n)) h hptr rfl (fun it => ?_) ?_
    · simp only [read, readOf, tag, readInt, Option.map_map]
      rfl
    · exact congrArg Value.int (ofNat_mod 4 rfl value)
  | long value =>
    have halign : (if t.longSize < 4 then alignInt t.longSize 4 else t.longSize) =
        alignInt t.longSize 4 := by
      rcases t.longSize_eq with hl | hl <;> rw [hl] <;> rfl
    exact read_builtin h hptr halign (fun _ => rfl)
      (congrArg Value.long (ofNat_mod t.longSize rfl value))
  | uint16 value =>
    exact read_builtin h hptr rfl (fun _ => rfl) (congrArg Value.uint16 (ofNat_mod 2 rfl value))
  | uint32 value =>
    exact read_builtin h hptr rfl (fun _ => rfl) (congrArg Value.uint32 (ofNat_mod 4 rfl value))
  | int64 value =>
    exact read_builtin h hptr rfl (fun _ => rfl) (congrArg Value.int64 (ofNat_mod 8 rfl value))
  | uint64 value =>
    exact read_builtin h hptr rfl (fun _ => rfl) (congrArg Value.uint64 (ofNat_mod 8 rfl value))
  | string value | data value =>
    refine read_sized (a := value) h hptr (hstop h) (fun _ => rfl) rfl fun len hlen hh => ?_
    simp only [hlen]
    exact ⟨_, readBytes_holds hh (by omega)⟩
  | wstring value =>
    have hlength := length_flatMap_leBytes t.wcharSize BitVec.toNat value
    have hcount : value.length ≤ value.length * t.wcharSize :=
      Nat.le_mul_of_pos_right _ t.wcharSize_pos
    have hn : value.length < 2 ^ 31 := by
      have hbytes := hstop h
      omega
    refine read_sized (a := value) h hptr hn (fun _ => rfl) rfl fun len hlen hh => ?_
    have hload := hh.2.1
    rw [hlength] at hload
    simp only [hlen, getReadPointerAndAdvanceElements_holds hh hlength hsmall,
      ifNotNull_of_pos (show 0 < ptr + 4 by omega), Int.toNat_natCast, loadUnits_holds rfl hload]
    exact ⟨_, rfl⟩
  | string16 value =>
    have hlength := length_flatMap_leBytes 2 BitVec.toNat value
    have hn : value.length < 2 ^ 31 := by
      have hbytes := hstop h
      omega
    refine read_sized (a := value) h hptr hn (fun _ => rfl) rfl fun len hlen hh => ?_
    have hload := hh.2.1
    rw [hlength] at hload
    simp only [hlen, getReadPointerAndAdvanceElements_holds hh hlength hsmall,
      ifNotNull_of_pos (show 0 < ptr + 4 by omega), Int.toNat_natCast, loadUnits_holds (w := 16) rfl hload]
    exact ⟨_, rfl⟩
  | bytes value =>
    refine ⟨[⟨ptr, value.length⟩], ptr + alignInt value.length 4, ?_, by omega, h.2.2⟩
    simp only [read, readOf, readBytes_holds h hptr]
    rfl

/-- Reading the types of the values in their order. -/
theorem readAll_finds (h : Holds mem stop ptr (vs.flatMap chunks)) (hptr : 0 < ptr)
    (hsmall : stop < 2 ^ 31) :
    ∃ answers next, readAll t (vs.map readOf) ⟨mem, ptr, stop⟩ = (answers, ⟨mem, next, stop⟩) ∧
      answers.map (Option.map Answer.value) = vs.map (some ∘ some) ∧ stop ≤ next := by
  induction vs generalizing ptr with
  | nil =>
    obtain rfl : ptr = alignInt stop 4 := h
    exact ⟨[], _, rfl, rfl, le_alignInt stop 4⟩
  | cons v vs ih =>
    rw [flatMap_cons] at h
    obtain ⟨spans, next, hread, hnext, hrest⟩ := read_finds h hptr hsmall
    obtain ⟨answers, last, hall, hvalues, hlast⟩ := ih hrest hnext
    refine ⟨some ⟨some v, spans⟩ :: answers, last, ?_, ?_, hlast⟩
    · rw [map_cons, readAll, hread]
      simp only [hall]
    · rw [map_cons, map_cons, hvalues]
      rfl

/-- At the end no type of a fixed size is left to read. -/
theorem read_fixed_at_end {r : Read} (hfixed : r.isFixed) {it : PickleIterator}
    (hend : it.readEndPtr ≤ it.readPtr) : (it.read t r).1 = none := by
  have hnone : ∀ size, 0 < size → (it.readBuiltinType size).1 = none := by
    intro size hsize
    unfold readBuiltinType getReadPointerAndAdvanceType
    rw [if_pos (by omega)]
    rfl
  have hlong : 0 < t.longSize := by
    rcases t.longSize_eq with h | h <;> omega
  cases r with
  | bool => simp [read, tag, hnone 1]
  | int => simp [read, tag, readInt, hnone 4]
  | long => simp [read, tag, hnone t.longSize hlong]
  | uint16 => simp [read, tag, hnone 2]
  | uint32 => simp [read, tag, hnone 4]
  | int64 | uint64 => simp [read, tag, hnone 8]
  | _ => cases hfixed

end PickleIterator

/-- Reading the same types in the same order gives the values back, and then nothing is left. -/
def ReadsBack (t : Target) (p : Pickle) (vs : List (Value t)) : Prop :=
  let result := p.iterator.readAll t (vs.map readOf)
  result.1.map (Option.map Answer.value) = vs.map (some ∘ some) ∧
    ∀ r : Read, r.isFixed → (result.2.read t r).1 = none

theorem Represents.readsBack (h : Represents p headerSize (vs.flatMap chunks) mem) :
    ReadsBack t p vs := by
  obtain ⟨hhead, hsize, halign, hroom, hload, hsmall, hholds⟩ := h
  have hit : p.iterator = ⟨mem, headerSize, headerSize + sizeAfter 0 (vs.flatMap chunks)⟩ := by
    rw [iterator, hhead]
    simp only [hsize, hload]
  obtain ⟨answers, next, hall, hvalues, hnext⟩ :=
    PickleIterator.readAll_finds hholds (by omega) hsmall
  unfold ReadsBack
  rw [hit, hall]
  exact ⟨hvalues, fun r hfixed => PickleIterator.read_fixed_at_end hfixed hnext⟩

/-- The pickle round trip: what was written is read back from the pickle, from a view of its
data, from a copy of it and from a copy of the view. -/
theorem pickle_round_trip {t : Target} {heap : Heap} {headerSize : Nat} {vs : List (Value t)}
    {p₀ p : Pickle} (hmin : 4 ≤ headerSize) (hmax : headerSize ≤ kPayloadUnit)
    (hnew : new t heap headerSize = some p₀) (hwrite : p₀.writeAll t heap vs = some p)
    (hsmall : alignInt headerSize 4 + sizeAfter 0 (vs.flatMap chunks) < 2 ^ 31) :
    ReadsBack t p vs ∧ ReadsBack t (ofData p.toData) vs ∧
      (∀ heap' p', copy t heap' p = some p' → ReadsBack t p' vs) ∧
      ∀ heap' p', copy t heap' (ofData p.toData) = some p' → ReadsBack t p' vs := by
  have hlengths : ∀ c ∈ vs.flatMap chunks, c.length < 2 ^ 31 := by
    intro c hc
    have hle := length_le_sizeAfter 0 hc
    omega
  rw [writeAll_eq hlengths] at hwrite
  obtain ⟨mem₀, hrep₀⟩ := new_represents hmin hmax hnew
  obtain ⟨mem, hrep⟩ := writeChunks_represents hrep₀ hwrite hsmall
  rw [nil_append] at hrep
  obtain ⟨viewMem, hview⟩ := ofData_represents hrep
  refine ⟨hrep.readsBack, hview.readsBack, fun heap' p' hcopy => ?_, fun heap' p' hcopy => ?_⟩
  · obtain ⟨mem', hrep'⟩ := copy_represents hrep hcopy
    exact hrep'.readsBack
  · obtain ⟨mem', hrep'⟩ := copy_represents hview hcopy
    exact hrep'.readsBack

/-- Sub-word and odd-sized values, behind a header of two words. -/
def mixedValues : List (Value .lp64) :=
  [.bool true, .uint16 7, .string [65, 66, 67], .wstring [9], .bytes [1]]

/-- Every allocation succeeds and finds used memory. -/
def usedHeap : Heap := ⟨fun _ => true, fun _ => 205⟩

theorem pickle_round_trip_mixed :
    ∃ p₀ p, new .lp64 usedHeap 8 = some p₀ ∧
      p₀.writeAll .lp64 usedHeap mixedValues = some p ∧ ReadsBack .lp64 p mixedValues ∧
      ReadsBack .lp64 (ofData p.toData) mixedValues := by
  have hwrite : ∃ p₀ p, new .lp64 usedHeap 8 = some p₀ ∧
      p₀.writeAll .lp64 usedHeap mixedValues = some p := ⟨_, _, rfl, rfl⟩
  obtain ⟨p₀, p, hnew, hwrite⟩ := hwrite
  have h := pickle_round_trip (by decide) (by decide) hnew hwrite (by decide)
  exact ⟨p₀, p, hnew, hwrite, h.1, h.2.1⟩

end ChromiumUI.Base
