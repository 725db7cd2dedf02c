import ChromiumUI.PickleBuffers

/-!
# Runs of a pickle

The pickles that constructors, copies, assignments, writes and the variable buffer make of each
other, and what holds of the buffer of each.
-/
namespace ChromiumUI.Base

open ByteMemory List Option Nat Pickle PickleIterator

variable {t : Target} {heap : Heap} {p p' other : Pickle} {mem : Memory} {capacity : Nat}

/-! ## Pickles to copy from -/

/-- A pickle with a layout, perhaps a read-only one, whose size can be allocated. -/
structure Source (t : Target) (other : Pickle) (mem : Memory) : Prop where
  header : other.header = some mem
  layout : Layout other.headerSize other.variableBufferOffset mem
  bound : alignInt (other.headerSize + payloadSizeOf mem) kPayloadUnit <
    2 ^ t.sizeBits

theorem Buffer.source (h : Buffer t p mem capacity) : Source t p mem := by
  refine ⟨h.header, h.layout, lt_of_le_of_lt ?_ h.bound⟩
  have hin := h.inside
  have hunit := h.unit
  unfold alignInt kPayloadUnit at *
  omega

/-- A new buffer of the size of the source, with the bytes of the source. -/
theorem Source.buffer {mem' : Memory} (h : Source t other mem) (hhead : p.header = some mem')
    (hsize : p.headerSize = other.headerSize)
    (hvar : p.variableBufferOffset = other.variableBufferOffset)
    (hcap : p.capacity = some (t.sizeT (alignInt
      (other.headerSize + payloadSizeOf mem) kPayloadUnit)))
    (hsame : ∀ i, i < other.headerSize + payloadSizeOf mem → mem i = mem' i) :
    ∃ capacity, Buffer t p mem' capacity := by
  have hroom := h.layout.room
  have hload : payloadSizeOf mem = payloadSizeOf mem' := by
    rw [payloadSizeOf, load_congr fun i _ hi => hsame i (by omega), payloadSizeOf]
  have halign := h.layout.aligned
  obtain ⟨hunit, hle⟩ := alignInt_kPayloadUnit (other.headerSize + payloadSizeOf mem)
  refine ⟨_, hhead, hcap, ?_, ?_, sizeT_lt _, ?_⟩
  · rw [hsize, hvar]
    exact h.layout.grow (le_of_eq hload) fun i _ hi => hsame i hi
  · rw [sizeT_of_lt_bits h.bound]
    exact hunit
  · rw [sizeT_of_lt_bits h.bound, hsize, ← hload]
    unfold alignInt kPayloadUnit at *
    omega

theorem Source.copy (h : Source t other mem) (hcopy : other.copy t heap = some p) :
    ∃ mem' capacity, Buffer t p mem' capacity := by
  simp only [Pickle.copy, h.header, bind_some] at hcopy
  obtain ⟨q, hq, rfl⟩ := map_eq_some_iff.mp hcopy
  obtain ⟨hcap, hhead, hsize, hvar⟩ := resize_capacity hq
  exact ⟨_, h.buffer (by rw [hhead]; rfl) hsize hvar hcap fun i hi => store_load hi⟩

theorem Source.assign (h : Source t other mem) (hassign : p.assign t heap other = some p') :
    ∃ mem' capacity, Buffer t p' mem' capacity := by
  simp only [Pickle.assign, h.header, bind_some] at hassign
  obtain ⟨q, hq, rfl⟩ := map_eq_some_iff.mp hassign
  obtain ⟨hcap, hhead, hsize, -⟩ := resize_capacity hq
  have hset : ∀ r : Pickle, (if r.headerSize ≠ other.headerSize then
      { r with header := none, headerSize := other.headerSize } else r).headerSize =
        other.headerSize := by
    intro r
    by_cases hdiffers : r.headerSize ≠ other.headerSize
    · rw [if_pos hdiffers]
    · rw [if_neg hdiffers]
      exact not_not.mp hdiffers
  have hsize' : q.headerSize = other.headerSize := hsize.trans (hset _)
  exact ⟨_, h.buffer (by rw [hhead]; rfl) hsize' rfl hcap fun i hi => store_load hi⟩

/-- A new pickle is one buffer of a payload unit, with no payload. -/
theorem new_buffer {headerSize : Nat} (hmin : 4 ≤ headerSize)
    (hmax : headerSize ≤ kPayloadUnit) (h : new t heap headerSize = some p) :
    ∃ mem capacity, Buffer t p mem capacity := by
  obtain ⟨q, hq, rfl⟩ := map_eq_some_iff.mp h
  obtain ⟨hcap, hhead, hsize, hvar⟩ := resize_capacity hq
  have hunit : t.sizeT (alignInt kPayloadUnit kPayloadUnit : Nat) =
      kPayloadUnit := sizeT_of_lt (n := 64) (by omega)
  have hload := @payloadSizeOf_store 0 heap.fresh (by omega)
  obtain ⟨halign, hlt⟩ := alignInt_four headerSize
  have hle := le_alignInt headerSize 4
  rw [hunit] at hcap
  refine ⟨_, kPayloadUnit, by rw [hhead]; rfl, hcap, ⟨?_, ?_, .inl hvar⟩, rfl,
    ?_, ?_⟩
  · rw [hsize]
    exact halign
  · rw [hsize]
    exact le_trans hmin hle
  · unfold kPayloadUnit
    rcases t.sizeBits_eq with hbits | hbits <;> rw [hbits] <;> omega
  · simp only [getD_none, hload, hsize]
    unfold alignInt kPayloadUnit at *
    omega

variable {data : List UInt8}

/-- The constructor takes a header size only if it is one of whole words that leaves the payload. -/
theorem ofData_headerSize (hsmall : data.length < 2 ^ 31) (h : (ofData data).headerSize ≠ 0)
    :
    (ofData data).headerSize % 4 = 0 ∧
      (ofData data).headerSize + payloadSizeOf (ofBytes data) = data.length := by
  have hlt := payloadSizeOf_lt (ofBytes data)
  simp only [ofData] at h ⊢
  generalize payloadSizeOf (ofBytes data) = payloadSize at hlt h ⊢
  unfold alignInt at h ⊢
  split_ifs at h ⊢ <;> omega

/-- A view that has a header can be copied from. -/
theorem ofData_source (hsmall : data.length < 2 ^ 31)
    (hhead : (ofData data).header = some mem) : Source t (ofData data) mem := by
  have hsome : (ofData data).headerSize ≠ 0 ∧ mem = ofBytes data := by
    simp only [ofData] at hhead ⊢
    rw [ite_eq_iff] at hhead
    rcases hhead with ⟨-, hnone⟩ | ⟨hnonzero, hmem⟩
    · cases hnone
    · exact ⟨hnonzero, (some.inj hmem).symm⟩
  obtain ⟨hnonzero, rfl⟩ := hsome
  obtain ⟨halign, hlen⟩ := ofData_headerSize hsmall hnonzero
  refine ⟨hhead, ⟨halign, by omega, .inl rfl⟩, ?_⟩
  rw [hlen]
  unfold alignInt kPayloadUnit
  rcases t.sizeBits_eq with hbits | hbits <;> rw [hbits] <;> omega

/-! ## Runs -/

/-- A method that changes a pickle; the caller writes to the variable buffer by itself. -/
inductive Change (t : Target) where
  | write (value : Value t)
  | beginWriteData (length : BitVec 32)
  | fill (data : List UInt8)
  | trimWriteData (newLength : BitVec 32)

/-- What WriteBytes is called with by a write method. -/
def writeBytesCalls : Value t → List (List UInt8 × Int)
  | .bool value => [(leBytes 4 (if value then 1 else 0), 4)]
  | .int value => [(leBytes 4 value.toNat, 4)]
  | .long value => [(leBytes t.longSize value.toNat, t.longSize)]
  | .uint16 value => [(leBytes 2 value.toNat, 2)]
  | .uint32 value => [(leBytes 4 value.toNat, 4)]
  | .int64 value => [(leBytes 8 value.toNat, 8)]
  | .uint64 value => [(leBytes 8 value.toNat, 8)]
  | .string value =>
    [(leBytes 4 (BitVec.ofNat 32 value.length).toNat, 4), (value, toInt32 value.length)]
  | .wstring value =>
    [(leBytes 4 (BitVec.ofNat 32 value.length).toNat, 4),
      (value.flatMap fun c => leBytes t.wcharSize c.toNat, toInt32 (value.length * t.wcharSize))]
  | .string16 value =>
    [(leBytes 4 (BitVec.ofNat 32 value.length).toNat, 4),
      (value.flatMap fun c => leBytes 2 c.toNat, toInt32 (toInt32 value.length * 2))]
  | .data value =>
    [(leBytes 4 (BitVec.ofNat 32 value.length).toNat, 4), (value, toInt32 value.length)]
  | .bytes value => [(value, toInt32 value.length)]

/-- One call of WriteBytes after the other. -/
def runCalls (t : Target) (heap : Heap) : List (List UInt8 × Int) → Pickle → Option Pickle
  | [], p => some p
  | c :: cs, p => (p.writeBytes t heap c.1 c.2).bind (runCalls t heap cs)

theorem runCalls_one (data : List UInt8) (dataLen : Int) (p : Pickle) :
    runCalls t heap [(data, dataLen)] p = p.writeBytes t heap data dataLen := by
  simp [runCalls]

theorem runCalls_two (length : BitVec 32) (data : List UInt8) (dataLen : Int) (p : Pickle) :
    runCalls t heap [(leBytes 4 length.toNat, 4), (data, dataLen)] p =
      (p.writeInt t heap length).bind (writeBytes t heap data dataLen) := by
  rw [runCalls, writeInt]
  exact congrArg _ (funext (runCalls_one data dataLen))

theorem write_calls {value : Value t} (h : p.write t heap value = some p') :
    runCalls t heap (writeBytesCalls value) p = some p' := by
  cases value with
  | bool value =>
    rw [writeBytesCalls, runCalls_one]
    cases value <;> exact h
  | string | wstring | string16 =>
    rw [write] at h
    rw [writeBytesCalls, runCalls_two]
    exact h
  | data =>
    rw [writeBytesCalls, runCalls_two]
    simp only [write] at h
    split_ifs at h
    exact h
  | _ =>
    rw [write] at h
    rw [writeBytesCalls, runCalls_one]
    exact h

/-- Every call of BeginWrite fits. -/
def CallsFit (t : Target) (heap : Heap) : List (List UInt8 × Int) → Pickle → Prop
  | [], _ => True
  | c :: cs, p => Fits t p (t.sizeT c.2) ∧
      ∀ q, p.writeBytes t heap c.1 c.2 = some q → CallsFit t heap cs q

/-- What EndWrite pads in the calls. -/
def paddings (t : Target) (heap : Heap) : List (List UInt8 × Int) → Pickle → List Padding
  | [], _ => []
  | c :: cs, p =>
    ((p.beginWrite t heap (t.sizeT c.2)).elim [] fun (dest, q) => q.padding dest (t.sizeT c.2)) ++
      (p.writeBytes t heap c.1 c.2).elim [] (paddings t heap cs)

theorem runCalls_buffer {cs : List (List UInt8 × Int)} (h : Buffer t p mem capacity)
    (hfit : CallsFit t heap cs p) (hrun : runCalls t heap cs p = some p') :
    ∃ mem' capacity', Buffer t p' mem' capacity' := by
  induction cs generalizing p mem capacity with
  | nil =>
    cases hrun
    exact ⟨mem, capacity, h⟩
  | cons c cs ih =>
    obtain ⟨q, hq, hrest⟩ := bind_eq_some_iff.mp hrun
    obtain ⟨memq, capq, hbuf, -⟩ := h.writeBytes hfit.1 hq
    exact ih hbuf (hfit.2 q hq) hrest

theorem paddings_inside {cs : List (List UInt8 × Int)} (h : Buffer t p mem capacity)
    (hfit : CallsFit t heap cs p) :
    ∀ pad ∈ paddings t heap cs p, ∃ c, pad.capacity = some c ∧ pad.span.stop ≤ c := by
  induction cs generalizing p mem capacity with
  | nil => nofun
  | cons c cs ih =>
    intro pad hpad
    rcases mem_append.mp hpad with hpad | hpad
    · cases hbegin : p.beginWrite t heap (t.sizeT c.2) with
      | none =>
        rw [hbegin] at hpad
        cases hpad
      | some begun =>
        obtain ⟨dest, q⟩ := begun
        rw [hbegin] at hpad
        obtain ⟨capq, hbegun⟩ := h.beginWrite hfit.1 hbegin
        exact hbegun.padding_inside h rfl pad hpad
    · cases hwrite : p.writeBytes t heap c.1 c.2 with
      | none =>
        rw [hwrite] at hpad
        cases hpad
      | some q =>
        rw [hwrite] at hpad
        obtain ⟨memq, capq, hbuf, -⟩ := h.writeBytes hfit.1 hwrite
        exact ih hbuf (hfit.2 q hwrite) pad hpad

namespace Change

/-- The calls of BeginWrite and EndWrite, with what is copied between them. -/
def calls : Change t → List (List UInt8 × Int)
  | .write value => writeBytesCalls value
  | .beginWriteData length => [(leBytes 4 length.toNat, 4), ([], length.toInt)]
  | .fill _ => []
  | .trimWriteData _ => []

/-- `none` is a method that fails. -/
def apply (heap : Heap) (p : Pickle) : Change t → Option Pickle
  | .write value => p.write t heap value
  | .beginWriteData length => (p.beginWriteData t heap length).map Prod.snd
  | .fill data => some (p.fill (p.variableBufferOffset + 4) data)
  | .trimWriteData newLength => some (p.trimWriteData newLength)

/-- The sizes are below 2^32, the caller stays in the variable buffer, and a read-only pickle is
left alone. -/
def Allowed (heap : Heap) (p : Pickle) : Change t → Prop
  | .write value => CallsFit t heap (writeBytesCalls value) p
  | .beginWriteData length => CallsFit t heap [(leBytes 4 length.toNat, 4), ([], length.toInt)] p
  | .fill data => p.variableBufferOffset ≠ 0 ∧ ∀ mem ∈ p.header, data.length ≤ p.curLength mem
  | .trimWriteData _ => p.capacity ≠ none

end Change

/-- Pickle() and Pickle(header_size), views of data, and what becomes of them. Pickle() is the one
with the header of sizeof(Header) bytes. -/
inductive Reachable (t : Target) : Pickle → Prop
  | new {heap : Heap} {headerSize : Nat} {p : Pickle} (hmin : 4 ≤ headerSize)
      (hmax : headerSize ≤ kPayloadUnit) (hnew : new t heap headerSize = some p) :
      Reachable t p
  | ofData {data : List UInt8} (hsmall : data.length < 2 ^ 31) : Reachable t (ofData data)
  | copy {heap : Heap} {other p : Pickle} (h : Reachable t other)
      (hcopy : other.copy t heap = some p) : Reachable t p
  | assign {heap : Heap} {p other p' : Pickle} (h : Reachable t p) (hother : Reachable t other)
      (hassign : p.assign t heap other = some p') : Reachable t p'
  | change {heap : Heap} {p p' : Pickle} {c : Change t} (h : Reachable t p)
      (hallowed : c.Allowed heap p) (happly : c.apply heap p = some p') : Reachable t p'

/-- A pickle has a buffer, or it is read-only and can be copied from if it has a header. -/
inductive Sound (t : Target) (p : Pickle) : Prop
  | buffer {mem : Memory} {capacity : Nat} (h : Buffer t p mem capacity)
  | readOnly (hcapacity : p.capacity = none) (hvariable : p.variableBufferOffset = 0)
      (h : ∀ mem, p.header = some mem → Source t p mem)

theorem Sound.source (h : Sound t p) (hhead : p.header = some mem) : Source t p mem := by
  cases h with
  | buffer h =>
    cases hhead.symm.trans h.header
    exact h.source
  | readOnly hcap hvar h => exact h mem hhead

theorem Sound.header_of_bind {α : Type} {f : Memory → Option α} {a : α}
    (h : Sound t p) (hbind : p.header.bind f = some a) : ∃ mem, Source t p mem := by
  obtain ⟨mem, hmem, -⟩ := bind_eq_some_iff.mp hbind
  exact ⟨mem, h.source hmem⟩

theorem Buffer.change {c : Change t} (h : Buffer t p mem capacity) (hallow : c.Allowed heap p)
    (happly : c.apply heap p = some p') : Sound t p' := by
  cases c with
  | write value =>
    obtain ⟨mem', capacity', h'⟩ := runCalls_buffer h hallow (write_calls happly)
    exact .buffer h'
  | beginWriteData length =>
    obtain ⟨⟨dest, q⟩, hbegin, rfl⟩ := map_eq_some_iff.mp happly
    obtain ⟨mem', capacity', h', -⟩ := h.beginWriteData hallow.1
      (fun q hq => (hallow.2 q hq).1) hbegin
    exact .buffer h'
  | fill data =>
    cases happly
    exact .buffer (h.fill hallow.1)
  | trimWriteData newLength =>
    cases happly
    obtain ⟨mem', h'⟩ := h.trimWriteData newLength
    exact .buffer h'

section

variable (hcap : p.capacity = none)
include hcap

/-- Nothing is ever written to a read-only pickle. -/
theorem beginWrite_readOnly (length : Nat) : p.beginWrite t heap length = none := by
  rw [beginWrite, hcap]
  cases p.header <;> rfl

theorem writeBytes_readOnly (data : List UInt8) (dataLen : Int) :
    p.writeBytes t heap data dataLen = none := by
  rw [writeBytes, beginWrite_readOnly hcap]
  rfl

theorem paddings_readOnly (cs : List (List UInt8 × Int)) : paddings t heap cs p = [] := by
  cases cs with
  | nil => rfl
  | cons c cs =>
    rw [paddings, beginWrite_readOnly hcap, writeBytes_readOnly hcap]
    rfl

theorem apply_readOnly {c : Change t} (hvar : p.variableBufferOffset = 0)
    (hallow : c.Allowed heap p) :
    c.apply heap p ≠ some p' := by
  intro happly
  cases c with
  | write value =>
    have hcalls := write_calls happly
    cases value <;>
      rw [writeBytesCalls, runCalls, writeBytes_readOnly hcap] at hcalls <;> cases hcalls
  | beginWriteData length =>
    obtain ⟨⟨dest, q⟩, hbegin, -⟩ := map_eq_some_iff.mp happly
    unfold beginWriteData at hbegin
    split_ifs at hbegin
    rw [writeInt, writeBytes_readOnly hcap] at hbegin
    cases hbegin
  | fill data => exact hallow.1 hvar
  | trimWriteData newLength => exact hallow hcap

end

theorem Reachable.sound (h : Reachable t p) : Sound t p := by
  induction h with
  | new hmin hmax hnew =>
    obtain ⟨mem, capacity, h⟩ := new_buffer hmin hmax hnew
    exact .buffer h
  | ofData hsmall => exact .readOnly rfl rfl fun mem hhead => ofData_source hsmall hhead
  | copy _ hcopy ih =>
    obtain ⟨mem, hsrc⟩ := ih.header_of_bind hcopy
    obtain ⟨mem', capacity, h⟩ := hsrc.copy hcopy
    exact .buffer h
  | assign _ _ hassign _ ih =>
    obtain ⟨mem, hsrc⟩ := ih.header_of_bind hassign
    obtain ⟨mem', capacity, h⟩ := hsrc.assign hassign
    exact .buffer h
  | @change heap p p' c _ hallow happly ih =>
    cases ih with
    | buffer h => exact h.change hallow happly
    | readOnly hcap hvar h =>
      exact absurd happly (apply_readOnly hcap hvar hallow)

/-! ## Reading the variable buffer -/

theorem take_load (mem : Memory) (ptr : Nat) {k n : Nat} (h : k ≤ n) :
    (load mem ptr n).take k = load mem ptr k := by
  obtain ⟨d, rfl⟩ := Nat.exists_eq_add_of_le h
  rw [load_add, take_append_of_le_length (by simp), take_of_length_le (by simp)]

/-- Two loads from one place begin alike. -/
theorem take_load_comm (mem : Memory) (ptr m n : Nat) :
    (load mem ptr m).take n = (load mem ptr n).take m := by
  rcases le_total m n with h | h
  · rw [take_of_length_le (by simpa using h), take_load mem ptr h]
  · rw [take_load mem ptr h, take_of_length_le (by simpa using h)]

/-- A variable buffer that was begun behind `mem`, written to and trimmed: a length word and that
many bytes, the first ones written, behind the old payload. -/
structure Trimmed (p r : Pickle) (mem : Memory) (data bytes : List UInt8) (memr : Memory) :
    Prop where
  header : r.header = some memr
  headerSize : r.headerSize = p.headerSize
  before : ∀ i, 4 ≤ i → i < p.headerSize + alignInt (payloadSizeOf mem) 4 → mem i = memr i
  word : load memr (p.headerSize + alignInt (payloadSizeOf mem) 4) 4 =
    leBytes 4 bytes.length
  content : load memr (p.headerSize + alignInt (payloadSizeOf mem) 4 + 4) bytes.length =
    bytes
  payloadSize : payloadSizeOf memr =
    alignInt (payloadSizeOf mem) 4 + 4 + bytes.length
  written : bytes.take data.length = data.take bytes.length

theorem Buffer.trimmed {n m : BitVec 32} {dest : Nat} {q : Pickle} (data : List UInt8)
    (h : Buffer t p mem capacity) (hallow : Change.Allowed heap p (.beginWriteData n : Change t))
    (hbegin : p.beginWriteData t heap n = some (dest, q)) (hnneg : 0 ≤ m.toInt)
    (hle : m.toInt ≤ n.toInt) :
    ∃ bytes memr, bytes.length = m.toNat ∧
      Trimmed p ((q.fill dest data).trimWriteData m) mem data bytes memr := by
  obtain ⟨memq, capq, hbuf, hends, hn, rfl, hsize, hoff, hpre⟩ :=
    h.beginWriteData hallow.1 (fun q hq => (hallow.2 q hq).1) hbegin
  have hroom := hbuf.layout.room
  have hm : m.toNat ≤ n.toNat := by
    have hmvalue := (toInt_of_nonneg hnneg).1
    have hnvalue := (toInt_of_nonneg hn).1
    omega
  have hfilled := @EndsWithBuffer.fill q memq n.toNat data hends hroom
  obtain ⟨memr, hmemr, hsizer, hvariabler, hendsr, hsame⟩ := hfilled.trimWriteData
    (by rw [Pickle.fill, hbuf.header]; rfl) hroom hnneg hm
  have hsizer' : ((q.fill (q.variableBufferOffset + 4) data).trimWriteData m).headerSize =
      p.headerSize := hsizer.trans hsize
  have hoffsetr : ((q.fill (q.variableBufferOffset + 4) data).trimWriteData
      m).variableBufferOffset = p.headerSize + alignInt (payloadSizeOf mem) 4 :=
    hvariabler.trans hoff
  have hword := hendsr.word
  have hstop := hendsr.stop
  rw [hoffsetr] at hword hstop
  rw [hsizer'] at hstop
  have hfill : ∀ k, load memr (q.variableBufferOffset + 4) k =
      load (store memq (q.variableBufferOffset + 4) data) (q.variableBufferOffset + 4) k :=
    fun k => load_congr fun i hlo _ => hsame i (by omega) (.inr hlo)
  refine ⟨load memr (q.variableBufferOffset + 4) m.toNat, memr, length_load _ _ _, hmemr, hsizer',
    fun i hlo hhi => ?_, ?_, ?_, ?_, ?_⟩
  · rw [hpre i hlo hhi, hsame i hlo (.inl (by simp only [Pickle.fill]; omega)),
      store_before data (by omega)]
  · rw [length_load]
    exact hword
  · rw [length_load, hoff]
  · rw [length_load]
    omega
  · rw [length_load, hfill, take_load_comm, load_store_self]

variable {bytes : List UInt8}

/-- The chunks that are read in front of the variable buffer, and the buffer. -/
theorem Trimmed.represents {r : Pickle} {memr : Memory} {headerSize : Nat} {cs : List (List UInt8)}
    (h : Trimmed p r mem data bytes memr) (hrep : Represents p headerSize cs mem)
    (hsmall : headerSize + alignInt (payloadSizeOf mem) 4 + 4 + bytes.length < 2 ^ 31) :
    Represents r headerSize (cs ++ [leBytes 4 bytes.length, bytes]) memr := by
  obtain ⟨-, rfl, halign, hroom, hload, -, hholds⟩ := hrep
  have hstop : alignInt (p.headerSize + sizeAfter 0 cs) 4 =
      p.headerSize + alignInt (payloadSizeOf mem) 4 := by
    rw [alignInt_add halign, hload]
  have hnext : alignInt (p.headerSize + alignInt (payloadSizeOf mem) 4 + 4) 4 =
      p.headerSize + alignInt (payloadSizeOf mem) 4 + 4 := by
    unfold alignInt at *
    omega
  have hsize : sizeAfter 0 (cs ++ [leBytes 4 bytes.length, bytes]) =
      alignInt (payloadSizeOf mem) 4 + 4 + bytes.length := by
    rw [sizeAfter_append, sizeAfter, sizeAfter, sizeAfter, length_leBytes, ← hload]
    unfold alignInt at *
    omega
  have hword := hholds.append (c := leBytes 4 bytes.length) halign
    (fun i hlo hhi => h.before i (by omega) (by
      have hle := le_alignInt (payloadSizeOf mem) 4
      omega))
    (by rw [hstop, length_leBytes]; exact h.word)
  rw [hstop, length_leBytes] at hword
  have hall := hword.append (c := bytes) halign (fun _ _ _ => rfl)
    (by rw [hnext]; exact h.content)
  rw [hnext, append_assoc] at hall
  refine ⟨h.header, h.headerSize, halign, hroom, by rw [h.payloadSize, hsize], ?_, ?_⟩
  · rw [hsize]
    omega
  · rw [hsize, ← Nat.add_assoc, ← Nat.add_assoc]
    exact hall

theorem readData_holds {stop ptr : Nat} {cs : List (List UInt8)}
    (h : Holds mem stop ptr (leBytes 4 bytes.length :: bytes :: cs)) (hptr : 0 < ptr)
    (hsmall : bytes.length < 2 ^ 31) :
    ∃ spans, (readData ⟨mem, ptr, stop⟩).1 = some ⟨bytes, spans⟩ := by
  have hdata : Holds mem stop (ptr + 4) (bytes :: cs) := by simpa [alignInt] using h.2.2
  rw [readData, readInt_holds h hptr, andThen]
  simp only [toInt_ofNat hsmall,
    readBytes_holds hdata (show 0 < ptr + 4 by omega)]
  exact ⟨_, rfl⟩

/-- ReadData where the old payload ended. -/
theorem Trimmed.readData {r : Pickle} {memr : Memory} (h : Trimmed p r mem data bytes memr)
    (hlayout : Layout p.headerSize p.variableBufferOffset mem) (hsmall : bytes.length < 2 ^ 31) :
    ∃ spans, ({ r.iterator with
      readPtr := p.headerSize + alignInt (payloadSizeOf mem) 4 } :
        PickleIterator).readData.1 = some ⟨bytes, spans⟩ := by
  have hroom := hlayout.room
  have halign := hlayout.aligned
  have hiterator : ({ r.iterator with
      readPtr := p.headerSize + alignInt (payloadSizeOf mem) 4 } : PickleIterator) =
      ⟨memr, p.headerSize + alignInt (payloadSizeOf mem) 4,
        p.headerSize + alignInt (payloadSizeOf mem) 4 + 4 + bytes.length⟩ := by
    rw [iterator, h.header]
    simp only [h.headerSize, h.payloadSize, ← Nat.add_assoc]
  rw [hiterator]
  have hholds : Holds memr (p.headerSize + alignInt (payloadSizeOf mem) 4 + 4 + bytes.length)
      (p.headerSize + alignInt (payloadSizeOf mem) 4) [leBytes 4 bytes.length, bytes] := by
    refine ⟨?_, ?_, ?_, ?_, ?_⟩ <;> rw [length_leBytes]
    · omega
    · exact h.word
    · exact le_refl _
    · exact h.content
    · rw [Holds]
      unfold alignInt at *
      omega
  exact readData_holds hholds (by omega) hsmall

/-- The buffer of every pickle that is written to has room for its payload in whole words, its
capacity is a whole number of payload units, no padding leaves it, and of a variable buffer of `n`
bytes that is trimmed to `m` ReadData returns `m` bytes, those written first. -/
theorem pickle_buffer_sound (h : Reachable t p) :
    (∀ capacity, p.capacity = some capacity → ∃ mem, p.header = some mem ∧
      p.headerSize + alignInt (payloadSizeOf mem) 4 ≤ capacity ∧
      kPayloadUnit ∣ capacity) ∧
    (∀ (heap : Heap) (c : Change t), c.Allowed heap p →
      ∀ pad ∈ paddings t heap c.calls p, ∃ capacity, pad.capacity = some capacity ∧
        pad.span.stop ≤ capacity) ∧
    ∀ (heap : Heap) (n m : BitVec 32) (dest : Nat) (q : Pickle) (data : List UInt8),
      Change.Allowed heap p (.beginWriteData n : Change t) →
      p.beginWriteData t heap n = some (dest, q) →
      0 ≤ m.toInt → m.toInt ≤ n.toInt →
      ∃ mem bytes spans, p.header = some mem ∧
        ({ ((q.fill dest data).trimWriteData m).iterator with
          readPtr := p.headerSize + alignInt (payloadSizeOf mem) 4 } :
            PickleIterator).readData.1 = some ⟨bytes, spans⟩ ∧
        bytes.length = m.toNat ∧ bytes.take data.length = data.take m.toNat ∧
        ∀ vs : List (Value t), Represents p p.headerSize (vs.flatMap chunks) mem →
          p.headerSize + alignInt (payloadSizeOf mem) 4 + 4 + m.toNat < 2 ^ 31 →
          ReadsBack t ((q.fill dest data).trimWriteData m) (vs ++ [.data bytes]) := by
  have hsound := h.sound
  refine ⟨fun capacity hcapacity => ?_, fun heap c hallowed => ?_,
    fun heap n m dest q data hallowed hbegin hnonneg hle => ?_⟩
  · cases hsound with
    | buffer hbuf =>
      cases hcapacity.symm.trans hbuf.capacity_eq
      exact ⟨_, hbuf.header, hbuf.inside, dvd_of_mod_eq_zero hbuf.unit⟩
    | readOnly hnone =>
      rw [hnone] at hcapacity
      cases hcapacity
  · cases hsound with
    | buffer hbuf =>
      cases c with
      | write value | beginWriteData length => exact paddings_inside hbuf hallowed
      | fill data => nofun
      | trimWriteData newLength => nofun
    | readOnly hnone =>
      rw [paddings_readOnly hnone]
      nofun
  · cases hsound with
    | @buffer mem capacity hbuf =>
      obtain ⟨bytes, memr, hlength, htrimmed⟩ := hbuf.trimmed data hallowed hbegin hnonneg hle
      have hm := (toInt_of_nonneg hnonneg).2
      obtain ⟨spans, hread⟩ := htrimmed.readData hbuf.layout (by omega)
      refine ⟨mem, bytes, spans, hbuf.header, hread, hlength, ?_, fun vs hrep hsmall => ?_⟩
      · rw [← hlength]
        exact htrimmed.written
      · have hrepr := htrimmed.represents hrep (by omega)
        have hchunks : vs.flatMap chunks ++ [leBytes 4 bytes.length, bytes] =
            (vs ++ [Value.data bytes]).flatMap chunks := by
          rw [flatMap_append]
          rfl
        rw [hchunks] at hrepr
        exact hrepr.readsBack
    | readOnly hnone hvariable =>
      have happly : Change.apply heap p (.beginWriteData n : Change t) = some q := by
        rw [Change.apply, hbegin]
        rfl
      exact absurd happly (apply_readOnly hnone hvariable hallowed)

/-- Seven bytes begun, seven written, trimmed to five. -/
theorem pickle_buffer_sound_five :
    ∃ p q bytes spans it, new .lp64 usedHeap 4 = some p ∧
      p.beginWriteData .lp64 usedHeap 7 = some (8, q) ∧
      it = ((q.fill 8 [1, 2, 3, 4, 5, 6, 7]).trimWriteData 5).iterator ∧
      ({ it with readPtr := 4 } : PickleIterator).readData.1 = some ⟨bytes, spans⟩ ∧
      bytes.length = 5 ∧ bytes.take 7 = [1, 2, 3, 4, 5] := by
  have hnew : ∃ p, new .lp64 usedHeap 4 = some p := ⟨_, rfl⟩
  obtain ⟨p, hnew⟩ := hnew
  have hfits : Change.Allowed usedHeap p (.beginWriteData 7 : Change .lp64) := by
    cases hnew
    refine ⟨fun mem hmem => ?_, fun q hq => ⟨fun mem hmem => ?_, fun _ _ => trivial⟩⟩
    · cases hmem
      decide
    · cases hq
      cases hmem
      decide
  have hbegin : ∃ q, p.beginWriteData .lp64 usedHeap 7 = some (8, q) := by
    cases hnew
    exact ⟨_, rfl⟩
  obtain ⟨q, hbegin⟩ := hbegin
  obtain ⟨-, -, hread⟩ := pickle_buffer_sound (Reachable.new (by decide) (by decide) hnew)
  obtain ⟨mem, bytes, spans, hheader, hdata, hlength, htake, -⟩ :=
    hread usedHeap 7 5 8 q [1, 2, 3, 4, 5, 6, 7] hfits hbegin (by decide) (by decide)
  refine ⟨p, q, bytes, spans, _, hnew, hbegin, rfl, ?_, hlength, htake⟩
  cases hnew
  cases hheader
  exact hdata

end ChromiumUI.Base
