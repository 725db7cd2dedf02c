import ChromiumUI.PickleRoundTrip

/-!
# The buffer of a pickle

Assignment and the variable buffer, and the invariant of a buffer that is written to. An `int`
argument is a `BitVec 32`. Assigning a pickle to itself does nothing and is no operation here.
-/
namespace ChromiumUI.Base

open ByteMemory Nat Pickle

namespace Pickle

variable (t : Target) (heap : Heap)

/-- operator=, from another pickle; other.header_ is not NULL. -/
def assign (p other : Pickle) : Option Pickle :=
  other.header.bind fun otherHeader =>
    let p := if p.capacity = none then { p with header := none, capacity := some 0 } else p
    let p := if p.headerSize ≠ other.headerSize then
      { p with header := none, headerSize := other.headerSize } else p
    let payloadSize := other.headerSize + payloadSizeOf otherHeader
    (p.resize t heap payloadSize).map fun p =>
      { p with
        header := p.header.map (store · 0 (load otherHeader 0 payloadSize))
        variableBufferOffset := other.variableBufferOffset }

/-- BeginWriteData: where the caller may write, and the pickle. -/
def beginWriteData (length : BitVec 32) (p : Pickle) : Option (Nat × Pickle) :=
  if length.toInt < 0 then none
  else
    (p.writeInt t heap length).bind fun p =>
      (p.beginWrite t heap (t.sizeT length.toInt)).map fun (dataPtr, p) =>
        (dataPtr, endWrite dataPtr (t.sizeT length.toInt)
          { p with variableBufferOffset := dataPtr - 4 })

/-- The length word of the variable buffer. -/
def curLength (header : Memory) (p : Pickle) : Nat := leValue (load header p.variableBufferOffset 4)

def trimWriteData (newLength : BitVec 32) (p : Pickle) : Pickle :=
  match p.header with
  | none => p
  | some header =>
    let curLength := (BitVec.ofNat 32 (p.curLength header)).toInt
    if newLength.toInt < 0 ∨ newLength.toInt > curLength then p
    else
      let payloadSize := (payloadSizeOf header - (curLength - newLength.toInt)) % (2 ^ 32 : Nat)
      { p with header := some (store (store header 0 (leBytes 4 payloadSize.toNat))
          p.variableBufferOffset (leBytes 4 newLength.toNat)) }

/-- The caller writes to where BeginWriteData told. -/
def fill (dest : Nat) (data : List UInt8) (p : Pickle) : Pickle :=
  { p with header := p.header.map (store · dest data) }

end Pickle

/-- A memset of EndWrite, and capacity_ at that time. -/
structure Padding where
  span : Span
  capacity : Option Nat

def Pickle.padding (dest length : Nat) (p : Pickle) : List Padding :=
  if length % 4 ≠ 0 then [⟨⟨dest + length, 4 - length % 4⟩, p.capacity⟩] else []

/-! ## The layout -/

/-- The header is made of words, and the variable buffer, if there is one, is in the payload. -/
structure Layout (headerSize variableBufferOffset : Nat) (mem : Memory) : Prop where
  aligned : headerSize % 4 = 0
  room : 4 ≤ headerSize
  variableBuffer : variableBufferOffset = 0 ∨ headerSize ≤ variableBufferOffset ∧
    leValue (load mem variableBufferOffset 4) < 2 ^ 31 ∧
    variableBufferOffset + 4 + leValue (load mem variableBufferOffset 4) ≤
      headerSize + Pickle.payloadSizeOf mem

/-- What is behind the payload may change, and the payload may grow. -/
theorem Layout.grow {headerSize variableBufferOffset : Nat} {mem mem' : Memory}
    (h : Layout headerSize variableBufferOffset mem)
    (hload : Pickle.payloadSizeOf mem ≤ Pickle.payloadSizeOf mem')
    (hsame : ∀ i, 4 ≤ i → i < headerSize + Pickle.payloadSizeOf mem → mem i = mem' i) :
    Layout headerSize variableBufferOffset mem' := by
  obtain ⟨halign, hroom, hvar⟩ := h
  refine ⟨halign, hroom, hvar.imp_right fun ⟨hoff, hsmall, hin⟩ => ?_⟩
  have hword : load mem variableBufferOffset 4 = load mem' variableBufferOffset 4 :=
    load_congr fun i hlo hhi => hsame i (by omega) (by omega)
  rw [← hword]
  exact ⟨hoff, hsmall, by omega⟩

/-- The buffer of a pickle that is written to. -/
structure Buffer (t : Target) (p : Pickle) (mem : Memory) (capacity : Nat) : Prop where
  header : p.header = some mem
  capacity_eq : p.capacity = some capacity
  layout : Layout p.headerSize p.variableBufferOffset mem
  unit : capacity % Pickle.kPayloadUnit = 0
  bound : capacity < 2 ^ t.sizeBits
  inside : p.headerSize + alignInt (Pickle.payloadSizeOf mem) 4 ≤ capacity

variable {t : Target} {heap : Heap} {p p' q : Pickle} {mem : Memory}
  {capacity capacity' length : Nat}

theorem payloadSizeOf_lt (mem : Memory) : Pickle.payloadSizeOf mem < 2 ^ 32 := by
  have h := leValue_lt (load mem 0 4)
  rw [length_load] at h
  exact h

theorem payloadSizeOf_store {size : Nat} (mem : Memory) (h : size < 2 ^ 32) :
    Pickle.payloadSizeOf (store mem 0 (leBytes 4 size)) = size := by
  have hload := load_store_self mem 0 (leBytes 4 size)
  rw [length_leBytes] at hload
  have hbound : size < 256 ^ 4 := by omega
  rw [payloadSizeOf, hload, leValue_leBytes_of_lt hbound]

theorem alignInt_kPayloadUnit (i : Nat) :
    alignInt i Pickle.kPayloadUnit % Pickle.kPayloadUnit = 0 ∧
      i ≤ alignInt i Pickle.kPayloadUnit := by
  unfold alignInt kPayloadUnit
  omega

theorem sizeT_lt (n : Int) : t.sizeT n < 2 ^ t.sizeBits := by
  unfold Target.sizeT
  rcases t.sizeBits_eq with h | h <;> rw [h] <;> omega

theorem sizeT_of_lt_bits {n : Nat} (h : n < 2 ^ t.sizeBits) : t.sizeT n = n := by
  unfold Target.sizeT
  rw [Int.emod_eq_of_lt (by omega) (by omega), Int.toNat_natCast]

/-- A wrapped size is a whole number of units if the size is one. -/
theorem sizeT_unit {n : Nat} (h : n % Pickle.kPayloadUnit = 0) :
    t.sizeT (n * 2) % Pickle.kPayloadUnit = 0 := by
  unfold Target.sizeT kPayloadUnit at *
  rcases t.sizeBits_eq with hbits | hbits <;> rw [hbits] <;> omega

/-- The larger of a wrapped double capacity and what is needed is served in whole units. -/
theorem sizeT_max {capacity needed : Nat} (hunit : capacity % Pickle.kPayloadUnit = 0)
    (hneeded : alignInt needed Pickle.kPayloadUnit < 2 ^ t.sizeBits) :
    let size := t.sizeT (alignInt (max (t.sizeT (capacity * 2)) needed) Pickle.kPayloadUnit)
    size % Pickle.kPayloadUnit = 0 ∧ needed ≤ size := by
  have hdouble := sizeT_unit (t := t) hunit
  have hlt := sizeT_lt (t := t) (capacity * 2)
  generalize t.sizeT (capacity * 2) = double at hdouble hlt ⊢
  obtain ⟨hmod, hle⟩ := alignInt_kPayloadUnit (max double needed)
  have hfits : alignInt (max double needed) kPayloadUnit < 2 ^ t.sizeBits := by
    rcases le_total double needed with h | h
    · rwa [max_eq_right h]
    · rw [max_eq_left h]
      unfold alignInt kPayloadUnit at *
      omega
  rw [sizeT_of_lt_bits hfits]
  exact ⟨hmod, le_trans (le_max_right double needed) hle⟩

/-- Resize sets the capacity to the size in whole units. -/
theorem resize_capacity {newCapacity : Nat} (h : p.resize t heap newCapacity = some q) :
    q.capacity = some (t.sizeT (alignInt newCapacity Pickle.kPayloadUnit)) ∧
      q.header = some (p.header.getD heap.fresh) ∧ q.headerSize = p.headerSize ∧
      q.variableBufferOffset = p.variableBufferOffset := by
  simp only [resize] at h
  split_ifs at h
  cases h
  exact ⟨rfl, rfl, rfl, rfl⟩

/-- The sizes of a write are below 2^32, and what it needs has a size. -/
def Fits (t : Target) (p : Pickle) (length : Nat) : Prop :=
  ∀ mem ∈ p.header, alignInt (Pickle.payloadSizeOf mem) 4 + length < 2 ^ 32 ∧
    alignInt (p.headerSize + (alignInt (Pickle.payloadSizeOf mem) 4 + length))
      Pickle.kPayloadUnit < 2 ^ t.sizeBits

/-- What BeginWrite leaves: room for the new payload in whole units. -/
structure Begun (t : Target) (p q : Pickle) (mem : Memory) (length dest capacity : Nat) : Prop where
  header : q.header = some (store mem 0
    (leBytes 4 (alignInt (Pickle.payloadSizeOf mem) 4 + length)))
  headerSize : q.headerSize = p.headerSize
  variableBufferOffset : q.variableBufferOffset = p.variableBufferOffset
  dest_eq : dest = p.headerSize + alignInt (Pickle.payloadSizeOf mem) 4
  capacity_eq : q.capacity = some capacity
  unit : capacity % Pickle.kPayloadUnit = 0
  bound : capacity < 2 ^ t.sizeBits
  inside : dest + length ≤ capacity

theorem Buffer.beginWrite (h : Buffer t p mem capacity) (hfits : Fits t p length) {dest : Nat}
    (hbegin : p.beginWrite t heap length = some (dest, q)) :
    ∃ capacity', Begun t p q mem length dest capacity' := by
  obtain ⟨hsize, hneeded⟩ := hfits mem h.header
  have halign := (alignInt_kPayloadUnit
    (p.headerSize + (alignInt (payloadSizeOf mem) 4 + length))).2
  have hoff : t.sizeT (alignInt (payloadSizeOf mem) 4 : Nat) =
    alignInt (payloadSizeOf mem) 4 := sizeT_of_lt (by omega)
  have hnew : t.sizeT (((alignInt (payloadSizeOf mem) 4 : Nat) : Int) + (length : Nat)) =
      alignInt (payloadSizeOf mem) 4 + length := by
    exact_mod_cast sizeT_of_lt (t := t) hsize
  have hneed : t.sizeT ((p.headerSize : Int) +
      ((alignInt (payloadSizeOf mem) 4 + length : Nat) : Int)) =
      p.headerSize + (alignInt (payloadSizeOf mem) 4 + length) := by
    exact_mod_cast sizeT_of_lt_bits (t := t) (lt_of_le_of_lt halign hneeded)
  obtain ⟨hhead, hheaderSize, hdest⟩ := beginWrite_header hbegin h.header
  simp only [hoff, hnew] at hhead hdest
  simp only [Pickle.beginWrite, h.header, h.capacity_eq, hoff, hnew, hneed] at hbegin
  obtain ⟨r, hr, heq⟩ := Option.map_eq_some_iff.mp hbegin
  cases heq
  by_cases hroom : p.headerSize + (alignInt (payloadSizeOf mem) 4 + length) > capacity
  · rw [if_pos hroom] at hr
    obtain ⟨hcap, -, hsame, hvar⟩ := resize_capacity hr
    obtain ⟨hunit, hle⟩ := sizeT_max (t := t) h.unit hneeded
    exact ⟨_, hhead, hsame, hvar, hdest, hcap, hunit, sizeT_lt _, by omega⟩
  · rw [if_neg hroom] at hr
    cases hr
    exact ⟨capacity, hhead, rfl, rfl, hdest, h.capacity_eq, h.unit, h.bound, by omega⟩

/-- What has been written behind the old payload of `mem`: the new one ends `length` bytes behind
`dest`, and nothing in front of `dest` has changed but the header. -/
structure Wrote (mem mem' : Memory) (headerSize length : Nat) : Prop where
  payloadSize : Pickle.payloadSizeOf mem' = alignInt (Pickle.payloadSizeOf mem) 4 + length
  before : ∀ i, 4 ≤ i → i < headerSize + alignInt (Pickle.payloadSizeOf mem) 4 → mem i = mem' i

theorem Wrote.layout {mem' : Memory} {headerSize variableBufferOffset : Nat}
    (h : Wrote mem mem' headerSize length) (hlayout : Layout headerSize variableBufferOffset mem) :
    Layout headerSize variableBufferOffset mem' := by
  have halign := le_alignInt (payloadSizeOf mem) 4
  have hload := h.payloadSize
  exact hlayout.grow (by omega) fun i hlo hhi => h.before i hlo (by omega)

namespace Begun

variable {dest : Nat} {mem' : Memory}

section

variable (h : Begun t p q mem length dest capacity)
include h

section

variable (hbuffer : Buffer t p mem capacity')
include hbuffer

/-- Behind the destination the memory of the pickle may be written. -/
theorem wrote (hfits : Fits t p length)
    (hsame : ∀ i, i < dest → mem' i = store mem 0
      (leBytes 4 (alignInt (Pickle.payloadSizeOf mem) 4 + length)) i) :
    Wrote mem mem' p.headerSize length := by
  have hroom := hbuffer.layout.room
  have hdest := h.dest_eq
  refine ⟨?_, fun i hlo hhi => ?_⟩
  · rw [payloadSizeOf, load_congr fun i _ hi => hsame i (by omega)]
    exact payloadSizeOf_store mem (hfits mem hbuffer.header).1
  · rw [hsame i (by omega), store_after (by simpa using hlo)]

/-- The new pickle is a buffer again if its layout is one. -/
theorem buffer (hwrote : Wrote mem mem' p.headerSize length) (hhead : p'.header = some mem')
    (hcap : p'.capacity = q.capacity) (hsize : p'.headerSize = p.headerSize)
    (hlayout : Layout p.headerSize p'.variableBufferOffset mem') : Buffer t p' mem' capacity := by
  have halign := hbuffer.layout.aligned
  have hin := h.inside
  have hunit := h.unit
  rw [h.dest_eq] at hin
  refine ⟨hhead, hcap.trans h.capacity_eq, hsize ▸ hlayout, h.unit, h.bound, ?_⟩
  rw [hsize, hwrote.payloadSize]
  unfold alignInt kPayloadUnit at *
  omega

/-- The zero padding ends with the word the written bytes end in. -/
theorem padding_inside (hcap : p'.capacity = q.capacity) :
    ∀ pad ∈ p'.padding dest length, ∃ c, pad.capacity = some c ∧ pad.span.stop ≤ c := by
  intro pad hpad
  have halign := hbuffer.layout.aligned
  have hin := h.inside
  have hunit := h.unit
  have hdest := h.dest_eq
  have hoff := (alignInt_four (payloadSizeOf mem)).1
  unfold padding at hpad
  split_ifs at hpad with hlen
  · obtain rfl := List.mem_singleton.mp hpad
    refine ⟨capacity, hcap.trans h.capacity_eq, ?_⟩
    unfold Span.stop kPayloadUnit at *
    simp only
    omega
  · cases hpad

end

end

end Begun

theorem endWrite_same (dest length : Nat) (p : Pickle) :
    (p.endWrite dest length).capacity = p.capacity ∧
      (p.endWrite dest length).headerSize = p.headerSize ∧
      (p.endWrite dest length).variableBufferOffset = p.variableBufferOffset := by
  unfold endWrite
  split <;> exact ⟨rfl, rfl, rfl⟩

/-- WriteBytes writes behind the payload and keeps the buffer. -/
theorem Buffer.writeBytes {data : List UInt8} {dataLen : Int} (h : Buffer t p mem capacity)
    (hfits : Fits t p (t.sizeT dataLen)) (hw : p.writeBytes t heap data dataLen = some p') :
    ∃ mem' capacity', Buffer t p' mem' capacity' ∧ Wrote mem mem' p.headerSize (t.sizeT dataLen) ∧
      p'.headerSize = p.headerSize ∧ p'.variableBufferOffset = p.variableBufferOffset ∧
      load mem' (p.headerSize + alignInt (Pickle.payloadSizeOf mem) 4)
        (data.take (t.sizeT dataLen)).length = data.take (t.sizeT dataLen) := by
  obtain ⟨⟨dest, q⟩, hbegin, rfl⟩ := Option.map_eq_some_iff.mp hw
  obtain ⟨capacity', hbegun⟩ := h.beginWrite hfits hbegin
  simp only
  generalize hcopied : ({ q with
    header := q.header.map (store · dest (data.take (t.sizeT dataLen))) } : Pickle) = r
  have hr : r.header = some (store (store mem 0 (leBytes 4
      (alignInt (payloadSizeOf mem) 4 + t.sizeT dataLen))) dest
        (data.take (t.sizeT dataLen))) := by
    rw [← hcopied]
    simp [hbegun.header]
  obtain ⟨mem', hmem', -, hpre⟩ := endWrite_header hr dest (t.sizeT dataLen)
  obtain ⟨hcap, hsize, hvar⟩ := endWrite_same dest (t.sizeT dataLen) r
  have hwrote : Wrote mem mem' p.headerSize (t.sizeT dataLen) :=
    hbegun.wrote h hfits fun i hi => by rw [hpre i (by omega), store_before _ hi]
  have hsize' : (r.endWrite dest (t.sizeT dataLen)).headerSize = p.headerSize := by
    rw [hsize, ← hcopied]
    exact hbegun.headerSize
  have hvar' : (r.endWrite dest (t.sizeT dataLen)).variableBufferOffset =
      p.variableBufferOffset := by
    rw [hvar, ← hcopied]
    exact hbegun.variableBufferOffset
  refine ⟨mem', capacity', hbegun.buffer h hwrote hmem' ?_ hsize' ?_, hwrote, hsize', hvar',
    ?_⟩
  · rw [hcap, ← hcopied]
  · rw [hvar']
    exact hwrote.layout h.layout
  · rw [← hbegun.dest_eq, load_congr fun i _ hi => hpre i (by simp at hi; omega),
      load_store_self]

/-! ## Variable buffers, copies and assignments

What BeginWriteData, TrimWriteData, the copy constructor and operator= do to the buffer of a
pickle. -/

variable {t : Target} {heap : Heap} {p p' other : Pickle} {mem : Memory}
  {capacity : Nat}

theorem toInt_of_nonneg {n : BitVec 32} (h : 0 ≤ n.toInt) :
    n.toInt = n.toNat ∧ n.toNat < 2 ^ 31 := by
  rw [BitVec.toInt_eq_toNat_cond] at h ⊢
  split_ifs at h ⊢ <;> omega

theorem toInt_ofNat_of_lt {n : Nat} (h : n < 2 ^ 32) :
    (BitVec.ofNat 32 n).toInt = if n < 2 ^ 31 then (n : Int) else n - 2 ^ 32 := by
  have hnat : (BitVec.ofNat 32 n).toNat = n := by
    rw [BitVec.toNat_ofNat, Nat.mod_eq_of_lt h]
  rw [BitVec.toInt_eq_toNat_cond, hnat]
  split_ifs <;> omega

/-! ## BeginWriteData -/

/-- The variable buffer of a pickle: it is the last `length` bytes of the payload. -/
structure EndsWithBuffer (p : Pickle) (mem : Memory) (length : Nat) : Prop where
  small : length < 2 ^ 31
  after : p.headerSize ≤ p.variableBufferOffset
  word : load mem p.variableBufferOffset 4 = leBytes 4 length
  stop : p.variableBufferOffset + 4 + length = p.headerSize + payloadSizeOf mem

theorem EndsWithBuffer.curLength {length : Nat} (h : EndsWithBuffer p mem length) :
    p.curLength mem = length := by
  have hsmall := h.small
  rw [Pickle.curLength, h.word, leValue_leBytes, Nat.mod_eq_of_lt (by omega)]

theorem Buffer.beginWriteData {n : BitVec 32} {dest : Nat} (h : Buffer t p mem capacity)
    (hint : Fits t p (t.sizeT 4))
    (hdata : ∀ q, p.writeInt t heap n = some q → Fits t q (t.sizeT n.toInt))
    (hbegin : p.beginWriteData t heap n = some (dest, p')) :
    ∃ mem' capacity', Buffer t p' mem' capacity' ∧ EndsWithBuffer p' mem' n.toNat ∧
      0 ≤ n.toInt ∧ dest = p'.variableBufferOffset + 4 ∧ p'.headerSize = p.headerSize ∧
      p'.variableBufferOffset = p.headerSize + alignInt (payloadSizeOf mem) 4 ∧
      ∀ i, 4 ≤ i → i < p.headerSize + alignInt (payloadSizeOf mem) 4 → mem i = mem' i := by
  unfold Pickle.beginWriteData at hbegin
  split_ifs at hbegin with hneg
  obtain ⟨hvalue, hsmall⟩ := toInt_of_nonneg (Int.not_lt.mp hneg)
  have hlen : t.sizeT n.toInt = n.toNat := by rw [hvalue, sizeT_of_lt (by omega)]
  obtain ⟨q, hq, hbegin⟩ := Option.bind_eq_some_iff.mp hbegin
  obtain ⟨⟨dataPtr, r⟩, hr, heq⟩ := Option.map_eq_some_iff.mp hbegin
  have hfour : t.sizeT 4 = 4 := sizeT_of_lt (n := 4) (by omega)
  -- the length word
  obtain ⟨memq, capq, hbufq, hwroteq, hsizeq, hvariableq, hword⟩ :=
    h.writeBytes hint hq
  rw [hfour] at hwroteq hword
  have htake : (leBytes 4 n.toNat).take 4 = leBytes 4 n.toNat :=
    List.take_of_length_le (by simp)
  rw [htake, length_leBytes] at hword
  -- the buffer behind it
  obtain ⟨capr, hbegun⟩ := hbufq.beginWrite (hdata q hq) hr
  rw [hlen] at hbegun heq
  simp only [Prod.mk.injEq] at heq
  obtain ⟨rfl, rfl⟩ := heq
  have hfitsq := hdata q hq
  rw [hlen] at hfitsq
  generalize hset : ({ r with variableBufferOffset := dataPtr - 4 } : Pickle) = s
  have hs : s.header = some (store memq 0
      (leBytes 4 (alignInt (payloadSizeOf memq) 4 + n.toNat))) := by
    rw [← hset]
    exact hbegun.header
  obtain ⟨mem', hmem', -, hpre⟩ := endWrite_header hs dataPtr n.toNat
  obtain ⟨hcap, hsize, hvar⟩ := endWrite_same dataPtr n.toNat s
  have hwrote : Wrote memq mem' q.headerSize n.toNat :=
    hbegun.wrote hbufq hfitsq fun i hi => hpre i (by omega)
  have hsize' : (s.endWrite dataPtr n.toNat).headerSize = q.headerSize := by
    rw [hsize, ← hset]
    exact hbegun.headerSize
  have hdest := hbegun.dest_eq
  have hpayloadq := hwroteq.payloadSize
  have halign : alignInt (payloadSizeOf memq) 4 = payloadSizeOf memq := by
    rw [hpayloadq]
    unfold alignInt
    omega
  have hoff : (s.endWrite dataPtr n.toNat).variableBufferOffset =
      p.headerSize + alignInt (payloadSizeOf mem) 4 := by
    rw [hvar, ← hset]
    simp only
    omega
  have hroom := h.layout.room
  have hword' : load mem' (p.headerSize + alignInt (payloadSizeOf mem) 4) 4 =
      leBytes 4 n.toNat := by
    rw [load_congr fun i hlo hhi => (hwrote.before i (by omega) (by omega)).symm, hword]
  have hload := hwrote.payloadSize
  have hends : EndsWithBuffer (s.endWrite dataPtr n.toNat) mem' n.toNat := by
    refine ⟨hsmall, by omega, ?_, by omega⟩
    rw [hoff, hword']
  refine ⟨mem', capr, ?_, hends, Int.not_lt.mp hneg, by omega, by omega, hoff, ?_⟩
  · refine hbegun.buffer hbufq hwrote hmem' (by rw [hcap, ← hset]) hsize' ?_
    have hcurLength := hends.curLength
    rw [curLength] at hcurLength
    refine ⟨hbufq.layout.aligned, hbufq.layout.room, .inr ⟨by omega, ?_, ?_⟩⟩
    · rw [hcurLength]
      exact hsmall
    · rw [hcurLength]
      omega
  · intro i hlo hhi
    rw [hwroteq.before i hlo hhi, hwrote.before i hlo (by omega)]

/-! ## TrimWriteData -/

/-- The memory TrimWriteData leaves. -/
def trimmed (mem : Memory) (variableBufferOffset payloadSize newLength : Nat) : Memory :=
  store (store mem 0 (leBytes 4 payloadSize)) variableBufferOffset (leBytes 4 newLength)

theorem trimmed_word (mem : Memory) (offset payloadSize newLength : Nat) :
    load (trimmed mem offset payloadSize newLength) offset 4 = leBytes 4 newLength := by
  have hload := load_store_self (store mem 0 (leBytes 4 payloadSize)) offset (leBytes 4 newLength)
  rwa [length_leBytes] at hload

theorem trimmed_curLength (mem : Memory) (offset payloadSize : Nat) {newLength : Nat}
    (h : newLength < 2 ^ 32) :
    leValue (load (trimmed mem offset payloadSize newLength) offset 4) = newLength := by
  have hbound : newLength < 256 ^ 4 := by omega
  rw [trimmed_word, leValue_leBytes_of_lt hbound]

theorem trimmed_payloadSize (mem : Memory) {offset payloadSize : Nat} (newLength : Nat)
    (hoff : 4 ≤ offset) (h : payloadSize < 2 ^ 32) :
    payloadSizeOf (trimmed mem offset payloadSize newLength) = payloadSize := by
  rw [payloadSizeOf, trimmed, load_store_before _ (by omega)]
  exact payloadSizeOf_store mem h

theorem trimmed_of_ne (mem : Memory) {offset i : Nat} (payloadSize newLength : Nat) (hi : 4 ≤ i)
    (h : i < offset ∨ offset + 4 ≤ i) : trimmed mem offset payloadSize newLength i = mem i := by
  rcases h with h | h
  · rw [trimmed, store_before _ h, store_after (by simpa using hi)]
  · rw [trimmed, store_after (by simpa using h), store_after (by simpa using hi)]

/-- A length that is not larger is taken, and the payload is shorter by the difference. -/
theorem trimWriteData_eq {newLength : BitVec 32} (hhead : p.header = some mem)
    (hcur : p.curLength mem < 2 ^ 31) (hnneg : 0 ≤ newLength.toInt)
    (hle : newLength.toNat ≤ p.curLength mem)
    (hload : p.curLength mem ≤ payloadSizeOf mem) :
    p.trimWriteData newLength = { p with
      header := some (trimmed mem p.variableBufferOffset
        (payloadSizeOf mem - (p.curLength mem - newLength.toNat)) newLength.toNat) } := by
  have hvalue := (toInt_of_nonneg hnneg).1
  have hcurInt := toInt_ofNat_of_lt (n := p.curLength mem) (by omega)
  rw [if_pos hcur] at hcurInt
  have hlt := payloadSizeOf_lt mem
  have hsize : ((payloadSizeOf mem - ((p.curLength mem : Int) - newLength.toNat)) %
      (2 ^ 32 : Nat)).toNat = payloadSizeOf mem - (p.curLength mem - newLength.toNat) := by
    omega
  simp only [trimWriteData, hhead]
  rw [if_neg (by omega), hcurInt, hvalue, hsize]
  rfl

/-- Any other length is refused. -/
theorem trimWriteData_refused {newLength : BitVec 32} (hhead : p.header = some mem)
    (h : ¬(p.curLength mem < 2 ^ 31 ∧ 0 ≤ newLength.toInt ∧
      newLength.toNat ≤ p.curLength mem)) : p.trimWriteData newLength = p := by
  have hlt : p.curLength mem < 2 ^ 32 := by
    have h := leValue_lt (load mem p.variableBufferOffset 4)
    rw [length_load] at h
    exact h
  have hcurInt := toInt_ofNat_of_lt hlt
  simp only [trimWriteData, hhead]
  refine if_pos ?_
  by_contra htaken
  have hnneg : 0 ≤ newLength.toInt := by omega
  have hvalue := (toInt_of_nonneg hnneg).1
  split_ifs at hcurInt <;> omega

theorem Buffer.trimWriteData (h : Buffer t p mem capacity) (newLength : BitVec 32) :
    ∃ mem', Buffer t (p.trimWriteData newLength) mem' capacity := by
  by_cases htaken : p.curLength mem < 2 ^ 31 ∧ 0 ≤ newLength.toInt ∧
      newLength.toNat ≤ p.curLength mem
  · obtain ⟨hcur, hnneg, hle⟩ := htaken
    have hlt := payloadSizeOf_lt mem
    have hin := h.inside
    rcases h.layout.variableBuffer with hzero | ⟨hoff, -, hstop⟩
    · -- without a variable buffer the length word is the payload size itself
      have hsame : p.curLength mem = payloadSizeOf mem := by
        rw [curLength, hzero, payloadSizeOf]
      have hload := trimmed_curLength mem 0
        (payloadSizeOf mem - (p.curLength mem - newLength.toNat)) newLength.isLt
      rw [trimWriteData_eq h.header hcur hnneg hle (by omega), hzero]
      refine ⟨_, rfl, h.capacity_eq, ⟨h.layout.aligned, h.layout.room, .inl rfl⟩, h.unit, h.bound,
        ?_⟩
      simp only
      rw [payloadSizeOf, hload]
      unfold alignInt at *
      omega
    · have hroom := h.layout.room
      change p.variableBufferOffset + 4 + p.curLength mem ≤ _ at hstop
      have hload := @trimmed_payloadSize mem p.variableBufferOffset
        (payloadSizeOf mem - (p.curLength mem - newLength.toNat)) newLength.toNat (by omega)
        (by omega)
      have hcurLength := trimmed_curLength mem p.variableBufferOffset
        (payloadSizeOf mem - (p.curLength mem - newLength.toNat)) newLength.isLt
      rw [trimWriteData_eq h.header hcur hnneg hle (by omega)]
      refine ⟨_, rfl, h.capacity_eq, ⟨h.layout.aligned, h.layout.room, .inr ⟨hoff, ?_, ?_⟩⟩,
        h.unit, h.bound, ?_⟩
      · rw [hcurLength]
        omega
      · rw [hcurLength, hload]
        simp only
        omega
      · rw [hload]
        simp only
        unfold alignInt at *
        omega
  · rw [trimWriteData_refused h.header htaken]
    exact ⟨mem, h⟩

/-- Trimmed to `newLength`, the payload ends with the first bytes of the variable buffer. -/
theorem EndsWithBuffer.trimWriteData {length : Nat} {newLength : BitVec 32}
    (h : EndsWithBuffer p mem length) (hhead : p.header = some mem) (hroom : 4 ≤ p.headerSize)
    (hnneg : 0 ≤ newLength.toInt) (hle : newLength.toNat ≤ length) :
    ∃ mem', (p.trimWriteData newLength).header = some mem' ∧
      (p.trimWriteData newLength).headerSize = p.headerSize ∧
      (p.trimWriteData newLength).variableBufferOffset = p.variableBufferOffset ∧
      EndsWithBuffer (p.trimWriteData newLength) mem' newLength.toNat ∧
      ∀ i, 4 ≤ i → (i < p.variableBufferOffset ∨ p.variableBufferOffset + 4 ≤ i) →
        mem' i = mem i := by
  have hcur := h.curLength
  obtain ⟨hsmall, hafter, -, hstop⟩ := h
  have hlt := payloadSizeOf_lt mem
  rw [trimWriteData_eq hhead (by omega) hnneg (by omega) (by omega)]
  refine ⟨_, rfl, rfl, rfl, ⟨by omega, hafter, ?_, ?_⟩, fun i hi hout =>
    trimmed_of_ne mem _ _ hi hout⟩
  · exact trimmed_word mem _ _ _
  · rw [trimmed_payloadSize mem _ (by omega) (by omega)]
    simp only
    omega

/-! ## The caller's writes -/

/-- Bytes behind the length word are neither of the lengths. -/
theorem fill_lengths (data : List UInt8) {offset dest : Nat} (hoff : 4 ≤ offset)
    (hdest : dest = offset + 4) :
    load (store mem dest data) offset 4 = load mem offset 4 ∧
      payloadSizeOf (store mem dest data) = payloadSizeOf mem := by
  rw [payloadSizeOf, payloadSizeOf, load_store_before data (by omega),
    load_store_before data (by omega)]
  exact ⟨rfl, rfl⟩

theorem Buffer.fill {data : List UInt8} (h : Buffer t p mem capacity)
    (hoff : p.variableBufferOffset ≠ 0) :
    Buffer t (p.fill (p.variableBufferOffset + 4) data)
      (store mem (p.variableBufferOffset + 4) data) capacity := by
  have hlayout := h.layout
  have hroom := hlayout.room
  rcases hlayout.variableBuffer with hzero | ⟨hafter, hsmall, hstop⟩
  · exact absurd hzero hoff
  obtain ⟨hword, hload⟩ := @fill_lengths mem data p.variableBufferOffset _ (by omega) rfl
  refine ⟨by rw [Pickle.fill, h.header]; rfl, h.capacity_eq, ⟨hlayout.aligned, hroom, ?_⟩, h.unit,
    h.bound, ?_⟩
  · refine .inr ⟨hafter, ?_, ?_⟩
    · simp only [Pickle.fill, hword]
      exact hsmall
    · simp only [Pickle.fill, hword, hload]
      exact hstop
  · rw [hload]
    exact h.inside

theorem EndsWithBuffer.fill {length : Nat} {data : List UInt8} (h : EndsWithBuffer p mem length)
    (hroom : 4 ≤ p.headerSize) :
    EndsWithBuffer (p.fill (p.variableBufferOffset + 4) data)
      (store mem (p.variableBufferOffset + 4) data) length := by
  obtain ⟨hsmall, hafter, hword, hstop⟩ := h
  obtain ⟨hsame, hload⟩ := @fill_lengths mem data p.variableBufferOffset _ (by omega) rfl
  exact ⟨hsmall, hafter, hsame.trans hword, by rw [hload]; exact hstop⟩

end ChromiumUI.Base
