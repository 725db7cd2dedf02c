import ChromiumUI.ByteMemory

/-!
# Pickle and PickleIterator

Memory is seen from the header of the pickle: addresses are offsets from it, and
0 is NULL, which no pointer behind a header is. Integers are little-endian.
-/
namespace ChromiumUI.Base

open ByteMemory

/-- The sizes that differ between the platforms. -/
structure Target where
  longSize : Nat
  wcharSize : Nat
  sizeBits : Nat
  longSize_eq : longSize = 4 ∨ longSize = 8
  wcharSize_eq : wcharSize = 2 ∨ wcharSize = 4
  sizeBits_eq : sizeBits = 32 ∨ sizeBits = 64

/-- 64-bit Linux. -/
def Target.lp64 : Target := ⟨8, 4, 64, .inr rfl, .inr rfl, .inr rfl⟩

/-- Conversion to size_t. -/
def Target.sizeT (t : Target) (n : Int) : Nat := (n % (2 ^ t.sizeBits : Nat)).toNat

/-- Conversion to a 32-bit int. -/
def toInt32 (n : Int) : Int := n.bmod (2 ^ 32)

/-- Rounds `i` up to the next multiple of `alignment`. -/
def alignInt (i alignment : Nat) : Nat :=
  i + (alignment - i % alignment) % alignment

/-- What the C library does for a pickle: the sizes realloc can serve, and the
bytes that are found in memory nobody has written to. -/
structure Heap where
  canAllocate : Nat → Bool
  fresh : Memory

/-- `header` is what header_ points at, `none` a NULL; `capacity` is `none` for kCapacityReadOnly. -/
structure Pickle where
  header : Option Memory
  headerSize : Nat
  capacity : Option Nat
  variableBufferOffset : Nat

structure PickleIterator where
  memory : Memory
  readPtr : Nat
  readEndPtr : Nat

/-- A byte range of the pickle. -/
structure Span where
  start : Nat
  length : Nat
  deriving DecidableEq, Repr

def Span.stop (s : Span) : Nat := s.start + s.length

/-- A value of one of the types the reads and writes know. -/
inductive Value (t : Target) where
  | bool (value : Bool)
  | int (value : BitVec 32)
  | long (value : BitVec (8 * t.longSize))
  | uint16 (value : BitVec 16)
  | uint32 (value : BitVec 32)
  | int64 (value : BitVec 64)
  | uint64 (value : BitVec 64)
  | string (value : List UInt8)
  | wstring (value : List (BitVec (8 * t.wcharSize)))
  | string16 (value : List (BitVec 16))
  | data (value : List UInt8)
  | bytes (value : List UInt8)

/-- A call of a read method, with the arguments it is given. -/
inductive Read where
  | bool | int | long | uint16 | uint32 | int64 | uint64
  | string | wstring | string16 | data
  | bytes (length : Int)
  | skipBytes (numBytes : Int)
  deriving DecidableEq, Repr

/-- What a successful read returns, and the byte ranges it was given to read from. -/
structure Answer (α : Type) where
  value : α
  spans : List Span

def Answer.map {α β : Type} (f : α → β) (a : Answer α) : Answer β := ⟨f a.value, a.spans⟩

namespace PickleIterator

/-- GetReadPointerAndAdvance<Type>(), for a type of this size. -/
def getReadPointerAndAdvanceType (size : Nat) (it : PickleIterator) : Nat × PickleIterator :=
  if it.readPtr + size > it.readEndPtr then (0, it)
  else (it.readPtr, { it with
    readPtr := it.readPtr + if size < 4 then alignInt size 4 else size })

/-- GetReadPointerAndAdvance(num_bytes) -/
def getReadPointerAndAdvance (numBytes : Int) (it : PickleIterator) : Nat × PickleIterator :=
  if numBytes < 0 ∨ (it.readEndPtr : Int) - it.readPtr < numBytes then (0, it)
  else (it.readPtr, { it with readPtr := it.readPtr + alignInt numBytes.toNat 4 })

/-- GetReadPointerAndAdvance(num_elements, size_element) -/
def getReadPointerAndAdvanceElements (numElements : Int) (sizeElement : Nat)
    (it : PickleIterator) : Nat × PickleIterator :=
  let numBytes := numElements * sizeElement
  let numBytes32 := toInt32 numBytes
  if numBytes ≠ numBytes32 then (0, it) else it.getReadPointerAndAdvance numBytes32

/-- if (!read_from) return false; -/
def ifNotNull {α : Type} (readFrom : Nat × PickleIterator)
    (answer : Nat → Memory → Answer α) : Option (Answer α) × PickleIterator :=
  if readFrom.1 = 0 then (none, readFrom.2)
  else (some (answer readFrom.1 readFrom.2.memory), readFrom.2)

/-- if (!first) return false; and the next read goes on from there. -/
def andThen {α β : Type} (first : Option (Answer α) × PickleIterator)
    (next : α → PickleIterator → Option (Answer β) × PickleIterator) :
    Option (Answer β) × PickleIterator :=
  match first.1 with
  | none => (none, first.2)
  | some a =>
    let second := next a.value first.2
    (second.1.map fun b => ⟨b.value, a.spans ++ b.spans⟩, second.2)

def readBuiltinType (size : Nat) (it : PickleIterator) : Option (Answer Nat) × PickleIterator :=
  ifNotNull (it.getReadPointerAndAdvanceType size) fun readFrom mem =>
    ⟨leValue (load mem readFrom size), [⟨readFrom, size⟩]⟩

def readInt (it : PickleIterator) : Option (Answer (BitVec 32)) × PickleIterator :=
  let result := it.readBuiltinType 4
  (result.1.map (Answer.map (BitVec.ofNat 32)), result.2)

def readString (it : PickleIterator) : Option (Answer (List UInt8)) × PickleIterator :=
  andThen it.readInt fun len it =>
    ifNotNull (it.getReadPointerAndAdvance len.toInt) fun readFrom mem =>
      ⟨load mem readFrom len.toInt.toNat, [⟨readFrom, len.toInt.toNat⟩]⟩

def readWString (t : Target) (it : PickleIterator) :
    Option (Answer (List (BitVec (8 * t.wcharSize)))) × PickleIterator :=
  andThen it.readInt fun len it =>
    ifNotNull (it.getReadPointerAndAdvanceElements len.toInt t.wcharSize) fun readFrom mem =>
      ⟨(loadUnits mem t.wcharSize readFrom len.toInt.toNat).map (BitVec.ofNat (8 * t.wcharSize)),
        [⟨readFrom, len.toInt.toNat * t.wcharSize⟩]⟩

def readString16 (it : PickleIterator) :
    Option (Answer (List (BitVec 16))) × PickleIterator :=
  andThen it.readInt fun len it =>
    ifNotNull (it.getReadPointerAndAdvanceElements len.toInt 2) fun readFrom mem =>
      ⟨(loadUnits mem 2 readFrom len.toInt.toNat).map (BitVec.ofNat 16),
        [⟨readFrom, len.toInt.toNat * 2⟩]⟩

def readBytes (length : Int) (it : PickleIterator) :
    Option (Answer (List UInt8)) × PickleIterator :=
  ifNotNull (it.getReadPointerAndAdvance length) fun readFrom mem =>
    ⟨load mem readFrom length.toNat, [⟨readFrom, length.toNat⟩]⟩

def readData (it : PickleIterator) : Option (Answer (List UInt8)) × PickleIterator :=
  andThen it.readInt fun length it => it.readBytes length.toInt

def skipBytes (numBytes : Int) (it : PickleIterator) : Option (Answer Unit) × PickleIterator :=
  ifNotNull (it.getReadPointerAndAdvance numBytes) fun readFrom _ =>
    ⟨(), [⟨readFrom, numBytes.toNat⟩]⟩

/-- Tag the result of a read with its type. -/
def tag {α : Type} {t : Target} (f : α → Value t) (result : Option (Answer α) × PickleIterator) :
    Option (Answer (Option (Value t))) × PickleIterator :=
  (result.1.map (Answer.map (some ∘ f)), result.2)

/-- The value a call reads; SkipBytes reads none. -/
def read (t : Target) (it : PickleIterator) :
    Read → Option (Answer (Option (Value t))) × PickleIterator
  | .bool => tag (fun n => .bool (n != 0)) (it.readBuiltinType 1)
  | .int => tag .int it.readInt
  | .long => tag (fun n => .long (BitVec.ofNat _ n)) (it.readBuiltinType t.longSize)
  | .uint16 => tag (fun n => .uint16 (BitVec.ofNat _ n)) (it.readBuiltinType 2)
  | .uint32 => tag (fun n => .uint32 (BitVec.ofNat _ n)) (it.readBuiltinType 4)
  | .int64 => tag (fun n => .int64 (BitVec.ofNat _ n)) (it.readBuiltinType 8)
  | .uint64 => tag (fun n => .uint64 (BitVec.ofNat _ n)) (it.readBuiltinType 8)
  | .string => tag .string it.readString
  | .wstring => tag .wstring (it.readWString t)
  | .string16 => tag .string16 it.readString16
  | .data => tag .data it.readData
  | .bytes length => tag .bytes (it.readBytes length)
  | .skipBytes numBytes =>
    let result := it.skipBytes numBytes
    (result.1.map (Answer.map fun _ => none), result.2)

/-- The answers of a sequence of reads, failed ones (`none`) included. -/
def readAll (t : Target) : List Read → PickleIterator →
    List (Option (Answer (Option (Value t)))) × PickleIterator
  | [], it => ([], it)
  | r :: rs, it =>
    let (answer, it) := it.read t r
    let (answers, it) := readAll t rs it
    (answer :: answers, it)

end PickleIterator

namespace Pickle

def kPayloadUnit : Nat := 64

def payloadSizeOf (header : Memory) : Nat := leValue (load header 0 4)

/-- end_of_payload() and payload() of an invalid pickle are NULL, its header size being 0. -/
def iterator (p : Pickle) : PickleIterator :=
  match p.header with
  | none => ⟨fun _ => 0, p.headerSize, 0⟩
  | some header => ⟨header, p.headerSize, p.headerSize + payloadSizeOf header⟩

/-- Pickle(data, data_len), for the block of bytes at `data`. -/
def ofData (data : List UInt8) : Pickle :=
  let dataLen : Int := data.length
  let headerSize := if dataLen ≥ 4 then
    ((dataLen - payloadSizeOf (ofBytes data)) % (2 ^ 32 : Nat)).toNat else 0
  let headerSize := if headerSize > (dataLen % (2 ^ 32 : Nat)).toNat then 0 else headerSize
  let headerSize := if headerSize ≠ alignInt headerSize 4 then 0 else headerSize
  ⟨if headerSize = 0 then none else some (ofBytes data), headerSize, none, 0⟩

variable (t : Target) (heap : Heap)

/-- Resize; a first allocation finds fresh memory. -/
def resize (newCapacity : Nat) (p : Pickle) : Option Pickle :=
  let newCapacity := t.sizeT (alignInt newCapacity kPayloadUnit)
  if heap.canAllocate newCapacity then
    some { p with header := some (p.header.getD heap.fresh), capacity := some newCapacity }
  else none

/-- Pickle(header_size); without the first buffer there is no pickle. -/
def new (headerSize : Nat) : Option Pickle :=
  let p : Pickle := ⟨none, alignInt headerSize 4, some 0, 0⟩
  (p.resize t heap kPayloadUnit).map fun p =>
    { p with header := p.header.map (store · 0 (leBytes 4 0)) }

/-- The copy constructor; other.header_ is not NULL. -/
def copy (other : Pickle) : Option Pickle :=
  other.header.bind fun otherHeader =>
    let payloadSize := other.headerSize + payloadSizeOf otherHeader
    let p : Pickle := ⟨none, other.headerSize, some 0, other.variableBufferOffset⟩
    (p.resize t heap payloadSize).map fun p =>
      { p with header := p.header.map (store · 0 (load otherHeader 0 payloadSize)) }

/-- Where to write, and the pickle that has room there. -/
def beginWrite (length : Nat) (p : Pickle) : Option (Nat × Pickle) :=
  match p.header, p.capacity with
  | some header, some capacity =>
    let offset := t.sizeT (alignInt (payloadSizeOf header) 4)
    let newSize := t.sizeT (offset + length)
    let neededSize := t.sizeT (p.headerSize + newSize)
    let resized := if neededSize > capacity then
      p.resize t heap (max (t.sizeT (capacity * 2)) neededSize) else some p
    resized.map fun p =>
      (p.headerSize + offset, { p with header := p.header.map (store · 0 (leBytes 4 newSize)) })
  -- a NULL header or a read-only pickle is never written to
  | _, _ => none

def endWrite (dest length : Nat) (p : Pickle) : Pickle :=
  if length % 4 ≠ 0 then
    { p with header := p.header.map (store · (dest + length) (List.replicate (4 - length % 4) 0)) }
  else p

/-- WriteBytes(data, data_len) -/
def writeBytes (data : List UInt8) (dataLen : Int) (p : Pickle) : Option Pickle :=
  let length := t.sizeT dataLen
  (p.beginWrite t heap length).map fun (dest, p) =>
    endWrite dest length { p with header := p.header.map (store · dest (data.take length)) }

def writeInt (value : BitVec 32) (p : Pickle) : Option Pickle :=
  p.writeBytes t heap (leBytes 4 value.toNat) 4

/-- The write methods; `none` is a write that returned false. -/
def write (p : Pickle) : Value t → Option Pickle
  | .bool value => p.writeInt t heap (if value then 1 else 0)
  | .int value => p.writeInt t heap value
  | .long value => p.writeBytes t heap (leBytes t.longSize value.toNat) t.longSize
  | .uint16 value => p.writeBytes t heap (leBytes 2 value.toNat) 2
  | .uint32 value => p.writeBytes t heap (leBytes 4 value.toNat) 4
  | .int64 value => p.writeBytes t heap (leBytes 8 value.toNat) 8
  | .uint64 value => p.writeBytes t heap (leBytes 8 value.toNat) 8
  | .string value =>
    (p.writeInt t heap (BitVec.ofNat 32 value.length)).bind
      (writeBytes t heap value (toInt32 value.length))
  | .wstring value =>
    (p.writeInt t heap (BitVec.ofNat 32 value.length)).bind
      (writeBytes t heap (value.flatMap fun c => leBytes t.wcharSize c.toNat)
        (toInt32 (value.length * t.wcharSize)))
  | .string16 value =>
    (p.writeInt t heap (BitVec.ofNat 32 value.length)).bind
      (writeBytes t heap (value.flatMap fun c => leBytes 2 c.toNat)
        (toInt32 (toInt32 value.length * 2)))
  | .data value =>
    if toInt32 value.length ≥ 0 then
      (p.writeInt t heap (BitVec.ofNat 32 value.length)).bind
        (writeBytes t heap value (toInt32 value.length))
    else none
  | .bytes value => p.writeBytes t heap value (toInt32 value.length)

def writeAll : List (Value t) → Pickle → Option Pickle
  | [], p => some p
  | v :: vs, p => (p.write t heap v).bind (writeAll vs)

/-- The bytes data() points at, size() of them. -/
def toData (p : Pickle) : List UInt8 :=
  match p.header with
  | none => []
  | some header => load header 0 (p.headerSize + payloadSizeOf header)

end Pickle

end ChromiumUI.Base
