import ChromiumUI.BinarySearch
import ChromiumUI.ByteMemory

/-!
# DataPack

A data pack is a header, an index of ids and offsets with one entry more than there are
resources, and the data. The model keeps the reads that Load makes.
-/
namespace ChromiumUI.DataPack

open ByteMemory BinarySearch List

def kFileFormatVersion : Nat := 4

def kHeaderLength : Nat := 9

/-- sizeof(DataPackEntry). -/
def entrySize : Nat := 6

inductive TextEncodingType
  | binary
  | utf8
  | utf16
  deriving DecidableEq, Repr

/-- The encodings Load accepts. -/
def textEncodingType : Nat → Option TextEncodingType
  | 0 => some .binary
  | 1 => some .utf8
  | 2 => some .utf16
  | _ => none

/-- A file that is mapped: the memory from its first byte on, and its length. -/
structure MappedFile where
  mem : Memory
  length : Nat

/-- Bytes that are read. -/
structure Access where
  offset : Nat
  size : Nat

def Access.Inside (a : Access) (file : MappedFile) : Prop := a.offset + a.size ≤ file.length

instance (a : Access) (file : MappedFile) : Decidable (a.Inside file) :=
  inferInstanceAs (Decidable (_ ≤ _))

namespace MappedFile

variable (file : MappedFile)

def entryOffset (i : Nat) : Nat := kHeaderLength + i * entrySize

def resourceId (i : Nat) : Nat := leValue (load file.mem (entryOffset i) 2)

def fileOffset (i : Nat) : Nat := leValue (load file.mem (entryOffset i + 2) 4)

/-- The loop of Load over the entries from `i` on, and what it reads. -/
def verifyEntries : Nat → Nat → Bool × List Access
  | 0, _ => (true, [])
  | n + 1, i =>
    if file.fileOffset i > file.length then (false, [⟨entryOffset i + 2, 4⟩])
    else
      ((verifyEntries n (i + 1)).1, ⟨entryOffset i + 2, 4⟩ :: (verifyEntries n (i + 1)).2)

end MappedFile

structure Pack where
  file : MappedFile
  resourceCount : Nat
  textEncodingType : TextEncodingType

/-- Load of a file that could be mapped: the pack, and the reads on the way. -/
def loadPack (file : MappedFile) : Option Pack × List Access :=
  if kHeaderLength > file.length then (none, [])
  else if leValue (load file.mem 0 4) ≠ kFileFormatVersion then (none, [⟨0, 4⟩])
  else
    let resourceCount := leValue (load file.mem 4 4)
    match textEncodingType (file.mem 8).toNat with
    | none => (none, [⟨0, 4⟩, ⟨4, 4⟩, ⟨8, 1⟩])
    | some encoding =>
      if kHeaderLength + resourceCount * entrySize > file.length then
        (none, [⟨0, 4⟩, ⟨4, 4⟩, ⟨8, 1⟩])
      else
        let (ok, reads) := file.verifyEntries (resourceCount + 1) 0
        (if ok then some ⟨file, resourceCount, encoding⟩ else none,
          ⟨0, 4⟩ :: ⟨4, 4⟩ :: ⟨8, 1⟩ :: reads)

namespace Pack

variable (pack : Pack)

/-- DataPackEntry::CompareById. -/
def compareById (key : UInt16) (i : Nat) : Ordering :=
  if key.toNat < pack.file.resourceId i then .lt
  else if key.toNat > pack.file.resourceId i then .gt
  else .eq

/-- The entry that bsearch finds. -/
def findEntry (resourceId : UInt16) : Option Nat :=
  bsearch (pack.compareById resourceId) pack.resourceCount

def hasResource (resourceId : UInt16) : Bool := (pack.findEntry resourceId).isSome

/-- The range GetStringPiece hands out; the length is a difference of two `uint32`. -/
def getStringPiece (resourceId : UInt16) : Option Access :=
  match pack.findEntry resourceId with
  | none => none
  | some target =>
    some ⟨pack.file.fileOffset target,
      (pack.file.fileOffset (target + 1) + 2 ^ 32 - pack.file.fileOffset target) % 2 ^ 32⟩

/-- GetStaticMemory. -/
def getStaticMemory (resourceId : UInt16) : Option Access :=
  match pack.getStringPiece resourceId with
  | none => none
  | some piece => some ⟨piece.offset, piece.size⟩

end Pack

/-! ## What stays inside of the file -/

variable {file : MappedFile}

theorem fileOffset_lt (file : MappedFile) (i : Nat) : file.fileOffset i < 2 ^ 32 := by
  have h := leValue_lt (load file.mem (MappedFile.entryOffset i + 2) 4)
  rw [length_load] at h
  exact h

theorem verifyEntries_reads {n i : Nat} (h : (file.verifyEntries n i).1 = true) :
    (file.verifyEntries n i).2 =
        (range' i n).map (fun k => ⟨MappedFile.entryOffset k + 2, 4⟩) ∧
      ∀ k, i ≤ k → k < i + n → file.fileOffset k ≤ file.length := by
  induction n generalizing i with
  | zero => exact ⟨rfl, fun k _ _ => by omega⟩
  | succ n ih =>
    rw [MappedFile.verifyEntries] at h ⊢
    split at h
    · cases h
    · rename_i hle
      rw [if_neg hle]
      obtain ⟨hreads, hoffsets⟩ := ih h
      refine ⟨?_, fun k hk hk' => ?_⟩
      · dsimp only
        rw [hreads]
        rfl
      · rcases Nat.eq_or_lt_of_le hk with rfl | hlt
        · omega
        · exact hoffsets k hlt (by omega)

/-- What a successful Load has found out. -/
structure Loaded (file : MappedFile) (pack : Pack) : Prop where
  file_eq : pack.file = file
  header : kHeaderLength ≤ file.length
  index : kHeaderLength + pack.resourceCount * entrySize ≤ file.length
  offsets : ∀ i, i ≤ pack.resourceCount → file.fileOffset i ≤ file.length
  reads : (loadPack file).2 = ⟨0, 4⟩ :: ⟨4, 4⟩ :: ⟨8, 1⟩ ::
    (range' 0 (pack.resourceCount + 1)).map (fun k => ⟨MappedFile.entryOffset k + 2, 4⟩)

theorem loadPack_loaded {pack : Pack} (h : (loadPack file).1 = some pack) : Loaded file pack := by
  unfold loadPack at h
  split at h
  · cases h
  · rename_i hhead
    split at h
    · cases h
    · rename_i hversion
      dsimp only at h
      split at h
      · cases h
      · rename_i encoding hencoding
        split at h
        · cases h
        · rename_i hindex
          split at h
          · rename_i hok
            cases h
            obtain ⟨hreads, hoffsets⟩ := verifyEntries_reads hok
            refine ⟨rfl, by omega, by simpa using hindex, fun i hi => hoffsets i (Nat.zero_le i)
              (by dsimp only at hi; omega), ?_⟩
            rw [loadPack, if_neg hhead, if_neg hversion, hencoding]
            dsimp only
            rw [if_neg hindex, hreads]
          · cases h

/-- Everything Load reads and every range handed out lies in the file. -/
def StaysInside (file : MappedFile) (pack : Pack) : Prop :=
  (∀ a ∈ (loadPack file).2, a.Inside file) ∧
    ∀ id : UInt16, (∀ a ∈ pack.getStringPiece id, a.Inside file) ∧
      ∀ a ∈ pack.getStaticMemory id, a.Inside file

theorem getStaticMemory_eq (pack : Pack) (id : UInt16) :
    pack.getStaticMemory id = pack.getStringPiece id := by
  rw [Pack.getStaticMemory]
  cases pack.getStringPiece id <;> rfl

/-- Data stays inside of a loaded file exactly when the file has room for the extra entry and no
entry that is found is followed by a lower offset. -/
theorem dataPack_stays_inside_iff {pack : Pack} (h : (loadPack file).1 = some pack) :
    StaysInside file pack ↔
      kHeaderLength + (pack.resourceCount + 1) * entrySize ≤ file.length ∧
        ∀ id i, pack.findEntry id = some i → file.fileOffset i ≤ file.fileOffset (i + 1) ∨
          2 ^ 32 + file.fileOffset (i + 1) ≤ file.length := by
  obtain ⟨rfl, hheader, hindex, hoffsets, hreads⟩ := loadPack_loaded h
  have hpiece : ∀ id i, pack.findEntry id = some i →
      ((∀ a ∈ pack.getStringPiece id, a.Inside pack.file) ↔
        pack.file.fileOffset i ≤ pack.file.fileOffset (i + 1) ∨
          2 ^ 32 + pack.file.fileOffset (i + 1) ≤ pack.file.length) := by
    intro id i hi
    have hcount := (bsearch_sound hi).1
    have hthis := fileOffset_lt pack.file i
    have hnext := fileOffset_lt pack.file (i + 1)
    have hle := hoffsets (i + 1) hcount
    rw [Pack.getStringPiece, hi]
    simp only [Option.mem_some_iff, forall_eq', Access.Inside]
    rcases Nat.lt_or_ge (pack.file.fileOffset (i + 1)) (pack.file.fileOffset i) with hlt | hge
    · rw [Nat.mod_eq_of_lt (by omega)]
      omega
    · rw [show pack.file.fileOffset (i + 1) + 2 ^ 32 - pack.file.fileOffset i =
        (pack.file.fileOffset (i + 1) - pack.file.fileOffset i) + 2 ^ 32 by omega,
        Nat.add_mod_right, Nat.mod_eq_of_lt (by omega)]
      omega
  constructor
  · rintro ⟨hinside, hranges⟩
    refine ⟨?_, fun id i hi => (hpiece id i hi).mp (hranges id).1⟩
    rw [hreads] at hinside
    have hmem : pack.resourceCount ∈ range' 0 (pack.resourceCount + 1) := by simp
    have hlast := hinside ⟨MappedFile.entryOffset pack.resourceCount + 2, 4⟩
      (mem_cons_of_mem _ (mem_cons_of_mem _ (mem_cons_of_mem _
        (mem_map_of_mem hmem))))
    simp only [Access.Inside, MappedFile.entryOffset, kHeaderLength, entrySize] at hlast ⊢
    omega
  · rintro ⟨hroom, hranges⟩
    refine ⟨?_, fun id => ?_⟩
    · intro a ha
      rw [hreads] at ha
      simp only [mem_cons, mem_map, mem_range'_1] at ha
      simp only [kHeaderLength, entrySize] at hroom
      rcases ha with rfl | rfl | rfl | ⟨k, hk, rfl⟩
      · simp only [Access.Inside]
        omega
      · simp only [Access.Inside]
        omega
      · simp only [Access.Inside]
        omega
      · simp only [Access.Inside, MappedFile.entryOffset, kHeaderLength, entrySize]
        omega
    · rw [getStaticMemory_eq, and_self]
      cases hi : pack.findEntry id with
      | none =>
        rw [Pack.getStringPiece, hi]
        rintro _ ⟨⟩
      | some i => exact (hpiece id i hi).mpr (hranges id i hi)

/-- A file of its own, followed by zero bytes. -/
def mapped (bytes : List UInt8) : MappedFile := ⟨ofBytes bytes, bytes.length⟩

/-- An index of nothing but the extra entry. -/
def emptyPack : MappedFile := mapped [4, 0, 0, 0, 0, 0, 0, 0, 0, 0, 0, 15, 0, 0, 0]

/-- One entry at offset 21, and the extra entry at offset 20. -/
def descendingPack : MappedFile :=
  mapped [4, 0, 0, 0, 1, 0, 0, 0, 0, 1, 0, 21, 0, 0, 0, 0, 0, 20, 0, 0, 0]

theorem emptyPack_stays_inside : StaysInside emptyPack ⟨emptyPack, 0, .binary⟩ := by
  refine (dataPack_stays_inside_iff (by rfl)).mpr ⟨by decide, fun id i hi => ?_⟩
  exact absurd (bsearch_sound hi).1 (Nat.not_lt_zero i)

/-- A bare header loads although its extra entry is not in the file, and descending offsets give a
range of almost 4 GiB. -/
theorem dataPack_leaves_file :
    (loadPack (mapped [4, 0, 0, 0, 0, 0, 0, 0, 0])).1 =
        some ⟨mapped [4, 0, 0, 0, 0, 0, 0, 0, 0], 0, .binary⟩ ∧
      ⟨11, 4⟩ ∈ (loadPack (mapped [4, 0, 0, 0, 0, 0, 0, 0, 0])).2 ∧
      ¬StaysInside (mapped [4, 0, 0, 0, 0, 0, 0, 0, 0])
        ⟨mapped [4, 0, 0, 0, 0, 0, 0, 0, 0], 0, .binary⟩ ∧
      (loadPack descendingPack).1 = some ⟨descendingPack, 1, .binary⟩ ∧
      Pack.getStringPiece ⟨descendingPack, 1, .binary⟩ 1 = some ⟨21, 2 ^ 32 - 1⟩ ∧
      ¬StaysInside descendingPack ⟨descendingPack, 1, .binary⟩ := by
  have hread : (⟨11, 4⟩ : Access) ∈ (loadPack (mapped [4, 0, 0, 0, 0, 0, 0, 0, 0])).2 :=
    Mem.tail _ (Mem.tail _ (Mem.tail _ (Mem.head _)))
  have hpiece : Pack.getStringPiece ⟨descendingPack, 1, .binary⟩ 1 = some ⟨21, 2 ^ 32 - 1⟩ := rfl
  refine ⟨rfl, hread, ?_, rfl, hpiece, ?_⟩
  · intro h
    exact absurd (h.1 _ hread) (by decide)
  · intro h
    exact absurd ((h.2 1).1 _ hpiece) (by decide)

/-! ## WritePack and Load

WritePack is a sequence of fwrite calls. A file that was written without an error loads again with
the same resources, and it is written without an error when no resource is empty. -/

open Nat Prod

/-- A file that is written, and how often something was. -/
structure OutFile where
  bytes : List UInt8
  calls : Nat

/-- fwrite of one item; `succeeds` says which calls that have something to write do. -/
def fwrite (succeeds : Nat → Bool) (data : List UInt8) (file : OutFile) : Nat × OutFile :=
  if data.length = 0 then (0, file)
  else if succeeds file.calls then (1, ⟨file.bytes ++ data, file.calls + 1⟩)
  else (0, { file with calls := file.calls + 1 })

/-- Calls of fwrite of which the first one that does not write its item ends WritePack. -/
def writeItems (succeeds : Nat → Bool) : List (List UInt8) → OutFile → Bool × OutFile
  | [], file => (true, file)
  | data :: items, file =>
    let (written, file) := fwrite succeeds data file
    if written ≠ 1 then (false, file) else writeItems succeeds items file

/-- The items of the index: an id and an offset for each resource, and the extra entry. -/
def indexItems : List (UInt16 × List UInt8) → Nat → List (List UInt8)
  | [], dataOffset => [leBytes 2 0, leBytes 4 dataOffset]
  | (id, data) :: resources, dataOffset =>
    leBytes 2 id.toNat :: leBytes 4 dataOffset ::
      indexItems resources ((dataOffset + data.length) % 2 ^ 32)

/-- WritePack to a file that could be opened. -/
def writePack (succeeds : Nat → Bool) (resources : List (UInt16 × List UInt8)) (encoding : Nat) :
    Bool × OutFile :=
  let entryCount := resources.length % 2 ^ 32
  let (ok, file) := writeItems succeeds [leBytes 4 kFileFormatVersion, leBytes 4 entryCount] ⟨[], 0⟩
  if ¬ok then (false, file)
  else if textEncodingType encoding = none then (false, file)
  else
    let indexLength := (entryCount + 1) * entrySize % 2 ^ 32
    let dataOffset := (kHeaderLength + indexLength) % 2 ^ 32
    writeItems succeeds
      (leBytes 1 encoding :: (indexItems resources dataOffset ++ resources.map snd)) file

/-- The size of the file that holds all of the resources. -/
def packSize (resources : List (UInt16 × List UInt8)) : Nat :=
  kHeaderLength + (resources.length + 1) * entrySize + (resources.flatMap snd).length

/-! ## What is written -/

variable {succeeds : Nat → Bool}

theorem writeItems_iff (hall : ∀ k, succeeds k = true) (items : List (List UInt8))
    (file : OutFile) : (writeItems succeeds items file).1 = true ↔ ∀ data ∈ items, data ≠ [] := by
  induction items generalizing file with
  | nil => simp [writeItems]
  | cons data items ih =>
    rw [writeItems, fwrite, forall_mem_cons]
    by_cases hdata : data = []
    · simp [hdata]
    · rw [if_neg (fun h => hdata (length_eq_zero_iff.mp h)), if_pos (hall _)]
      simp [ih, hdata]

theorem writeItems_bytes {items : List (List UInt8)} {file : OutFile}
    (h : (writeItems succeeds items file).1 = true) :
    (writeItems succeeds items file).2.bytes = file.bytes ++ items.flatten := by
  induction items generalizing file with
  | nil => simp [writeItems]
  | cons data items ih =>
    rw [writeItems] at h ⊢
    dsimp only at h ⊢
    split at h
    · cases h
    · rename_i hwrit
      rw [if_neg hwrit, ih h]
      rw [fwrite] at hwrit ⊢
      split at hwrit
      · simp at hwrit
      · rename_i hlen
        rw [if_neg hlen]
        split at hwrit
        · rename_i hok
          rw [if_pos hok]
          simp [append_assoc]
        · simp at hwrit

abbrev Resources := List (UInt16 × List UInt8)

/-- The index as ids and offsets. -/
def indexEntries : Resources → Nat → List (Nat × Nat)
  | [], dataOffset => [(0, dataOffset)]
  | (id, data) :: resources, dataOffset =>
    (id.toNat, dataOffset) :: indexEntries resources (dataOffset + data.length)

def entryBytes (entry : Nat × Nat) : List UInt8 := leBytes 2 entry.1 ++ leBytes 4 entry.2

theorem length_entryBytes (entry : Nat × Nat) : (entryBytes entry).length = entrySize := by
  simp [entryBytes, entrySize]

@[simp] theorem length_indexEntries (resources : Resources) (dataOffset : Nat) :
    (indexEntries resources dataOffset).length = resources.length + 1 := by
  induction resources generalizing dataOffset with
  | nil => rfl
  | cons r resources ih => simp [indexEntries, ih]

variable {resources : Resources}

theorem indexItems_flatten {dataOffset : Nat}
    (h : dataOffset + (resources.flatMap snd).length < 2 ^ 32) :
    (indexItems resources dataOffset).flatten =
      (indexEntries resources dataOffset).flatMap entryBytes := by
  induction resources generalizing dataOffset with
  | nil => rfl
  | cons r resources ih =>
    simp only [flatMap_cons, length_append] at h
    simp only [indexItems, indexEntries, flatten_cons, flatMap_cons, entryBytes]
    rw [mod_eq_of_lt (by omega), ih (by omega), append_assoc]

theorem indexItems_ne_nil (resources : Resources) (dataOffset : Nat) :
    ∀ data ∈ indexItems resources dataOffset, data ≠ [] := by
  have hne : ∀ n v, leBytes (n + 1) v ≠ [] := fun n v => cons_ne_nil _ _
  induction resources generalizing dataOffset with
  | nil => simp [indexItems, hne]
  | cons r resources ih =>
    rw [indexItems, forall_mem_cons, forall_mem_cons]
    exact ⟨hne _ _, hne _ _, ih _⟩

/-- Where the data of the `k`-th resource begins. -/
def itemOffset (resources : Resources) (dataOffset k : Nat) : Nat :=
  dataOffset + ((resources.take k).flatMap snd).length

theorem indexEntries_offset {dataOffset k : Nat}
    (hk : k < (indexEntries resources dataOffset).length) :
    (indexEntries resources dataOffset)[k].2 = itemOffset resources dataOffset k := by
  induction resources generalizing dataOffset k with
  | nil =>
    obtain rfl : k = 0 := by simpa [indexEntries] using hk
    rfl
  | cons r resources ih =>
    cases k with
    | zero => rfl
    | succ k =>
      have hk' : k < (indexEntries resources (dataOffset + r.2.length)).length := by
        simpa [indexEntries] using hk
      have h := ih hk'
      simp only [indexEntries, getElem_cons_succ]
      rw [h]
      simp only [itemOffset, take_succ_cons, flatMap_cons, length_append]
      omega

theorem indexEntries_id {dataOffset k : Nat} (hk : k < resources.length)
    (hk' : k < (indexEntries resources dataOffset).length) :
    (indexEntries resources dataOffset)[k].1 = resources[k].1.toNat := by
  induction resources generalizing dataOffset k with
  | nil => simp at hk
  | cons r resources ih =>
    cases k with
    | zero => rfl
    | succ k =>
      have hk'' : k < resources.length := by simpa using hk
      exact ih hk'' (by simp; omega)

/-- All the bytes of a pack. -/
def packBytes (resources : Resources) (encoding : Nat) : List UInt8 :=
  leBytes 4 kFileFormatVersion ++ (leBytes 4 resources.length ++ (leBytes 1 encoding ++
    ((indexEntries resources (kHeaderLength + (resources.length + 1) * entrySize)).flatMap
      entryBytes ++ resources.flatMap snd)))

theorem flatten_map_snd (resources : Resources) :
    (resources.map snd).flatten = resources.flatMap snd := rfl

variable {encoding : Nat} {enc : TextEncodingType}

/-- When all that is to be written is, WritePack writes the bytes of the pack, or fails at an
empty resource. -/
theorem writePack_iff (hall : ∀ k, succeeds k = true) (henc : textEncodingType encoding = some enc)
    (hsize : packSize resources < 2 ^ 32) :
    ((writePack succeeds resources encoding).1 = true ↔ ∀ r ∈ resources, r.2 ≠ []) ∧
      ((writePack succeeds resources encoding).1 = true →
        (writePack succeeds resources encoding).2.bytes = packBytes resources encoding) := by
  simp only [packSize, kHeaderLength, entrySize] at hsize
  have hhead : (writeItems succeeds
      [leBytes 4 kFileFormatVersion, leBytes 4 (resources.length % 2 ^ 32)] ⟨[], 0⟩).1 = true := by
    rw [writeItems_iff hall]
    simp [leBytes]
  have hbytes := writeItems_bytes hhead
  have hcount : resources.length % 2 ^ 32 = resources.length := mod_eq_of_lt (by omega)
  have hindex : (resources.length + 1) * 6 % 2 ^ 32 = (resources.length + 1) * 6 :=
    mod_eq_of_lt (by omega)
  have hoff : (9 + (resources.length + 1) * 6) % 2 ^ 32 = 9 + (resources.length + 1) * 6 :=
    mod_eq_of_lt (by omega)
  rw [writePack]
  dsimp only
  rw [if_neg (not_not.mpr hhead), if_neg (by rw [henc]; exact (by rintro ⟨⟩))]
  simp only [hcount, kHeaderLength, entrySize, hindex, hoff] at hbytes ⊢
  constructor
  · rw [writeItems_iff hall, forall_mem_cons, forall_mem_append]
    constructor
    · intro h r hr
      exact h.2.2 r.2 (mem_map_of_mem hr)
    · intro h
      refine ⟨by simp [leBytes], indexItems_ne_nil _ _, fun data hdata => ?_⟩
      obtain ⟨r, hr, rfl⟩ := mem_map.mp hdata
      exact h r hr
  · intro hok
    have hrest : (leBytes 1 encoding :: (indexItems resources (9 + (resources.length + 1) * 6) ++
        resources.map snd)).flatten = leBytes 1 encoding ++
        ((indexEntries resources (9 + (resources.length + 1) * 6)).flatMap entryBytes ++
          resources.flatMap snd) := by
      rw [flatten_cons, flatten_append, indexItems_flatten (by omega), flatten_map_snd]
    rw [writeItems_bytes hok, hbytes, hrest]
    simp [packBytes, kHeaderLength, entrySize]

/-! ## What is loaded -/

theorem load_append {mem : Memory} {p : Nat} {x y : List UInt8}
    (h : load mem p (x ++ y).length = x ++ y) :
    load mem p x.length = x ∧ load mem (p + x.length) y.length = y := by
  rw [length_append, load_add] at h
  exact append_inj h (length_load _ _ _)

/-- Words of one length lie one behind the other. -/
theorem load_word {α : Type} {code : α → List UInt8} {w : Nat} (hw : ∀ a, (code a).length = w)
    {mem : Memory} {p : Nat} {as : List α}
    (h : load mem p (as.flatMap code).length = as.flatMap code) {k : Nat} (hk : k < as.length) :
    load mem (p + k * w) w = code as[k] := by
  induction as generalizing p k with
  | nil => simp at hk
  | cons a as ih =>
    rw [flatMap_cons] at h
    obtain ⟨hhead, htail⟩ := load_append h
    rw [hw] at hhead htail
    cases k with
    | zero => rw [Nat.zero_mul, Nat.add_zero, hhead, getElem_cons_zero]
    | succ k =>
      rw [getElem_cons_succ, ← ih htail (by simpa using hk), succ_mul]
      congr 1
      omega

/-- A file that holds a pack. -/
structure Holds (file : MappedFile) (resources : Resources) (encoding : Nat) : Prop where
  version : leValue (load file.mem 0 4) = kFileFormatVersion
  count : leValue (load file.mem 4 4) = resources.length
  encoding_eq : (file.mem 8).toNat = encoding
  length_eq : file.length = packSize resources
  ids : ∀ k (hk : k < resources.length), file.resourceId k = resources[k].1.toNat
  offsets : ∀ k, k ≤ resources.length → file.fileOffset k =
    itemOffset resources (kHeaderLength + (resources.length + 1) * entrySize) k
  data : load file.mem (kHeaderLength + (resources.length + 1) * entrySize)
    (resources.flatMap snd).length = resources.flatMap snd

theorem length_flatMap_entryBytes (entries : List (Nat × Nat)) :
    (entries.flatMap entryBytes).length = entries.length * entrySize := by
  induction entries with
  | nil => rfl
  | cons e entries ih =>
    rw [flatMap_cons, length_append, ih, length_entryBytes, length_cons,
      Nat.succ_mul, Nat.add_comm]

theorem itemOffset_le (resources : Resources) (dataOffset k : Nat) :
    itemOffset resources dataOffset k ≤ dataOffset + (resources.flatMap snd).length := by
  have h : (resources.flatMap snd).length =
      ((resources.take k).flatMap snd).length +
        ((resources.drop k).flatMap snd).length := by
    rw [← length_append, ← flatMap_append, take_append_drop]
  rw [itemOffset]
  omega

theorem holds_of_packBytes (hencoding : encoding < 256) (hsize : packSize resources < 2 ^ 32)
    (hlen : file.length = (packBytes resources encoding).length)
    (hload : load file.mem 0 file.length = packBytes resources encoding) :
    Holds file resources encoding := by
  rw [hlen] at hload
  obtain ⟨hversion, hload⟩ := load_append hload
  obtain ⟨hcount, hload⟩ := load_append hload
  obtain ⟨hbyte, hload⟩ := load_append hload
  obtain ⟨hindex, hdata⟩ := load_append hload
  simp only [length_leBytes] at hversion hcount hbyte
  simp only [length_leBytes, length_flatMap_entryBytes, length_indexEntries] at hindex hdata
  simp only [packSize, kHeaderLength, entrySize] at hsize
  have hentry : ∀ k, k ≤ resources.length →
      ∃ hk : k < (indexEntries resources (kHeaderLength + (resources.length + 1) * entrySize)).length,
      load file.mem (MappedFile.entryOffset k) 2 = leBytes 2
        (indexEntries resources (kHeaderLength + (resources.length + 1) * entrySize))[k].1 ∧
      load file.mem (MappedFile.entryOffset k + 2) 4 = leBytes 4
        (indexEntries resources (kHeaderLength + (resources.length + 1) * entrySize))[k].2 := by
    intro k hk
    have hk' : k < (indexEntries resources
        (kHeaderLength + (resources.length + 1) * entrySize)).length := by
      simp
      omega
    have hword := load_word length_entryBytes (by
      rw [length_flatMap_entryBytes, length_indexEntries]
      exact hindex) hk'
    have hsplit := load_append (x := leBytes 2 _) (y := leBytes 4 _)
      (by rw [← entryBytes, length_entryBytes]; exact hword)
    rw [length_leBytes, length_leBytes] at hsplit
    exact ⟨hk', hsplit⟩
  refine ⟨?_, ?_, ?_, ?_, ?_, ?_, ?_⟩
  · rw [hversion]
    rfl
  · rw [show load file.mem 4 4 = leBytes 4 resources.length from hcount,
      leValue_leBytes_of_lt (by omega)]
  · have hbyte' : file.mem 8 = UInt8.ofNat encoding := (cons.inj hbyte).1
    rw [hbyte']
    exact mod_eq_of_lt hencoding
  · rw [hlen]
    simp only [packBytes, packSize, length_append, length_leBytes, length_flatMap_entryBytes,
      length_indexEntries, kHeaderLength, entrySize]
    omega
  · intro k hk
    obtain ⟨hk', hid, -⟩ := hentry k (Nat.le_of_lt hk)
    have hlt := resources[k].1.toNat_lt
    rw [MappedFile.resourceId, hid, indexEntries_id hk hk', leValue_leBytes_of_lt hlt]
  · intro k hk
    obtain ⟨hk', -, hoff⟩ := hentry k hk
    have hle := itemOffset_le resources (kHeaderLength + (resources.length + 1) * entrySize) k
    simp only [kHeaderLength, entrySize] at hle
    rw [MappedFile.fileOffset, hoff, indexEntries_offset hk',
      leValue_leBytes_of_lt (by simp only [kHeaderLength, entrySize]; omega)]
  · rw [show kHeaderLength + (resources.length + 1) * entrySize =
      0 + 4 + 4 + 1 + (resources.length + 1) * entrySize by simp only [kHeaderLength]]
    exact hdata

theorem verifyEntries_true {n i : Nat}
    (h : ∀ k, i ≤ k → k < i + n → file.fileOffset k ≤ file.length) :
    (file.verifyEntries n i).1 = true := by
  induction n generalizing i with
  | zero => rfl
  | succ n ih =>
    rw [MappedFile.verifyEntries, if_neg (Nat.not_lt.mpr (h i (Nat.le_refl i) (by omega)))]
    exact ih fun k hk hk' => h k (by omega) (by omega)

section

variable (h : Holds file resources encoding)
include h

theorem Holds.loadPack (henc : textEncodingType encoding = some enc) :
    (loadPack file).1 = some ⟨file, resources.length, enc⟩ := by
  have hlen := h.length_eq
  simp only [packSize] at hlen
  have hok : (file.verifyEntries (resources.length + 1) 0).1 = true := by
    refine verifyEntries_true fun k _ hk => ?_
    rw [h.offsets k (by omega), hlen]
    exact itemOffset_le _ _ _
  rw [DataPack.loadPack, if_neg (by omega), if_neg (not_not.mpr h.version), h.count, h.encoding_eq,
    henc]
  dsimp only
  rw [if_neg (by rw [hlen, succ_mul]; omega), if_pos hok]

section

variable (hsorted : resources.Pairwise fun a b => a.1 < b.1)
include hsorted

/-- The binary search finds a resource at its own place. -/
theorem Holds.findEntry {k : Nat} (hk : k < resources.length) :
    Pack.findEntry ⟨file, resources.length, enc⟩ resources[k].1 = some k := by
  have hlt : ∀ i j (hi : i < resources.length) (hj : j < resources.length), i < j →
      resources[i].1.toNat < resources[j].1.toNat := fun i j hi hj hij =>
    UInt16.lt_iff_toNat_lt.mp (pairwise_iff_getElem.mp hsorted i j hi hj hij)
  refine bsearch_complete hk ?_ ?_ ?_
  · rw [Pack.compareById, h.ids k hk, if_neg (Nat.lt_irrefl _), if_neg (Nat.lt_irrefl _)]
  · intro i hi
    have hi' : i < resources.length := Nat.lt_trans hi hk
    have hids := hlt i k hi' hk hi
    rw [Pack.compareById, h.ids i hi', if_neg (by omega), if_pos hids]
  · intro i hi hi'
    rw [Pack.compareById, h.ids i hi', if_pos (hlt k i hk hi' hi)]

theorem Holds.hasResource_iff (id : UInt16) :
    Pack.hasResource ⟨file, resources.length, enc⟩ id = true ↔ id ∈ resources.map fst := by
  rw [Pack.hasResource]
  constructor
  · intro hsome
    obtain ⟨k, hfind⟩ := Option.isSome_iff_exists.mp hsome
    obtain ⟨hk, heq⟩ := bsearch_sound hfind
    rw [Pack.compareById, h.ids k hk] at heq
    split at heq
    · cases heq
    · split at heq
      · cases heq
      · have hid : id = resources[k].1 := UInt16.toNat_inj.mp (by omega)
        rw [hid]
        exact mem_map_of_mem (getElem_mem hk)
  · intro hmem
    obtain ⟨r, hr, rfl⟩ := mem_map.mp hmem
    obtain ⟨k, hk, rfl⟩ := getElem_of_mem hr
    rw [h.findEntry hsorted hk]
    rfl

theorem Holds.getStringPiece {k : Nat} (hk : k < resources.length) :
    ∃ range, Pack.getStringPiece ⟨file, resources.length, enc⟩ resources[k].1 = some range ∧
      load file.mem range.offset range.size = resources[k].2 := by
  have hthis := h.offsets k (Nat.le_of_lt hk)
  have hnext := h.offsets (k + 1) hk
  have hsplit : resources = resources.take k ++ resources[k] :: resources.drop (k + 1) := by
    rw [← drop_eq_getElem_cons hk, take_append_drop]
  have hstep : ∀ p, itemOffset resources p (k + 1) =
      itemOffset resources p k + resources[k].2.length := by
    intro p
    rw [itemOffset, itemOffset, take_succ_eq_append_getElem hk, flatMap_append,
      length_append]
    simp only [flatMap_cons, flatMap_nil, append_nil]
    omega
  have hbound := fileOffset_lt file (k + 1)
  rw [hnext, hstep] at hbound
  refine ⟨_, by rw [Pack.getStringPiece, h.findEntry hsorted hk], ?_⟩
  rw [hthis, hnext, hstep, mod_eq_sub_mod (by omega), mod_eq_of_lt (by omega),
    show ∀ a b : Nat, a + b + 2 ^ 32 - a - 2 ^ 32 = b by omega]
  have hdata := h.data
  rw [hsplit, flatMap_append, flatMap_cons] at hdata
  obtain ⟨-, hdata'⟩ := load_append hdata
  rw [← hsplit] at hdata'
  exact (load_append hdata').1

end

end

/-- WritePack succeeds, and whatever holds the bytes it wrote loads as the same resources. -/
def RoundTrips (succeeds : Nat → Bool) (resources : Resources) (encoding : Nat)
    (enc : TextEncodingType) : Prop :=
  (writePack succeeds resources encoding).1 = true ∧
    ∀ file : MappedFile,
      file.length = (writePack succeeds resources encoding).2.bytes.length →
      load file.mem 0 file.length = (writePack succeeds resources encoding).2.bytes →
      ∃ pack, (loadPack file).1 = some pack ∧ pack.textEncodingType = enc ∧
        (∀ id, pack.hasResource id = true ↔ id ∈ resources.map fst) ∧
        ∀ r ∈ resources, ∃ range, pack.getStringPiece r.1 = some range ∧
          load file.mem range.offset range.size = r.2

/-- A map of less than 4 GiB survives WritePack and Load exactly when no resource is empty. -/
theorem dataPack_round_trip_iff {resources : Resources} {encoding : Nat} {enc : TextEncodingType}
    (hsorted : resources.Pairwise fun a b => a.1 < b.1) (hsize : packSize resources < 2 ^ 32)
    (henc : textEncodingType encoding = some enc) (hall : ∀ k, succeeds k = true) :
    RoundTrips succeeds resources encoding enc ↔ ∀ r ∈ resources, r.2 ≠ [] := by
  obtain ⟨hsuccess, hbytes⟩ := writePack_iff hall henc hsize
  have hencoding : encoding < 256 := by
    rw [textEncodingType.eq_def] at henc
    split at henc
    · decide
    · decide
    · decide
    · cases henc
  constructor
  · intro h
    exact hsuccess.mp h.1
  · intro hne
    have hok := hsuccess.mpr hne
    refine ⟨hok, fun file hlength hload => ?_⟩
    rw [hbytes hok] at hlength hload
    have hholds := holds_of_packBytes hencoding hsize hlength hload
    refine ⟨_, hholds.loadPack henc, rfl, hholds.hasResource_iff hsorted, fun r hr => ?_⟩
    obtain ⟨k, hk, rfl⟩ := getElem_of_mem hr
    exact hholds.getStringPiece hsorted hk

theorem dataPack_round_trips :
    RoundTrips (fun _ => true) [(1, [0x61]), (7, [0x62, 0x63])] 1 .utf8 :=
  (dataPack_round_trip_iff (by decide) (by decide) rfl fun _ => rfl).mpr (by decide)

/-- fwrite of an empty resource returns 0, and WritePack takes that for a failure. -/
theorem writePack_empty_resource :
    (writePack (fun _ => true) [(1, [])] 0).1 = false ∧
      ¬RoundTrips (fun _ => true) [(1, [])] 0 .binary := by
  have hfails : (writePack (fun _ => true) [(1, [])] 0).1 = false := by decide
  refine ⟨hfails, fun h => ?_⟩
  rw [h.1] at hfails
  cases hfails

end ChromiumUI.DataPack
