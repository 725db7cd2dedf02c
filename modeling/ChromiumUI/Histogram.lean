import ChromiumUI.Pickle
import ChromiumUI.Outcomes

/-!
# Histograms and the recorder they are registered with

A fault is what a release build can run into: a CHECK, a division by zero, or an index
past the end of a vector. The arithmetic of bucket boundaries is a parameter.
-/
namespace ChromiumUI.Base.Metrics

inductive Fault where
  | check | divideByZero | rangeIndex | sampleIndex
  deriving DecidableEq, Repr

/-- The boundaries of buckets, rounded to ints from floating point. -/
structure Boundaries where
  /-- exp of log(current) plus an equal share of what is left up to log(max). -/
  exponential : (declaredMax current : Int) → (bucketsLeft : Nat) → Int
  linear : (declaredMin declaredMax : Int) → (bucketCount index : Nat) → Int

def kSampleTypeMax : Int := 2147483647

def kBucketCountMax : Nat := 16384

def kIPCSerializationSourceFlag : BitVec 32 := 0x10

structure SampleSet where
  counts : List (BitVec 32)
  sum : BitVec 64
  redundantCount : BitVec 64
  deriving DecidableEq, Repr

structure Histogram where
  histogramName : List UInt8
  declaredMin : Int
  declaredMax : Int
  bucketCount : Nat
  flags : BitVec 32
  ranges : List Int
  sample : SampleSet
  ranges_size : ranges.length = bucketCount + 1
  counts_size : sample.counts.length = bucketCount

namespace Histogram

def setBucketRange (i : Nat) (value : Int) (h : Histogram) : Except Fault Histogram :=
  if i < h.ranges.length then
    .ok { h with ranges := h.ranges.set i value, ranges_size := by simp [h.ranges_size] }
  else .error .rangeIndex

/-- The constructor, with Initialize(). -/
def new (name : List UInt8) (minimum maximum : Int) (bucketCount : Nat) :
    Except Fault Histogram :=
  if bucketCount < kBucketCountMax then
    setBucketRange bucketCount kSampleTypeMax
      { histogramName := name
        declaredMin := max minimum 1
        declaredMax := min maximum (kSampleTypeMax - 1)
        bucketCount := bucketCount
        flags := 0
        ranges := List.replicate (bucketCount + 1) 0
        sample := ⟨List.replicate bucketCount 0, 0, 0⟩
        ranges_size := by simp
        counts_size := by simp }
  else .error .check

def setFlags (flags : BitVec 32) (h : Histogram) : Histogram :=
  { h with flags := h.flags ||| flags }

/-- One round of the loop of InitializeBucketRange. -/
def nextBucketRange (b : Boundaries) (bucketCount : Nat) (h : Histogram × Int)
    (bucketIndex : Nat) : Except Fault (Histogram × Int) :=
  let next := b.exponential h.1.declaredMax h.2 (bucketCount - bucketIndex)
  let current := if next > h.2 then next else toInt32 (h.2 + 1)
  (h.1.setBucketRange bucketIndex current).map fun h => (h, current)

def initializeBucketRange (b : Boundaries) (h : Histogram) : Except Fault Histogram := do
  let first ← h.setBucketRange 1 h.declaredMin
  let filled ← (List.range' 2 (h.bucketCount - 2)).foldlM
    (nextBucketRange b h.bucketCount) (first, h.declaredMin)
  return filled.1

/-- AddSampleSet, by SampleSet::Add: its own counts_ say how far the other's are read. -/
def addSampleSet (other : SampleSet) (h : Histogram) : Except Fault Histogram :=
  if fits : h.sample.counts.length ≤ other.counts.length then
    .ok { h with
      sample := ⟨List.zipWith (· + ·) h.sample.counts other.counts, h.sample.sum + other.sum,
        h.sample.redundantCount + other.redundantCount⟩
      counts_size := by simp only [List.length_zipWith, h.counts_size] at *; omega }
  else .error .sampleIndex

end Histogram

/-- `none` before the recorder is made and after it is gone. -/
structure StatisticsRecorder where
  histograms : Option (List UInt8 → Option Histogram)

namespace StatisticsRecorder

def findHistogram (name : List UInt8) (recorder : StatisticsRecorder) : Option Histogram :=
  recorder.histograms.bind fun histograms => histograms name

/-- What a histogram of this name is from now on. -/
def store (h : Histogram) (recorder : StatisticsRecorder) : StatisticsRecorder :=
  ⟨recorder.histograms.map fun histograms => Function.update histograms h.histogramName (some h)⟩

def registerOrDeleteDuplicate (h : Histogram) (recorder : StatisticsRecorder) :
    Histogram × StatisticsRecorder :=
  match recorder.findHistogram h.histogramName with
  | none => (h, recorder.store h)
  | some registered => (registered, recorder)

/-- What the FactoryGet of every class does with the histogram it would make. -/
def factoryGet (name : List UInt8) (flags : BitVec 32) (tentative : Except Fault Histogram)
    (recorder : StatisticsRecorder) : Except Fault (Histogram × StatisticsRecorder) :=
  match recorder.findHistogram name with
  | some h => .ok (h, recorder)
  | none => tentative.map fun h => recorder.registerOrDeleteDuplicate (h.setFlags flags)

end StatisticsRecorder

def Histogram.factoryGet (b : Boundaries) (name : List UInt8) (minimum maximum : Int)
    (bucketCount : Nat) (flags : BitVec 32) (recorder : StatisticsRecorder) :
    Except Fault (Histogram × StatisticsRecorder) :=
  recorder.factoryGet name flags do
    let h ← Histogram.new name (max minimum 1) (min maximum (kSampleTypeMax - 1)) bucketCount
    h.initializeBucketRange b

namespace LinearHistogram

def initializeBucketRange (b : Boundaries) (h : Histogram) : Except Fault Histogram :=
  (List.range' 1 (h.bucketCount - 1)).foldlM (fun h i =>
    if h.bucketCount - 2 = 0 then .error .divideByZero
    else h.setBucketRange i (b.linear h.declaredMin h.declaredMax h.bucketCount i)) h

/-- A histogram of this shape, made and given its ranges. -/
def new (b : Boundaries) (name : List UInt8) (minimum maximum : Int) (bucketCount : Nat) :
    Except Fault Histogram := do
  let h ← Histogram.new name (max minimum 1) maximum bucketCount
  initializeBucketRange b h

def factoryGet (b : Boundaries) (name : List UInt8) (minimum maximum : Int)
    (bucketCount : Nat) (flags : BitVec 32) (recorder : StatisticsRecorder) :
    Except Fault (Histogram × StatisticsRecorder) :=
  recorder.factoryGet name flags
    (new b name (max minimum 1) (min maximum (kSampleTypeMax - 1)) bucketCount)

end LinearHistogram

def BooleanHistogram.factoryGet (b : Boundaries) (name : List UInt8) (flags : BitVec 32)
    (recorder : StatisticsRecorder) : Except Fault (Histogram × StatisticsRecorder) :=
  recorder.factoryGet name flags (LinearHistogram.new b name 1 2 3)

namespace CustomHistogram

/-- std::unique -/
def unique : List Int → List Int
  | a :: b :: values => if a = b then unique (b :: values) else a :: unique (b :: values)
  | values => values

/-- The ranges FactoryGet makes of the custom ones. -/
def sortedRanges (customRanges : List Int) : List Int :=
  let ranges := unique ((customRanges ++ [0]).insertionSort (· ≤ ·))
  if ranges.length ≤ 1 then ranges ++ [1] else ranges

def initializedCustomBucketRange (ranges : List Int) (h : Histogram) : Except Fault Histogram :=
  ranges.zipIdx.foldlM (fun h range => h.setBucketRange range.2 range.1) h

/-- There are at least two ranges. -/
def new (name : List UInt8) (ranges : List Int) : Except Fault Histogram := do
  let h ← Histogram.new name (ranges.getD 1 0) (ranges.getLastD 0) ranges.length
  initializedCustomBucketRange ranges h

def factoryGet (name : List UInt8) (customRanges : List Int) (flags : BitVec 32)
    (recorder : StatisticsRecorder) : Except Fault (Histogram × StatisticsRecorder) :=
  recorder.factoryGet name flags (new name (sortedRanges customRanges))

end CustomHistogram

/-! ## Histogram::DeserializeHistogramInfo

The call ends in a fault or in a report: what it returned, the recorder it left, and the
AddSampleSet it made. -/

open ChromiumUI.Base (Pickle PickleIterator)

/-- A read that succeeded; every failed one makes the caller return false. -/
def taken {α : Type} (read : Option (Answer α) × PickleIterator) : Option (α × PickleIterator) :=
  read.1.map fun answer => (answer.value, read.2)

def readInts : Nat → PickleIterator → Option (List (BitVec 32) × PickleIterator)
  | 0, it => some ([], it)
  | n + 1, it => do
    let (i, it) ← taken it.readInt
    let (is, it) ← readInts n it
    return (i :: is, it)

/-- SampleSet::Deserialize; the count of the samples wraps. -/
def SampleSet.deserialize (it : PickleIterator) : Option (SampleSet × PickleIterator) := do
  let (sum, it) ← taken (it.readBuiltinType 8)
  let (redundantCount, it) ← taken (it.readBuiltinType 8)
  let (countsSize, it) ← taken (it.readBuiltinType 8)
  if countsSize = 0 then none
  else
    let (counts, it) ← readInts countsSize it
    if counts.sum.signExtend 64 = BitVec.ofNat 64 redundantCount then
      return (⟨counts, BitVec.ofNat 64 sum, BitVec.ofNat 64 redundantCount⟩, it)
    else none

inductive ClassType where
  | histogram | linearHistogram | booleanHistogram | customHistogram
  deriving DecidableEq, Repr

/-- The class a type from the wire stands for, NOT_VALID_IN_RENDERER for none. -/
def ClassType.ofInt : Int → Option ClassType
  | 0 => some histogram
  | 1 => some linearHistogram
  | 2 => some booleanHistogram
  | 3 => some customHistogram
  | _ => none

/-- What is pickled ahead of the ranges. -/
structure HistogramFields where
  histogramName : List UInt8
  declaredMin : Int
  declaredMax : Int
  bucketCount : Nat
  histogramType : Int
  pickleFlags : BitVec 32
  sample : SampleSet
  deriving DecidableEq, Repr

namespace HistogramFields

/-- The range checksum is read and then only compared in debug builds. -/
def read (it : PickleIterator) : Option (HistogramFields × PickleIterator) := do
  let (histogramName, it) ← taken it.readString
  let (declaredMin, it) ← taken it.readInt
  let (declaredMax, it) ← taken it.readInt
  let (bucketCount, it) ← taken (it.readBuiltinType 8)
  let (_, it) ← taken (it.readBuiltinType 4)
  let (histogramType, it) ← taken it.readInt
  let (pickleFlags, it) ← taken it.readInt
  let (sample, it) ← SampleSet.deserialize it
  return (⟨histogramName, declaredMin.toInt, declaredMax.toInt, bucketCount,
    histogramType.toInt, pickleFlags, sample⟩, it)

/-- "Values error decoding Histogram" -/
def ValuesError (fields : HistogramFields) : Prop :=
  fields.declaredMax ≤ 0 ∨ fields.declaredMin ≤ 0 ∨ fields.declaredMax < fields.declaredMin ∨
    2147483647 / 4 ≤ fields.bucketCount ∨ fields.bucketCount < 2

instance (fields : HistogramFields) : Decidable fields.ValuesError :=
  inferInstanceAs (Decidable (_ ∨ _))

def flags (fields : HistogramFields) : BitVec 32 :=
  fields.pickleFlags &&& ~~~kIPCSerializationSourceFlag

end HistogramFields

/-- Pickle(info.data(), static_cast<int>(info.size())); only so many bytes are looked at. -/
def pickleOf (info : List UInt8) : Pickle :=
  Pickle.ofData (info.take (toInt32 info.length).toNat)

/-- An AddSampleSet, with the receiver as it was. -/
structure AddSampleSet where
  receiver : Histogram
  sample : SampleSet

structure Report where
  returned : Bool
  recorder : StatisticsRecorder
  added : Option AddSampleSet

/-- From the FactoryGet on. -/
def aggregate (sample : SampleSet) (rendered : Histogram × StatisticsRecorder) :
    Except Fault Report :=
  if rendered.1.flags &&& kIPCSerializationSourceFlag ≠ 0 then .ok ⟨true, rendered.2, none⟩
  else (rendered.1.addSampleSet sample).map fun h =>
    ⟨true, rendered.2.store h, some ⟨rendered.1, sample⟩⟩

variable (b : Boundaries) (recorder : StatisticsRecorder)

/-- The histogram of the message, `none` for a message that is turned down. -/
def renderHistogram (fields : HistogramFields) (it : PickleIterator) :
    Option (Except Fault (Histogram × StatisticsRecorder)) :=
  match ClassType.ofInt fields.histogramType with
  | some .histogram => some (Histogram.factoryGet b fields.histogramName fields.declaredMin
      fields.declaredMax fields.bucketCount fields.flags recorder)
  | some .linearHistogram => some (LinearHistogram.factoryGet b fields.histogramName
      fields.declaredMin fields.declaredMax fields.bucketCount fields.flags recorder)
  | some .booleanHistogram =>
    some (BooleanHistogram.factoryGet b fields.histogramName fields.flags recorder)
  | some .customHistogram => (readInts fields.bucketCount it).map fun sampleRanges =>
      CustomHistogram.factoryGet fields.histogramName (sampleRanges.1.map BitVec.toInt)
        fields.flags recorder
  | none => none

def deserializeHistogramInfo (info : List UInt8) : Except Fault Report :=
  if info.isEmpty then .ok ⟨false, recorder, none⟩
  else match HistogramFields.read (pickleOf info).iterator with
    | none => .ok ⟨false, recorder, none⟩
    | some (fields, it) =>
      if fields.ValuesError then .ok ⟨false, recorder, none⟩
      else match renderHistogram b recorder fields it with
        | none => .ok ⟨false, recorder, none⟩
        | some rendered => rendered.bind (aggregate fields.sample)

/-! ## What keeps a deserialized histogram from a fault

A message that decodes asks for a histogram; whether the one that is found or made fits the
samples is a matter of its bucket count and of the recorder alone. -/

open Outcomes List Option

/-- A histogram of this name fresh from its constructor, with `n` buckets. -/
structure Blank (name : List UInt8) (n : Nat) (h : Histogram) : Prop where
  histogramName : h.histogramName = name
  bucketCount : h.bucketCount = n
  flags : h.flags = 0

variable {name : List UInt8} {n : Nat} {h : Histogram}

namespace Histogram

theorem setBucketRange_returns {i : Nat} (hh : Blank name n h) (hi : i ≤ n) (value : Int) :
    Returns (h.setBucketRange i value) (Blank name n) := by
  have hlen : i < h.ranges.length := by
    have := h.ranges_size
    have := hh.bucketCount
    omega
  rw [setBucketRange, if_pos hlen]
  exact .ok ⟨hh.histogramName, hh.bucketCount, hh.flags⟩

theorem new_returns (hn : n < kBucketCountMax) (name : List UInt8) (minimum maximum : Int) :
    Returns (new name minimum maximum n) (Blank name n) := by
  rw [new, if_pos hn]
  apply setBucketRange_returns
  · exact ⟨rfl, rfl, rfl⟩
  · exact le_rfl

theorem new_check (hn : ¬n < kBucketCountMax) (name : List UInt8) (minimum maximum : Int) :
    new name minimum maximum n = .error .check := by
  rw [new, if_neg hn]

theorem initializeBucketRange_returns (b : Boundaries) (hh : Blank name n h) (hn : 2 ≤ n) :
    Returns (h.initializeBucketRange b) (Blank name n) := by
  apply Returns.bind (setBucketRange_returns hh (by omega) _)
  intro first hfirst
  apply Returns.bind (P := fun s => Blank name n s.1)
  · apply Returns.foldlM (P := fun s : Histogram × Int => Blank name n s.1) hfirst
    intro s i hi hs
    have hin : i ≤ n := by
      have := hh.bucketCount
      rw [mem_range'_1] at hi
      omega
    exact (setBucketRange_returns hs hin _).map fun _ h => h
  · intro s hs
    exact .ok hs

end Histogram

namespace LinearHistogram

theorem initializeBucketRange_returns (b : Boundaries) (hh : Blank name n h) (hn : 2 < n) :
    Returns (initializeBucketRange b h) (Blank name n) := by
  apply Returns.foldlM hh
  intro s i hi hs
  have hs₁ := hs.bucketCount
  have hh₁ := hh.bucketCount
  rw [mem_range'_1] at hi
  rw [if_neg (by omega)]
  exact Histogram.setBucketRange_returns hs (by omega) _

theorem initializeBucketRange_two (b : Boundaries) (hh : h.bucketCount = 2) :
    initializeBucketRange b h = .error .divideByZero := by
  simp [initializeBucketRange, hh, List.range'_succ]

theorem new_returns (b : Boundaries) (hn : n < kBucketCountMax) (hn₂ : 2 < n) (name : List UInt8)
    (minimum maximum : Int) : Returns (new b name minimum maximum n) (Blank name n) :=
  (Histogram.new_returns hn name _ maximum).bind fun _ hh => initializeBucketRange_returns b hh hn₂

end LinearHistogram

namespace CustomHistogram

theorem new_returns {ranges : List Int} (hn : ranges.length < kBucketCountMax)
    (name : List UInt8) : Returns (new name ranges) (Blank name ranges.length) := by
  apply Returns.bind (Histogram.new_returns hn name _ _)
  intro h hh
  apply Returns.foldlM hh
  intro s range hrange hs
  obtain ⟨-, hi, -⟩ := mem_zipIdx hrange
  exact Histogram.setBucketRange_returns hs (by omega) _

theorem mem_unique {x : Int} (l : List Int) : x ∈ unique l ↔ x ∈ l := by
  induction l using unique.induct with
  | case1 a values ih => simp [unique, ih]
  | case2 a b values hab ih => simp [unique, hab, ih]
  | case3 l hl => rw [unique]; exact hl

theorem unique_sorted (l : List Int) (hl : l.Pairwise (· ≤ ·)) : (unique l).Pairwise (· < ·) := by
  induction l using unique.induct with
  | case1 a values ih => simpa [unique] using ih hl.of_cons
  | case2 a b values hab ih =>
    rw [unique, if_neg hab, pairwise_cons]
    refine ⟨fun x hx => ?_, ih hl.of_cons⟩
    rw [pairwise_cons] at hl
    obtain ⟨ha, hl⟩ := hl
    rw [pairwise_cons] at hl
    have hax := ha b (mem_cons_self ..)
    rcases mem_cons.mp ((mem_unique _).mp hx) with rfl | hx
    · omega
    · have := hl.1 x hx
      omega
  | case3 l hl' =>
    match l with
    | [] => simp [unique]
    | [a] => simp [unique]
    | a :: b :: l => exact absurd rfl (hl' a b l)

/-- As many ranges as there are values among the custom ones and 0, but two at least. -/
theorem sortedRanges_length (customRanges : List Int) :
    (sortedRanges customRanges).length = max 2 (insert 0 customRanges.toFinset).card := by
  let sorted := (customRanges ++ [0]).insertionSort (· ≤ ·)
  have hsort : (unique sorted).Pairwise (· < ·) :=
    unique_sorted _ (pairwise_insertionSort _ _)
  have hmem : (unique sorted).toFinset = insert 0 customRanges.toFinset := by
    ext x
    simp [mem_unique, sorted, or_comm]
  have hlen : (unique sorted).length = (insert 0 customRanges.toFinset).card := by
    rw [← hmem, toFinset_card_of_nodup (hsort.imp fun h => h.ne)]
  have hpos : 0 < (insert 0 customRanges.toFinset).card :=
    Finset.card_pos.mpr ⟨0, Finset.mem_insert_self ..⟩
  unfold sortedRanges
  change (if (unique sorted).length ≤ 1 then unique sorted ++ [1] else unique sorted).length = _
  split
  · rw [length_append, length_singleton]
    omega
  · omega

end CustomHistogram

/-- A message that decodes: every field can be read, the values are in order, and so
are the ranges where the class has its own. -/
def Decodes (info : List UInt8) (fields : HistogramFields) (kind : ClassType)
    (ranges : List Int) : Prop :=
  info ≠ [] ∧ ∃ it, HistogramFields.read (pickleOf info).iterator = some (fields, it) ∧
    ¬fields.ValuesError ∧ ClassType.ofInt fields.histogramType = some kind ∧
    if kind = .customHistogram then
      (readInts fields.bucketCount it).map (fun words => words.1.map BitVec.toInt) = some ranges
    else ranges = []

def Malformed (info : List UInt8) : Prop :=
  ¬∃ fields kind ranges, Decodes info fields kind ranges

/-- The samples of every AddSampleSet are as many as the receiver's buckets. -/
def InStep (report : Report) : Prop :=
  ∀ call, report.added = some call → call.sample.counts.length = call.receiver.bucketCount

/-- The call is safe and, for malformed input, without effect. -/
def Safe (b : Boundaries) (recorder : StatisticsRecorder) (info : List UInt8) : Prop :=
  Returns (deserializeHistogramInfo b recorder info) fun report =>
    InStep report ∧ (Malformed info → report.returned = false) ∧
    (report.returned = false → report.recorder = recorder)

/-- The buckets of a histogram made for the message. -/
def bucketsOf (fields : HistogramFields) (ranges : List Int) : ClassType → Nat
  | .histogram | .linearHistogram => fields.bucketCount
  | .booleanHistogram => 3
  | .customHistogram => max 2 (insert 0 ranges.toFinset).card

/-- The samples fit the histogram registered under the name, or else the one that can be
made for them. -/
def Fits (recorder : StatisticsRecorder) (fields : HistogramFields) (kind : ClassType)
    (ranges : List Int) : Prop :=
  match recorder.findHistogram fields.histogramName with
  | some h => h.flags &&& kIPCSerializationSourceFlag ≠ 0 ∨
      fields.sample.counts.length = h.bucketCount
  | none => bucketsOf fields ranges kind < kBucketCountMax ∧
      (kind = .linearHistogram → fields.bucketCount ≠ 2) ∧
      fields.sample.counts.length = bucketsOf fields ranges kind

/-- The histogram made when none of the name is registered. -/
def tentative (b : Boundaries) (fields : HistogramFields) (ranges : List Int) :
    ClassType → Except Fault Histogram
  | .histogram => do
    let h ← Histogram.new fields.histogramName (max fields.declaredMin 1)
      (min fields.declaredMax (kSampleTypeMax - 1)) fields.bucketCount
    h.initializeBucketRange b
  | .linearHistogram => LinearHistogram.new b fields.histogramName (max fields.declaredMin 1)
      (min fields.declaredMax (kSampleTypeMax - 1)) fields.bucketCount
  | .booleanHistogram => LinearHistogram.new b fields.histogramName 1 2 3
  | .customHistogram =>
    CustomHistogram.new fields.histogramName (CustomHistogram.sortedRanges ranges)

section

variable {b : Boundaries} {recorder : StatisticsRecorder} {info : List UInt8}
variable {fields : HistogramFields} {kind : ClassType} {ranges : List Int}

theorem tentative_returns (hbuckets : 2 ≤ fields.bucketCount)
    (hmax : bucketsOf fields ranges kind < kBucketCountMax)
    (htwo : kind = .linearHistogram → fields.bucketCount ≠ 2) :
    Returns (tentative b fields ranges kind) (Blank fields.histogramName (bucketsOf fields ranges kind)) := by
  cases kind with
  | histogram =>
    apply Returns.bind (Histogram.new_returns hmax _ _ _)
    intro h hh
    exact Histogram.initializeBucketRange_returns b hh hbuckets
  | linearHistogram =>
    have hthree : 2 < fields.bucketCount := by
      have := htwo rfl
      omega
    exact LinearHistogram.new_returns b hmax hthree _ _ _
  | booleanHistogram => exact LinearHistogram.new_returns b hmax (Nat.lt_succ_self 2) _ _ _
  | customHistogram =>
    have hlen := CustomHistogram.sortedRanges_length ranges
    rw [bucketsOf, ← hlen] at hmax ⊢
    exact CustomHistogram.new_returns hmax _

theorem tentative_check (hmax : ¬bucketsOf fields ranges kind < kBucketCountMax) :
    tentative b fields ranges kind = .error .check := by
  cases kind with
  | histogram =>
    rw [bucketsOf] at hmax
    rw [tentative, Histogram.new_check hmax]
    rfl
  | linearHistogram =>
    rw [bucketsOf] at hmax
    rw [tentative, LinearHistogram.new, Histogram.new_check hmax]
    rfl
  | booleanHistogram => exact absurd (by decide : 3 < kBucketCountMax) hmax
  | customHistogram =>
    rw [bucketsOf, ← CustomHistogram.sortedRanges_length] at hmax
    rw [tentative, CustomHistogram.new, Histogram.new_check hmax]
    rfl

theorem tentative_divides (htwo : fields.bucketCount = 2) :
    tentative b fields ranges .linearHistogram = .error .divideByZero := by
  have hnew : fields.bucketCount < kBucketCountMax := by
    rw [htwo]
    decide
  obtain ⟨h, hh, hblank⟩ := Histogram.new_returns hnew fields.histogramName
    (max (max fields.declaredMin 1) 1) (min fields.declaredMax (kSampleTypeMax - 1))
  rw [tentative, LinearHistogram.new, hh]
  exact LinearHistogram.initializeBucketRange_two b (hblank.bucketCount.trans htwo)

theorem Decodes.buckets (h : Decodes info fields kind ranges) : 2 ≤ fields.bucketCount := by
  obtain ⟨-, it, -, hvalues, -⟩ := h
  simp only [HistogramFields.ValuesError, not_or] at hvalues
  omega

/-- What the call comes down to once the message has been decoded. -/
theorem Decodes.deserialize (h : Decodes info fields kind ranges) (b : Boundaries)
    (recorder : StatisticsRecorder) :
    deserializeHistogramInfo b recorder info =
      (recorder.factoryGet fields.histogramName fields.flags
        (tentative b fields ranges kind)).bind (aggregate fields.sample) := by
  obtain ⟨hinfo, it, hread, hvalues, hkind, hranges⟩ := h
  have hrender : renderHistogram b recorder fields it =
      some (recorder.factoryGet fields.histogramName fields.flags
        (tentative b fields ranges kind)) := by
    rw [renderHistogram, hkind]
    cases kind with
    | histogram => rfl
    | linearHistogram => rfl
    | booleanHistogram => rfl
    | customHistogram =>
      rw [if_pos rfl, map_eq_some_iff] at hranges
      obtain ⟨words, hwords, rfl⟩ := hranges
      simp only [hwords, map_some]
      rfl
  simp [deserializeHistogramInfo, hinfo, hread, hvalues, hrender]

theorem decodes_of_render {it : PickleIterator}
    {rendered : Except Fault (Histogram × StatisticsRecorder)} (hinfo : info ≠ [])
    (hread : HistogramFields.read (pickleOf info).iterator = some (fields, it))
    (hvalues : ¬fields.ValuesError) (hrender : renderHistogram b recorder fields it = some rendered) :
    ∃ kind ranges, Decodes info fields kind ranges := by
  unfold renderHistogram at hrender
  cases hkind : ClassType.ofInt fields.histogramType with
  | none => simp [hkind] at hrender
  | some kind =>
    by_cases hcustom : kind = .customHistogram
    · subst hcustom
      simp only [hkind, map_eq_some_iff] at hrender
      obtain ⟨words, hwords, -⟩ := hrender
      exact ⟨_, words.1.map BitVec.toInt, hinfo, it, hread, hvalues, hkind, by simp [hwords]⟩
    · exact ⟨kind, [], hinfo, it, hread, hvalues, hkind, by simp [hcustom]⟩

theorem Malformed.deserialize (h : Malformed info) (b : Boundaries)
    (recorder : StatisticsRecorder) :
    deserializeHistogramInfo b recorder info = .ok ⟨false, recorder, none⟩ := by
  by_cases hinfo : info = []
  · simp [deserializeHistogramInfo, hinfo]
  · cases hread : HistogramFields.read (pickleOf info).iterator with
    | none => simp [deserializeHistogramInfo, hinfo, hread]
    | some found =>
      by_cases hvalues : found.1.ValuesError
      · simp [deserializeHistogramInfo, hinfo, hread, hvalues]
      · cases hrender : renderHistogram b recorder found.1 found.2 with
        | none => simp [deserializeHistogramInfo, hinfo, hread, hvalues, hrender]
        | some rendered =>
          obtain ⟨kind, ranges, hdecodes⟩ := decodes_of_render hinfo hread hvalues hrender
          exact absurd ⟨_, kind, ranges, hdecodes⟩ h

theorem aggregate_returned {sample : SampleSet} {rendered : Histogram × StatisticsRecorder}
    {report : Report} (h : aggregate sample rendered = .ok report) : report.returned = true := by
  unfold aggregate at h
  split at h
  · cases h
    rfl
  · unfold Histogram.addSampleSet at h
    split at h
    · cases h
      rfl
    · cases h

theorem aggregate_inStep_iff (sample : SampleSet) (rendered : Histogram × StatisticsRecorder) :
    Returns (aggregate sample rendered) InStep ↔
      rendered.1.flags &&& kIPCSerializationSourceFlag ≠ 0 ∨
        sample.counts.length = rendered.1.bucketCount := by
  unfold aggregate
  by_cases hflag : rendered.1.flags &&& kIPCSerializationSourceFlag ≠ 0
  · rw [if_pos hflag]
    constructor
    · intro _
      exact .inl hflag
    · intro _
      exact .ok fun call hcall => nomatch hcall
  · rw [if_neg hflag]
    constructor
    · rintro ⟨report, hreport, hstep⟩
      unfold Histogram.addSampleSet at hreport
      split at hreport
      · cases hreport
        exact .inr (hstep _ rfl)
      · cases hreport
    · intro h
      have hlen := h.resolve_left hflag
      rw [Histogram.addSampleSet, dif_pos (rendered.1.counts_size.trans hlen.symm).le]
      refine .ok fun call hcall => ?_
      cases hcall
      exact hlen

theorem factoryGet_found (flags : BitVec 32) (hfind : recorder.findHistogram name = some h)
    (made : Except Fault Histogram) : recorder.factoryGet name flags made = .ok (h, recorder) := by
  rw [StatisticsRecorder.factoryGet, hfind]

theorem factoryGet_missing (flags : BitVec 32) (hfind : recorder.findHistogram name = none)
    (made : Except Fault Histogram) :
    recorder.factoryGet name flags made =
      made.map fun h => recorder.registerOrDeleteDuplicate (h.setFlags flags) := by
  rw [StatisticsRecorder.factoryGet, hfind]

/-- The flag that says "do not aggregate" is never one a new histogram gets. -/
theorem setFlags_source (hh : Blank name n h) :
    (h.setFlags fields.flags).flags &&& kIPCSerializationSourceFlag = 0 := by
  have hflags : (h.setFlags fields.flags).flags =
      0#32 ||| fields.pickleFlags &&& ~~~kIPCSerializationSourceFlag := by
    rw [← HistogramFields.flags, ← BitVec.ofNat_eq_ofNat, ← hh.flags]
    rfl
  rw [hflags, BitVec.zero_or, BitVec.and_assoc, BitVec.not_and_self]
  exact BitVec.and_zero

theorem registerOrDeleteDuplicate_missing (hfind : recorder.findHistogram h.histogramName = none) :
    recorder.registerOrDeleteDuplicate h = (h, recorder.store h) := by
  rw [StatisticsRecorder.registerOrDeleteDuplicate, hfind]

/-- A decoded message is dealt with in step exactly when its samples fit. -/
theorem Decodes.inStep_iff (h : Decodes info fields kind ranges) :
    Returns (deserializeHistogramInfo b recorder info) InStep ↔
      Fits recorder fields kind ranges := by
  rw [h.deserialize, Fits]
  cases hfind : recorder.findHistogram fields.histogramName with
  | some found =>
    rw [factoryGet_found _ hfind]
    exact aggregate_inStep_iff _ _
  | none =>
    rw [factoryGet_missing _ hfind]
    by_cases hmax : bucketsOf fields ranges kind < kBucketCountMax
    · by_cases htwo : kind = .linearHistogram → fields.bucketCount ≠ 2
      · obtain ⟨made, hmade, hblank⟩ := tentative_returns (b := b) h.buckets hmax htwo
        have hname : recorder.findHistogram (made.setFlags fields.flags).histogramName = none := by
          rw [← hfind, ← hblank.histogramName]
          rfl
        have hcount : (made.setFlags fields.flags).bucketCount = bucketsOf fields ranges kind :=
          hblank.bucketCount
        rw [hmade]
        change Returns (aggregate _ (recorder.registerOrDeleteDuplicate _)) _ ↔ _
        rw [registerOrDeleteDuplicate_missing hname, aggregate_inStep_iff]
        rw [hcount]
        simp only [setFlags_source hblank, ne_eq, not_true_eq_false, false_or, hmax, true_and]
        exact ⟨fun hlen => ⟨htwo, hlen⟩, fun h => h.2⟩
      · obtain ⟨rfl, hbuckets⟩ : kind = .linearHistogram ∧ fields.bucketCount = 2 := by
          simpa using htwo
        rw [tentative_divides hbuckets]
        constructor
        · rintro ⟨report, hreport, -⟩
          cases hreport
        · rintro ⟨-, hne, -⟩
          exact absurd hbuckets (hne rfl)
    · rw [tentative_check hmax]
      constructor
      · rintro ⟨report, hreport, -⟩
        cases hreport
      · rintro ⟨hlt, -⟩
        exact absurd hlt hmax

theorem Decodes.returned (h : Decodes info fields kind ranges) {report : Report}
    (hreport : deserializeHistogramInfo b recorder info = .ok report) : report.returned = true := by
  rw [h.deserialize] at hreport
  cases hget : recorder.factoryGet fields.histogramName fields.flags
      (tentative b fields ranges kind) with
  | error fault =>
    rw [hget] at hreport
    cases hreport
  | ok rendered =>
    rw [hget] at hreport
    exact aggregate_returned hreport

end

/-- Deserialization is safe exactly when every message that decodes brings samples that
fit the histogram of its name. -/
theorem deserializeHistogramInfo_safe_iff (b : Boundaries) (recorder : StatisticsRecorder)
    (info : List UInt8) :
    Safe b recorder info ↔
      ∀ fields kind ranges, Decodes info fields kind ranges →
        Fits recorder fields kind ranges := by
  constructor
  · intro hsafe fields kind ranges hdecodes
    apply hdecodes.inStep_iff.mp
    exact hsafe.mono fun report h => h.1
  · intro hfits
    by_cases hmalformed : Malformed info
    · rw [Safe, hmalformed.deserialize]
      exact .ok ⟨fun call hcall => (nomatch hcall), fun _ => rfl, fun _ => rfl⟩
    · obtain ⟨fields, kind, ranges, hdecodes⟩ := not_not.mp hmalformed
      obtain ⟨report, hreport, hstep⟩ :=
        (hdecodes.inStep_iff (b := b)).mpr (hfits fields kind ranges hdecodes)
      have htrue : report.returned = true := hdecodes.returned hreport
      refine ⟨report, hreport, hstep, fun h => absurd h hmalformed, fun h => ?_⟩
      cases htrue.symm.trans h

/-- A message for a histogram named "a" of a type, with buckets and one count of 0. -/
def oneCount (bucketCount : BitVec 16) (histogramType : UInt8) : List UInt8 :=
  [64, 0, 0, 0, 1, 0, 0, 0, 97, 0, 0, 0, 1, 0, 0, 0, 1, 0, 0, 0] ++
    [bucketCount.toNat.toUInt8, (bucketCount.toNat / 256).toUInt8, 0, 0, 0, 0, 0, 0] ++
    [0, 0, 0, 0, histogramType, 0, 0, 0, 16, 0, 0, 0] ++
    List.replicate 16 0 ++ [1, 0, 0, 0, 0, 0, 0, 0, 0, 0, 0, 0]

def faultOf : Except Fault Report → Option Fault
  | .error fault => some fault
  | .ok _ => none

theorem Safe.faultOf {b : Boundaries} {recorder : StatisticsRecorder} {info : List UInt8}
    (h : Safe b recorder info) : faultOf (deserializeHistogramInfo b recorder info) = none := by
  obtain ⟨report, hreport, -⟩ := h
  rw [hreport]
  rfl

/-- No histogram is registered yet. -/
def emptyRecorder : StatisticsRecorder := ⟨some fun _ => none⟩

/-- Boundaries that are all 1, for runs that end before a boundary matters. -/
def unitBoundaries : Boundaries := ⟨fun _ _ _ => 1, fun _ _ _ _ => 1⟩

/-- Too few samples for a boolean histogram, too many buckets, and a linear histogram of
two buckets. -/
theorem deserializeHistogramInfo_unsafe :
    ¬Safe unitBoundaries emptyRecorder (oneCount 2 2) ∧
      ¬Safe unitBoundaries emptyRecorder (oneCount 16384 0) ∧
      ¬Safe unitBoundaries emptyRecorder (oneCount 2 1) := by
  refine ⟨fun h => ?_, fun h => ?_, fun h => ?_⟩
  · have hfault : faultOf (deserializeHistogramInfo unitBoundaries emptyRecorder (oneCount 2 2)) =
        some .sampleIndex := by decide
    cases hfault.symm.trans h.faultOf
  · have hfault : faultOf (deserializeHistogramInfo unitBoundaries emptyRecorder
        (oneCount 16384 0)) = some .check := by decide
    cases hfault.symm.trans h.faultOf
  · have hfault : faultOf (deserializeHistogramInfo unitBoundaries emptyRecorder (oneCount 2 1)) =
        some .divideByZero := by decide
    cases hfault.symm.trans h.faultOf

end ChromiumUI.Base.Metrics
