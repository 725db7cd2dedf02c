import ChromiumUI.Histogram
import ChromiumUI.PickleRoundTrip
import ChromiumUI.Fuel

/-!
# Sample sets in a pickle

SampleSet::Serialize behind whatever else was written, and Deserialize where what was in front of
it has been read.
-/
namespace ChromiumUI.Base.Metrics

open ByteMemory List Option
open ChromiumUI.Base (Pickle PickleIterator Value Target Heap chunks)

variable {s : SampleSet} {counts : List (BitVec 32)}

namespace SampleSet

variable {t : Target}

/-- What Serialize writes, one after the other. -/
def values (s : SampleSet) : List (Value t) :=
  .int64 s.sum :: .int64 s.redundantCount :: .uint64 (BitVec.ofNat 64 s.counts.length) ::
    s.counts.map .int

/-- A write that fails leaves the pickle as it is, and its result is not looked at. -/
def serialize (t : Target) (heap : Heap) (s : SampleSet) (p : Pickle) : Bool × Pickle :=
  (true, (@values t s).foldl (fun p value => (p.write t heap value).getD p) p)

/-- The exact number of samples in the buckets. -/
def total (s : SampleSet) : Int := (s.counts.map BitVec.toInt).sum

structure Consistent (s : SampleSet) : Prop where
  counts : s.counts ≠ []
  nonneg : ∀ count ∈ s.counts, 0 ≤ count.toInt
  redundant : s.redundantCount.toInt = s.total

/-- With no write failing, everything is there. -/
theorem serialize_eq {heap : Heap} {p p' : Pickle} (h : p.writeAll t heap s.values = some p') :
    s.serialize t heap p = (true, p') := by
  have hfold : ∀ (vs : List (Value t)) (p : Pickle), p.writeAll t heap vs = some p' →
      vs.foldl (fun p value => (p.write t heap value).getD p) p = p' := by
    intro vs
    induction vs with
    | nil => exact fun p h => Option.some.inj h
    | cons v vs ih =>
      intro p h
      obtain ⟨q, hq, hrest⟩ := bind_eq_some_iff.mp h
      rw [foldl_cons, hq]
      exact ih q hrest
  rw [serialize, hfold _ p h]

/-! ## The sum of the counts -/

theorem total_eq (h : ∀ count ∈ counts, 0 ≤ count.toInt) :
    (counts.map BitVec.toInt).sum = ((counts.map BitVec.toNat).sum : Nat) := by
  induction counts with
  | nil => rfl
  | cons count counts ih =>
    have hcount := h count mem_cons_self
    have hrest := ih fun c hc => h c (mem_cons_of_mem _ hc)
    have hnat : count.toInt = count.toNat := by
      rw [BitVec.toInt_eq_toNat_cond] at hcount ⊢
      split at hcount <;> simp_all
      omega
    rw [map_cons, sum_cons, map_cons, sum_cons, hrest, hnat]
    push_cast
    rfl

theorem toNat_sum (counts : List (BitVec 32)) :
    counts.sum.toNat = (counts.map BitVec.toNat).sum % 2 ^ 32 := by
  induction counts with
  | nil => rfl
  | cons count counts ih => rw [sum_cons, BitVec.toNat_add, ih, map_cons, sum_cons, Nat.add_mod_mod]

/-- The sum in 32 bits is the stored one as long as it has not wrapped. -/
theorem Consistent.sum_iff (h : s.Consistent) :
    s.counts.sum.signExtend 64 = s.redundantCount ↔ s.total < 2 ^ 31 := by
  have hredundant := h.redundant
  rw [total, total_eq h.nonneg] at hredundant
  rw [← BitVec.toInt_inj, BitVec.toInt_signExtend_of_le (by decide), hredundant, total,
    total_eq h.nonneg, BitVec.toInt_eq_toNat_cond, toNat_sum]
  generalize (s.counts.map BitVec.toNat).sum = sum
  split <;> omega

/-! ## Reading it again -/

variable {mem : Memory} {ptr stop : Nat} {cs : List (List UInt8)}

theorem taken_builtin {n : Nat} (h : Holds mem stop ptr (leBytes 8 n :: cs)) (hptr : 0 < ptr)
    (hn : n < 2 ^ 64) :
    taken (PickleIterator.readBuiltinType 8 ⟨mem, ptr, stop⟩) = some (n, ⟨mem, ptr + 8, stop⟩) ∧
      Holds mem stop (ptr + 8) cs := by
  have hread := PickleIterator.readBuiltinType_holds 8 h hptr (by simp) (by simp [alignInt])
  have htake : (leBytes 8 n).take 8 = leBytes 8 n := take_of_length_le (by simp)
  have halign : alignInt (leBytes 8 n).length 4 = 8 := by
    rw [length_leBytes]
    rfl
  rw [taken, hread, htake, leValue_leBytes, halign, Nat.mod_eq_of_lt (show n < 256 ^ 8 by omega)]
  refine ⟨rfl, ?_⟩
  have hrest := h.2.2
  rwa [halign] at hrest

theorem readInts_holds (h : Holds mem stop ptr ((counts.map (@Value.int t)).flatMap chunks))
    (hptr : 0 < ptr) : ∃ it, readInts counts.length ⟨mem, ptr, stop⟩ = some (counts, it) := by
  induction counts generalizing ptr with
  | nil => exact ⟨_, rfl⟩
  | cons count counts ih =>
    have hread := PickleIterator.readInt_holds h hptr
    have hrest := h.2.2
    have halign : alignInt (leBytes 4 count.toNat).length 4 = 4 := by
      rw [length_leBytes]
      rfl
    rw [halign] at hrest
    obtain ⟨it, hit⟩ := ih hrest (by omega)
    refine ⟨it, ?_⟩
    have hint : taken (PickleIterator.readInt ⟨mem, ptr, stop⟩) =
        some (count, ⟨mem, ptr + 4, stop⟩) := by
      rw [taken, hread]
      simp
    simp [readInts, hint, hit]

/-- What Deserialize makes of the values of a set. -/
theorem deserialize_holds (hcounts : s.counts ≠ []) (hlen : s.counts.length < 2 ^ 64)
    (h : Holds mem stop ptr ((@values t s).flatMap chunks)) (hptr : 0 < ptr) :
    (deserialize ⟨mem, ptr, stop⟩).map Prod.fst =
      if s.counts.sum.signExtend 64 = s.redundantCount then some s else none := by
  obtain ⟨hsum, h⟩ := taken_builtin h hptr s.sum.isLt
  obtain ⟨hredundant, h⟩ := taken_builtin h (by omega) s.redundantCount.isLt
  obtain ⟨hsize, h⟩ := taken_builtin h (by omega) (BitVec.isLt _)
  obtain ⟨it, hread⟩ := readInts_holds h (by omega)
  have hnat : (BitVec.ofNat 64 s.counts.length).toNat = s.counts.length := by
    rw [BitVec.toNat_ofNat, Nat.mod_eq_of_lt hlen]
  have hne : s.counts.length ≠ 0 := fun h0 => hcounts (length_eq_zero_iff.mp h0)
  rw [hnat] at hsize
  rw [deserialize]
  simp only [hsum, hredundant, hsize, hread, bind_eq_bind, bind_some, if_neg hne,
    BitVec.ofNat_toNat, BitVec.setWidth_eq]
  split <;> rfl

theorem ints_le (h : Holds mem stop ptr ((counts.map (@Value.int t)).flatMap chunks)) :
    ptr + 4 * counts.length ≤ alignInt stop 4 := by
  induction counts generalizing ptr with
  | nil => exact Nat.le_of_eq h
  | cons count counts ih =>
    have hrest := ih h.2.2
    have halign : alignInt (leBytes 4 count.toNat).length 4 = 4 := by
      rw [length_leBytes]
      rfl
    rw [halign] at hrest
    rw [length_cons]
    omega

/-- What is behind other values is found when they have been read. -/
theorem readAll_front {vs : List (Value t)} (h : Holds mem stop ptr (vs.flatMap chunks ++ cs))
    (hptr : 0 < ptr) (hsmall : stop < 2 ^ 31) :
    ∃ next, (PickleIterator.readAll t (vs.map readOf) ⟨mem, ptr, stop⟩).2 = ⟨mem, next, stop⟩ ∧
      0 < next ∧ Holds mem stop next cs := by
  induction vs generalizing ptr with
  | nil => exact ⟨ptr, rfl, hptr, h⟩
  | cons v vs ih =>
    rw [flatMap_cons, append_assoc] at h
    obtain ⟨spans, next, hread, hnext, hrest⟩ := PickleIterator.read_finds h hptr hsmall
    obtain ⟨last, hall, hlast, hcs⟩ := ih hrest hnext
    refine ⟨last, ?_, hlast, hcs⟩
    rw [map_cons, PickleIterator.readAll, hread]
    exact hall

/-- What Deserialize finds in the pickle, behind these values. -/
def readBack (t : Target) (earlier : List (Value t)) (p : Pickle) : Option SampleSet :=
  (deserialize (p.iterator.readAll t (earlier.map readOf)).2).map Prod.fst

theorem readBack_eq {earlier : List (Value t)} {p : Pickle} {headerSize : Nat} (hs : s.Consistent)
    (h : Represents p headerSize ((earlier ++ s.values).flatMap chunks) mem) :
    readBack t earlier p = if s.total < 2 ^ 31 then some s else none := by
  obtain ⟨hhead, hsize, haligned, hroom, hload, hsmall, hholds⟩ := h
  generalize hstop : headerSize + sizeAfter 0 ((earlier ++ s.values).flatMap chunks) = stop
    at hsmall hholds
  have hit : p.iterator = ⟨mem, headerSize, stop⟩ := by
    rw [Pickle.iterator, hhead]
    simp only [hsize, hload, hstop]
  rw [flatMap_append] at hholds
  obtain ⟨next, hread, hnext, hvalues⟩ := readAll_front hholds (by omega) hsmall
  have hlen : s.counts.length < 2 ^ 64 := by
    have hcounts := ints_le hvalues.2.2.2.2.2.2
    have halign := (alignInt_four stop).2
    omega
  rw [readBack, hit, hread, deserialize_holds hs.counts hlen hvalues hnext]
  exact if_congr hs.sum_iff rfl rfl

end SampleSet

variable {t : Target} {heap : Heap} {headerSize : Nat} {earlier : List (Value t)}
  {p₀ p₁ p : Pickle} {s : SampleSet}

theorem readBack_serialize (hs : s.Consistent) (hmin : 4 ≤ headerSize)
    (hmax : headerSize ≤ Pickle.kPayloadUnit) (hnew : Pickle.new t heap headerSize = some p₀)
    (hwrite : p₀.writeAll t heap (earlier ++ s.values) = some p)
    (hsmall : alignInt headerSize 4 + sizeAfter 0 ((earlier ++ s.values).flatMap chunks) < 2 ^ 31) :
    SampleSet.readBack t earlier p = (if s.total < 2 ^ 31 then some s else none) ∧
      SampleSet.readBack t earlier (Pickle.ofData p.toData) =
        if s.total < 2 ^ 31 then some s else none := by
  have hlengths : ∀ c ∈ (earlier ++ s.values).flatMap chunks, c.length < 2 ^ 31 := by
    intro c hc
    have hle := length_le_sizeAfter 0 hc
    omega
  rw [writeAll_eq hlengths] at hwrite
  obtain ⟨mem₀, hrep₀⟩ := new_represents hmin hmax hnew
  obtain ⟨mem, hrep⟩ := writeChunks_represents hrep₀ hwrite hsmall
  rw [nil_append] at hrep
  obtain ⟨viewMem, hview⟩ := ofData_represents hrep
  exact ⟨SampleSet.readBack_eq hs hrep, SampleSet.readBack_eq hs hview⟩

theorem writeAll_append {vs ws : List (Value t)} (h : p₀.writeAll t heap vs = some p₁)
    (h' : p₁.writeAll t heap ws = some p) : p₀.writeAll t heap (vs ++ ws) = some p := by
  induction vs generalizing p₀ with
  | nil =>
    cases h
    exact h'
  | cons v vs ih =>
    obtain ⟨q, hq, hrest⟩ := bind_eq_some_iff.mp h
    rw [cons_append, Pickle.writeAll, hq]
    exact ih hrest

/-! ## A heap that always has room -/

/-- There is a header to write to. -/
def Writable (p : Pickle) : Prop := p.header.isSome ∧ p.capacity.isSome

theorem writeBytes_roomy {heap : Heap} (hheap : ∀ n, heap.canAllocate n = true) {p : Pickle}
    (h : Writable p) (data : List UInt8) (dataLen : Int) :
    ∃ q, p.writeBytes t heap data dataLen = some q ∧ Writable q := by
  obtain ⟨header, hhead⟩ := isSome_iff_exists.mp h.1
  obtain ⟨capacity, hcap⟩ := isSome_iff_exists.mp h.2
  simp only [Pickle.writeBytes, Pickle.beginWrite, Pickle.endWrite, Pickle.resize, hhead,
    hcap, hheap, if_true]
  split_ifs <;> simp [Writable, hhead, hcap]

theorem writeAll_roomy {heap : Heap} (hheap : ∀ n, heap.canAllocate n = true) (vs : List (Value t))
    (hsmall : ∀ c ∈ vs.flatMap chunks, c.length < 2 ^ 31) {p : Pickle} (h : Writable p) :
    ∃ q, p.writeAll t heap vs = some q ∧ Writable q := by
  rw [writeAll_eq hsmall]
  induction vs.flatMap chunks generalizing p with
  | nil => exact ⟨p, rfl, h⟩
  | cons c cs ih =>
    obtain ⟨q, hq, hwritable⟩ := @writeBytes_roomy t heap hheap p h c c.length
    obtain ⟨q', hq', hwritable'⟩ := ih hwritable
    exact ⟨q', by rw [writeChunks, hq, bind_some, hq'], hwritable'⟩

theorem new_roomy {heap : Heap} (hheap : ∀ n, heap.canAllocate n = true) (headerSize : Nat) :
    ∃ p, Pickle.new t heap headerSize = some p ∧ Writable p := by
  simp [Pickle.new, Pickle.resize, hheap, Writable]

/-- Everything goes through exactly when the samples can be counted in an int. -/
theorem sampleSet_round_trip_iff (hs : s.Consistent) (hmin : 4 ≤ headerSize)
    (hmax : headerSize ≤ Pickle.kPayloadUnit) (hnew : Pickle.new t heap headerSize = some p₀)
    (hearlier : p₀.writeAll t heap earlier = some p₁)
    (hwrite : p₁.writeAll t heap s.values = some p)
    (hsmall : alignInt headerSize 4 + sizeAfter 0 ((earlier ++ s.values).flatMap chunks) < 2 ^ 31) :
    (s.serialize t heap p₁).1 = true ∧
      (SampleSet.readBack t earlier (s.serialize t heap p₁).2 = some s ↔
        s.redundantCount.toInt < 2 ^ 31) ∧
      (SampleSet.readBack t earlier (Pickle.ofData (s.serialize t heap p₁).2.toData) = some s ↔
        s.redundantCount.toInt < 2 ^ 31) := by
  have hback := readBack_serialize hs hmin hmax hnew (writeAll_append hearlier hwrite) hsmall
  have hiff : (if s.total < 2 ^ 31 then some s else none) = some s ↔
      s.redundantCount.toInt < 2 ^ 31 := by
    rw [hs.redundant]
    by_cases hsmall : s.total < 2 ^ 31
    · rw [if_pos hsmall]
      exact iff_of_true rfl hsmall
    · rw [if_neg hsmall]
      exact iff_of_false (by simp) hsmall
  rw [SampleSet.serialize_eq hwrite]
  rw [hback.1, hback.2]
  exact ⟨rfl, hiff, hiff⟩

/-- Three samples in two buckets, behind a name. -/
def threeSamples : SampleSet := ⟨[1, 2], 7, 3⟩

theorem sampleSet_round_trip_three :
    ∃ p₁ : Pickle, SampleSet.readBack .lp64 [.string [65]]
      (threeSamples.serialize .lp64 usedHeap p₁).2 = some threeSamples := by
  have hheap : ∀ n, usedHeap.canAllocate n = true := fun _ => rfl
  obtain ⟨p₀, hnew, hwritable₀⟩ := @new_roomy .lp64 _ hheap 8
  obtain ⟨p₁, hearlier, hwritable₁⟩ := @writeAll_roomy .lp64 _ hheap [.string [65]]
    (by decide) _ hwritable₀
  obtain ⟨p, hwrite, -⟩ := @writeAll_roomy .lp64 _ hheap threeSamples.values
    (by decide) _ hwritable₁
  have hconsistent : threeSamples.Consistent :=
    ⟨by decide, by simp [threeSamples], by decide⟩
  have h := sampleSet_round_trip_iff hconsistent (by decide) (by decide) hnew hearlier hwrite
    (by decide)
  exact ⟨p₁, h.2.1.mpr (by decide)⟩

/-- As many samples as an int has no number for. -/
def manySamples : SampleSet := ⟨[0x7fffffff, 1], 0, 0x80000000⟩

theorem sampleSet_many_samples :
    manySamples.Consistent ∧ ∃ p₀ p, Pickle.new .lp64 usedHeap 8 = some p₀ ∧
      p₀.writeAll .lp64 usedHeap manySamples.values = some p ∧
        manySamples.serialize .lp64 usedHeap p₀ = (true, p) ∧
          (SampleSet.deserialize p.iterator).map Prod.fst = none := by
  have hconsistent : manySamples.Consistent :=
    ⟨by decide, by simp [manySamples], by decide⟩
  have hheap : ∀ n, usedHeap.canAllocate n = true := fun _ => rfl
  obtain ⟨p₀, hnew, hwritable⟩ := @new_roomy .lp64 _ hheap 8
  obtain ⟨p, hwrite, -⟩ := @writeAll_roomy .lp64 _ hheap manySamples.values
    (by decide) _ hwritable
  have h := @readBack_serialize .lp64 usedHeap 8 [] _ _ _ hconsistent (by decide) (by decide) hnew
    hwrite (by decide)
  exact ⟨hconsistent, p₀, p, hnew, hwrite, SampleSet.serialize_eq hwrite, h.1⟩

/-! ## The samples of a histogram

The ranges of the buckets, the search for the bucket of a value, and what a run of Add() calls
leaves in the sample set. -/

open Fuel

namespace Histogram

/-- ranges(i) -/
def rangeAt (h : Histogram) (i : Nat) : Except Fault Int :=
  match h.ranges[i]? with
  | some range => .ok range
  | none => .error .rangeIndex

/-- The loop of BucketIndex: it ends where `mid` is `under`. -/
def searchBucket (h : Histogram) (value : Int) : Nat → Nat → Nat → Option (Except Fault Nat)
  | 0, _, _ => none
  | fuel + 1, under, beyond =>
    let mid := under + (beyond - under) / 2
    if mid = under then some (.ok mid)
    else match h.rangeAt mid with
      | .error fault => some (.error fault)
      | .ok range =>
        if range ≤ value then searchBucket h value fuel mid beyond
        else searchBucket h value fuel under mid

/-- CHECK_GT(ranges(mid+1), value) -/
def checkAbove (h : Histogram) (value : Int) (mid : Nat) : Except Fault Nat := do
  let range ← h.rangeAt (mid + 1)
  if range > value then return mid else throw .check

def bucketIndex (h : Histogram) (value : Int) (fuel : Nat) : Option (Except Fault Nat) :=
  (h.searchBucket value fuel 0 h.bucketCount).map fun found => found.bind (h.checkAbove value)

/-- SampleSet::Accumulate with a count of 1. -/
def accumulate (value : Int) (index : Nat) (h : Histogram) : Except Fault Histogram :=
  if hindex : index < h.sample.counts.length then
    .ok { h with
      sample := ⟨h.sample.counts.set index (h.sample.counts[index] + 1),
        h.sample.sum + BitVec.ofInt 64 value, h.sample.redundantCount + 1⟩
      counts_size := by rw [length_set, h.counts_size] }
  else .error .sampleIndex

/-- What Add() counts for a value. -/
def clamp (value : Int) : Int :=
  let value := if value > kSampleTypeMax - 1 then kSampleTypeMax - 1 else value
  if value < 0 then 0 else value

/-- Add(); `none` where the search has not ended. -/
def add (fuel : Nat) (value : Int) (h : Histogram) : Option (Except Fault Histogram) :=
  (h.bucketIndex (clamp value) fuel).map fun index =>
    index.bind fun index => h.accumulate (clamp value) index

/-- Add() calls one after the other. -/
def addAll (fuel : Nat) : List Int → Histogram → Option (Except Fault Histogram)
  | [], h => some (.ok h)
  | value :: values, h =>
    match h.add fuel value with
    | none => none
    | some (.error fault) => some (.error fault)
    | some (.ok h) => addAll fuel values h

end Histogram

/-- SampleSet::TotalCount -/
def SampleSet.totalCount (s : SampleSet) : BitVec 32 := s.counts.foldl (· + ·) 0

variable {h table : Histogram} {i : Nat} {values : List Int}

namespace Histogram

/-- The lower end of bucket `i`. -/
def range (h : Histogram) (i : Nat) : Int := h.ranges.getD i 0

/-- The value belongs to bucket `i`. -/
def InBucket (h : Histogram) (value : Int) (i : Nat) : Prop :=
  i < h.bucketCount ∧ h.range i ≤ value ∧ value < h.range (i + 1)

/-- Each bucket begins above the one before, from 0 up to the largest sample. -/
structure Ranged (h : Histogram) : Prop where
  first : h.range 0 = 0
  last : h.range h.bucketCount = kSampleTypeMax
  lt : ∀ i, i < h.bucketCount → h.range i < h.range (i + 1)

theorem rangeAt_eq (hi : i ≤ h.bucketCount) : h.rangeAt i = .ok (h.range i) := by
  have hlen : i < h.ranges.length := by
    rw [h.ranges_size]
    omega
  simp [rangeAt, range, hlen]

/-! ## InitializeBucketRange -/

theorem setBucketRange_range {h : Histogram} {i : Nat} (hi : i ≤ h.bucketCount) (value : Int) :
    ∃ h', h.setBucketRange i value = .ok h' ∧ h'.bucketCount = h.bucketCount ∧
      h'.declaredMax = h.declaredMax ∧ h'.declaredMin = h.declaredMin ∧ h'.sample = h.sample ∧
      h'.range i = value ∧ ∀ j, j ≠ i → h'.range j = h.range j := by
  have hlen : i < h.ranges.length := by
    rw [h.ranges_size]
    omega
  rw [setBucketRange, if_pos hlen]
  refine ⟨_, rfl, rfl, rfl, rfl, rfl, ?_, fun j hj => ?_⟩
  · simp [range, hlen]
  · simp [range, getElem?_set_ne (Ne.symm hj)]

/-- The rounded values leave room, up to this limit, for the buckets still to come. -/
def LeavesRoom (b : Boundaries) (minimum maximum limit : Int) : Prop :=
  ∀ (current : Int) (bucketsLeft : Nat), 0 < bucketsLeft → minimum ≤ current →
    current + bucketsLeft ≤ limit →
      b.exponential maximum current bucketsLeft + bucketsLeft ≤ limit + 1

/-- The table up to bucket `i`, which begins at `current`. -/
structure Filled (minimum maximum limit : Int) (n i : Nat) (s : Histogram × Int) : Prop where
  bucketCount : s.1.bucketCount = n
  declaredMax : s.1.declaredMax = maximum
  sample : s.1.sample = ⟨replicate n 0, 0, 0⟩
  first : s.1.range 0 = 0
  last : s.1.range n = kSampleTypeMax
  current : s.1.range i = s.2
  lt : ∀ j, j < i → s.1.range j < s.1.range (j + 1)
  minimum_le : minimum ≤ s.2
  room : s.2 + n ≤ limit + 1 + i

theorem nextBucketRange_filled {b : Boundaries} {minimum maximum limit : Int} {n : Nat}
    {s : Histogram × Int} (hlimit : limit < kSampleTypeMax) (hpos : 1 ≤ minimum)
    (hroom : LeavesRoom b minimum maximum limit) (h : Filled minimum maximum limit n i s)
    (hi : 1 ≤ i) (hin : i + 1 < n) :
    ∃ s', nextBucketRange b n s (i + 1) = .ok s' ∧ Filled minimum maximum limit n (i + 1) s' := by
  have hmin := h.minimum_le
  have hleft := h.room
  unfold kSampleTypeMax at hlimit
  have hvalue := hroom s.2 (n - (i + 1)) (by omega) hmin (by omega)
  -- either way the boundary goes up and there is room behind it
  obtain ⟨current, hcurr, hup, hbehind⟩ : ∃ current : Int,
      (if b.exponential s.1.declaredMax s.2 (n - (i + 1)) > s.2 then
        b.exponential s.1.declaredMax s.2 (n - (i + 1)) else toInt32 (s.2 + 1)) = current ∧
      s.2 < current ∧ current + n ≤ limit + 1 + (i + 1 : Nat) := by
    rw [h.declaredMax]
    split
    · rename_i hgt
      exact ⟨_, rfl, hgt, by omega⟩
    · have hwrap : toInt32 (s.2 + 1) = s.2 + 1 := by
        rw [toInt32, Int.bmod_eq_of_le] <;> omega
      exact ⟨_, hwrap, by omega, by omega⟩
  obtain ⟨h', hset, hcount, hmax, -, hsample, hat, hother⟩ :=
    @setBucketRange_range s.1 (i + 1) (by rw [h.bucketCount]; omega) current
  refine ⟨(h', current), ?_, ?_⟩
  · rw [nextBucketRange, hcurr, hset]
    rfl
  · refine ⟨hcount.trans h.bucketCount, hmax.trans h.declaredMax, hsample.trans h.sample, ?_, ?_,
      hat, fun j hj => ?_, by dsimp only; omega, by dsimp only; omega⟩
    · rw [hother 0 (by omega), h.first]
    · rw [hother n (by omega), h.last]
    · rw [hother j (by omega)]
      rcases Nat.lt_or_ge j i with hlt | hge
      · rw [hother (j + 1) (by omega)]
        exact h.lt j hlt
      · obtain rfl : j = i := by omega
        rw [hat, h.current]
        exact hup

theorem foldlM_filled {b : Boundaries} {minimum maximum limit : Int} {n i : Nat}
    {s : Histogram × Int} (hlimit : limit < kSampleTypeMax) (hpos : 1 ≤ minimum)
    (hroom : LeavesRoom b minimum maximum limit) (h : Filled minimum maximum limit n i s)
    (hi : 1 ≤ i) {k : Nat} (hk : i + k < n) :
    ∃ s', (range' (i + 1) k).foldlM (nextBucketRange b n) s = .ok s' ∧
      Filled minimum maximum limit n (i + k) s' := by
  induction k generalizing i s with
  | zero => exact ⟨s, rfl, h⟩
  | succ k ih =>
    obtain ⟨s₁, hs₁, hfilled⟩ := nextBucketRange_filled hlimit hpos hroom h hi (by omega)
    obtain ⟨s', hs', hfilled'⟩ := ih hfilled (by omega) (by omega)
    refine ⟨s', ?_, by rwa [show i + (k + 1) = i + 1 + k by omega]⟩
    rw [range'_succ, foldlM_cons, hs₁]
    exact hs'

/-- The constructor sets the end of the last bucket only. -/
theorem new_range {minimum maximum limit : Int} {n : Nat} (name : List UInt8) (hpos : 1 ≤ minimum)
    (hmax : maximum ≤ limit) (hlimit : limit < kSampleTypeMax) (hcheck : n < kBucketCountMax) :
    ∃ h, Histogram.new name minimum maximum n = .ok h ∧ h.bucketCount = n ∧
      h.declaredMin = minimum ∧ h.declaredMax = maximum ∧
      h.sample = ⟨replicate n 0, 0, 0⟩ ∧ h.range n = kSampleTypeMax ∧
      ∀ j, j ≠ n → h.range j = 0 := by
  rw [Histogram.new, if_pos hcheck]
  obtain ⟨h, hset, hcount, hdmax, hdmin, hsample, hat, hother⟩ := @setBucketRange_range
    { histogramName := name
      declaredMin := max minimum 1
      declaredMax := min maximum (kSampleTypeMax - 1)
      bucketCount := n
      flags := 0
      ranges := replicate (n + 1) 0
      sample := ⟨replicate n 0, 0, 0⟩
      ranges_size := by simp
      counts_size := by simp } n (Nat.le_refl n) kSampleTypeMax
  refine ⟨h, hset, hcount, ?_, ?_, hsample, hat, fun j hj => ?_⟩
  · rw [hdmin]
    exact max_eq_left hpos
  · rw [hdmax]
    exact min_eq_left (by omega)
  · rw [hother j hj, range]
    by_cases hj' : j < n + 1 <;> simp [hj']

/-- The table that the constructor and InitializeBucketRange make. -/
theorem initializeBucketRange_ranged {b : Boundaries} {minimum maximum limit : Int} {n : Nat}
    (name : List UInt8) (hpos : 1 ≤ minimum)
    (hmax : maximum ≤ limit) (hlimit : limit < kSampleTypeMax) (hn : 2 < n)
    (hfit : (n : Int) ≤ maximum - minimum + 2) (hcheck : n < kBucketCountMax)
    (hroom : LeavesRoom b minimum maximum limit) :
    ∃ h, (Histogram.new name minimum maximum n).bind (initializeBucketRange b) = .ok h ∧
      h.bucketCount = n ∧ h.sample = ⟨replicate n 0, 0, 0⟩ ∧ h.Ranged := by
  obtain ⟨h, hh, hcount, hdmin, hdmax, hsample, hlast, hzero⟩ :=
    new_range name hpos hmax hlimit hcheck
  obtain ⟨first, hset, hcount₁, hdmax₁, -, hsample₁, hat, hother⟩ :=
    @setBucketRange_range h 1 (by omega) h.declaredMin
  have hfilled : Filled minimum maximum limit n 1 (first, h.declaredMin) := by
    refine ⟨hcount₁.trans hcount, hdmax₁.trans hdmax, hsample₁.trans hsample, ?_, ?_, hat,
      fun j hj => ?_, by dsimp only; omega, by dsimp only; omega⟩
    · rw [hother 0 (by omega), hzero 0 (by omega)]
    · rw [hother n (by omega), hlast]
    · obtain rfl : j = 0 := by omega
      rw [hother 0 (by omega), hzero 0 (by omega), hat]
      omega
  obtain ⟨s, hs, hfull⟩ := @foldlM_filled _ _ _ _ _ _ _ hlimit hpos hroom hfilled (Nat.le_refl 1)
    (n - 2) (by omega)
  have hend : 1 + (n - 2) = n - 1 := by omega
  rw [hend] at hfull
  refine ⟨s.1, ?_, hfull.bucketCount, hfull.sample, ?_⟩
  · rw [hh]
    change (do
      let first ← h.setBucketRange 1 h.declaredMin
      let filled ← (range' 2 (h.bucketCount - 2)).foldlM (nextBucketRange b h.bucketCount)
        (first, h.declaredMin)
      return filled.1) = Except.ok s.1
    rw [hset, hcount]
    change ((range' 2 (n - 2)).foldlM (nextBucketRange b n) (first, h.declaredMin)).bind
      (fun filled => .ok filled.1) = Except.ok s.1
    rw [hs]
    rfl
  · have hcount' := hfull.bucketCount
    refine ⟨hfull.first, by rw [hcount', hfull.last], fun j hj => ?_⟩
    rcases Nat.lt_or_ge j (n - 1) with hlt' | hge
    · exact hfull.lt j hlt'
    · have hj' : j = n - 1 := by omega
      have hroom' := hfull.room
      have hcur := hfull.current
      rw [hj', hcur, show n - 1 + 1 = n by omega, hfull.last]
      omega

/-! ## BucketIndex -/

theorem Ranged.mono (hr : h.Ranged) {j : Nat} (hij : i ≤ j) (hj : j ≤ h.bucketCount) :
    h.range i ≤ h.range j := by
  induction j with
  | zero =>
    obtain rfl : i = 0 := by omega
    exact le_rfl
  | succ j ih =>
    rcases Nat.lt_or_ge i (j + 1) with hlt | hge
    · have hrest := ih (by omega) (by omega)
      have hstep := hr.lt j (by omega)
      omega
    · obtain rfl : i = j + 1 := by omega
      exact le_rfl

theorem Ranged.inBucket_unique (hr : h.Ranged) {value : Int} {j : Nat} (hi : h.InBucket value i)
    (hj : h.InBucket value j) : i = j := by
  obtain ⟨hin, hile, hilt⟩ := hi
  obtain ⟨hjn, hjle, hjlt⟩ := hj
  rcases Nat.lt_trichotomy i j with hlt | rfl | hgt
  · have hmono := hr.mono (show i + 1 ≤ j by omega) (by omega)
    omega
  · rfl
  · have hmono := hr.mono (show j + 1 ≤ i by omega) (by omega)
    omega

/-- The value stays between the ends of what is left to search. -/
theorem searchBucket_between {value : Int} {fuel under beyond : Nat} (hfuel : beyond ≤ fuel + under)
    (hlt : under < beyond) (hbeyond : beyond ≤ h.bucketCount) (hunder : h.range under ≤ value)
    (habove : value < h.range beyond) :
    ∃ i, h.searchBucket value fuel under beyond = some (.ok i) ∧ h.InBucket value i := by
  induction fuel generalizing under beyond with
  | zero => omega
  | succ fuel ih =>
    rw [searchBucket]
    split
    · rename_i hmid
      have hnext : beyond = under + 1 := by omega
      refine ⟨_, rfl, ?_⟩
      rw [hmid]
      exact ⟨by omega, hunder, hnext ▸ habove⟩
    · rename_i hmid
      rw [rangeAt_eq (show under + (beyond - under) / 2 ≤ h.bucketCount by omega)]
      dsimp only
      split
      · rename_i hle
        exact ih (by omega) (by omega) hbeyond hle habove
      · rename_i hgt
        exact ih (by omega) (by omega) (by omega) hunder (by omega)

theorem clamp_bounds (value : Int) : 0 ≤ clamp value ∧ clamp value < kSampleTypeMax := by
  unfold clamp kSampleTypeMax
  dsimp only
  split <;> split <;> omega

theorem checkAbove_inBucket {value : Int} (hin : h.InBucket value i) :
    h.checkAbove value i = .ok i := by
  rw [checkAbove, rangeAt_eq (show i + 1 ≤ h.bucketCount from hin.1)]
  change (if h.range (i + 1) > value then _ else _) = _
  rw [if_pos hin.2.2]
  rfl

theorem Ranged.bucketCount_pos (hr : h.Ranged) : 0 < h.bucketCount := by
  by_contra hzero
  have hfirst := hr.first
  have hlast := hr.last
  rw [show h.bucketCount = 0 by omega, hfirst] at hlast
  exact absurd hlast (by decide)

theorem bucketIndex_clamp (hr : h.Ranged) (value : Int) :
    ∃ i, Computes (fun fuel => h.bucketIndex (clamp value) fuel) (.ok i) ∧
      h.InBucket (clamp value) i := by
  obtain ⟨hlow, hhigh⟩ := clamp_bounds value
  have hsearch : ∀ fuel, h.bucketCount ≤ fuel →
      ∃ i, h.searchBucket (clamp value) fuel 0 h.bucketCount = some (.ok i) ∧
        h.InBucket (clamp value) i := fun fuel hfuel =>
    searchBucket_between hfuel hr.bucketCount_pos le_rfl (by rw [hr.first]; exact hlow)
      (by rw [hr.last]; exact hhigh)
  obtain ⟨i, -, hin⟩ := hsearch h.bucketCount le_rfl
  refine ⟨i, ⟨h.bucketCount, fun fuel hfuel => ?_⟩, hin⟩
  obtain ⟨j, hj, hjn⟩ := hsearch fuel hfuel
  obtain rfl := hr.inBucket_unique hin hjn
  dsimp only
  rw [bucketIndex, hj, Option.map_some]
  exact congrArg some (checkAbove_inBucket hin)

/-! ## Add -/

theorem sum_set_succ {counts : List (BitVec 32)} (hi : i < counts.length)
    (hsmall : (counts.map BitVec.toNat).sum < 2 ^ 32 - 1) :
    ((counts.set i (counts[i] + 1)).map BitVec.toNat).sum = (counts.map BitVec.toNat).sum + 1 := by
  induction counts generalizing i with
  | nil => cases hi
  | cons count counts ih =>
    rw [map_cons, sum_cons] at hsmall ⊢
    cases i with
    | zero =>
      rw [getElem_cons_zero, set_cons_zero, map_cons, sum_cons,
        BitVec.toNat_add, show BitVec.toNat (1 : BitVec 32) = 1 from rfl,
        Nat.mod_eq_of_lt (by omega)]
      omega
    | succ i =>
      rw [getElem_cons_succ, set_cons_succ, map_cons, sum_cons,
        ih (by simpa using hi) (by omega)]
      omega

/-- What the calls have left. -/
structure Recorded (table : Histogram) (values : List Int) (h : Histogram) : Prop where
  bucketCount : h.bucketCount = table.bucketCount
  ranges : h.ranges = table.ranges
  counts : values.length < 2 ^ 31 → (h.sample.counts.map BitVec.toNat).sum = values.length
  sum : h.sample.sum = BitVec.ofInt 64 (values.map clamp).sum
  redundantCount : h.sample.redundantCount = BitVec.ofNat 64 values.length

theorem Recorded.ranged (hr : table.Ranged) (h' : Recorded table values h) : h.Ranged := by
  have hrange : h.range = table.range := funext fun i => by rw [range, range, h'.ranges]
  refine ⟨?_, ?_, ?_⟩
  · rw [hrange, hr.first]
  · rw [hrange, h'.bucketCount, hr.last]
  · rw [hrange, h'.bucketCount]
    exact hr.lt

theorem accumulate_recorded (hrec : Recorded table values h) (value : Int) (hi : i < h.bucketCount)
    :
    ∃ h', h.accumulate (clamp value) i = .ok h' ∧ Recorded table (values ++ [value]) h' := by
  have hlen : i < h.sample.counts.length := by
    rw [h.counts_size]
    exact hi
  rw [accumulate, dif_pos hlen]
  refine ⟨_, rfl, hrec.bucketCount, hrec.ranges, fun hlen => ?_, ?_, ?_⟩
  · rw [length_append, length_singleton] at hlen ⊢
    have hcounts := hrec.counts (by omega)
    rw [sum_set_succ _ (by omega), hcounts]
  · dsimp only
    rw [hrec.sum, map_append, sum_append, BitVec.ofInt_add]
    simp
  · dsimp only
    rw [hrec.redundantCount, length_append, BitVec.ofNat_add]
    rfl

theorem add_recorded (hr : table.Ranged) (hrec : Recorded table values h) (value : Int) :
    ∃ h', Computes (fun fuel => h.add fuel value) (.ok h') ∧
      Recorded table (values ++ [value]) h' := by
  obtain ⟨i, hindex, hin⟩ := bucketIndex_clamp (hrec.ranged hr) value
  obtain ⟨h', haccumulate, hrec'⟩ := accumulate_recorded hrec value hin.1
  refine ⟨h', ?_, hrec'⟩
  have hadd := hindex.map fun index => index.bind fun index => h.accumulate (clamp value) index
  rwa [Except.bind, haccumulate] at hadd

theorem addAll_recorded {table h : Histogram} {done values : List Int} (hr : table.Ranged)
    (hrec : Recorded table done h) :
    ∃ h', Computes (fun fuel => h.addAll fuel values) (.ok h') ∧
      Recorded table (done ++ values) h' := by
  induction values generalizing done h with
  | nil => exact ⟨h, .pure _, by rwa [append_nil]⟩
  | cons value values ih =>
    obtain ⟨h₁, ⟨m, hadd⟩, hrec₁⟩ := add_recorded hr hrec value
    obtain ⟨h', ⟨k, hall⟩, hrec'⟩ := ih hrec₁
    refine ⟨h', ⟨max m k, fun fuel hfuel => ?_⟩,
      by rwa [append_assoc, singleton_append] at hrec'⟩
    dsimp only
    have hfirst : h.add fuel value = some (.ok h₁) :=
      hadd fuel (le_trans (le_max_left m k) hfuel)
    rw [addAll, hfirst]
    exact hall fuel (le_trans (le_max_right m k) hfuel)

theorem toInt_of_sum {counts : List (BitVec 32)} {n : Nat}
    (hsum : (counts.map BitVec.toNat).sum = n) (hn : n < 2 ^ 31) :
    ∀ count ∈ counts, 0 ≤ count.toInt := by
  intro count hcount
  have hle := single_le_sum (fun _ _ => Nat.zero_le _) _
    (@mem_map_of_mem _ _ _ _ BitVec.toNat hcount)
  rw [BitVec.toInt_eq_toNat_of_lt (by omega)]
  exact Int.natCast_nonneg _

/-- With every value counted in its bucket, the totals agree. -/
theorem Recorded.totals (hrec : Recorded table values h) (hlen : values.length < 2 ^ 31) :
    h.sample.total = values.length ∧ h.sample.totalCount.toInt = values.length ∧
      h.sample.redundantCount.toInt = values.length ∧
      h.sample.sum.toInt = (values.map clamp).sum := by
  have hcounts := hrec.counts hlen
  have hnneg := toInt_of_sum hcounts hlen
  have htotal : h.sample.total = values.length := by
    rw [SampleSet.total, SampleSet.total_eq hnneg, hcounts]
  have hclamped : ∀ values : List Int, 0 ≤ (values.map clamp).sum ∧
      (values.map clamp).sum ≤ 2 ^ 31 * values.length := by
    intro values
    induction values with
    | nil => simp
    | cons value values ih =>
      obtain ⟨hlow, hhigh⟩ := clamp_bounds value
      unfold kSampleTypeMax at hhigh
      rw [map_cons, sum_cons, length_cons]
      push_cast
      omega
  have hfold : ∀ (counts : List (BitVec 32)) (start : BitVec 32),
      counts.foldl (· + ·) start = start + counts.sum := by
    intro counts
    induction counts with
    | nil => simp
    | cons count counts ih =>
      intro start
      rw [foldl_cons, ih, sum_cons, BitVec.add_assoc]
  refine ⟨htotal, ?_, ?_, ?_⟩
  · have hnat : (h.sample.counts.foldl (· + ·) 0 : BitVec 32).toNat = values.length := by
      rw [hfold, show (0 : BitVec 32) + _ = _ from BitVec.zero_add _, SampleSet.toNat_sum,
        hcounts, Nat.mod_eq_of_lt (by omega)]
    rw [SampleSet.totalCount, BitVec.toInt_eq_toNat_of_lt (by omega), hnat]
  · rw [hrec.redundantCount, BitVec.toInt_ofNat', Int.bmod_eq_of_le] <;> omega
  · have hbounds := hclamped values
    rw [hrec.sum, BitVec.toInt_ofInt, Int.bmod_eq_of_le] <;> omega

end Histogram

/-- The boundaries leave room, and then every Add() finds the bucket of its value. -/
theorem histogram_accounting {b : Boundaries} {minimum maximum limit : Int} {bucketCount : Nat}
    (name : List UInt8) (hminimum : 1 ≤ minimum) (hbuckets : 2 < bucketCount)
    (hfit : (bucketCount : Int) ≤ maximum - minimum + 2) (hcheck : bucketCount < kBucketCountMax)
    (hlimit : maximum ≤ limit ∧ limit < kSampleTypeMax)
    (hroom : Histogram.LeavesRoom b minimum maximum limit) :
    ∃ table, (Histogram.new name minimum maximum bucketCount).bind
        (Histogram.initializeBucketRange b) = .ok table ∧
      table.bucketCount = bucketCount ∧ table.ranges.Pairwise (· < ·) ∧
      table.ranges.head? = some 0 ∧ table.ranges.getLast? = some kSampleTypeMax ∧
      ∀ values : List Int, ∃ h : Histogram,
        Computes (fun fuel => table.addAll fuel values) (.ok h) ∧ h.ranges = table.ranges ∧
        (∀ value, ∃ i, Computes (fun fuel => h.bucketIndex (Histogram.clamp value) fuel) (.ok i) ∧
          h.InBucket (Histogram.clamp value) i ∧
          ∀ j, h.InBucket (Histogram.clamp value) j → j = i) ∧
        h.sample.redundantCount = BitVec.ofNat 64 values.length ∧
        h.sample.sum = BitVec.ofInt 64 (values.map Histogram.clamp).sum ∧
        (values.length < 2 ^ 31 → h.sample.total = values.length ∧
          h.sample.totalCount.toInt = values.length ∧
          h.sample.redundantCount.toInt = values.length ∧
          h.sample.sum.toInt = (values.map Histogram.clamp).sum) := by
  obtain ⟨table, htable, hcount, hsample, hr⟩ :=
    Histogram.initializeBucketRange_ranged name hminimum hlimit.1 hlimit.2 hbuckets hfit hcheck
      hroom
  have hlength := table.ranges_size
  have hget : ∀ i (hi : i < table.ranges.length), table.ranges[i] = table.range i := by
    intro i hi
    simp [Histogram.range, hi]
  refine ⟨table, htable, hcount, ?_, ?_, ?_, fun values => ?_⟩
  · rw [← isChain_iff_pairwise, isChain_iff_getElem]
    intro i hi
    rw [hget, hget]
    exact hr.lt i (by omega)
  · rw [head?_eq_getElem?, getElem?_eq_getElem (by omega), hget, hr.first]
  · rw [getLast?_eq_getElem?, getElem?_eq_getElem (by omega), hget, hlength,
      Nat.add_sub_cancel, hr.last]
  · have hfresh : Histogram.Recorded table [] table := by
      refine ⟨rfl, rfl, fun _ => ?_, ?_, ?_⟩ <;> rw [hsample]
      · simp
      · rfl
      · rfl
    obtain ⟨h, hrun, hrec⟩ := @Histogram.addAll_recorded _ _ _ values hr hfresh
    have hranged := hrec.ranged hr
    refine ⟨h, hrun, hrec.ranges, fun value => ?_, hrec.redundantCount, hrec.sum, hrec.totals⟩
    obtain ⟨i, hindex, hin⟩ := Histogram.bucketIndex_clamp hranged value
    exact ⟨i, hindex, hin, fun j hj => hranged.inBucket_unique hj hin⟩

/-- What the logarithms give for five buckets from 1 to 10. -/
def fiveBuckets : Boundaries where
  exponential declaredMax current bucketsLeft :=
    if bucketsLeft = 1 then declaredMax
    else if bucketsLeft = 2 ∧ current = 2 then 4
    else if bucketsLeft = 3 ∧ current = 1 then 2
    else current
  linear _ _ _ _ := 0

theorem histogram_accounting_five :
    ∃ table : Histogram, table.ranges.Pairwise (· < ·) ∧ ∃ h : Histogram,
      Computes (fun fuel => table.addAll fuel [3, -7, 12]) (.ok h) ∧ h.sample.sum.toInt = 15 := by
  have hroom : Histogram.LeavesRoom fiveBuckets 1 10 10 := by
    intro current bucketsLeft hpos hmin hleft
    simp only [fiveBuckets]
    split_ifs <;> omega
  obtain ⟨table, -, -, hsorted, -, -, hruns⟩ := histogram_accounting [] (by decide)
    (show 2 < 5 by decide) (by decide) (by decide) (by decide) hroom
  obtain ⟨h, hrun, -, -, -, -, htotals⟩ := hruns [3, -7, 12]
  exact ⟨table, hsorted, h, hrun, (htotals (by decide)).2.2.2⟩

/-- A value that is rounded up to the end of the ints. -/
def overshoot : Boundaries := ⟨fun _ _ _ => kSampleTypeMax, fun _ _ _ _ => 0⟩

theorem overshoot_not_increasing :
    ∃ table : Histogram, (Histogram.new [] 1 10 5).bind
      (Histogram.initializeBucketRange overshoot) = .ok table ∧
        ¬table.ranges.Pairwise (· < ·) := by
  refine ⟨_, rfl, ?_⟩
  decide

end ChromiumUI.Base.Metrics
