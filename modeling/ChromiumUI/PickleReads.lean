import ChromiumUI.Pickle

/-!
# Reading hostile pickles

Every successful read takes ranges at or behind the read pointer and in front of
the end, and leaves the read pointer behind them; alignment may push it over the end.
-/
namespace ChromiumUI.Base

open ByteMemory

/-- The ranges follow each other from `lo`, none passes `hi`, and `stop` is behind them. -/
def Ascends (hi : Nat) : Nat → List Span → Nat → Prop
  | lo, [], stop => lo ≤ stop
  | lo, s :: ss, stop => lo ≤ s.start ∧ s.stop ≤ hi ∧ Ascends hi s.stop ss stop

variable {spans : List Span}

theorem Ascends.mono {hi lo lo' stop : Nat} (hlo : lo' ≤ lo) (h : Ascends hi lo spans stop) :
    Ascends hi lo' spans stop := by
  cases spans with
  | nil => exact Nat.le_trans hlo h
  | cons s ss => exact ⟨Nat.le_trans hlo h.1, h.2⟩

theorem Ascends.append {hi lo mid stop : Nat} {xs ys : List Span} (h₁ : Ascends hi lo xs mid)
    (h₂ : Ascends hi mid ys stop) : Ascends hi lo (xs ++ ys) stop := by
  induction xs generalizing lo with
  | nil => exact h₂.mono h₁
  | cons s ss ih => exact ⟨h₁.1, h₁.2.1, ih h₁.2.2⟩

theorem Ascends.le {hi lo stop : Nat} (h : Ascends hi lo spans stop) : lo ≤ stop := by
  induction spans generalizing lo with
  | nil => exact h
  | cons s ss ih =>
    have hstop := ih h.2.2
    have hstart := h.1
    unfold Span.stop at hstop
    omega

theorem Ascends.le_stop {hi lo stop : Nat} (h : Ascends hi lo spans stop) :
    ∀ s ∈ spans, lo ≤ s.start ∧ s.stop ≤ hi := by
  induction spans generalizing lo with
  | nil => simp
  | cons s ss ih =>
    intro s' hs'
    rcases List.mem_cons.mp hs' with rfl | hmem
    · exact ⟨h.1, h.2.1⟩
    · obtain ⟨hstart, hstop⟩ := ih h.2.2 s' hmem
      have hlo := h.1
      unfold Span.stop at *
      omega

theorem Ascends.pairwise {hi lo stop : Nat} (h : Ascends hi lo spans stop) :
    spans.Pairwise (fun a b => a.stop ≤ b.start) := by
  induction spans generalizing lo with
  | nil => exact List.Pairwise.nil
  | cons s ss ih =>
    refine List.Pairwise.cons (fun s' hs' => ?_) (ih h.2.2)
    exact (h.2.2.le_stop s' hs').1

theorem le_alignInt (i alignment : Nat) : i ≤ alignInt i alignment :=
  Nat.le_add_right _ _

theorem alignInt_four (i : Nat) : alignInt i 4 % 4 = 0 ∧ alignInt i 4 < i + 4 := by
  unfold alignInt
  omega

variable {it : PickleIterator}

namespace PickleIterator

def spansOf {α : Type} (answer : Option (Answer α)) : List Span :=
  match answer with
  | none => []
  | some a => a.spans

/-- The reading stays in the same payload and its ranges are taken in front of the end. -/
structure Contained {α : Type} (it : PickleIterator)
    (result : Option (Answer α) × PickleIterator) : Prop where
  sameMemory : result.2.memory = it.memory
  sameEnd : result.2.readEndPtr = it.readEndPtr
  ascends : Ascends it.readEndPtr it.readPtr (spansOf result.1) result.2.readPtr

/-- A call of GetReadPointerAndAdvance: NULL, or the old pointer, with room for `size` bytes. -/
structure Hands (it : PickleIterator) (size : Nat) (readFrom : Nat × PickleIterator) : Prop where
  sameMemory : readFrom.2.memory = it.memory
  sameEnd : readFrom.2.readEndPtr = it.readEndPtr
  forward : it.readPtr ≤ readFrom.2.readPtr
  room : readFrom.1 ≠ 0 → readFrom.1 = it.readPtr ∧ it.readPtr + size ≤ it.readEndPtr ∧
    it.readPtr + size ≤ readFrom.2.readPtr

theorem Hands.refused (it : PickleIterator) (size : Nat) : Hands it size (0, it) :=
  ⟨rfl, rfl, Nat.le_refl _, fun h => absurd rfl h⟩

theorem getReadPointerAndAdvanceType_hands (size : Nat) (it : PickleIterator) :
    Hands it size (it.getReadPointerAndAdvanceType size) := by
  have hsize : size ≤ if size < 4 then alignInt size 4 else size := by
    by_cases h : size < 4
    · rw [if_pos h]
      exact le_alignInt size 4
    · rw [if_neg h]
  unfold getReadPointerAndAdvanceType
  by_cases hroom : it.readPtr + size > it.readEndPtr
  · rw [if_pos hroom]
    exact Hands.refused it size
  · rw [if_neg hroom]
    refine ⟨rfl, rfl, Nat.le_add_right _ _, fun _ => ⟨rfl, by omega, ?_⟩⟩
    exact Nat.add_le_add_left hsize it.readPtr

theorem getReadPointerAndAdvance_hands (numBytes : Int) (it : PickleIterator) :
    Hands it numBytes.toNat (it.getReadPointerAndAdvance numBytes) := by
  have halign := le_alignInt numBytes.toNat 4
  unfold getReadPointerAndAdvance
  by_cases h : numBytes < 0 ∨ (it.readEndPtr : Int) - it.readPtr < numBytes
  · rw [if_pos h]
    exact Hands.refused it _
  · rw [if_neg h]
    refine ⟨rfl, rfl, Nat.le_add_right _ _, fun _ => ⟨rfl, by omega, ?_⟩⟩
    exact Nat.add_le_add_left halign it.readPtr

/-- The product is checked for overflow, so the bytes handed out are those of the elements. -/
theorem getReadPointerAndAdvanceElements_hands (numElements : Int) (sizeElement : Nat)
    (it : PickleIterator) :
    Hands it (numElements.toNat * sizeElement)
      (it.getReadPointerAndAdvanceElements numElements sizeElement) := by
  have hsize : (numElements * sizeElement).toNat = numElements.toNat * sizeElement := by
    rcases Int.le_total 0 numElements with hn | hn
    · obtain ⟨k, rfl⟩ := Int.eq_ofNat_of_zero_le hn
      rfl
    · rw [Int.toNat_of_nonpos hn, Nat.zero_mul, Int.toNat_of_nonpos]
      exact Int.mul_nonpos_of_nonpos_of_nonneg hn (Int.natCast_nonneg _)
  unfold getReadPointerAndAdvanceElements
  by_cases h : numElements * sizeElement ≠ toInt32 (numElements * sizeElement)
  · simp only [if_pos h]
    exact Hands.refused it _
  · simp only [if_neg h]
    rw [← not_not.mp h, ← hsize]
    exact getReadPointerAndAdvance_hands _ it

theorem ifNotNull_contained {α : Type} {size : Nat} {readFrom : Nat × PickleIterator}
    {answer : Nat → Memory → Answer α} (h : Hands it size readFrom)
    (hspans : ∀ ptr mem, (answer ptr mem).spans = [⟨ptr, size⟩]) :
    Contained it (ifNotNull readFrom answer) := by
  unfold ifNotNull
  by_cases hnull : readFrom.1 = 0
  · rw [if_pos hnull]
    exact ⟨h.sameMemory, h.sameEnd, h.forward⟩
  · rw [if_neg hnull]
    obtain ⟨hptr, hroom, hnext⟩ := h.room hnull
    refine ⟨h.sameMemory, h.sameEnd, ?_⟩
    simp only [spansOf, hspans, hptr]
    exact ⟨Nat.le_refl _, hroom, hnext⟩

theorem Contained.andThen {α β : Type} {first : Option (Answer α) × PickleIterator}
    {next : α → PickleIterator → Option (Answer β) × PickleIterator} (h : Contained it first)
    (hnext : ∀ a it', Contained it' (next a it')) :
    Contained it (PickleIterator.andThen first next) := by
  obtain ⟨hmem, hend, hasc⟩ := h
  unfold PickleIterator.andThen
  cases ha : first.1 with
  | none =>
    rw [ha] at hasc
    exact ⟨hmem, hend, hasc⟩
  | some a =>
    obtain ⟨hmem', hend', hasc'⟩ := hnext a.value first.2
    rw [ha] at hasc
    rw [hend] at hasc'
    refine ⟨hmem'.trans hmem, hend'.trans hend, ?_⟩
    have happ := hasc.append hasc'
    have hle := happ.le
    simp only
    cases hb : (next a.value first.2).1 with
    | none => exact hle
    | some b =>
      rw [hb] at happ
      exact happ

theorem Contained.map {α β : Type} (f : α → β) {result : Option (Answer α) × PickleIterator}
    (h : Contained it result) : Contained it (result.1.map (Answer.map f), result.2) := by
  obtain ⟨hmem, hend, hasc⟩ := h
  refine ⟨hmem, hend, ?_⟩
  cases ha : result.1 with
  | none | some a =>
    rw [ha] at hasc
    exact hasc

theorem readBuiltinType_contained (size : Nat) (it : PickleIterator) :
    Contained it (it.readBuiltinType size) :=
  ifNotNull_contained (getReadPointerAndAdvanceType_hands size it) fun _ _ => rfl

theorem readInt_contained (it : PickleIterator) : Contained it it.readInt :=
  (readBuiltinType_contained 4 it).map _

theorem readBytes_contained (length : Int) (it : PickleIterator) :
    Contained it (it.readBytes length) :=
  ifNotNull_contained (getReadPointerAndAdvance_hands length it) fun _ _ => rfl

/-- Whatever is read, with whatever arguments: the reading stays inside the payload. -/
theorem read_contained (t : Target) (it : PickleIterator) (r : Read) :
    Contained it (it.read t r) := by
  cases r with
  | bool | long | uint16 | uint32 | int64 | uint64 => exact (readBuiltinType_contained _ it).map _
  | int => exact (readInt_contained it).map _
  | string =>
    refine Contained.map _ ((readInt_contained it).andThen fun len it' => ?_)
    exact ifNotNull_contained (getReadPointerAndAdvance_hands _ it') fun _ _ => rfl
  | wstring | string16 =>
    refine Contained.map _ ((readInt_contained it).andThen fun len it' => ?_)
    exact ifNotNull_contained (getReadPointerAndAdvanceElements_hands _ _ it') fun _ _ => rfl
  | data =>
    refine Contained.map _ ((readInt_contained it).andThen fun length it' => ?_)
    exact readBytes_contained _ it'
  | bytes length => exact (readBytes_contained length it).map _
  | skipBytes numBytes =>
    refine Contained.map _ ?_
    exact ifNotNull_contained (getReadPointerAndAdvance_hands _ it) fun _ _ => rfl

/-- The byte ranges of the successful reads of a sequence, in order. -/
def allSpans {α : Type} (answers : List (Option (Answer α))) : List Span :=
  answers.flatMap spansOf

theorem readAll_ascends (t : Target) (it : PickleIterator) (rs : List Read) :
    Ascends it.readEndPtr it.readPtr (allSpans (it.readAll t rs).1) (it.readAll t rs).2.readPtr := by
  induction rs generalizing it with
  | nil => exact Nat.le_refl _
  | cons r rs ih =>
    obtain ⟨-, hend, hasc⟩ := read_contained t it r
    have hrest := ih (it.read t r).2
    rw [hend] at hrest
    exact hasc.append hrest

end PickleIterator

namespace Pickle

theorem payloadSizeOf_lt (header : Memory) : payloadSizeOf header < 2 ^ 32 := by
  have h := leValue_lt (load header 0 4)
  rw [length_load] at h
  exact h

/-- An accepted block is a header of whole words and a payload that fills the rest. -/
theorem ofData_accepted {data : List UInt8} (hlen : data.length < 2 ^ 31)
    (h : (ofData data).header.isSome) :
    (ofData data).header = some (ofBytes data) ∧ 0 < (ofData data).headerSize ∧
      (ofData data).headerSize % 4 = 0 ∧
      (ofData data).headerSize + payloadSizeOf (ofBytes data) = data.length := by
  have hload := payloadSizeOf_lt (ofBytes data)
  simp only [ofData] at h ⊢
  generalize payloadSizeOf (ofBytes data) = payload at *
  split_ifs at h ⊢
  -- in every case but one the header size is 0, and the header a NULL
  all_goals try exact absurd rfl ‹_›
  all_goals try exact absurd h Bool.false_ne_true
  obtain ⟨hrest, hround⟩ := alignInt_four (((data.length - payload : Int) % (2 ^ 32 : Nat)).toNat)
  exact ⟨rfl, by omega, by omega, by omega⟩

end Pickle

/-- Pickle reads are contained on hostile data. -/
theorem pickle_reads_contained (t : Target) {data : List UInt8} (hlen : data.length < 2 ^ 31)
    (hvalid : (Pickle.ofData data).header.isSome) (rs : List Read) :
    (0 < (Pickle.ofData data).headerSize ∧ (Pickle.ofData data).headerSize % 4 = 0 ∧
      (Pickle.ofData data).headerSize + Pickle.payloadSizeOf (ofBytes data) = data.length) ∧
    let spans := PickleIterator.allSpans ((Pickle.ofData data).iterator.readAll t rs).1
    (∀ s ∈ spans, (Pickle.ofData data).headerSize ≤ s.start ∧ s.stop ≤ data.length) ∧
      spans.Pairwise (fun a b => a.stop ≤ b.start) := by
  obtain ⟨hheader, hpos, halign, hsize⟩ := Pickle.ofData_accepted hlen hvalid
  refine ⟨⟨hpos, halign, hsize⟩, ?_⟩
  have hit : (Pickle.ofData data).iterator =
      ⟨ofBytes data, (Pickle.ofData data).headerSize, data.length⟩ := by
    rw [Pickle.iterator, hheader]
    simp only [hsize]
  have hasc := PickleIterator.readAll_ascends t (Pickle.ofData data).iterator rs
  rw [hit] at hasc ⊢
  exact ⟨hasc.le_stop, hasc.pairwise⟩

/-- A payload of five bytes behind a header of four: the string of length 1. -/
def stringBlock : List UInt8 := [5, 0, 0, 0, 1, 0, 0, 0, 65]

/-- What reading a string and then an int from it hands out. -/
def stringSpans : List Span :=
  PickleIterator.allSpans ((Pickle.ofData stringBlock).iterator.readAll .lp64 [.string, .int]).1

theorem pickle_reads_contained_string :
    (∀ s ∈ stringSpans, (Pickle.ofData stringBlock).headerSize ≤ s.start ∧
      s.stop ≤ stringBlock.length) ∧ stringSpans.Pairwise (fun a b => a.stop ≤ b.start) :=
  (pickle_reads_contained .lp64 (show stringBlock.length < 2 ^ 31 by decide) (by decide)
    [.string, .int]).2

end ChromiumUI.Base
