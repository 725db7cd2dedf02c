import ChromiumUI.CountedLoops
import ChromiumUI.PickleReads
import ChromiumUI.SortedMaps
import ChromiumUI.PickleRoundTrip

/-!
# Custom clipboard data

The three readers of a pickled map of strings. Each of their loops takes its turns over the same
block; with the names and values of the block read pair by pair, each loop has its meaning.
-/
namespace ChromiumUI.Clipboard

open Base ByteMemory CountedLoops SortedMaps List Option PickleIterator

abbrev String16 := List (BitVec 16)

instance char16Order : LinearOrder (BitVec 16) := LinearOrder.ofStd _

/-- std::map<string16, string16> -/
abbrev StringMap := SortedMap String16 String16

variable (t : Target)

/-! ## Reading -/

variable (data : List UInt8)

/-- SkippablePickle(data, data_len): the length is passed on as an int. -/
def skippablePickle : Pickle :=
  Pickle.ofData (data.take (toInt32 data.length).toNat)

/-- The size field at the front of a block, and the iterator behind it. -/
def readSize : Option (Answer Nat) × PickleIterator :=
  (skippablePickle data).iterator.readBuiltinType 8

/-- if (!pickle.ReadUInt64(&iter, &size)) return; and then the loop. -/
def afterSize {α : Type} (unread : α) (loop : Nat → PickleIterator → α)
    (read : Option (Answer Nat) × PickleIterator) : α :=
  match read.1 with
  | none => unread
  | some size => loop size.value read.2

variable {read : Option (Answer Nat) × PickleIterator}

theorem afterSize_none {α : Type} {unread : α} {loop : Nat → PickleIterator → α} (h : read.1 = none)
    :
    afterSize unread loop read = unread := by
  rw [afterSize, h]

theorem afterSize_some {α : Type} {unread : α} {loop : Nat → PickleIterator → α} {size : Answer Nat}
    (h : read.1 = some size) : afterSize unread loop read = loop size.value read.2 := by
  rw [afterSize, h]

/-- ReadLength: an int that is not negative. -/
def readLength (it : PickleIterator) : Option (Answer (BitVec 32)) × PickleIterator :=
  (it.readInt.1.filter fun len => len.value.toInt ≥ 0, it.readInt.2)

def skipString16 (it : PickleIterator) : Option (Answer Unit) × PickleIterator :=
  andThen (readLength it) fun len it => it.skipBytes (toInt32 (t.sizeT (len.toInt * 2)))

/-- A turn of the loop of ReadCustomDataTypes. -/
def typesTurn (originalSize : Nat) (s : PickleIterator × List String16) :
    Except (List String16) (PickleIterator × List String16) :=
  let types := s.2 ++ [[]]
  match s.1.readString16 with
  | (none, _) => .error (types.take originalSize)
  | (some name, it) =>
    let types := types.dropLast ++ [name.value]
    match skipString16 t it with
    | (none, _) => .error (types.take originalSize)
    | (some _, it) => .ok (it, types)

/-- The vector ReadCustomDataTypes leaves, and the turns of its loop. -/
def readCustomDataTypes (types : List String16) : List String16 × Nat :=
  afterSize (types, 0) (fun size it =>
    afterLoop Prod.snd (countedLoop (typesTurn t types.length) size (it, types))) (readSize data)

/-- A turn of the loop of ReadCustomDataForType. -/
def forTypeTurn (type result : String16) (it : PickleIterator) : Except String16 PickleIterator :=
  match it.readString16 with
  | (none, _) => .error result
  | (some deserializedType, it) =>
    if deserializedType.value = type then
      match it.readString16 with
      | (none, _) => .error result
      | (some value, _) => .error value.value
    else
      match skipString16 t it with
      | (none, _) => .error result
      | (some _, it) => .ok it

/-- The string ReadCustomDataForType leaves, and the turns of its loop. -/
def readCustomDataForType (type result : String16) : String16 × Nat :=
  afterSize (result, 0) (fun size it =>
    afterLoop (fun _ => result) (countedLoop (forTypeTurn t type result) size it)) (readSize data)

/-- A turn of the loop of ReadCustomDataIntoMap; insert leaves an entry that is there. -/
def intoMapTurn (s : PickleIterator × StringMap) :
    Except StringMap (PickleIterator × StringMap) :=
  match s.1.readString16 with
  | (none, _) => .error .empty
  | (some type, it) =>
    let result := if (s.2.find type.value).isNone then s.2.put type.value [] else s.2
    match it.readString16 with
    | (none, _) => .error .empty
    | (some value, it) => .ok (it, result.put type.value value.value)

/-- The map ReadCustomDataIntoMap leaves, and the turns of its loop. -/
def readCustomDataIntoMap (result : StringMap) : StringMap × Nat :=
  afterSize (result, 0) (fun size it =>
    afterLoop Prod.snd (countedLoop intoMapTurn size (it, result))) (readSize data)

/-! ## Writing -/

/-- WriteString16, whatever it returns. -/
def writeString16 (heap : Heap) (value : String16) (p : Pickle) : Pickle :=
  match p.writeInt t heap (BitVec.ofNat 32 value.length) with
  | none => p
  | some p => (p.writeBytes t heap (value.flatMap fun c => leBytes 2 c.toNat)
      (toInt32 (toInt32 value.length * 2))).getD p

def writeCustomDataToPickle (heap : Heap) (data : StringMap) (p : Pickle) : Pickle :=
  let p := (p.writeBytes t heap (leBytes 8 (BitVec.ofNat 64 data.entries.length).toNat) 8).getD p
  data.entries.foldl (fun p e => writeString16 t heap e.2 (writeString16 t heap e.1 p)) p

/-! ## The pairs of a block -/

/-- A name and its value. -/
def readEntry (it : PickleIterator) : Option ((String16 × String16) × PickleIterator) :=
  match it.readString16 with
  | (none, _) => none
  | (some name, it) =>
    match it.readString16 with
    | (none, _) => none
    | (some value, it) => some ((name.value, value.value), it)

/-- That many names and values, if they are all there. -/
def readEntries : Nat → PickleIterator → Option (List (String16 × String16))
  | 0, _ => some []
  | n + 1, it =>
    match readEntry it with
    | none => none
    | some (e, it) => (readEntries n it).map (e :: ·)

variable {it : PickleIterator}

theorem length_readEntries {n : Nat} {es : List (String16 × String16)}
    (h : readEntries n it = some es) : es.length = n := by
  induction n generalizing it es with
  | zero => cases h; rfl
  | succ n ih =>
    rw [readEntries] at h
    split at h
    · cases h
    · obtain ⟨es', hes', rfl⟩ := map_eq_some_iff.mp h
      rw [length_cons, ih hes']

/-- A length that does not fit is refused both ways, and one that fits is doubled. -/
theorem sizeT_double {len : Int} (hneg : 0 ≤ len) (hlen : len < 2 ^ 31) :
    (toInt32 (t.sizeT (len * 2)) = len * 2 ∧ toInt32 (len * 2) = len * 2) ∨
      (toInt32 (t.sizeT (len * 2)) < 0 ∧ len * 2 ≠ toInt32 (len * 2)) := by
  have hsize : (t.sizeT (len * 2) : Int) = len * 2 := by
    rw [Target.sizeT]
    rcases t.sizeBits_eq with h | h <;> rw [h] <;> omega
  rw [hsize, toInt32, Int.bmod_def]
  split_ifs <;> omega

theorem getReadPointerAndAdvance_neg {n : Int} (h : n < 0) (it : PickleIterator) :
    it.getReadPointerAndAdvance n = (0, it) := by
  rw [getReadPointerAndAdvance, if_pos (Or.inl h)]

theorem getReadPointerAndAdvanceElements_overflow {n : Int} (h : n * 2 ≠ toInt32 (n * 2))
    (it : PickleIterator) : it.getReadPointerAndAdvanceElements n 2 = (0, it) := if_pos h

theorem getReadPointerAndAdvanceElements_fits {n : Int} (h : n * 2 = toInt32 (n * 2))
    (it : PickleIterator) :
    it.getReadPointerAndAdvanceElements n 2 = it.getReadPointerAndAdvance (n * 2) := by
  have hunfold : it.getReadPointerAndAdvanceElements n 2 =
      if n * 2 ≠ toInt32 (n * 2) then (0, it) else it.getReadPointerAndAdvance (toInt32 (n * 2)) :=
    rfl
  rw [hunfold, if_neg (not_not.mpr h), ← h]

/-- A negative number of elements is refused. -/
theorem getReadPointerAndAdvanceElements_neg {n : Int} (h : n < 0) (it : PickleIterator) :
    it.getReadPointerAndAdvanceElements n 2 = (0, it) := by
  by_cases hfits : n * 2 = toInt32 (n * 2)
  · rw [getReadPointerAndAdvanceElements_fits hfits, getReadPointerAndAdvance_neg (by omega)]
  · exact getReadPointerAndAdvanceElements_overflow hfits it

theorem andThen_none {α β : Type} {first : Option (Answer α) × PickleIterator}
    (h : first.1 = none) (next : α → PickleIterator → Option (Answer β) × PickleIterator) :
    (andThen first next).1 = none := by
  rw [andThen, h]

theorem andThen_some {α β : Type} {first : Option (Answer α) × PickleIterator} {a : Answer α}
    (h : first.1 = some a) (next : α → PickleIterator → Option (Answer β) × PickleIterator) :
    andThen first next =
      ((next a.value first.2).1.map fun b => ⟨b.value, a.spans ++ b.spans⟩,
        (next a.value first.2).2) := by
  rw [andThen, h]

/-- Two reads that go on alike after the same first one. -/
theorem andThen_alike {α β γ : Type} {first : Option (Answer α) × PickleIterator} {a : Answer α}
    (h : first.1 = some a) (readFrom : Nat × PickleIterator)
    {next : α → PickleIterator → Option (Answer β) × PickleIterator}
    {next' : α → PickleIterator → Option (Answer γ) × PickleIterator}
    (hnext : ∃ answer, next a.value first.2 = ifNotNull readFrom answer)
    (hnext' : ∃ answer, next' a.value first.2 = ifNotNull readFrom answer) :
    (∃ b c it, andThen first next = (some b, it) ∧
        andThen first next' = (some c, it)) ∨
      ((andThen first next).1 = none ∧
        (andThen first next').1 = none) := by
  obtain ⟨answer, hans⟩ := hnext
  obtain ⟨answer', hans'⟩ := hnext'
  rw [andThen_some h, andThen_some h, hans, hans']
  by_cases hnull : readFrom.1 = 0
  · exact Or.inr (by simp [ifNotNull, hnull])
  · exact Or.inl (by simp [ifNotNull, hnull])

/-- Skipping a string succeeds where reading it does, and stands behind it then. -/
theorem skipString16_eq (it : PickleIterator) :
    (∃ a b next, it.readString16 = (some a, next) ∧ skipString16 t it = (some b, next)) ∨
      (it.readString16.1 = none ∧ (skipString16 t it).1 = none) := by
  cases hint : it.readInt.1 with
  | none =>
    have hlen : (readLength it).1 = none := by rw [readLength, hint, filter_none]
    exact Or.inr ⟨andThen_none hint _, andThen_none hlen _⟩
  | some len =>
    have hlt : len.value.toInt < 2 ^ 31 := by
      have := len.value.toInt_lt
      omega
    by_cases hneg : len.value.toInt < 0
    · right
      have hlen : (readLength it).1 = none := by
        simp [readLength, hint, hneg]
      constructor
      · rw [readString16, andThen_some hint,
          getReadPointerAndAdvanceElements_neg hneg]
        rfl
      · exact andThen_none hlen _
    · have hlen : readLength it = it.readInt := by
        have hkeep : len.value.toInt ≥ 0 := by omega
        rw [readLength, hint, filter_some, if_pos (by simpa using hkeep), ← hint]
      rw [readString16, skipString16, hlen]
      rcases sizeT_double t (by omega) hlt with ⟨hsize, hfits⟩ | ⟨hsize, hover⟩
      · exact andThen_alike hint _
          ⟨_, congrArg (ifNotNull · _)
            (getReadPointerAndAdvanceElements_fits hfits.symm _)⟩
          ⟨_, congrArg (ifNotNull · _) (by rw [hsize])⟩
      · exact andThen_alike hint _
          ⟨_, congrArg (ifNotNull · _)
            (getReadPointerAndAdvanceElements_overflow hover _)⟩
          ⟨_, congrArg (ifNotNull · _) (getReadPointerAndAdvance_neg hsize _)⟩

/-- A string and then a string skipped are an entry, or neither is. -/
theorem skipString16_cases (it : PickleIterator) :
    (∃ a b next, it.readString16 = (some a, next) ∧ skipString16 t it = (some b, next)) ∨
      ∃ next next', it.readString16 = (none, next) ∧ skipString16 t it = (none, next') :=
  (skipString16_eq t it).imp_right fun ⟨hread, hskip⟩ => ⟨_, _, Prod.ext hread rfl, Prod.ext hskip rfl⟩

/-! ## The loops read the entries -/

theorem typesTurn_eq {k : Nat} {types : List String16} (hk : k ≤ types.length)
    (it : PickleIterator) :
    typesTurn t k (it, types) =
      match readEntry it with
      | none => .error (types.take k)
      | some (e, it') => .ok (it', types ++ [e.1]) := by
  rw [typesTurn, readEntry]
  rcases it.readString16 with ⟨_ | name, it'⟩
  · exact congrArg Except.error (take_append_of_le_length hk)
  · rcases skipString16_cases t it' with ⟨a, b, next, hread, hskip⟩ | ⟨next, next', hread, hskip⟩
    · simp [hread, hskip]
    · simp [hread, hskip, take_append_of_le_length hk]

theorem intoMapTurn_eq (it : PickleIterator) (m : StringMap) :
    intoMapTurn (it, m) =
      match readEntry it with
      | none => .error .empty
      | some (e, it') => .ok (it', m.put e.1 e.2) := by
  rw [intoMapTurn, readEntry]
  rcases it.readString16 with ⟨_ | name, it'⟩
  · rfl
  · dsimp only
    rcases it'.readString16 with ⟨_ | value, it''⟩
    · rfl
    · have hput : (if (m.find name.value).isNone then m.put name.value [] else m).put
          name.value value.value = m.put name.value value.value := by
        refine SortedMap.ext_find fun k => ?_
        by_cases hk : k = name.value
        · simp [hk]
        · split_ifs <;> simp [hk]
      dsimp only
      rw [hput]

variable {it' : PickleIterator}

/-- With an entry in front, the loop for a type ends on it or steps over it. -/
theorem forTypeTurn_eq {type old : String16} {e : String16 × String16}
    (h : readEntry it = some (e, it')) :
    forTypeTurn t type old it = if e.1 = type then .error e.2 else .ok it' := by
  rw [readEntry] at h
  rw [forTypeTurn]
  rcases hname : it.readString16 with ⟨_ | name, next⟩
  · simp [hname] at h
  · rw [hname] at h
    dsimp only at h
    rcases skipString16_cases t next with ⟨a, b, last, hread, hskip⟩ | ⟨last, last', hread, hskip⟩
    · rw [hread] at h
      cases h
      simp [hread, hskip]
    · simp [hread] at h

theorem forTypeTurn_ok {type old : String16} (h : forTypeTurn t type old it = .ok it') :
    ∃ e, readEntry it = some (e, it') := by
  rw [forTypeTurn] at h
  rw [readEntry]
  rcases hname : it.readString16 with ⟨_ | name, next⟩
  · simp [hname] at h
  · rw [hname] at h
    dsimp only at h ⊢
    rcases skipString16_cases t next with ⟨a, b, last, hread, hskip⟩ | ⟨last, last', hread, hskip⟩
    · rw [hread, hskip] at h
      split_ifs at h
      cases h
      rw [hread]
      exact ⟨_, rfl⟩
    · rw [hread, hskip] at h
      split_ifs at h

theorem typesLoop_eq {k n : Nat} {types : List String16} (hk : k ≤ types.length)
    (it : PickleIterator) :
    (∀ es, readEntries n it = some es → ∃ it',
        (countedLoop (typesTurn t k) n (it, types)).1 = .ok (it', types ++ es.map Prod.fst)) ∧
      (readEntries n it = none →
        (countedLoop (typesTurn t k) n (it, types)).1 = .error (types.take k)) := by
  induction n generalizing it types with
  | zero =>
    refine ⟨?_, (by rintro ⟨⟩)⟩
    rintro _ ⟨⟩
    exact ⟨it, by simp [countedLoop]⟩
  | succ n ih =>
    have hturn := typesTurn_eq t hk it
    rw [readEntries]
    cases hentry : readEntry it with
    | none =>
      rw [hentry] at hturn
      exact ⟨(by rintro _ ⟨⟩), fun _ => by rw [countedLoop_error hturn]⟩
    | some p =>
      obtain ⟨e, it'⟩ := p
      rw [hentry] at hturn
      obtain ⟨hsome, hnone⟩ := @ih (types ++ [e.1]) (by rw [length_append]; omega) it'
      rw [countedLoop_ok hturn]
      constructor
      · intro es hes
        obtain ⟨es', hes', rfl⟩ := map_eq_some_iff.mp hes
        obtain ⟨last, hlast⟩ := hsome es' hes'
        exact ⟨last, by simpa using hlast⟩
      · intro hes
        have h := hnone (map_eq_none_iff.mp hes)
        rwa [take_append_of_le_length hk] at h

theorem intoMapLoop_eq (n : Nat) (it : PickleIterator) (m : StringMap) :
    (∀ es, readEntries n it = some es → ∃ it',
        (countedLoop intoMapTurn n (it, m)).1 = .ok (it', SortedMap.putAll es m)) ∧
      (readEntries n it = none → (countedLoop intoMapTurn n (it, m)).1 = .error .empty) := by
  induction n generalizing it m with
  | zero =>
    refine ⟨?_, nofun⟩
    rintro _ ⟨⟩
    exact ⟨it, rfl⟩
  | succ n ih =>
    have hturn := intoMapTurn_eq it m
    rw [readEntries]
    cases hentry : readEntry it with
    | none =>
      rw [hentry] at hturn
      exact ⟨nofun, fun _ => by rw [countedLoop_error hturn]⟩
    | some p =>
      obtain ⟨e, it'⟩ := p
      rw [hentry] at hturn
      obtain ⟨hsome, hnone⟩ := ih it' (m.put e.1 e.2)
      rw [countedLoop_ok hturn]
      constructor
      · intro es hes
        obtain ⟨es', hes', rfl⟩ := map_eq_some_iff.mp hes
        exact hsome es' hes'
      · exact fun hes => hnone (map_eq_none_iff.mp hes)

/-- The loop for a type ends on the first entry of that name. -/
theorem forTypeLoop_eq {n : Nat} {type old : String16} {it : PickleIterator}
    {es : List (String16 × String16)} (h : readEntries n it = some es) :
    (firstOf type es = none →
        ∃ it', (countedLoop (forTypeTurn t type old) n it).1 = .ok it') ∧
      ∀ v, firstOf type es = some v →
        (countedLoop (forTypeTurn t type old) n it).1 = .error v := by
  induction n generalizing it es with
  | zero =>
    cases h
    exact ⟨fun _ => ⟨it, rfl⟩, (by rintro _ ⟨⟩)⟩
  | succ n ih =>
    rw [readEntries] at h
    cases hentry : readEntry it with
    | none => simp [hentry] at h
    | some p =>
      obtain ⟨e, it'⟩ := p
      rw [hentry] at h
      obtain ⟨es', hes', rfl⟩ := map_eq_some_iff.mp h
      have hturn : forTypeTurn t type old it = _ := forTypeTurn_eq t hentry
      rw [firstOf]
      by_cases htype : e.1 = type
      · rw [if_pos htype] at hturn
        rw [if_pos htype.symm, countedLoop_error hturn]
        exact ⟨(by rintro ⟨⟩), fun v hv => congrArg Except.error (some.inj hv)⟩
      · rw [if_neg htype] at hturn
        rw [if_neg (Ne.symm htype), countedLoop_ok hturn]
        exact ih hes'

/-! ## Turns -/

theorem readBuiltinType_room {size : Nat} {a : Answer Nat}
    (h : (it.readBuiltinType size).1 = some a) :
    it.readPtr + size ≤ it.readEndPtr ∧
      it.readPtr + size ≤ (it.readBuiltinType size).2.readPtr ∧
      (it.readBuiltinType size).2.readEndPtr = it.readEndPtr := by
  have hands := getReadPointerAndAdvanceType_hands size it
  rw [readBuiltinType, ifNotNull] at h ⊢
  split_ifs at h ⊢ with hnull
  obtain ⟨-, hroom, hnext⟩ := hands.room hnull
  exact ⟨hroom, hnext, hands.sameEnd⟩

theorem readString16_room {next : PickleIterator} {a : Answer String16}
    (h : it.readString16 = (some a, next)) :
    it.readPtr + 4 ≤ it.readEndPtr ∧ it.readPtr + 4 ≤ next.readPtr ∧
      next.readEndPtr = it.readEndPtr := by
  rw [readString16] at h
  cases hint : it.readInt.1 with
  | none =>
    have hnone := andThen_none hint fun len it =>
      ifNotNull (it.getReadPointerAndAdvanceElements len.toInt 2)
        fun readFrom mem => (⟨(loadUnits mem 2 readFrom len.toInt.toNat).map (BitVec.ofNat 16),
          [⟨readFrom, len.toInt.toNat * 2⟩]⟩ : Answer String16)
    rw [h] at hnone
    cases hnone
  | some len =>
    obtain ⟨n, hn, -⟩ := map_eq_some_iff.mp hint
    obtain ⟨hroom, hforward, hend⟩ := readBuiltinType_room hn
    rw [andThen_some hint] at h
    obtain ⟨-, rfl⟩ := Prod.mk.inj h
    have hnext : PickleIterator.Contained it.readInt.2
        (ifNotNull
          (it.readInt.2.getReadPointerAndAdvanceElements len.value.toInt 2) fun readFrom mem =>
            (⟨(loadUnits mem 2 readFrom len.value.toInt.toNat).map (BitVec.ofNat 16),
              [⟨readFrom, len.value.toInt.toNat * 2⟩]⟩ : Answer String16)) :=
      ifNotNull_contained
        (getReadPointerAndAdvanceElements_hands len.value.toInt 2 it.readInt.2)
        fun _ _ => rfl
    exact ⟨hroom, Nat.le_trans hforward hnext.ascends.le, hnext.sameEnd.trans hend⟩

/-- The bytes left of the payload. -/
def bytesLeft (it : PickleIterator) : Nat := it.readEndPtr - it.readPtr

/-- An entry has two lengths of four bytes each. -/
theorem bytesLeft_readEntry {e : String16 × String16} (h : readEntry it = some (e, it')) :
    bytesLeft it' + 8 ≤ bytesLeft it := by
  rw [readEntry] at h
  rcases hname : it.readString16 with ⟨_ | name, next⟩
  · simp [hname] at h
  · rcases hvalue : next.readString16 with ⟨_ | value, last⟩
    · simp [hname, hvalue] at h
    · simp only [hname, hvalue, some.injEq, Prod.mk.injEq] at h
      obtain ⟨-, rfl⟩ := h
      obtain ⟨-, hforward, hend⟩ := readString16_room hname
      obtain ⟨hroom, hforward', hend'⟩ := readString16_room hvalue
      rw [bytesLeft, bytesLeft]
      omega

/-- Behind the size field there are twelve bytes less than the block has. -/
theorem bytesLeft_size {data : List UInt8} {size : Answer Nat}
    (h : (readSize data).1 = some size) : bytesLeft (readSize data).2 + 12 ≤ data.length := by
  obtain ⟨hroom, hforward, hend⟩ := readBuiltinType_room h
  rw [← readSize] at hforward hend
  rw [bytesLeft]
  have htake : (data.take (toInt32 data.length).toNat).length < 2 ^ 31 := by
    have hlt : toInt32 data.length < 2 ^ 31 := by
      rw [toInt32, Int.bmod_def]
      split_ifs <;> omega
    rw [length_take]
    omega
  have hle : (data.take (toInt32 data.length).toNat).length ≤ data.length := by
    rw [length_take]
    omega
  cases hhead : (skippablePickle data).header with
  | none =>
    rw [Pickle.iterator, hhead] at hroom
    dsimp only at hroom
    omega
  | some header =>
    obtain ⟨hmem, hpos, halign, hsize⟩ := Pickle.ofData_accepted htake
      (by rw [← skippablePickle, hhead]; rfl)
    rw [← skippablePickle] at hmem hpos halign hsize
    have hit : (skippablePickle data).iterator =
        ⟨ofBytes (data.take (toInt32 data.length).toNat), (skippablePickle data).headerSize,
          (data.take (toInt32 data.length).toNat).length⟩ := by
      rw [Pickle.iterator, hmem]
      dsimp only
      rw [hsize]
    rw [hit] at hroom hforward hend
    dsimp only at hroom hforward hend
    omega

/-! ## The readers of custom clipboard data agree

What each reader makes of the entries of a block, how many turns its loop takes, and that a map
that was written is read back. Of a name that is listed more than once ReadCustomDataForType
returns the first value, and ReadCustomDataIntoMap keeps the last. -/

open Nat Prod Pickle

variable {t : Target} {data : List UInt8}

/-! ## Whole blocks -/

/-- The size field of the block. -/
def sizeField (data : List UInt8) : Option Nat := (readSize data).1.map Answer.value

/-- The entries of the block, if as many are there as the size field says. -/
def blockEntries (data : List UInt8) : Option (List (String16 × String16)) :=
  afterSize none readEntries (readSize data)

theorem readCustomDataTypes_entries (types : List String16) :
    (readCustomDataTypes t data types).1 =
      types ++ ((blockEntries data).getD []).map fst := by
  rw [readCustomDataTypes, blockEntries]
  cases hread : (readSize data).1 with
  | none => simp [afterSize_none hread]
  | some size =>
    rw [afterSize_some hread, afterSize_some hread]
    obtain ⟨hsome, hnone⟩ := @typesLoop_eq t _ size.value _ (le_refl types.length)
      (readSize data).2
    cases hes : readEntries size.value (readSize data).2 with
    | none => simp [afterLoop_error (hnone hes)]
    | some es =>
      obtain ⟨it, hloop⟩ := hsome es hes
      rw [afterLoop_ok hloop]
      rfl

variable {es : List (String16 × String16)}

theorem readCustomDataIntoMap_entries (m : StringMap) (h : blockEntries data = some es) :
    (readCustomDataIntoMap data m).1 = SortedMap.putAll es m := by
  rw [blockEntries] at h
  rw [readCustomDataIntoMap]
  cases hread : (readSize data).1 with
  | none => cases (afterSize_none hread).symm.trans h
  | some size =>
    rw [afterSize_some hread] at h ⊢
    obtain ⟨it, hloop⟩ := (intoMapLoop_eq size.value (readSize data).2 m).1 es h
    rw [afterLoop_ok hloop]

theorem readCustomDataForType_entries (type old : String16) (h : blockEntries data = some es) :
    (readCustomDataForType t data type old).1 = (firstOf type es).getD old := by
  rw [blockEntries] at h
  rw [readCustomDataForType]
  cases hread : (readSize data).1 with
  | none => cases (afterSize_none hread).symm.trans h
  | some size =>
    rw [afterSize_some hread] at h ⊢
    obtain ⟨hnone, hsome⟩ := @forTypeLoop_eq t size.value type old _ es h
    cases hfirst : firstOf type es with
    | none =>
      obtain ⟨it, hloop⟩ := hnone hfirst
      exact afterLoop_ok hloop
    | some v => exact afterLoop_error (hsome v hfirst)

theorem length_blockEntries (h : blockEntries data = some es) :
    sizeField data = some es.length := by
  rw [blockEntries] at h
  cases hread : (readSize data).1 with
  | none => cases (afterSize_none hread).symm.trans h
  | some size =>
    rw [afterSize_some hread] at h
    rw [sizeField, hread, map_some, length_readEntries h]

/-- Turns that each take an entry are no more than the block has room for. -/
theorem turns_le {σ ρ : Type} {turn : σ → Except ρ σ} (iter : σ → PickleIterator)
    {size : Answer Nat} {it : PickleIterator} {s : σ} (hread : readSize data = (some size, it))
    (hs : iter s = it)
    (hturn : ∀ s s', turn s = .ok s' → ∃ e, readEntry (iter s) = some (e, iter s')) :
    (countedLoop turn size.value s).2 ≤ data.length / 8 := by
  have hpaid : ∀ s s', turn s = .ok s' → bytesLeft (iter s') + 8 ≤ bytesLeft (iter s) := by
    intro s s' h
    obtain ⟨e, he⟩ := hturn s s' h
    exact bytesLeft_readEntry he
  have h := countedLoop_turns_le (by decide) hpaid size.value s
  have hleft := bytesLeft_size (congrArg fst hread)
  rw [hread] at hleft
  rw [hs] at h
  dsimp only at hleft
  omega

theorem typesTurn_ok {k : Nat} {s s' : PickleIterator × List String16}
    (h : typesTurn t k s = .ok s') : ∃ e, readEntry s.1 = some (e, s'.1) := by
  obtain ⟨it, types⟩ := s
  rw [typesTurn] at h
  rw [readEntry]
  rcases hname : it.readString16 with ⟨_ | name, next⟩
  · simp [hname] at h
  · rw [hname] at h
    dsimp only at h ⊢
    rcases skipString16_cases t next with ⟨a, b, last, hread, hskip⟩ | ⟨last, last', hread, hskip⟩
    · rw [hskip] at h
      cases h
      rw [hread]
      exact ⟨_, rfl⟩
    · rw [hskip] at h
      cases h

theorem intoMapTurn_ok {s s' : PickleIterator × StringMap} (h : intoMapTurn s = .ok s') :
    ∃ e, readEntry s.1 = some (e, s'.1) := by
  obtain ⟨it, m⟩ := s
  rw [intoMapTurn_eq] at h
  cases hentry : readEntry it with
  | none => simp [hentry] at h
  | some p =>
    rw [hentry] at h
    cases h
    exact ⟨p.1, rfl⟩

theorem readCustomDataTypes_turns (types : List String16) :
    (readCustomDataTypes t data types).2 ≤ data.length / 8 := by
  rw [readCustomDataTypes]
  rcases hread : readSize data with ⟨_ | size, it⟩
  · exact zero_le _
  · rw [afterSize_some rfl, afterLoop_turns]
    exact turns_le fst hread rfl fun s s' h => typesTurn_ok h

theorem readCustomDataForType_turns (type old : String16) :
    (readCustomDataForType t data type old).2 ≤ data.length / 8 := by
  rw [readCustomDataForType]
  rcases hread : readSize data with ⟨_ | size, it⟩
  · exact zero_le _
  · rw [afterSize_some rfl, afterLoop_turns]
    exact turns_le id hread rfl fun s s' h => forTypeTurn_ok t h

theorem readCustomDataIntoMap_turns (m : StringMap) :
    (readCustomDataIntoMap data m).2 ≤ data.length / 8 := by
  rw [readCustomDataIntoMap]
  rcases hread : readSize data with ⟨_ | size, it⟩
  · exact zero_le _
  · rw [afterSize_some rfl, afterLoop_turns]
    exact turns_le fst hread rfl fun s s' h => intoMapTurn_ok h

/-! ## What was written -/

/-- The values WriteCustomDataToPickle writes. -/
def written (m : StringMap) : List (Value t) :=
  .uint64 (BitVec.ofNat 64 m.entries.length) ::
    m.entries.flatMap fun e => [.string16 e.1, .string16 e.2]

variable {heap : Heap}

theorem writeString16_eq {value : String16} {p p' : Pickle}
    (h : p.write t heap (.string16 value) = some p') : writeString16 t heap value p = p' := by
  rw [write] at h
  obtain ⟨q, hq, hp'⟩ := bind_eq_some_iff.mp h
  rw [writeString16, hq]
  dsimp only
  rw [hp']
  rfl

theorem writeEntries_eq {p p' : Pickle}
    (h : p.writeAll t heap (es.flatMap fun e => [.string16 e.1, .string16 e.2]) = some p') :
    es.foldl (fun p e => writeString16 t heap e.2 (writeString16 t heap e.1 p)) p = p' := by
  induction es generalizing p with
  | nil => exact some.inj h
  | cons e es ih =>
    rw [flatMap_cons, cons_append, cons_append, nil_append, writeAll] at h
    obtain ⟨q, hq, h⟩ := bind_eq_some_iff.mp h
    rw [writeAll] at h
    obtain ⟨r, hr, h⟩ := bind_eq_some_iff.mp h
    rw [foldl_cons, writeString16_eq hq, writeString16_eq hr]
    exact ih h

/-- With no write failing, the pickle has all of the map. -/
theorem writeCustomDataToPickle_eq {m : StringMap} {p p' : Pickle}
    (h : p.writeAll t heap (written m) = some p') : writeCustomDataToPickle t heap m p = p' := by
  rw [written, writeAll] at h
  obtain ⟨q, hq, h⟩ := bind_eq_some_iff.mp h
  rw [write] at hq
  rw [writeCustomDataToPickle, hq]
  exact writeEntries_eq h

theorem readString16_holds {mem : Memory} {ptr stop : Nat} {cs : List (List UInt8)}
    {value : String16} (h : Holds mem stop ptr (@chunks t (.string16 value) ++ cs))
    (hptr : 0 < ptr) (hsmall : stop < 2 ^ 31) :
    ∃ a next, readString16 ⟨mem, ptr, stop⟩ = (some a, ⟨mem, next, stop⟩) ∧
      a.value = value ∧ 0 < next ∧ Holds mem stop next cs := by
  obtain ⟨spans, next, hread, hnext, hrest⟩ := read_finds h hptr hsmall
  rw [readOf, PickleIterator.read, PickleIterator.tag] at hread
  obtain ⟨hans, hit⟩ := Prod.mk.inj hread
  obtain ⟨a, ha, hmap⟩ := map_eq_some_iff.mp hans
  have hvalue : some (Value.string16 a.value) = some (Value.string16 (t := t) value) :=
    congrArg Answer.value hmap
  refine ⟨a, next, Prod.ext ha hit, ?_, hnext, hrest⟩
  simpa using hvalue

theorem readEntries_holds {mem : Memory} {ptr stop : Nat}
    (h : Holds mem stop ptr ((es.flatMap fun e =>
      ([.string16 e.1, .string16 e.2] : List (Value t))).flatMap chunks)) (hptr : 0 < ptr)
    (hsmall : stop < 2 ^ 31) : readEntries es.length ⟨mem, ptr, stop⟩ = some es := by
  induction es generalizing ptr with
  | nil => rfl
  | cons e es ih =>
    simp only [flatMap_cons, flatMap_append, flatMap_nil, append_nil,
      append_assoc] at h
    obtain ⟨name, next, hname, hname', hnext, hrest⟩ := readString16_holds h hptr hsmall
    obtain ⟨value, last, hvalue, hvalue', hlast, hrest'⟩ := readString16_holds hrest hnext hsmall
    have hentry : readEntry ⟨mem, ptr, stop⟩ = some (e, ⟨mem, last, stop⟩) := by
      rw [readEntry, hname]
      dsimp only
      rw [hvalue]
      dsimp only
      rw [hname', hvalue']
    rw [length_cons, readEntries, hentry]
    dsimp only
    rw [ih hrest' hlast]
    rfl

theorem readEntries_room {n : Nat} {it : PickleIterator} (h : readEntries n it = some es) :
    8 * n ≤ bytesLeft it := by
  induction n generalizing it es with
  | zero => omega
  | succ n ih =>
    rw [readEntries] at h
    split at h
    · cases h
    · rename_i hentry
      obtain ⟨es', hes', -⟩ := map_eq_some_iff.mp h
      have := ih hes'
      have := bytesLeft_readEntry hentry
      omega

/-- A map written without a failed write is what its block lists. -/
theorem blockEntries_written {headerSize : Nat} {m : StringMap} {p₀ p : Pickle}
    (hmin : 4 ≤ headerSize) (hmax : headerSize ≤ kPayloadUnit)
    (hnew : new t heap headerSize = some p₀)
    (hwrite : p₀.writeAll t heap (written m) = some p)
    (hsmall : alignInt headerSize 4 + sizeAfter 0 ((written (t := t) m).flatMap chunks) < 2 ^ 31) :
    blockEntries p.toData = some m.entries := by
  have hlengths : ∀ c ∈ (written (t := t) m).flatMap chunks, c.length < 2 ^ 31 := by
    intro c hc
    have hle := length_le_sizeAfter 0 hc
    omega
  rw [writeAll_eq hlengths] at hwrite
  obtain ⟨mem₀, hrep₀⟩ := new_represents hmin hmax hnew
  obtain ⟨mem, hrep⟩ := writeChunks_represents hrep₀ hwrite hsmall
  rw [nil_append] at hrep
  obtain ⟨viewMem, hview⟩ := ofData_represents hrep
  generalize hstop : alignInt headerSize 4 + sizeAfter 0 ((written (t := t) m).flatMap chunks) =
    stop at hsmall
  have hlen : p.toData.length < 2 ^ 31 := by
    have hdata : p.toData = load mem 0 stop := by
      simp only [toData, hrep.header, hrep.headerSize_eq, hrep.payloadSize, hstop]
    rw [hdata, length_load]
    exact hsmall
  have hsize : readSize p.toData =
      readBuiltinType 8 ⟨viewMem, alignInt headerSize 4, stop⟩ := by
    rw [readSize, skippablePickle, toInt32_of_lt hlen, Int.toNat_natCast, take_length,
      iterator, hview.header]
    simp only [hview.headerSize_eq, hview.payloadSize, hstop]
  have hholds := hview.holds
  rw [hstop, written, flatMap_cons] at hholds
  have hptr : 0 < alignInt headerSize 4 := lt_of_lt_of_le (by omega) hview.room
  rw [readBuiltinType_holds 8 hholds hptr (by simp) (by simp [alignInt])] at hsize
  have hents := readEntries_holds hholds.2.2 (Nat.add_pos_left hptr _) hsmall
  have hcount := readEntries_room hents
  have hvalue : leValue ((leBytes 8 (BitVec.ofNat 64 m.entries.length).toNat).take 8) =
      m.entries.length := by
    rw [take_of_length_le (by simp), leValue_leBytes, BitVec.toNat_ofNat]
    rw [bytesLeft] at hcount
    dsimp only at hcount
    omega
  rw [blockEntries, hsize, afterSize_some rfl]
  rw [hvalue]
  exact hents

/-! ## Agreement -/

/-- ReadCustomDataTypes appends what the block lists, in whole or not at all. -/
theorem readCustomDataTypes_all_or_nothing (types : List String16) :
    (readCustomDataTypes t data types).1 = types ∨ ∃ es, blockEntries data = some es ∧
      (readCustomDataTypes t data types).1 = types ++ es.map fst := by
  rw [readCustomDataTypes_entries]
  cases blockEntries data with
  | none => simp
  | some es => exact Or.inr ⟨es, rfl, rfl⟩

/-- Names in the number of the size field mean that the block was read to its end. -/
theorem blockEntries_of_names {types names : List String16}
    (hsize : sizeField data = some names.length)
    (h : (readCustomDataTypes t data types).1 = types ++ names) :
    ∃ es, blockEntries data = some es ∧ es.map fst = names := by
  rw [readCustomDataTypes_entries] at h
  have hnames := append_cancel_left h
  cases hes : blockEntries data with
  | some es => exact ⟨es, rfl, by simpa [hes] using hnames⟩
  | none =>
    obtain rfl : names = [] := by simpa [hes] using hnames.symm
    rw [sizeField] at hsize
    obtain ⟨size, hread, hzero⟩ := map_eq_some_iff.mp hsize
    rw [blockEntries, afterSize_some hread, hzero] at hes
    cases hes

/-- The three readers of custom clipboard data. A map written without a failed write is read back.
Of any block whatsoever no loop takes more turns than an eighth of its length, the names come all
or not at all, and if they come the map has them as its keys; of each name it has the last value
listed, the reader for a type the first, and so both the same where all of them are. -/
theorem custom_data_readers {heap : Heap} {headerSize : Nat} {m : StringMap} {p₀ p : Pickle}
    (hmin : 4 ≤ headerSize) (hmax : headerSize ≤ kPayloadUnit)
    (hnew : new t heap headerSize = some p₀)
    (hwrite : p₀.writeAll t heap (written m) = some p)
    (hsmall : alignInt headerSize 4 + sizeAfter 0 ((written (t := t) m).flatMap chunks) < 2 ^ 31)
    (data : List UInt8) :
    (let block := (writeCustomDataToPickle t heap m p₀).toData;
      (∀ types, (readCustomDataTypes t block types).1 = types ++ m.keys) ∧
      (readCustomDataIntoMap block .empty).1 = m ∧
      ∀ k v, m.find k = some v → ∀ old, (readCustomDataForType t block k old).1 = v) ∧
    ((∀ types, (readCustomDataTypes t data types).2 ≤ data.length / 8) ∧
      (∀ type old, (readCustomDataForType t data type old).2 ≤ data.length / 8) ∧
      ∀ result, (readCustomDataIntoMap data result).2 ≤ data.length / 8) ∧
    (∀ types, (readCustomDataTypes t data types).1 = types ∨
      ∃ names, sizeField data = some names.length ∧
        (readCustomDataTypes t data types).1 = types ++ names) ∧
    ∀ types names, sizeField data = some names.length →
      (readCustomDataTypes t data types).1 = types ++ names →
      let read := (readCustomDataIntoMap data .empty).1;
      (∀ k, k ∈ read.keys ↔ k ∈ names) ∧
      ∃ es, blockEntries data = some es ∧ es.map fst = names ∧ ∀ k ∈ names,
        read.find k = lastOf k es ∧
        (∀ old, firstOf k es = some (readCustomDataForType t data k old).1) ∧
        ((∀ v w, (k, v) ∈ es → (k, w) ∈ es → v = w) →
          ∀ old, read.find k = some (readCustomDataForType t data k old).1) := by
  have hwritten := blockEntries_written hmin hmax hnew hwrite hsmall
  rw [writeCustomDataToPickle_eq hwrite]
  refine ⟨⟨fun types => ?_, ?_, fun k v hv old => ?_⟩,
    ⟨readCustomDataTypes_turns, readCustomDataForType_turns, readCustomDataIntoMap_turns⟩,
    fun types => ?_, fun types names hsize hnames => ?_⟩
  · rw [readCustomDataTypes_entries, hwritten]
    rfl
  · rw [readCustomDataIntoMap_entries _ hwritten, SortedMap.putAll_entries]
  · rw [readCustomDataForType_entries k old hwritten]
    exact congrArg (getD · old) hv
  · refine (readCustomDataTypes_all_or_nothing types).imp_right ?_
    rintro ⟨es, hes, happend⟩
    exact ⟨es.map fst, by rw [length_blockEntries hes, length_map], happend⟩
  · obtain ⟨es, hes, rfl⟩ := blockEntries_of_names hsize hnames
    have hfind : ∀ k, (readCustomDataIntoMap data .empty).1.find k = lastOf k es := by
      intro k
      rw [readCustomDataIntoMap_entries _ hes, SortedMap.find_putAll, SortedMap.find_empty,
        or_none]
    have hfirst : ∀ k ∈ es.map fst, ∀ old,
        firstOf k es = some (readCustomDataForType t data k old).1 := by
      intro k hk old
      obtain ⟨v, hv⟩ := isSome_iff_exists.mp (firstOf_isSome_iff.mpr hk)
      rw [readCustomDataForType_entries k old hes, hv, getD_some]
    refine ⟨fun k => ?_, es, hes, rfl, fun k hk => ⟨hfind k, hfirst k hk, fun hsame old => ?_⟩⟩
    · rw [SortedMap.mem_keys_iff, hfind, lastOf_isSome_iff]
    · rw [hfind, lastOf_eq_firstOf hsame, hfirst k hk old]

def oneEntry : StringMap := ⟨[([0x61], [0x62])], pairwise_singleton _ _⟩

theorem custom_data_readers_one :
    ∃ p₀ p, new .lp64 usedHeap 4 = some p₀ ∧
      p₀.writeAll .lp64 usedHeap (written oneEntry) = some p ∧
      (readCustomDataIntoMap (writeCustomDataToPickle .lp64 usedHeap oneEntry p₀).toData .empty).1 =
        oneEntry := by
  have hwrite : ∃ p₀ p, new .lp64 usedHeap 4 = some p₀ ∧
      p₀.writeAll .lp64 usedHeap (written oneEntry) = some p := ⟨_, _, rfl, rfl⟩
  obtain ⟨p₀, p, hnew, hwrite⟩ := hwrite
  have h := custom_data_readers (by decide) (by decide) hnew hwrite (by decide) []
  exact ⟨p₀, p, hnew, hwrite, h.1.2.1⟩

/-- A block that lists the name a twice, with the values b and c. -/
def repeatedBlock : List UInt8 :=
  [40, 0, 0, 0, 2, 0, 0, 0, 0, 0, 0, 0,
    1, 0, 0, 0, 0x61, 0, 0, 0, 1, 0, 0, 0, 0x62, 0, 0, 0,
    1, 0, 0, 0, 0x61, 0, 0, 0, 1, 0, 0, 0, 0x63, 0, 0, 0]

/-- The first 64 bytes can be allocated and no more. -/
def tightHeap : Heap := ⟨fun n => n ≤ 64, fun _ => 205⟩

def longEntry : StringMap := ⟨[([0x61], replicate 40 0x62)], pairwise_singleton _ _⟩

/-- The readers of a repeated name differ, and a map whose writes fail is not read back. -/
theorem custom_data_disagrees :
    ((readCustomDataTypes .lp64 repeatedBlock []).1 = [[0x61], [0x61]] ∧
      (readCustomDataForType .lp64 repeatedBlock [0x61] []).1 = [0x62] ∧
      (readCustomDataIntoMap repeatedBlock .empty).1.find [0x61] = some [0x63]) ∧
    ((new .lp64 tightHeap 4).map fun p =>
      (readCustomDataTypes .lp64
        (writeCustomDataToPickle .lp64 tightHeap longEntry p).toData []).1) = some [] := by
  have hes : blockEntries repeatedBlock = some [([0x61], [0x62]), ([0x61], [0x63])] := by
    decide
  constructor
  · rw [readCustomDataTypes_entries, readCustomDataForType_entries _ _ hes,
      readCustomDataIntoMap_entries _ hes, hes]
    decide
  · decide

end ChromiumUI.Clipboard
