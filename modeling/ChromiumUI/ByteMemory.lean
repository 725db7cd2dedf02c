import Mathlib

/-!
# Bytes in memory

Little-endian integers, and loads and stores of byte ranges of a flat memory.
-/
namespace ChromiumUI.ByteMemory

open List Nat

/-- The `n` low bytes of a number, least significant first. -/
def leBytes : Nat → Nat → List UInt8
  | 0, _ => []
  | n + 1, v => UInt8.ofNat v :: leBytes n (v / 256)

/-- The number whose bytes these are, least significant first. -/
def leValue : List UInt8 → Nat
  | [] => 0
  | b :: bs => b.toNat + 256 * leValue bs

@[simp] theorem length_leBytes (n v : Nat) : (leBytes n v).length = n := by
  induction n generalizing v with
  | zero => rfl
  | succ n ih => simp [leBytes, ih]

theorem leValue_leBytes (n v : Nat) : leValue (leBytes n v) = v % 256 ^ n := by
  induction n generalizing v with
  | zero => simp [leBytes, leValue, mod_one]
  | succ n ih =>
    have hbyte : (UInt8.ofNat v).toNat = v % 256 := rfl
    rw [leBytes, leValue, ih, hbyte, Nat.pow_succ, Nat.mul_comm (256 ^ n) 256, Nat.mod_mul]

theorem leValue_leBytes_of_lt {n v : Nat} (h : v < 256 ^ n) : leValue (leBytes n v) = v := by
  rw [leValue_leBytes, mod_eq_of_lt h]

theorem leValue_lt (bs : List UInt8) : leValue bs < 256 ^ bs.length := by
  induction bs with
  | nil => simp [leValue]
  | cons b bs ih =>
    have hb := b.toNat_lt
    rw [leValue, List.length_cons, Nat.pow_succ]
    omega

abbrev Memory := Nat → UInt8

/-- The `n` bytes from `ptr` on. -/
def load (mem : Memory) : Nat → Nat → List UInt8
  | _, 0 => []
  | ptr, n + 1 => mem ptr :: load mem (ptr + 1) n

/-- Copy the bytes to `ptr` and behind. -/
def store (mem : Memory) (ptr : Nat) (bytes : List UInt8) : Memory :=
  fun i => if ptr ≤ i then (bytes[i - ptr]?).getD (mem i) else mem i

@[simp] theorem load_zero (mem : Memory) (ptr : Nat) : load mem ptr 0 = [] := rfl

@[simp] theorem length_load (mem : Memory) (ptr n : Nat) : (load mem ptr n).length = n := by
  induction n generalizing ptr with
  | zero => rfl
  | succ n ih => simp [load, ih]

theorem load_add (mem : Memory) (ptr m n : Nat) :
    load mem ptr (m + n) = load mem ptr m ++ load mem (ptr + m) n := by
  induction m generalizing ptr with
  | zero => simp
  | succ m ih =>
    rw [Nat.add_right_comm, load, load, ih, List.cons_append, Nat.add_right_comm ptr 1 m,
      Nat.add_assoc]

theorem load_congr {mem mem' : Memory} {ptr n : Nat}
    (h : ∀ i, ptr ≤ i → i < ptr + n → mem i = mem' i) : load mem ptr n = load mem' ptr n := by
  induction n generalizing ptr with
  | zero => rfl
  | succ n ih =>
    have hhead := h ptr (Nat.le_refl _) (by omega)
    have htail : load mem (ptr + 1) n = load mem' (ptr + 1) n :=
      ih (fun i h₁ h₂ => h i (by omega) (by omega))
    rw [load, load, hhead, htail]

theorem load_shift (mem : Memory) (ptr n k : Nat) :
    load (fun i => mem (i + k)) ptr n = load mem (ptr + k) n := by
  induction n generalizing ptr with
  | zero => rfl
  | succ n ih => rw [load, load, ih, Nat.add_right_comm]

/-- A list of bytes as a memory of its own. -/
def ofBytes (bytes : List UInt8) : Memory :=
  fun i => (bytes[i]?).getD 0

theorem load_ofBytes (bytes : List UInt8) : load (ofBytes bytes) 0 bytes.length = bytes := by
  induction bytes with
  | nil => rfl
  | cons b bs ih =>
    have hshift : load (ofBytes (b :: bs)) 1 bs.length = load (ofBytes bs) 0 bs.length :=
      (load_shift (ofBytes (b :: bs)) 0 bs.length 1).symm
    rw [List.length_cons, load, Nat.zero_add, hshift, ih]
    rfl

theorem ofBytes_load (mem : Memory) {n i : Nat} (h : i < n) : ofBytes (load mem 0 n) i = mem i := by
  have hget : ∀ ptr n i, i < n → (load mem ptr n)[i]? = some (mem (ptr + i)) := by
    intro ptr n
    induction n generalizing ptr with
    | zero => omega
    | succ n ih =>
      intro i hi
      cases i with
      | zero => rfl
      | succ i =>
        rw [load, getElem?_cons_succ, ih (ptr + 1) i (by omega)]
        congr 2
        omega
  rw [ofBytes, hget 0 n i h, Nat.zero_add]
  rfl

@[simp] theorem store_before {mem : Memory} {ptr i : Nat} (bytes : List UInt8) (h : i < ptr) :
    store mem ptr bytes i = mem i :=
  if_neg (Nat.not_le.mpr h)

@[simp] theorem store_after {mem : Memory} {ptr i : Nat} {bytes : List UInt8}
    (h : ptr + bytes.length ≤ i) : store mem ptr bytes i = mem i := by
  unfold store
  rw [if_pos (by omega), getElem?_eq_none (by omega)]
  rfl

theorem load_store_self (mem : Memory) (ptr : Nat) (bytes : List UInt8) :
    load (store mem ptr bytes) ptr bytes.length = bytes := by
  have h : load (store mem ptr bytes) ptr bytes.length = load (ofBytes bytes) 0 bytes.length := by
    rw [← Nat.zero_add ptr, ← load_shift]
    refine load_congr fun i _ hi => ?_
    have hlt : i < bytes.length := by omega
    simp [store, ofBytes, hlt]
  rw [h, load_ofBytes]

theorem load_store_before {mem : Memory} {ptr from_ n : Nat} (bytes : List UInt8)
    (h : from_ + n ≤ ptr) : load (store mem ptr bytes) from_ n = load mem from_ n :=
  load_congr fun _ _ _ => store_before bytes (by omega)

/-- `n` consecutive little-endian units of `size` bytes each. -/
def loadUnits (mem : Memory) (size : Nat) : Nat → Nat → List Nat
  | _, 0 => []
  | ptr, n + 1 => leValue (load mem ptr size) :: loadUnits mem size (ptr + size) n

theorem loadUnits_eq {mem : Memory} {size ptr : Nat} {units : List Nat}
    (hunits : ∀ u ∈ units, u < 256 ^ size)
    (h : load mem ptr (size * units.length) = units.flatMap (leBytes size)) :
    loadUnits mem size ptr units.length = units := by
  induction units generalizing ptr with
  | nil => rfl
  | cons u us ih =>
    rw [List.length_cons, Nat.mul_succ, Nat.add_comm, load_add, List.flatMap_cons] at h
    obtain ⟨hhead, htail⟩ := append_inj h (by simp)
    rw [length_cons, loadUnits, hhead, leValue_leBytes_of_lt (hunits u mem_cons_self),
      ih (fun v hv => hunits v (mem_cons_of_mem u hv)) htail]

end ChromiumUI.ByteMemory
