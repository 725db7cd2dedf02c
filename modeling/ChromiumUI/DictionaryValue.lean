import Mathlib.Data.List.TakeWhile
import Mathlib.Tactic.Common

/-!
# A dictionary reached by dotted paths

DictionaryValue::Set and Get cut the path at its first delimiter and go on with the rest, Remove
cuts it at the last one. `find`, `store` and `erase` do the same on the components of the path.
-/
namespace ChromiumUI.DictionaryValue

open List Option Function

set_option linter.unusedSectionVars false

abbrev Bytes := List UInt8

/-- What a Value* points at: the object and what it holds. -/
inductive Value (α : Type*) where
  | data (address : Nat) (value : α)
  | dictionary (address : Nat) (entries : Bytes → Option (Value α))

/-- `dictionary_` -/
abbrev Dictionary (α : Type*) := Bytes → Option (Value α)

variable {α : Type*}

/-- The pointer itself. -/
def Value.address : Value α → Nat
  | .data address _ => address
  | .dictionary address _ => address

def delimiter : UInt8 := 0x2e

/-- `current_path.substr(0, delimiter_position)` -/
def key (path : Bytes) : Bytes := path.takeWhile (· ≠ delimiter)

/-- The path from the first delimiter on, empty where there is none. -/
def fromDelimiter (path : Bytes) : Bytes := path.dropWhile (· ≠ delimiter)

theorem key_append (path : Bytes) : key path ++ fromDelimiter path = path :=
  takeWhile_append_dropWhile

variable {path rest : Bytes}

theorem length_key {c : UInt8} (h : fromDelimiter path = c :: rest) :
    (key path).length < path.length ∧ rest.length < path.length := by
  have := congrArg length (key_append path)
  rw [h, length_append, length_cons] at this
  omega

def get (d : Dictionary α) (path : Bytes) : Option (Value α) :=
  match _h : fromDelimiter path with
  | [] => d path
  | _ :: rest =>
    -- GetDictionary of the key, which is Get of a path without delimiters
    match get d (key path) with
    | some (.dictionary _ child) => get child rest
    | _ => none
termination_by path.length
decreasing_by
  · exact (length_key _h).1
  · exact (length_key _h).2

def getDictionary (d : Dictionary α) (path : Bytes) : Option (Dictionary α) :=
  match get d path with
  | some (.dictionary _ child) => some child
  | _ => none

def setWithoutPathExpansion (d : Dictionary α) (key : Bytes) (value : Value α) : Dictionary α :=
  update d key (some value)

/-- `next`: where `new DictionaryValue` puts the next object. -/
def set (d : Dictionary α) (path : Bytes) (value : Value α) (next : Nat) : Dictionary α :=
  match _h : fromDelimiter path with
  | [] => setWithoutPathExpansion d path value
  | _ :: rest =>
    match get d (key path) with
    | some (.dictionary address child) =>
      update d (key path) (some (.dictionary address (set child rest value next)))
    | _ =>
      setWithoutPathExpansion d (key path)
        (.dictionary next (set (fun _ => none) rest value (next + 1)))
termination_by path.length
decreasing_by all_goals exact (length_key _h).2

def removeWithoutPathExpansion (d : Dictionary α) (key : Bytes) :
    Option (Value α × Dictionary α) :=
  (d key).map fun entry => (entry, update d key none)

/-- What a call on the object that GetDictionary finds does to the dictionary it is found in. -/
def write (d : Dictionary α) (path : Bytes) (entries : Dictionary α) : Dictionary α :=
  match _h : fromDelimiter path with
  | [] =>
    match d path with
    | some (.dictionary address _) => update d path (some (.dictionary address entries))
    | _ => d
  | _ :: rest =>
    match d (key path) with
    | some (.dictionary address child) =>
      update d (key path) (some (.dictionary address (write child rest entries)))
    | _ => d
termination_by path.length
decreasing_by exact (length_key _h).2

/-- The value handed out, and the dictionary then. -/
def remove (d : Dictionary α) (path : Bytes) : Option (Value α × Dictionary α) :=
  -- from its end the path is read as rfind does
  match fromDelimiter path.reverse with
  | [] => removeWithoutPathExpansion d path
  | _ :: front =>
    (getDictionary d front.reverse).bind fun child =>
      (removeWithoutPathExpansion child (key path.reverse).reverse).map fun (out, entries) =>
        (out, write d front.reverse entries)

/-! ## Components -/

def components (path : Bytes) : List Bytes := path.splitOn delimiter

theorem not_mem_key (path : Bytes) : delimiter ∉ key path := fun hin => by
  simpa using mem_takeWhile_imp hin

theorem eq_key_append {c : UInt8} (h : fromDelimiter path = c :: rest) :
    path = key path ++ delimiter :: rest := by
  have hc : c = delimiter := by
    have hhead := head?_dropWhile_not (fun b => decide (b ≠ delimiter)) path
    rw [show path.dropWhile _ = c :: rest from h] at hhead
    simpa using hhead
  rw [← hc, ← h, key_append]

theorem components_key {c : UInt8} (h : fromDelimiter path = c :: rest) :
    components path = key path :: components rest ∧ components (key path) = [key path] := by
  constructor
  · conv_lhs => rw [eq_key_append h]
    exact splitOn_append_cons_self_of_not_mem (not_mem_key path) ..
  · exact splitOn_eq_singleton (not_mem_key path)

theorem components_nil (h : fromDelimiter path = []) : components path = [path] := by
  apply splitOn_eq_singleton
  intro hin
  simpa using dropWhile_eq_nil_iff.mp h _ hin

def find (d : Dictionary α) : List Bytes → Option (Value α)
  | [] => none
  | [k] => d k
  | k :: l :: ks =>
    match d k with
    | some (.dictionary _ child) => find child (l :: ks)
    | _ => none

def store (d : Dictionary α) (value : Value α) (next : Nat) : List Bytes → Dictionary α
  | [] => d
  | [k] => update d k (some value)
  | k :: l :: ks =>
    match d k with
    | some (.dictionary address child) =>
      update d k (some (.dictionary address (store child value next (l :: ks))))
    | _ =>
      update d k
        (some (.dictionary next (store (fun _ => none) value (next + 1) (l :: ks))))

def erase (d : Dictionary α) : List Bytes → Option (Value α × Dictionary α)
  | [] => none
  | [k] => (d k).map fun entry => (entry, update d k none)
  | k :: l :: ks =>
    match d k with
    | some (.dictionary address child) =>
      (erase child (l :: ks)).map fun (out, entries) =>
        (out, update d k (some (.dictionary address entries)))
    | _ => none

theorem components_cons {c : UInt8} (h : fromDelimiter path = c :: rest) :
    ∃ l ls, components rest = l :: ls ∧ components path = key path :: l :: ls := by
  obtain ⟨l, ls, hrest⟩ := exists_cons_of_ne_nil (splitOn_ne_nil delimiter rest)
  exact ⟨l, ls, hrest, by rw [(components_key h).1]; exact congrArg _ hrest⟩

section

variable (d : Dictionary α)
include d

theorem get_eq (path : Bytes) : get d path = find d (components path) := by
  fun_induction get d path with
  | case1 d path h => rw [components_nil h, find]
  | case2 d path c rest h address child hchild ihkey ih =>
    obtain ⟨l, ls, hrest, hpath⟩ := components_cons h
    rw [(components_key h).2, find] at ihkey
    rw [ih, hpath, find, ← ihkey, hchild, hrest]
  | case3 d path c rest h hnot ihkey =>
    obtain ⟨l, ls, -, hpath⟩ := components_cons h
    rw [(components_key h).2, find] at ihkey
    rw [hpath, find, ← ihkey]
    split
    · exact absurd ‹_› (hnot _ _)
    · rfl

theorem set_eq (path : Bytes) (value : Value α) (next : Nat) :
    set d path value next = store d value next (components path) := by
  fun_induction set d path value next with
  | case1 d path next h => rw [components_nil h, store, setWithoutPathExpansion]
  | case2 d path next c rest h address child hchild ih =>
    obtain ⟨l, ls, hrest, hpath⟩ := components_cons h
    rw [get_eq, (components_key h).2, find] at hchild
    rw [ih, hpath, store, hchild, hrest]
  | case3 d path next c rest h hnot ih =>
    obtain ⟨l, ls, hrest, hpath⟩ := components_cons h
    rw [get_eq, (components_key h).2, find] at hnot
    rw [ih, hpath, store, hrest, setWithoutPathExpansion]
    split
    · exact absurd ‹_› (hnot _ _)
    · rfl

theorem erase_append (front last : Bytes) :
    erase d (components front ++ [last]) = (getDictionary d front).bind fun child =>
      (removeWithoutPathExpansion child last).map fun (out, entries) =>
        (out, write d front entries) := by
  unfold getDictionary
  fun_induction get d front with
  | case1 d front h =>
    rw [components_nil h, singleton_append, erase]
    cases hd : d front with
    | none => rfl
    | some value =>
      cases value with
      | data => rfl
      | dictionary address child =>
        simp only [erase, removeWithoutPathExpansion, Option.bind_some, Option.map_map]
        congr 1
        funext out
        unfold write
        split
        · simp [hd]
        · simp_all
  | case2 d front c rest h address child hchild ihkey ih =>
    obtain ⟨l, ls, hrest, hpath⟩ := components_cons h
    rw [get_eq, (components_key h).2, find] at hchild
    rw [hpath, cons_append, cons_append, erase, hchild]
    simp only
    rw [← cons_append, ← hrest, ih, Option.map_bind]
    congr 1
    funext entries
    simp only [comp_apply, Option.map_map]
    congr 1
    funext out
    conv_rhs => unfold write
    split
    · simp_all
    · rename_i heq
      rw [h] at heq
      cases heq
      simp [hchild]
  | case3 d front c rest h hnot ihkey =>
    obtain ⟨l, ls, -, hpath⟩ := components_cons h
    rw [get_eq, (components_key h).2, find] at hnot
    rw [hpath, cons_append, cons_append, erase]
    split
    · exact absurd ‹_› (hnot _ _)
    · rfl

theorem remove_eq (path : Bytes) : remove d path = erase d (components path) := by
  unfold remove
  cases h : fromDelimiter path.reverse with
  | nil =>
    have : delimiter ∉ path := by
      have := not_mem_key path.reverse
      rw [← append_nil (key _), ← h, key_append] at this
      simpa using this
    rw [components, splitOn_eq_singleton this, erase, removeWithoutPathExpansion]
  | cons c front =>
    have hpath := congrArg reverse (eq_key_append h)
    simp only [reverse_reverse, reverse_append, reverse_cons, append_assoc,
      singleton_append] at hpath
    have hlast : delimiter ∉ (key path.reverse).reverse := by simpa using not_mem_key path.reverse
    have : components path = components front.reverse ++ [(key path.reverse).reverse] := by
      conv_lhs => rw [hpath]
      rw [components, splitOn_append_cons_self, splitOn_eq_singleton hlast]
      rfl
    rw [this, erase_append]

end

/-! ## The store -/

variable {ks : List Bytes}

theorem find_update_of_ne (d : Dictionary α) {k : Bytes} (value : Option (Value α))
    (h : ks.head? ≠ some k) : find (update d k value) ks = find d ks := by
  cases ks with
  | nil => rfl
  | cons l ks =>
    have hne : l ≠ k := by simpa using h
    cases ks <;> simp only [find, update_of_ne hne]

theorem find_update_self (d : Dictionary α) (k l : Bytes) (address : Nat) (child : Dictionary α)
    (ks : List Bytes) :
    find (update d k (some (.dictionary address child))) (k :: l :: ks) =
      find child (l :: ks) := by
  simp [find]

theorem find_store (d : Dictionary α) (value : Value α) (next : Nat) (h : ks ≠ []) :
    find (store d value next ks) ks = some value := by
  fun_induction store d value next ks with
  | case1 => exact absurd rfl h
  | case2 d next k => simp [find]
  | case3 d next k l ks address child hchild ih => rw [find_update_self, ih (by simp)]
  | case4 d next k l ks hnot ih => rw [find_update_self, ih (by simp)]

theorem find_empty (ks : List Bytes) : find (fun _ => none : Dictionary α) ks = none := by
  rcases ks with _ | ⟨k, _ | ⟨l, ks⟩⟩ <;> rfl

theorem find_store_of_ne (d : Dictionary α) (value : Value α) (next : Nat) {js : List Bytes}
    (hks : ¬ks <+: js) (hjs : ¬js <+: ks) : find (store d value next ks) js = find d js := by
  fun_induction store d value next ks generalizing js with
  | case1 => rfl
  | case2 d next k =>
    apply find_update_of_ne
    intro hhead
    obtain ⟨js, rfl⟩ := head?_eq_some_iff.mp hhead
    exact hks (by simp)
  | case3 d next k l ks address child hchild ih =>
    by_cases hhead : js.head? = some k
    · obtain ⟨js, rfl⟩ := head?_eq_some_iff.mp hhead
      cases js with
      | nil => exact absurd (by simp) hjs
      | cons j js =>
        rw [cons_prefix_cons] at hks hjs
        rw [find_update_self, ih (by simpa using hks) (by simpa using hjs), find, hchild]
    · exact find_update_of_ne d _ hhead
  | case4 d next k l ks hnot ih =>
    by_cases hhead : js.head? = some k
    · obtain ⟨js, rfl⟩ := head?_eq_some_iff.mp hhead
      cases js with
      | nil => exact absurd (by simp) hjs
      | cons j js =>
        rw [cons_prefix_cons] at hks hjs
        rw [find_update_self, ih (by simpa using hks) (by simpa using hjs), find_empty, find]
        split
        · exact absurd ‹_› (hnot _ _)
        · rfl
    · exact find_update_of_ne d _ hhead

theorem map_erase (d : Dictionary α) (ks : List Bytes) : (erase d ks).map (·.1) = find d ks := by
  fun_induction erase d ks with
  | case1 => rfl
  | case2 d k => cases h : d k <;> simp [find, h]
  | case3 d k l ks address child hchild ih =>
    rw [find, hchild]
    simp only
    rw [← ih, Option.map_map]
    rfl
  | case4 d k l ks hnot =>
    rw [find]
    split
    · exact absurd ‹_› (hnot _ _)
    · rfl

/-- What is gone, what is as it was, and the dictionaries on the way, which are the same objects. -/
theorem find_erase {d d' : Dictionary α} {out : Value α} (h : erase d ks = some (out, d')) :
    find d' ks = none ∧ ∀ js, ¬ks <+: js →
      (find d' js).map Value.address = (find d js).map Value.address ∧
        (¬js <+: ks → find d' js = find d js) := by
  fun_induction erase d ks generalizing out d' with
  | case1 => cases h
  | case2 d k =>
    obtain ⟨entry, hentry, heq⟩ := map_eq_some_iff.mp h
    cases heq
    refine ⟨by simp [find], fun js hjs => ?_⟩
    rw [find_update_of_ne d none]
    · exact ⟨rfl, fun _ => rfl⟩
    · intro hhead
      obtain ⟨js, rfl⟩ := head?_eq_some_iff.mp hhead
      exact hjs (by simp)
  | case3 d k l ks address child hchild ih =>
    obtain ⟨⟨out', entries⟩, herase, heq⟩ := map_eq_some_iff.mp h
    cases heq
    obtain ⟨hgone, hsame⟩ := ih herase
    refine ⟨by rw [find_update_self, hgone], fun js hjs => ?_⟩
    by_cases hhead : js.head? = some k
    · obtain ⟨js, rfl⟩ := head?_eq_some_iff.mp hhead
      cases js with
      | nil => exact ⟨by simp [find, hchild, Value.address], fun hne => absurd (by simp) hne⟩
      | cons j js =>
        rw [find_update_self, find, hchild]
        obtain ⟨haddr, hne⟩ := hsame (j :: js) fun hpre => hjs (cons_prefix_cons.mpr ⟨rfl, hpre⟩)
        exact ⟨haddr, fun hnot => hne fun hpre => hnot (cons_prefix_cons.mpr ⟨rfl, hpre⟩)⟩
    · rw [find_update_of_ne d _ hhead]
      exact ⟨rfl, fun _ => rfl⟩
  | case4 => cases h

/-- Paths of a dictionary: what is set is there, what is removed was there and is not, and no other
path is touched. A path that leads to the place of the removed value still finds the same object. -/
theorem paths_store (d : Dictionary α) (path : Bytes) :
    (∀ value next, get (set d path value next) path = some value ∧
      ∀ q, ¬components path <+: components q → ¬components q <+: components path →
        get (set d path value next) q = get d q) ∧
    (remove d path).map (·.1) = get d path ∧
    ∀ out d', remove d path = some (out, d') → get d' path = none ∧
      ∀ q, ¬components path <+: components q →
        (get d' q).map Value.address = (get d q).map Value.address ∧
          (¬components q <+: components path → get d' q = get d q) := by
  simp only [get_eq, set_eq, remove_eq]
  refine ⟨fun value next => ⟨?_, ?_⟩, map_erase d _, fun out d' hremove => ?_⟩
  · exact find_store d value next (splitOn_ne_nil delimiter path)
  · exact fun q hpath hq => find_store_of_ne d value next hpath hq
  · obtain ⟨hgone, hsame⟩ := find_erase hremove
    exact ⟨hgone, fun q hq => hsame _ hq⟩

end ChromiumUI.DictionaryValue
