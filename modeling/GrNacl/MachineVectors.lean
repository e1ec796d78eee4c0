import GrNacl.PmtValues
import GrNacl.CountedLoop

/-! The machine side of the handlers: size_t arithmetic, std::vector, and the byte
loops whose counter is an int in some blocks and a size_t in others. -/
namespace GrNacl
set_option autoImplicit false

open EffectTrace CountedLoop

-- int k, incremented past INT_MAX: undefined
abbrev intCounter : Counter := some 2147483647

-- size_t k: the size of every vector is within reach
abbrev sizeCounter : Counter := none

/-- `std::vector<uint8_t>::max_size()`. -/
abbrev maxSize : ℕ := 9223372036854775807

-- size_t arithmetic wraps at 2^64
def sizeAdd (a b : ℕ) : ℕ := (a+b)%18446744073709551616
def sizeSub (a b : ℕ) : ℕ := (a+(18446744073709551616-b))%18446744073709551616

theorem sizeAdd_of_le (a b : ℕ) (h : a+b ≤ maxSize) : sizeAdd a b = a+b := by
  have hm : maxSize = 9223372036854775807 := rfl
  exact Nat.mod_eq_of_lt (by omega)

theorem sizeSub_of_le (a b : ℕ) (hb : b ≤ a) (ha : a ≤ maxSize) : sizeSub a b = a-b := by
  have hm : maxSize = 9223372036854775807 := rfl
  unfold sizeSub
  omega

theorem sizeSub_le (a b : ℕ) (h : b ≤ a) : sizeSub a b ≤ a := by
  unfold sizeSub
  omega

/-- A difference that wraps below zero is larger than any vector. -/
theorem maxSize_lt_sizeSub (a b : ℕ) (hab : a < b) (hb : b ≤ maxSize) : maxSize < sizeSub a b := by
  have hm : maxSize = 9223372036854775807 := rfl
  unfold sizeSub
  omega

example : sizeSub 0 16 = 18446744073709551600 := rfl

/-- `std::vector<unsigned char> v(n)`, and `resize(n)` of an empty vector. -/
def vector (n : ℕ) : Handler Bytes :=
  if n ≤ maxSize then pure (List.replicate n 0) else Run.fail .lengthError

def load (v : Bytes) (k : ℕ) : Handler UInt8 :=
  match v[k]? with
  | some b => pure b
  | none => Run.fail .undefinedBehaviour

def store (v : Bytes) (k : ℕ) (b : UInt8) : Handler Bytes :=
  if k < v.length then pure (v.set k b) else Run.fail .undefinedBehaviour

/-- `for (k = 0; k < n; k++) dst[k] = src[k];` -/
def copyBytes (c : Counter) (n : ℕ) (dst src : Bytes) : Handler Bytes :=
  countUpTo c .undefinedBehaviour n dst fun k dst => do
    let b ← load src k
    store dst k b

/-- A new vector of n elements filled from src. -/
def repack (c : Counter) (n : ℕ) (src : Bytes) : Handler Bytes := do
  let dst ← vector n
  copyBytes c n dst src

/-- The first n bytes of a buffer, when it has as many. -/
def arrayOf (n : ℕ) (buf : Bytes) : Option (Vector UInt8 n) :=
  if h : n ≤ buf.length then
    some ⟨(buf.take n).toArray, by rw [List.size_toArray, List.length_take]; omega⟩
  else none

/-- What a callee reads through a pointer to its fixed-size argument. -/
def readArray (n : ℕ) (buf : Bytes) : Handler (Vector UInt8 n) :=
  match arrayOf n buf with
  | some v => pure v
  | none => Run.fail .undefinedBehaviour

theorem vector_of_le (n : ℕ) (h : n ≤ maxSize) : vector n = pure (List.replicate n 0) := if_pos h

theorem vector_of_lt (n : ℕ) (h : maxSize < n) : vector n = Run.fail .lengthError :=
  if_neg (by omega)

/-- One round of a copy: the prefix already written grows by one byte. -/
theorem copy_round (dst src : Bytes) (j : ℕ) (hs : j < src.length) (hd : j < dst.length) :
    (do let b ← load src j; store (src.take j ++ dst.drop j) j b) =
      pure (src.take (j+1) ++ dst.drop (j+1)) := by
  have hload : load src j = pure src[j] := by
    rw [load, List.getElem?_eq_getElem hs]
  have htake : (src.take j).length = j := by
    rw [List.length_take]
    omega
  have hin : j < (src.take j ++ dst.drop j).length := by
    rw [List.length_append, htake, List.length_drop]
    omega
  rw [hload, pure_bind, store, if_pos hin, List.set_append_right _ _ (by omega), htake,
    Nat.sub_self, List.drop_eq_getElem_cons hd, List.set_cons_zero, ← List.take_append_getElem hs,
    List.append_assoc, List.singleton_append]

/-- A copy is complete when the counter covers the length, and overflows otherwise. -/
theorem copyBytes_eq (c : Counter) (dst src : Bytes) (h : dst.length = src.length) :
    copyBytes c src.length dst src =
      if c.Covers src.length then pure src else Run.fail .undefinedBehaviour := by
  have hround (j : ℕ) (hj : j < src.length) := copy_round dst src j hj (by omega)
  have hloop := countUpTo_trajectory c .undefinedBehaviour
    (fun k dst => do let b ← load src k; store dst k b)
    (fun j => src.take j ++ dst.drop j) src.length hround
  rw [copyBytes]
  simpa only [List.take_zero, List.drop_zero, List.nil_append, List.take_length,
    List.drop_eq_nil_of_le (Nat.le_of_eq h), List.append_nil] using hloop

theorem repack_eq (c : Counter) (n : ℕ) (src : Bytes) (hn : src.length = n) (hm : n ≤ maxSize) :
    repack c n src = if c.Covers n then pure src else Run.fail .undefinedBehaviour := by
  subst hn
  rw [repack, vector_of_le _ hm, pure_bind, copyBytes_eq]
  exact List.length_replicate

theorem arrayOf_eq_some_iff (n : ℕ) (buf : Bytes) (v : Vector UInt8 n) :
    arrayOf n buf = some v ↔ n ≤ buf.length ∧ buf.take n = v.toList := by
  unfold arrayOf
  by_cases h : n ≤ buf.length
  · rw [dif_pos h, Option.some_inj, ← Vector.toList_inj]
    exact ⟨fun he => ⟨h,he⟩, fun he => he.2⟩
  · rw [dif_neg h]
    exact iff_of_false (fun he => nomatch he) (fun he => h he.1)

theorem arrayOf_toList (n : ℕ) (v : Vector UInt8 n) : arrayOf n v.toList = some v := by
  have hlen : v.toList.length = n := v.length_toList
  rw [arrayOf_eq_some_iff]
  exact ⟨by omega, List.take_of_length_le (by omega)⟩

/-- A buffer of exactly n bytes is its array. -/
theorem toList_of_arrayOf (n : ℕ) (buf : Bytes) (v : Vector UInt8 n) (h : arrayOf n buf = some v)
    (hlen : buf.length = n) : buf = v.toList := by
  have htake := ((arrayOf_eq_some_iff n buf v).mp h).2
  rw [← htake, List.take_of_length_le (by omega)]

theorem exists_arrayOf (n : ℕ) (buf : Bytes) (h : n ≤ buf.length) : ∃ v, arrayOf n buf = some v :=
  ⟨_, dif_pos h⟩

theorem arrayOf_of_lt (n : ℕ) (buf : Bytes) (h : buf.length < n) : arrayOf n buf = none :=
  dif_neg (by omega)

end GrNacl
