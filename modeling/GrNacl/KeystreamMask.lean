import Mathlib.Data.List.Basic

/-! Masking with a keystream. The elements are combined by an operation in which each is its
own inverse, such as exclusive or. -/
namespace KeystreamMask
set_option autoImplicit false

variable {α : Type} {op : α → α → α}

structure SelfInverse (op : α → α → α) : Prop where
  comm : ∀ a b, op a b = op b a
  assoc : ∀ a b c, op (op a b) c = op a (op b c)
  cancel : ∀ a b, op (op a b) b = a

/-- The i-th element is combined with the i-th of the keystream. -/
def mask (op : α → α → α) (ks : ℕ → α) (m : List α) : List α := m.mapIdx (fun i a => op a (ks i))

@[simp] theorem mask_length (ks : ℕ → α) (m : List α) : (mask op ks m).length = m.length :=
  List.length_mapIdx

@[simp] theorem mask_getElem? (ks : ℕ → α) (m : List α) (i : ℕ) :
    (mask op ks m)[i]? = m[i]?.map (fun a => op a (ks i)) := List.getElem?_mapIdx

theorem mask_ne_nil (ks : ℕ → α) (m : List α) (h : m ≠ []) : mask op ks m ≠ [] := by
  intro hm
  have hlen : (mask op ks m).length = m.length := mask_length ks m
  apply h
  rw [← List.length_eq_zero_iff, ← hlen, hm, List.length_nil]

namespace SelfInverse

variable (h : SelfInverse op)
include h

theorem op_right_injective (a b c : α) (he : op a b = op a c) : b = c := by
  rw [← h.cancel b a, h.comm b a, he, h.comm a c, h.cancel]

/-- Two combinations with b and c give back a exactly when b and c are equal. -/
theorem op_op_eq_iff (a b c : α) : op (op a b) c = a ↔ b = c := by
  constructor
  · intro he
    have hb : op a b = op a c := by
      rw [← h.cancel (op a b) c, he]
    exact h.op_right_injective a b c hb
  · rintro rfl
    exact h.cancel a b

theorem mask_comm (ks ks' : ℕ → α) (m : List α) :
    mask op ks (mask op ks' m) = mask op ks' (mask op ks m) := by
  apply List.ext_getElem?
  intro i
  simp only [mask_getElem?, Option.map_map]
  congr 1
  funext a
  exact (h.assoc a (ks' i) (ks i)).trans ((congrArg (op a) (h.comm _ _)).trans
    (h.assoc a (ks i) (ks' i)).symm)

/-- A second mask takes the first one away exactly as far as the keystreams agree. -/
theorem mask_mask_eq_iff (ks ks' : ℕ → α) (m : List α) :
    mask op ks' (mask op ks m) = m ↔ ∀ i < m.length, ks i = ks' i := by
  constructor
  · intro he i hi
    have hget := congrArg (fun l : List α => l[i]?) he
    simp only [mask_getElem?, List.getElem?_eq_getElem hi, Option.map_some,
      Option.some_inj] at hget
    exact (h.op_op_eq_iff _ _ _).mp hget
  · intro hks
    apply List.ext_getElem?
    intro i
    by_cases hi : i < m.length
    · simp only [mask_getElem?, List.getElem?_eq_getElem hi, Option.map_some, Option.some_inj]
      exact (h.op_op_eq_iff _ _ _).mpr (hks i hi)
    · simp only [mask_getElem?, List.getElem?_eq_none (Nat.not_lt.mp hi), Option.map_none]

theorem mask_mask (ks : ℕ → α) (m : List α) : mask op ks (mask op ks m) = m :=
  (h.mask_mask_eq_iff ks ks m).mpr fun _ _ => rfl

/-- Two masked messages combine to the combination of the messages exactly as far as the
keystreams agree. -/
theorem zipWith_mask_eq_iff (ks ks' : ℕ → α) (m m' : List α) :
    List.zipWith op (mask op ks m) (mask op ks' m') = List.zipWith op m m' ↔
      ∀ i < min m.length m'.length, ks i = ks' i := by
  have hswap (a b x y : α) : op (op a x) (op b y) = op (op (op a b) x) y := by
    rw [h.assoc a x, ← h.assoc x b, h.comm x b, h.assoc b x, ← h.assoc a b, ← h.assoc (op a b)]
  -- an element of the combination, where both messages have one
  have hget (i : ℕ) (hm : i < m.length) (hm' : i < m'.length) :
      (List.zipWith op (mask op ks m) (mask op ks' m'))[i]? = (List.zipWith op m m')[i]? ↔
        ks i = ks' i := by
    simp only [List.getElem?_zipWith, mask_getElem?, List.getElem?_eq_getElem hm,
      List.getElem?_eq_getElem hm', Option.map_some, Option.some_inj]
    rw [hswap]
    exact h.op_op_eq_iff _ _ _
  constructor
  · intro he i hi
    exact (hget i (by omega) (by omega)).mp (congrArg (fun l : List α => l[i]?) he)
  · intro hks
    apply List.ext_getElem?
    intro i
    by_cases hi : i < min m.length m'.length
    · exact (hget i (by omega) (by omega)).mpr (hks i hi)
    · rw [List.getElem?_eq_none, List.getElem?_eq_none]
      · rw [List.length_zipWith]
        omega
      · rw [List.length_zipWith, mask_length, mask_length]
        omega

/-- What is combined with a masked message comes through the mask. -/
theorem mask_zipWith (ks : ℕ → α) (m d : List α) :
    mask op ks (List.zipWith op (mask op ks m) d) = List.zipWith op m d := by
  have hswap (a b x : α) : op (op (op a x) b) x = op a b := by
    rw [h.assoc a x, h.comm x b, ← h.assoc, h.cancel]
  apply List.ext_getElem?
  intro i
  simp only [List.getElem?_zipWith, mask_getElem?]
  cases m[i]? with
  | none => rfl
  | some a =>
    cases d[i]? with
    | none => rfl
    | some b => exact congrArg some (hswap a b (ks i))

end SelfInverse

/-! Several masks, one after the other. -/

def maskAll (op : α → α → α) (kss : List (ℕ → α)) (m : List α) : List α :=
  kss.foldl (fun m ks => mask op ks m) m

theorem maskAll_cons (ks : ℕ → α) (kss : List (ℕ → α)) (m : List α) :
    maskAll op (ks :: kss) m = maskAll op kss (mask op ks m) := rfl

theorem maskAll_append (kss kss' : List (ℕ → α)) (m : List α) :
    maskAll op (kss ++ kss') m = maskAll op kss' (maskAll op kss m) := List.foldl_append

/-- The order of the masks does not matter. -/
theorem maskAll_perm (h : SelfInverse op) {kss kss' : List (ℕ → α)} (hperm : kss.Perm kss')
    (m : List α) : maskAll op kss m = maskAll op kss' m := by
  induction hperm generalizing m with
  | nil => rfl
  | cons ks _ ih => exact ih _
  | swap ks ks' kss => rw [maskAll_cons, maskAll_cons, maskAll_cons, maskAll_cons, h.mask_comm]
  | trans _ _ ih ih' => rw [ih, ih']

theorem mask_maskAll (h : SelfInverse op) (ks : ℕ → α) (kss : List (ℕ → α)) (m : List α) :
    mask op ks (maskAll op kss m) = maskAll op kss (mask op ks m) := by
  induction kss generalizing m with
  | nil => rfl
  | cons ks' kss ih => rw [maskAll_cons, ih, h.mask_comm, maskAll_cons]

/-- The same masks once more, in any order, take all of them away. -/
theorem maskAll_twice (h : SelfInverse op) {kss kss' : List (ℕ → α)} (hperm : kss.Perm kss')
    (m : List α) : maskAll op (kss ++ kss') m = m := by
  rw [maskAll_append, ← maskAll_perm h hperm]
  clear hperm
  induction kss generalizing m with
  | nil => rfl
  | cons ks kss ih => rw [maskAll_cons, maskAll_cons, mask_maskAll h, h.mask_mask, ih]

end KeystreamMask
