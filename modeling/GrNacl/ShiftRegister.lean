import Mathlib.Data.Fintype.Card
import Mathlib.Data.Nat.ModEq
import Mathlib.Logic.Equiv.Fin.Rotate
import Mathlib.Logic.Function.Iterate

/-! Bit strings on a ring, and orbits of a map that reach a fixed point.
Position 0 is the first bit; a turn moves every bit one position to the left. -/
namespace ShiftRegister
set_option autoImplicit false

variable {n : ℕ}

/-- One turn to the left: position i receives the bit of position i+1, the last
position that of the first. -/
def turn (f : Fin n → Bool) : Fin n → Bool := f ∘ finRotate n

theorem finRotate_val (i : Fin n) : (finRotate n i).val = (i.val+1)%n := by
  cases n with
  | zero => exact i.elim0
  | succ n =>
    rw [coe_finRotate]
    split_ifs with h
    · rw [h, Fin.val_last, Nat.mod_self]
    · have hi : i.val ≠ n := fun e => h (Fin.ext e)
      rw [Nat.mod_eq_of_lt (by have := i.isLt; omega)]

theorem turn_iterate_apply (k : ℕ) (f : Fin n → Bool) (i : Fin n) :
    turn^[k] f i = f ⟨(i.val+k)%n, Nat.mod_lt _ i.pos⟩ := by
  induction k generalizing i with
  | zero => simp only [Function.iterate_zero, id_eq, Nat.add_zero, Nat.mod_eq_of_lt i.isLt]
  | succ k ih =>
    rw [Function.iterate_succ_apply']
    change turn^[k] f (finRotate n i) = _
    rw [ih]
    congr 2
    rw [finRotate_val, Nat.mod_add_mod]
    congr 1
    omega

/-- The number of set bits. -/
def bitCount (f : Fin n → Bool) : ℕ := (Finset.univ.filter (fun i => f i = true)).card

theorem bitCount_turn (f : Fin n → Bool) : bitCount (turn f) = bitCount f :=
  Finset.card_equiv (finRotate n) (by simp [turn])

/-- Clearing bits keeps the count only when nothing was cleared. -/
theorem bitCount_eq_iff_of_le (f g : Fin n → Bool) (h : ∀ i, f i = true → g i = true) :
    bitCount f = bitCount g ↔ f = g := by
  constructor
  · intro hc
    have hs : Finset.univ.filter (fun i => f i = true) ⊆
        Finset.univ.filter (fun i => g i = true) := by
      intro i hi
      simpa using h i (by simpa using hi)
    have he := Finset.eq_of_subset_of_card_le hs hc.ge
    funext i
    have hi : i ∈ Finset.univ.filter (fun i => f i = true) ↔
        i ∈ Finset.univ.filter (fun i => g i = true) := by rw [he]
    exact Bool.eq_iff_iff.mpr (by simpa using hi)
  · exact fun e => congrArg bitCount e

/-- The turns of a string with one set bit are pairwise distinct. -/
theorem turn_iterate_injective_of_single (f : Fin n → Bool) (p : Fin n)
    (hf : ∀ i, f i = true ↔ i = p) (a b : ℕ) (ha : a < n) (hb : b < n)
    (h : turn^[a] f = turn^[b] f) : a = b := by
  -- the position that holds the bit after a turns holds it after b turns too
  let i : Fin n := ⟨(p.val+(n-a))%n, Nat.mod_lt _ p.pos⟩
  have hia : (i.val+a)%n = p.val := by
    change ((p.val+(n-a))%n+a)%n = p.val
    rw [Nat.mod_add_mod, show p.val+(n-a)+a = p.val+n from by omega, Nat.add_mod_right,
      Nat.mod_eq_of_lt p.isLt]
  have hset : turn^[b] f i = true := by
    rw [← h, turn_iterate_apply]
    exact (hf _).mpr (Fin.ext hia)
  rw [turn_iterate_apply] at hset
  have hib : (i.val+b)%n = p.val := congrArg Fin.val ((hf _).mp hset)
  have hm : (i.val+a)%n = (i.val+b)%n := hia.trans hib.symm
  have hab : a%n = b%n := Nat.ModEq.add_left_cancel' i.val hm
  rwa [Nat.mod_eq_of_lt ha, Nat.mod_eq_of_lt hb] at hab

/-! Orbits that end in a fixed point. -/

variable {α : Type}

/-- Two equal states of an orbit are both the fixed point it ends in. -/
theorem orbit_repeat (f : α → α) (x z : α) (hz : f z = z) (N : ℕ) (hN : f^[N] x = z)
    (i j : ℕ) (hij : i < j) (h : f^[i] x = f^[j] x) : f^[i] x = z := by
  -- the orbit repeats with period j-i from position i on
  have hperiod (k : ℕ) : f^[i+k*(j-i)] x = f^[i] x := by
    induction k with
    | zero => simp only [Nat.zero_mul, Nat.add_zero]
    | succ k ih =>
      calc
        f^[i+(k+1)*(j-i)] x = f^[k*(j-i)] (f^[j] x) := by
          rw [← Function.iterate_add_apply, Nat.succ_mul,
            show i+(k*(j-i)+(j-i)) = k*(j-i)+j from by omega]
        _ = f^[k*(j-i)] (f^[i] x) := by rw [h]
        _ = f^[i+k*(j-i)] x := by rw [← Function.iterate_add_apply, Nat.add_comm]
        _ = f^[i] x := ih
  -- so it is at f^[i] x again when it has already reached z
  have hbig : N ≤ i+N*(j-i) := by
    have := Nat.le_mul_of_pos_right N (show 0 < j-i by omega)
    omega
  rw [← hperiod N, ← Nat.sub_add_cancel hbig, Function.iterate_add_apply, hN]
  exact Function.iterate_fixed hz _

/-- The first m states of such an orbit are distinct exactly when at most the
last of them is the fixed point. -/
theorem orbit_nodup_iff (f : α → α) (x z : α) (hz : f z = z) (N : ℕ) (hN : f^[N] x = z)
    (m : ℕ) :
    ((List.range m).map (fun i => f^[i] x)).Nodup ↔ m ≤ 1 ∨ f^[m-2] x ≠ z := by
  rw [List.nodup_map_iff_inj_on List.nodup_range]
  constructor
  · intro hinj
    by_contra hcon
    obtain ⟨hm, he⟩ := not_or.mp hcon
    -- the last two states would both be z
    have hm2 : 2 ≤ m := by omega
    have hlast : f^[m-1] x = z := by
      rw [show m-1 = (m-2)+1 from by omega, Function.iterate_succ_apply', not_not.mp he, hz]
    have := hinj (m-2) (List.mem_range.mpr (by omega)) (m-1) (List.mem_range.mpr (by omega))
      ((not_not.mp he).trans hlast.symm)
    omega
  · intro hm i hi j hj h
    by_contra hne
    obtain ⟨a, b, hab, hb, he⟩ : ∃ a b, a < b ∧ b < m ∧ f^[a] x = f^[b] x := by
      rcases Nat.lt_or_gt_of_ne hne with hlt | hlt
      · exact ⟨i, j, hlt, List.mem_range.mp hj, h⟩
      · exact ⟨j, i, hlt, List.mem_range.mp hi, h.symm⟩
    have ha := orbit_repeat f x z hz N hN a b hab he
    have hend : f^[m-2] x = z := by
      rw [← Nat.sub_add_cancel (show a ≤ m-2 by omega), Function.iterate_add_apply, ha]
      exact Function.iterate_fixed hz _
    rcases hm with hm | hm
    · omega
    · exact hm hend

end ShiftRegister
