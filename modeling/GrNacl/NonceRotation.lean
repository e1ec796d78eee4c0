import GrNacl.ShiftRegister
import GrNacl.SodiumInstance
import GrNacl.TaggedStream
import Mathlib.Data.Nat.Bitwise
import Mathlib.Tactic.IntervalCases

/-! The nonce register as a string of 192 bits, and what one rotation of work does
to it. Compared with a turn of the ring, the bits that should cross an inner
byte boundary are lost. -/
namespace GrNacl
set_option autoImplicit false

open ShiftRegister CountedLoop

/-- Bit p of a byte, the top bit first. -/
def msb (b : UInt8) (p : ℕ) : Bool := b.toNat.testBit (7-p)

theorem msb_shift (b : UInt8) (p : ℕ) (hp : p < 8) :
    msb (b <<< 1) p = (decide (p < 7) && msb b (p+1)) := by
  have hs : (b <<< 1).toNat = b.toNat <<< 1 % 2^8 := by
    rw [UInt8.toNat_shiftLeft]
    rfl
  rw [msb, hs, Nat.testBit_mod_two_pow, Nat.testBit_shiftLeft, msb]
  by_cases h7 : p < 7
  · simp [h7, show 7-p < 8 from by omega, show 1 ≤ 7-p from by omega,
      show 7-p-1 = 7-(p+1) from by omega]
  · simp [show p = 7 from by omega]

theorem stored_bit_zero_iff (b : UInt8) : (0b10000000 : UInt8) &&& b = 0 ↔ msb b 0 = false := by
  rw [← UInt8.toNat_inj, UInt8.toNat_and]
  change 2^7 &&& b.toNat = 0 ↔ b.toNat.testBit 7 = false
  rw [Nat.two_pow_and]
  cases b.toNat.testBit 7 <;> simp

theorem msb_clear_low (b : UInt8) (p : ℕ) (hp : p < 8) :
    msb (b &&& 0b11111110) p = (decide (p < 7) && msb b p) := by
  have hmask : (254:ℕ).testBit (7-p) = decide (p < 7) := by
    interval_cases p <;> decide
  rw [msb, UInt8.toNat_and, Nat.testBit_and, show (0b11111110 : UInt8).toNat = 254 from rfl,
    hmask, Bool.and_comm, msb]

theorem msb_set_low (b : UInt8) (p : ℕ) (hp : p < 8) :
    msb (b ||| 0b00000001) p = (decide (p = 7) || msb b p) := by
  have hmask : (1:ℕ).testBit (7-p) = decide (p = 7) := by
    interval_cases p <;> decide
  rw [msb, UInt8.toNat_or, Nat.testBit_or, show (0b00000001 : UInt8).toNat = 1 from rfl,
    hmask, Bool.or_comm, msb]

theorem byte_ext (a b : UInt8) (h : ∀ p < 8, msb a p = msb b p) : a = b := by
  -- two bytes also agree on the bits they do not have
  have hhigh (c : UInt8) (i : ℕ) (hi : 8 ≤ i) : c.toNat.testBit i = false :=
    Nat.testBit_lt_two_pow (lt_of_lt_of_le c.toNat_lt (Nat.pow_le_pow_right (by decide) hi))
  apply UInt8.toNat_inj.mp
  apply Nat.eq_of_testBit_eq
  intro i
  by_cases hi : i < 8
  · have hp := h (7-i) (by omega)
    simpa only [msb, show 7-(7-i) = i from by omega] using hp
  · rw [hhigh a i (by omega), hhigh b i (by omega)]

theorem msb_zero_iff (b : UInt8) : msb b 0 = false ↔ b.toNat < 128 := by
  constructor
  · intro h
    by_contra hge
    have hbit : b.toNat.testBit 7 = true :=
      Nat.testBit_of_two_pow_le_and_two_pow_add_one_gt (by omega) b.toNat_lt
    rw [msb, Nat.sub_zero, hbit] at h
    contradiction
  · exact fun h => Nat.testBit_lt_two_pow h

theorem byte_index_lt (i : Fin 192) : i.val/8 < cryptoStreamNONCEBYTES := by
  have hi := i.isLt
  change i.val/8 < 24
  omega

/-- The nonce as a big-endian string of bits. -/
def bits (n : StreamNonce) (i : Fin 192) : Bool := msb (n.get ⟨i.val/8, byte_index_lt i⟩) (i.val%8)

theorem bits_injective : Function.Injective bits := by
  intro a b h
  apply Vector.ext
  intro k hk
  apply byte_ext
  intro p hp
  have hk24 : k < 24 := hk
  -- bit p of byte k stands at position 8k+p
  have hi := congrFun h ⟨8*k+p, by omega⟩
  have hbit : msb (a.get ⟨k,hk⟩) p = msb (b.get ⟨k,hk⟩) p := by
    simpa only [bits, show (8*k+p)/8 = k from by omega, show (8*k+p)%8 = p from by omega] using hi
  exact hbit

def zeroNonce : StreamNonce := Vector.replicate cryptoStreamNONCEBYTES 0

theorem bits_zeroNonce (i : Fin 192) : bits zeroNonce i = false := by
  have hz : zeroNonce.get ⟨i.val/8, byte_index_lt i⟩ = 0 := Vector.getElem_replicate _
  rw [bits, hz, msb]
  exact Nat.zero_testBit _

theorem eq_zeroNonce_iff (n : StreamNonce) : n = zeroNonce ↔ ∀ i, bits n i = false := by
  constructor
  · rintro rfl
    exact bits_zeroNonce
  · intro h
    apply bits_injective
    funext i
    rw [h, bits_zeroNonce]

theorem rotateNonce_get (n : StreamNonce) (k : Fin 24) :
    (rotateNonce n).get k =
      if k.val = 23 then
        if msb (n.get 0) 0 = false then (n.get k <<< 1) &&& 0b11111110
        else (n.get k <<< 1) ||| 0b00000001
      else n.get k <<< 1 := by
  obtain ⟨k,hk⟩ := k
  have hloop := foldl_set_eq_map (fun b : UInt8 => b <<< 1) n
  have hst := stored_bit_zero_iff (n.get 0)
  unfold rotateNonce
  rw [hloop]
  change (if (0b10000000 : UInt8) &&& n.get 0 = 0 then _ else _ : StreamNonce).get ⟨k,hk⟩ = _
  -- the last byte is fixed up by the stored bit, the others are only shifted
  by_cases hb : msb (n.get 0) 0 = false
  · rw [if_pos (hst.mpr hb), if_pos hb]
    change (Vector.set _ _ _ _)[k] = _
    by_cases hlast : k = 23
    · subst hlast
      simp [Vector.get]
    · simp [hlast, Vector.getElem_set_ne, Ne.symm hlast, Vector.get]
  · rw [if_neg (fun h => hb (hst.mp h)), if_neg hb]
    change (Vector.set _ _ _ _)[k] = _
    by_cases hlast : k = 23
    · subst hlast
      simp [Vector.get]
    · simp [hlast, Vector.getElem_set_ne, Ne.symm hlast, Vector.get]

theorem turn_bits (n : StreamNonce) (i : Fin 192) :
    turn (bits n) i = bits n ⟨(i.val+1)%192, Nat.mod_lt _ (by decide)⟩ :=
  turn_iterate_apply 1 (bits n) i

/-- The positions that a turn fills across an inner byte boundary. -/
def AcrossBoundary (i : Fin 192) : Prop := i.val%8 = 7 ∧ i.val ≠ 191

instance (i : Fin 192) : Decidable (AcrossBoundary i) := inferInstanceAs (Decidable (_ ∧ _))

/-- One rotation of work is a turn that clears these positions. -/
theorem bits_rotateNonce (n : StreamNonce) (i : Fin 192) :
    bits (rotateNonce n) i = (!decide (AcrossBoundary i) && turn (bits n) i) := by
  have hp : i.val%8 < 8 := Nat.mod_lt _ (by decide)
  rw [turn_bits, bits, rotateNonce_get, bits]
  by_cases hlow : i.val%8 = 7
  · by_cases hend : i.val = 191
    · -- the last position receives the stored bit of the first byte
      simp only [AcrossBoundary, hend]
      cases hb : msb (n.get 0) 0 <;> simp [msb_clear_low, msb_set_low, hb]
    · -- the low bit of an inner byte comes out of the shift as zero
      have hbyte : i.val/8 ≠ 23 := by omega
      simp [AcrossBoundary, hlow, hend, hbyte, msb_shift]
  · -- inside a byte the bit to the right moves up
    have hdiv : (i.val+1)%192/8 = i.val/8 := by omega
    have hmod : (i.val+1)%192%8 = i.val%8+1 := by omega
    have hlt : i.val%8 < 7 := by omega
    simp only [AcrossBoundary, hlow, false_and, decide_false, Bool.not_false, Bool.true_and, hdiv,
      hmod]
    split_ifs <;> simp [msb_clear_low, msb_set_low, msb_shift, hp, hlt, hlow]

/-- No byte after the first has its top bit set. -/
def InnerTopBitsClear (n : StreamNonce) : Prop := ∀ k : Fin 24, k.val ≠ 0 → (n.get k).toNat < 128

theorem innerTopBitsClear_iff (n : StreamNonce) :
    InnerTopBitsClear n ↔ ∀ i, AcrossBoundary i → turn (bits n) i = false := by
  constructor
  · rintro h i ⟨hlow,hend⟩
    -- what would enter position i is the top bit of the next byte
    rw [turn_bits, bits]
    simp only [show (i.val+1)%192%8 = 0 from by omega]
    exact (msb_zero_iff _).mpr (h ⟨(i.val+1)%192/8, by omega⟩ (by change (i.val+1)%192/8 ≠ 0; omega))
  · intro h k hk
    have hk24 : k.val < 24 := k.isLt
    have hi := h ⟨8*k.val-1, by omega⟩ ⟨by change (8*k.val-1)%8 = 7; omega,
      by change 8*k.val-1 ≠ 191; omega⟩
    rw [turn_bits, bits] at hi
    simp only [show (8*k.val-1+1)%192 = 8*k.val from by omega, show 8*k.val%8 = 0 from by omega,
      show 8*k.val/8 = k.val from by omega] at hi
    exact (msb_zero_iff _).mp hi

theorem bits_rotateNonce_le_turn (n : StreamNonce) (i : Fin 192)
    (h : bits (rotateNonce n) i = true) : turn (bits n) i = true := by
  rw [bits_rotateNonce, Bool.and_eq_true] at h
  exact h.2

/-- The rotation is a turn of the ring exactly when nothing crosses an inner
byte boundary. -/
theorem bits_rotateNonce_eq_turn_iff (n : StreamNonce) :
    bits (rotateNonce n) = turn (bits n) ↔ InnerTopBitsClear n := by
  rw [innerTopBitsClear_iff]
  constructor
  · intro h i hi
    rw [← congrFun h i, bits_rotateNonce, decide_eq_true hi]
    rfl
  · intro h
    funext i
    rw [bits_rotateNonce]
    by_cases hi : AcrossBoundary i
    · rw [h i hi, Bool.and_false]
    · rw [decide_eq_false hi]
      rfl

theorem bitCount_rotateNonce_iff (n : StreamNonce) :
    bitCount (bits (rotateNonce n)) = bitCount (bits n) ↔ InnerTopBitsClear n := by
  rw [← bitCount_turn (bits n), bitCount_eq_iff_of_le _ _ (bits_rotateNonce_le_turn n)]
  exact bits_rotateNonce_eq_turn_iff n

/-- The number of rotations after which a bit has left the register. The bits of
the first byte pass through the last byte before they leave. -/
def exitTime (j : Fin 192) : ℕ := if j.val < 8 then j.val+9 else j.val%8+1

/-- Some set bit of the nonce is still in the register after m rotations. -/
def Outlives (n : StreamNonce) (m : ℕ) : Prop := ∃ j, bits n j = true ∧ m < exitTime j

instance (n : StreamNonce) (m : ℕ) : Decidable (Outlives n m) :=
  inferInstanceAs (Decidable (∃ j, bits n j = true ∧ m < exitTime j))

theorem outlives_zero_iff (n : StreamNonce) : Outlives n 0 ↔ n ≠ zeroNonce := by
  have hpos (j : Fin 192) : 0 < exitTime j := by
    unfold exitTime
    split <;> omega
  rw [ne_eq, eq_zeroNonce_iff]
  constructor
  · rintro ⟨j,hj,-⟩ h
    exact Bool.false_ne_true ((h j).symm.trans hj)
  · intro h
    obtain ⟨j,hj⟩ := not_forall.mp h
    exact ⟨j, by simpa using hj, hpos j⟩

/-- A rotation brings every surviving bit one step closer to its exit. -/
theorem outlives_rotateNonce (n : StreamNonce) (m : ℕ) :
    Outlives (rotateNonce n) m ↔ Outlives n (m+1) := by
  constructor
  · rintro ⟨i,hi,hm⟩
    rw [bits_rotateNonce, Bool.and_eq_true, turn_bits] at hi
    have hin : ¬AcrossBoundary i := by simpa using hi.1
    -- its bit was one position to the right, one rotation further from its exit
    refine ⟨_, hi.2, ?_⟩
    have hsplit : ¬(i.val%8 = 7 ∧ i.val ≠ 191) := hin
    unfold exitTime at hm ⊢
    dsimp only
    split_ifs at hm ⊢ <;> omega
  · rintro ⟨j,hj,hm⟩
    -- the bit of position j now stands one position to the left
    let i : Fin 192 := ⟨(j.val+191)%192, Nat.mod_lt _ (by decide)⟩
    have hback : (i.val+1)%192 = j.val := by
      change ((j.val+191)%192+1)%192 = j.val
      omega
    -- it was not dropped on the way, since it had more than one rotation left
    have hin : ¬AcrossBoundary i := by
      rintro ⟨h7,hne⟩
      unfold exitTime at hm
      split_ifs at hm <;> omega
    refine ⟨i, ?_, ?_⟩
    · rw [bits_rotateNonce, decide_eq_false hin, turn_bits, Bool.not_false, Bool.true_and]
      exact (congrArg (bits n) (Fin.ext hback)).trans hj
    · have hi : i.val = (j.val+191)%192 := rfl
      unfold exitTime at hm ⊢
      split_ifs at hm ⊢ <;> omega

theorem rotateNonce_iterate_ne_zero_iff (n : StreamNonce) (m : ℕ) :
    rotateNonce^[m] n ≠ zeroNonce ↔ Outlives n m := by
  induction m generalizing n with
  | zero => exact (outlives_zero_iff n).symm
  | succ m ih => rw [Function.iterate_succ_apply, ih, outlives_rotateNonce]

/-- After sixteen rotations nothing is left of any nonce. -/
theorem rotateNonce_iterate_sixteen (n : StreamNonce) : rotateNonce^[16] n = zeroNonce := by
  by_contra h
  obtain ⟨j,-,hj⟩ := (rotateNonce_iterate_ne_zero_iff n 16).mp h
  unfold exitTime at hj
  split_ifs at hj <;> omega

theorem rotateNonce_zero : rotateNonce zeroNonce = zeroNonce := by
  rw [eq_zeroNonce_iff]
  intro i
  rw [bits_rotateNonce]
  change (_ && bits zeroNonce _) = false
  rw [bits_zeroNonce, Bool.and_false]

theorem rotateNonce_iterate_of_ge (n : StreamNonce) (m : ℕ) (hm : 16 ≤ m) :
    rotateNonce^[m] n = zeroNonce := by
  rw [← Nat.sub_add_cancel hm, Function.iterate_add_apply, rotateNonce_iterate_sixteen]
  exact Function.iterate_fixed rotateNonce_zero _

theorem rotateNonce_eq_self_iff (n : StreamNonce) : rotateNonce n = n ↔ n = zeroNonce := by
  constructor
  · intro h
    rw [← rotateNonce_iterate_sixteen n]
    exact (Function.iterate_fixed h 16).symm
  · rintro rfl
    exact rotateNonce_zero

end GrNacl
