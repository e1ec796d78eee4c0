import GrNacl.NonceRotation

/-! The nonces of a run of crypt_tagged_stream. A run keeps its nonces apart as long
as some set bit of the first one is still in the register. -/
namespace GrNacl
set_option autoImplicit false

open EffectTrace ShiftRegister

theorem reportProduced_nonce (b : CryptTaggedStream) (hr : b.dRotateNonce = true) (n : ℤ)
    (out : Bytes) (call : Option StreamCall) :
    (reportProduced b 0 n out call).block = { b with dNonce := rotateNonce b.dNonce } := by
  simp only [reportProduced, hr, ↓reduceIte]

/-- A successful call of work leaves the rotated nonce. -/
theorem work_nonce (S : Sodium) (hx : S.StreamXorSucceeds) (b : CryptTaggedStream)
    (hr : b.dRotateNonce = true) (g : ℤ) (input out : Bytes) (hne : input ≠ [])
    (hfit : input.length ≤ out.length) :
    (work S b g input out).block = { b with dNonce := rotateNonce b.dNonce } := by
  rw [work_encrypts S b g input out hne hfit, hx, reportProduced_nonce b hr]

/-- The update of work as a map on nonces, for one call on one block. -/
def nonceUpdate (S : Sodium) (b : CryptTaggedStream) (g : ℤ) (input out : Bytes)
    (n : StreamNonce) : StreamNonce :=
  (work S { b with dNonce := n } g input out).block.dNonce

theorem nonceUpdate_eq (S : Sodium) (hx : S.StreamXorSucceeds) (b : CryptTaggedStream)
    (hr : b.dRotateNonce = true) (g : ℤ) (input out : Bytes) (hne : input ≠ [])
    (hfit : input.length ≤ out.length) : nonceUpdate S b g input out = rotateNonce := by
  funext n
  rw [nonceUpdate, work_nonce S hx { b with dNonce := n } hr g input out hne hfit]

/-- What the update of work has of a rotation: it is a turn of the 192 bits, and
keeps their number, exactly when no inner byte has its top bit set; only the zero
nonce returns after 192 updates, and different nonces can share a successor. -/
theorem work_rotation_exact (S : Sodium) (hx : S.StreamXorSucceeds) (b : CryptTaggedStream)
    (hr : b.dRotateNonce = true) (g : ℤ) (input out : Bytes) (hne : input ≠ [])
    (hfit : input.length ≤ out.length) :
    (∀ n, bits (nonceUpdate S b g input out n) = turn (bits n) ↔ InnerTopBitsClear n) ∧
    (∀ n, bitCount (bits (nonceUpdate S b g input out n)) = bitCount (bits n) ↔
      InnerTopBitsClear n) ∧
    (∀ n, (nonceUpdate S b g input out)^[192] n = n ↔ n = zeroNonce) ∧
    ¬Function.Bijective (nonceUpdate S b g input out) := by
  rw [nonceUpdate_eq S hx b hr g input out hne hfit]
  refine ⟨bits_rotateNonce_eq_turn_iff, bitCount_rotateNonce_iff, ?_, ?_⟩
  · intro n
    rw [rotateNonce_iterate_of_ge n 192 (by decide)]
    exact eq_comm
  · -- an iterate of a bijection is injective, but sixteen rotations forget everything
    intro hbij
    have hinj := hbij.injective.iterate 16
    have heq : zeroNonce = Vector.replicate cryptoStreamNONCEBYTES 1 := hinj (by
      rw [rotateNonce_iterate_sixteen, rotateNonce_iterate_sixteen])
    exact absurd heq (by decide)

def zeroKey : StreamKey := Vector.replicate cryptoStreamKEYBYTES 0

/-- One set bit, the top bit of the second byte. -/
def boundaryNonce : StreamNonce := zeroNonce.set 1 0b10000000 (by decide)

theorem work_rotation_exact_reference :
    let update := nonceUpdate referenceSodium ⟨zeroKey,zeroNonce,true⟩ 7 [1] [0]
    (bits (update boundaryNonce) = turn (bits boundaryNonce) ↔ InnerTopBitsClear boundaryNonce) ∧
      (bitCount (bits (update boundaryNonce)) = bitCount (bits boundaryNonce) ↔
        InnerTopBitsClear boundaryNonce) ∧
      (update^[192] boundaryNonce = boundaryNonce ↔ boundaryNonce = zeroNonce) ∧
      ¬Function.Bijective update := by
  intro update
  obtain ⟨hturn,hcount,hreturn,hbij⟩ := work_rotation_exact referenceSodium
    reference_stream_xor_succeeds ⟨zeroKey,zeroNonce,true⟩ rfl 7 [1] [0] (by decide) (by decide)
  exact ⟨hturn boundaryNonce,hcount boundaryNonce,hreturn boundaryNonce,hbij⟩

theorem bits_boundaryNonce (i : Fin 192) : bits boundaryNonce i = true ↔ i = 8 := by
  revert i
  decide +kernel

theorem rotateNonce_boundaryNonce : rotateNonce boundaryNonce = zeroNonce := by
  by_contra h
  obtain ⟨j,hj,hm⟩ := (rotateNonce_iterate_ne_zero_iff boundaryNonce 1).mp h
  rw [(bits_boundaryNonce j).mp hj] at hm
  exact absurd hm (by decide)

/-- The bit that should cross into the first byte is lost. -/
theorem work_rotation_drops_bit :
    nonceUpdate referenceSodium ⟨zeroKey,zeroNonce,true⟩ 0 [1] [0] boundaryNonce = zeroNonce ∧
    bits (nonceUpdate referenceSodium ⟨zeroKey,zeroNonce,true⟩ 0 [1] [0] boundaryNonce) ≠
      turn (bits boundaryNonce) ∧
    bitCount (bits zeroNonce) ≠ bitCount (bits boundaryNonce) := by
  have hup := nonceUpdate_eq referenceSodium reference_stream_xor_succeeds
    ⟨zeroKey,zeroNonce,true⟩ rfl 0 [1] [0] (by decide) (by decide)
  have htop : ¬InnerTopBitsClear boundaryNonce := fun h => absurd (h 1 (by decide)) (by decide)
  rw [hup, ← rotateNonce_boundaryNonce]
  exact ⟨rfl, fun h => htop ((bits_rotateNonce_eq_turn_iff _).mp h),
    fun h => htop ((bitCount_rotateNonce_iff _).mp h)⟩

/-! Runs. -/

theorem usedNonces_cons (r : WorkResult) (rs : List WorkResult) (c : StreamCall)
    (h : r.call = some c) : usedNonces (r :: rs) = c.nonce :: usedNonces rs :=
  List.filterMap_cons_some (by rw [h]; rfl)

theorem outBuffer_fits (s : Schedule) (packet : Bytes) :
    packet.length ≤ (s.outBuffer packet).length := by
  simp only [Schedule.outBuffer, calculateOutputStreamLength, List.length_map, List.length_range,
    Int.toNat_natCast]
  omega

/-- A run uses the iterated rotations of the nonce it starts from. -/
theorem usedNonces_runPackets (S : Sodium) (hx : S.StreamXorSucceeds) (sched : ℕ → Schedule)
    (i : ℕ) (b : CryptTaggedStream) (hr : b.dRotateNonce = true) (packets : List Bytes)
    (hp : ∀ p ∈ packets, p ≠ []) :
    usedNonces (runPackets S sched i b packets) =
      (List.range packets.length).map (fun j => rotateNonce^[j] b.dNonce) := by
  -- the block after a packet is the same block on the rotated nonce
  induction packets generalizing i b with
  | nil => rfl
  | cons p rest ih =>
    obtain ⟨hne, hrest⟩ := List.forall_mem_cons.mp hp
    have hfit := outBuffer_fits (sched i) p
    have hblock := work_nonce S hx b hr (sched i).garbage p ((sched i).outBuffer p) hne hfit
    have hcall : (workPacket S b (sched i) p).call = some ⟨p, b.dNonce, b.dKey⟩ := by
      rw [workPacket, work_encrypts S b _ p _ hne hfit, reportProduced_call]
    rw [runPackets, usedNonces_cons _ _ _ hcall, List.length_cons, List.range_succ_eq_map,
      List.map_cons, List.map_map]
    change b.dNonce :: usedNonces (runPackets S sched (i+1) (work S b _ p _).block rest) = _
    rw [hblock, ih (i+1) { b with dNonce := rotateNonce b.dNonce } hr hrest]
    rfl

theorem cryptTaggedStream_vectors (key : StreamKey) (nonce : StreamNonce) (rotate : Bool) :
    cryptTaggedStream key.toList nonce.toList rotate = pure ⟨key,nonce,rotate⟩ := by
  rw [cryptTaggedStream, dif_pos key.length_toList, dif_pos nonce.length_toList]
  rfl

/-- A run of m packets keeps its nonces apart exactly when m is at most one or some
set bit of the initial nonce outlives m-2 rotations. -/
theorem stream_nonces_fresh_iff (S : Sodium) (hx : S.StreamXorSucceeds) (sched : ℕ → Schedule)
    (key : StreamKey) (nonce : StreamNonce) (packets : List Bytes) (hp : ∀ p ∈ packets, p ≠ []) :
    ∃ b, (cryptTaggedStream key.toList nonce.toList true).result = .ok b ∧
      (usedNonces (runPackets S sched 0 b packets)).length = packets.length ∧
      ((usedNonces (runPackets S sched 0 b packets)).Nodup ↔
        packets.length ≤ 1 ∨ Outlives nonce (packets.length-2)) := by
  refine ⟨⟨key,nonce,true⟩, by rw [cryptTaggedStream_vectors, Run.result_pure], ?_, ?_⟩
  · rw [usedNonces_runPackets S hx sched 0 _ rfl packets hp, List.length_map, List.length_range]
  · rw [usedNonces_runPackets S hx sched 0 _ rfl packets hp,
      orbit_nodup_iff rotateNonce nonce zeroNonce rotateNonce_zero 16 (rotateNonce_iterate_sixteen nonce),
      rotateNonce_iterate_ne_zero_iff]

def idleSchedule (_ : ℕ) : Schedule := ⟨0, fun _ => 0, 0⟩

theorem stream_nonces_fresh_iff_reference :
    ∃ b, (cryptTaggedStream zeroKey.toList boundaryNonce.toList true).result = .ok b ∧
      (usedNonces (runPackets referenceSodium idleSchedule 0 b [[1],[2]])).length = 2 ∧
      ((usedNonces (runPackets referenceSodium idleSchedule 0 b [[1],[2]])).Nodup ↔
        2 ≤ 1 ∨ Outlives boundaryNonce 0) :=
  stream_nonces_fresh_iff referenceSodium reference_stream_xor_succeeds idleSchedule zeroKey
    boundaryNonce [[1],[2]] (by decide)

/-- Three packets under a nonce whose 192 turns are pairwise distinct: the second
and the third are encrypted with the zero nonce. -/
theorem stream_nonce_repeats :
    (∀ a < 192, ∀ c < 192, turn^[a] (bits boundaryNonce) = turn^[c] (bits boundaryNonce) → a = c) ∧
    ¬(usedNonces (runPackets referenceSodium idleSchedule 0 ⟨zeroKey,boundaryNonce,true⟩
      [[1],[2],[3]])).Nodup := by
  constructor
  · intro a ha c hc h
    exact turn_iterate_injective_of_single _ 8 bits_boundaryNonce a c ha hc h
  · -- the nonces are n, 0, 0: the first rotation already drops the only bit
    rw [usedNonces_runPackets referenceSodium reference_stream_xor_succeeds _ 0 _ rfl _ (by decide)]
    have htwice : rotateNonce (rotateNonce boundaryNonce) = rotateNonce boundaryNonce := by
      rw [rotateNonce_boundaryNonce, rotateNonce_zero]
    intro hnd
    have hne : rotateNonce boundaryNonce ≠ rotateNonce (rotateNonce boundaryNonce) := by
      have htail := (List.nodup_cons.mp hnd).2
      exact fun h => (List.nodup_cons.mp htail).1 (List.mem_singleton.mpr h)
    exact hne htwice.symm

end GrNacl
