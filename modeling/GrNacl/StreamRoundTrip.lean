import GrNacl.StreamFreshness

/-! Two blocks of crypt_tagged_stream in series. The two nonces stay equal, so the
second block removes the keystream the first one added. -/
namespace GrNacl
set_option autoImplicit false

open EffectTrace

theorem stream_xor_succeeds_of_keystream (S : Sodium) (h : S.StreamXorKeystream) :
    S.StreamXorSucceeds := by
  obtain ⟨keystream, hks⟩ := h
  intro m n k
  rw [hks]

/-- The state after a successful call. -/
def CryptTaggedStream.next (b : CryptTaggedStream) : CryptTaggedStream :=
  if b.dRotateNonce then { b with dNonce := rotateNonce b.dNonce } else b

theorem workPacket_encrypts (S : Sodium) (hx : S.StreamXorSucceeds) (b : CryptTaggedStream)
    (s : Schedule) (p : Bytes) (hne : p ≠ []) :
    (workPacket S b s p).packet = (S.cryptoStreamXor p b.dNonce b.dKey).2 ∧
    (workPacket S b s p).block = b.next := by
  have hfit := outBuffer_fits s p
  have hw := work_encrypts S b s.garbage p (s.outBuffer p) hne hfit
  rw [hx] at hw
  constructor
  · rw [workPacket, hw, WorkResult.packet, reportProduced_ret, reportProduced_out, if_pos rfl,
      Int.toNat_natCast]
    exact List.take_left' (S.stream_xor_size p b.dNonce b.dKey)
  · rw [workPacket, hw]
    exact congrArg WorkResult.block (if_pos rfl)

/-- From equal states, a packet comes back through the second block, and the two
blocks are in equal states again. -/
theorem workPacket_inverse (S : Sodium) (hks : S.StreamXorKeystream) (b : CryptTaggedStream)
    (s t : Schedule) (p : Bytes) (hne : p ≠ []) :
    (workPacket S b t (workPacket S b s p).packet).packet = p ∧
    (workPacket S b t (workPacket S b s p).packet).block = (workPacket S b s p).block := by
  have hx := stream_xor_succeeds_of_keystream S hks
  obtain ⟨hp, hb⟩ := workPacket_encrypts S hx b s p hne
  have hlen : (workPacket S b s p).packet.length = p.length := by
    rw [hp]
    exact S.stream_xor_size p b.dNonce b.dKey
  -- a packet keeps its length, so the second guard is passed too
  have hne' : (workPacket S b s p).packet ≠ [] :=
    fun h => hne (List.length_eq_zero_iff.mp (by rw [← hlen, h, List.length_nil]))
  obtain ⟨hp', hb'⟩ := workPacket_encrypts S hx b t _ hne'
  constructor
  · rw [hp', hp, S.stream_xor_cancel hks]
  · rw [hb', hb]

theorem runPackets_inverse (S : Sodium) (hks : S.StreamXorKeystream) (sched sched' : ℕ → Schedule)
    (i : ℕ) (b : CryptTaggedStream) (packets : List Bytes) (hp : ∀ p ∈ packets, p ≠ []) :
    (runPackets S sched' i b ((runPackets S sched i b packets).map WorkResult.packet)).map
      WorkResult.packet = packets ∧
    (runPackets S sched' i b ((runPackets S sched i b packets).map WorkResult.packet)).map
      WorkResult.block = (runPackets S sched i b packets).map WorkResult.block := by
  -- both blocks go on from one state, so the induction is over all states
  induction packets generalizing i b with
  | nil => exact ⟨rfl, rfl⟩
  | cons p rest ih =>
    obtain ⟨hne, hrest⟩ := List.forall_mem_cons.mp hp
    obtain ⟨hback, hsync⟩ := workPacket_inverse S hks b (sched i) (sched' i) p hne
    obtain ⟨hpackets, hblocks⟩ := ih (i+1) (workPacket S b (sched i) p).block hrest
    simp only [runPackets, List.map_cons, hback, hsync, hpackets, hblocks, and_self]

/-- Every sequence of non-empty packets comes back unchanged through two blocks
made from one key, nonce and flag, whose nonces agree after every packet. -/
theorem stream_round_trip (S : Sodium) (hks : S.StreamXorKeystream) (key : StreamKey)
    (nonce : StreamNonce) (rotate : Bool) (sched sched' : ℕ → Schedule) (packets : List Bytes)
    (hp : ∀ p ∈ packets, p ≠ []) :
    ∃ e d, (cryptTaggedStream key.toList nonce.toList rotate).result = .ok e ∧
      (cryptTaggedStream key.toList nonce.toList rotate).result = .ok d ∧
      (runPackets S sched' 0 d ((runPackets S sched 0 e packets).map WorkResult.packet)).map
        WorkResult.packet = packets ∧
      (runPackets S sched' 0 d ((runPackets S sched 0 e packets).map WorkResult.packet)).map
        (fun r => r.block.dNonce) = (runPackets S sched 0 e packets).map (fun r => r.block.dNonce) := by
  have hmake : (cryptTaggedStream key.toList nonce.toList rotate).result = .ok ⟨key,nonce,rotate⟩ := by
    rw [cryptTaggedStream_vectors, Run.result_pure]
  obtain ⟨hpackets, hblocks⟩ :=
    runPackets_inverse S hks sched sched' 0 ⟨key,nonce,rotate⟩ packets hp
  refine ⟨_, _, hmake, hmake, hpackets, ?_⟩
  have hnonces := congrArg (List.map CryptTaggedStream.dNonce) hblocks
  simpa only [List.map_map, Function.comp_def] using hnonces

theorem stream_round_trip_reference :
    ∃ e d, (cryptTaggedStream zeroKey.toList boundaryNonce.toList true).result = .ok e ∧
      (cryptTaggedStream zeroKey.toList boundaryNonce.toList true).result = .ok d ∧
      (runPackets referenceSodium idleSchedule 0 d
        ((runPackets referenceSodium idleSchedule 0 e [[7],[8,9]]).map WorkResult.packet)).map
          WorkResult.packet = [[7],[8,9]] ∧
      (runPackets referenceSodium idleSchedule 0 d
        ((runPackets referenceSodium idleSchedule 0 e [[7],[8,9]]).map WorkResult.packet)).map
          (fun r => r.block.dNonce) =
        (runPackets referenceSodium idleSchedule 0 e [[7],[8,9]]).map (fun r => r.block.dNonce) :=
  stream_round_trip referenceSodium reference_stream_xor_keystream zeroKey boundaryNonce true
    idleSchedule idleSchedule [[7],[8,9]] (by decide)

end GrNacl
