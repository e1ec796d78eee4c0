import GrNacl.StreamRoundTrip
import GrNacl.KeystreamMask

/-! What becomes of a tagged stream on its way: packets that are lost, repeated or swapped,
packets with flipped bits, several blocks in a row, and streams under one key. A run of a
block masks every packet with the keystream of as many steps as its nonce has made. -/
namespace GrNacl
set_option autoImplicit false

open EffectTrace KeystreamMask

/-- The operation of crypto_stream_xor on bytes. -/
def xorByte (a b : UInt8) : UInt8 := a ^^^ b

theorem xorByte_selfInverse : SelfInverse xorByte where
  comm := UInt8.xor_comm
  assoc := UInt8.xor_assoc
  cancel a b := by
    simp only [xorByte]
    rw [UInt8.xor_assoc, UInt8.xor_self, UInt8.xor_zero]

/-- The keystream behind crypto_stream_xor. -/
def Sodium.Masks (S : Sodium) (ks : StreamNonce → StreamKey → ℕ → UInt8) : Prop :=
  ∀ m n k, S.cryptoStreamXor m n k = (0,mask xorByte (ks n k) m)

/-- The nonce of a block after i steps. -/
def CryptTaggedStream.nonceAt (b : CryptTaggedStream) (i : ℕ) : StreamNonce :=
  if b.dRotateNonce then rotateNonce^[i] b.dNonce else b.dNonce

/-- The keystream of a block after i steps. -/
def CryptTaggedStream.keystreamAt (ks : StreamNonce → StreamKey → ℕ → UInt8)
    (b : CryptTaggedStream) (i : ℕ) : ℕ → UInt8 := ks (b.nonceAt i) b.dKey

/-- The calls that make a step: those on a packet, and those on an empty one in which the
status, which nothing has set, happens to hold zero. -/
def Schedule.StepsOn (s : Schedule) (packet : Bytes) : Prop := packet ≠ [] ∨ s.garbage = 0

instance (s : Schedule) (packet : Bytes) : Decidable (s.StepsOn packet) :=
  inferInstanceAs (Decidable (_ ∨ _))

/-- The number of steps in the first k calls of a run. -/
def steps (sched : ℕ → Schedule) : ℕ → List Bytes → ℕ → ℕ
  | _, _, 0 => 0
  | _, [], _+1 => 0
  | i, packet :: rest, k+1 =>
    steps sched (i+1) rest k+(if (sched i).StepsOn packet then 1 else 0)

/-- The packets a block hands on. -/
def encrypted (S : Sodium) (sched : ℕ → Schedule) (b : CryptTaggedStream) (packets : List Bytes) :
    List Bytes := (runPackets S sched 0 b packets).map WorkResult.packet

namespace CryptTaggedStream

variable (b : CryptTaggedStream)

@[simp] theorem nonceAt_zero : b.nonceAt 0 = b.dNonce := by
  rw [nonceAt, Function.iterate_zero_apply, ite_self]

theorem nonceAt_next (i : ℕ) : b.next.nonceAt i = b.nonceAt (i+1) := by
  unfold nonceAt next
  by_cases hr : b.dRotateNonce = true
  · simp only [hr, ↓reduceIte, Function.iterate_succ_apply]
  · simp only [hr, Bool.false_eq_true, ↓reduceIte]

theorem next_dKey : b.next.dKey = b.dKey := by
  unfold next
  split <;> rfl

/-- Without rotation the nonce stays. -/
theorem nonceAt_of_fixed (hr : b.dRotateNonce = false) (i : ℕ) : b.nonceAt i = b.dNonce := by
  rw [nonceAt, hr]
  rfl

/-- With rotation the nonce is zero after sixteen steps. -/
theorem nonceAt_of_rotated (hr : b.dRotateNonce = true) (i : ℕ) (hi : 16 ≤ i) :
    b.nonceAt i = zeroNonce := by
  rw [nonceAt, if_pos hr, rotateNonce_iterate_of_ge b.dNonce i hi]

end CryptTaggedStream

theorem reference_masks : referenceSodium.Masks Reference.keystream := fun _ _ _ => rfl

section Traffic

variable (S : Sodium) (ks : StreamNonce → StreamKey → ℕ → UInt8) (hks : S.Masks ks)
include hks

omit hks in
theorem masks_keystream (h : S.Masks ks) : S.StreamXorKeystream := ⟨ks,h⟩

/-- A call masks its packet, the empty one included, and makes a step or none. -/
theorem workPacket_masked (b : CryptTaggedStream) (s : Schedule) (p : Bytes) :
    (workPacket S b s p).packet = mask xorByte (b.keystreamAt ks 0) p ∧
    (workPacket S b s p).block = if s.StepsOn p then b.next else b := by
  by_cases hne : p = []
  · -- past the guard nothing is produced, and the status is what was there before
    have hw := work_skips S b s.garbage p (s.outBuffer p) (Or.inl hne)
    rw [workPacket, hw]
    refine ⟨?_,?_⟩
    · rw [WorkResult.packet, reportProduced_ret, hne]
      split <;> rfl
    · unfold reportProduced
      simp only [Schedule.StepsOn, hne, ne_eq, not_true_eq_false, false_or]
      split <;> rfl
  · have hx := stream_xor_succeeds_of_keystream S (masks_keystream S ks hks)
    obtain ⟨hpacket,hblock⟩ := workPacket_encrypts S hx b s p hne
    rw [hpacket, hblock, hks, if_pos (show s.StepsOn p from Or.inl hne),
      CryptTaggedStream.keystreamAt, b.nonceAt_zero]
    exact ⟨rfl,rfl⟩

theorem runPackets_masked (sched : ℕ → Schedule) (i : ℕ) (b : CryptTaggedStream)
    (packets : List Bytes) :
    (runPackets S sched i b packets).map WorkResult.packet =
      packets.mapIdx (fun j p => mask xorByte (b.keystreamAt ks (steps sched i packets j)) p) := by
  -- the rest of the run starts from the block after the first call
  induction packets generalizing i b with
  | nil => rfl
  | cons p rest ih =>
    obtain ⟨hpacket,hblock⟩ := workPacket_masked S ks hks b (sched i) p
    rw [runPackets, List.map_cons, hpacket, hblock, ih (i+1), List.mapIdx_cons]
    by_cases hs : (sched i).StepsOn p
    · simp only [steps, hs, ↓reduceIte, CryptTaggedStream.keystreamAt, b.nonceAt_next, b.next_dKey]
    · simp only [steps, hs, ↓reduceIte, Nat.add_zero]

theorem encrypted_getElem? (sched : ℕ → Schedule) (b : CryptTaggedStream) (packets : List Bytes)
    (i : ℕ) : (encrypted S sched b packets)[i]? =
      packets[i]?.map (fun p => mask xorByte (b.keystreamAt ks (steps sched 0 packets i)) p) := by
  rw [encrypted, runPackets_masked S ks hks sched 0 b packets, List.getElem?_mapIdx]

omit hks in
/-- Every packet that is not empty makes a step. -/
theorem steps_of_ne_nil (sched : ℕ → Schedule) (i : ℕ) (packets : List Bytes)
    (hp : ∀ p ∈ packets, p ≠ []) (k : ℕ) (hk : k ≤ packets.length) : steps sched i packets k = k := by
  induction packets generalizing i k with
  | nil =>
    rw [Nat.le_zero.mp hk, steps]
  | cons p rest ih =>
    obtain ⟨hne,hrest⟩ := List.forall_mem_cons.mp hp
    cases k with
    | zero => rw [steps]
    | succ k =>
      rw [List.length_cons, Nat.add_le_add_iff_right] at hk
      rw [steps, ih (i+1) hrest k hk, if_pos (show (sched i).StepsOn p from Or.inl hne)]

theorem encrypted_getElem?_of_ne_nil (sched : ℕ → Schedule) (b : CryptTaggedStream)
    (packets : List Bytes) (hp : ∀ p ∈ packets, p ≠ []) (i : ℕ) :
    (encrypted S sched b packets)[i]? =
      packets[i]?.map (fun p => mask xorByte (b.keystreamAt ks i) p) := by
  rw [encrypted_getElem? S ks hks sched b packets i]
  by_cases hi : i < packets.length
  · rw [steps_of_ne_nil sched 0 packets hp i (Nat.le_of_lt hi)]
  · rw [List.getElem?_eq_none (Nat.not_lt.mp hi), Option.map_none, Option.map_none]

theorem encrypted_ne_nil (sched : ℕ → Schedule) (b : CryptTaggedStream) (packets : List Bytes)
    (hp : ∀ p ∈ packets, p ≠ []) : ∀ c ∈ encrypted S sched b packets, c ≠ [] := by
  intro c hc
  obtain ⟨i,hi,rfl⟩ := List.getElem_of_mem hc
  have hget := encrypted_getElem? S ks hks sched b packets i
  rw [List.getElem?_eq_getElem hi] at hget
  obtain ⟨p,hpi,hmask⟩ := Option.map_eq_some_iff.mp hget.symm
  rw [← hmask]
  exact mask_ne_nil _ p (hp p (List.mem_of_getElem? hpi))

/-- Two streams under one key, of any packets. The exclusive or of a packet of one and a
packet of the other is visible exactly where their keystreams agree, which they do for any
two packets behind sixteen steps of blocks that rotate, whatever their nonces are. -/
theorem stream_two_time_pad (b b' : CryptTaggedStream) (hkey : b.dKey = b'.dKey)
    (sched sched' : ℕ → Schedule) (packets packets' : List Bytes) (i j : ℕ) (p p' c c' : Bytes)
    (hi : packets[i]? = some p) (hj : packets'[j]? = some p')
    (hc : (encrypted S sched b packets)[i]? = some c)
    (hc' : (encrypted S sched' b' packets')[j]? = some c') :
    (List.zipWith xorByte c c' = List.zipWith xorByte p p' ↔ ∀ k < min p.length p'.length,
      b.keystreamAt ks (steps sched 0 packets i) k =
        b'.keystreamAt ks (steps sched' 0 packets' j) k) ∧
    (b.dRotateNonce = true → b'.dRotateNonce = true → 16 ≤ steps sched 0 packets i →
      16 ≤ steps sched' 0 packets' j → List.zipWith xorByte c c' = List.zipWith xorByte p p') := by
  have hmask : c = mask xorByte (b.keystreamAt ks (steps sched 0 packets i)) p := by
    rw [encrypted_getElem? S ks hks sched b packets, hi] at hc
    exact (Option.some.inj hc).symm
  have hmask' : c' = mask xorByte (b'.keystreamAt ks (steps sched' 0 packets' j)) p' := by
    rw [encrypted_getElem? S ks hks sched' b' packets', hj] at hc'
    exact (Option.some.inj hc').symm
  rw [hmask, hmask', xorByte_selfInverse.zipWith_mask_eq_iff]
  refine ⟨Iff.rfl,?_⟩
  intro hr hr' hi16 hj16 k _
  rw [CryptTaggedStream.keystreamAt, CryptTaggedStream.keystreamAt, b.nonceAt_of_rotated hr _ hi16,
    b'.nonceAt_of_rotated hr' _ hj16, hkey]

omit hks in
theorem stream_two_time_pad_reference : ∃ c c',
    (encrypted referenceSodium idleSchedule ⟨zeroKey,zeroNonce,true⟩
      (List.replicate 17 [1]))[16]? = some c ∧
    (encrypted referenceSodium idleSchedule ⟨zeroKey,boundaryNonce,true⟩
      (List.replicate 17 [2]))[16]? = some c' ∧
    List.zipWith xorByte c c' = List.zipWith xorByte [1] [2] := by
  have hget (b : CryptTaggedStream) (x : UInt8) := encrypted_getElem? referenceSodium
    Reference.keystream reference_masks idleSchedule b (List.replicate 17 [x]) 16
  exact ⟨_,_,hget _ 1,hget _ 2,(stream_two_time_pad referenceSodium Reference.keystream
    reference_masks ⟨zeroKey,zeroNonce,true⟩ ⟨zeroKey,boundaryNonce,true⟩ rfl idleSchedule
    idleSchedule _ _ 16 16 [1] [2] _ _ rfl rfl (hget _ 1) (hget _ 2)).2 rfl rfl (by decide)
    (by decide)⟩

/-- A channel that loses, repeats and reorders packets, empty ones among them, between two
blocks made from any keys, nonces and flags: the r-th packet to arrive is number picks[r] of
those sent. It is restored exactly where the keystreams after the steps on both sides agree.
So it is, for two equal blocks, without rotation or after as many steps, and for any two
blocks that rotate under one key after sixteen steps on both sides. -/
theorem stream_picks_restored (b b' : CryptTaggedStream) (sched sched' : ℕ → Schedule)
    (packets : List Bytes) (picks : List ℕ) (hpicks : ∀ w ∈ picks, w < packets.length) (r w : ℕ)
    (p : Bytes) (hr : picks[r]? = some w) (hw : packets[w]? = some p) : ∃ arrived q,
      arrived = picks.filterMap (fun w => (encrypted S sched b packets)[w]?) ∧
      (encrypted S sched' b' arrived)[r]? = some q ∧
      (q = p ↔ ∀ k < p.length, b.keystreamAt ks (steps sched 0 packets w) k =
        b'.keystreamAt ks (steps sched' 0 arrived r) k) ∧
      (b = b' → b.dRotateNonce = false ∨ steps sched 0 packets w = steps sched' 0 arrived r →
        q = p) ∧
      (b.dKey = b'.dKey → b.dRotateNonce = true → b'.dRotateNonce = true →
        16 ≤ steps sched 0 packets w → 16 ≤ steps sched' 0 arrived r → q = p) := by
  obtain ⟨arrived,harrived⟩ : ∃ arrived,
      arrived = picks.filterMap (fun w => (encrypted S sched b packets)[w]?) := ⟨_,rfl⟩
  have hsent (v : ℕ) : (encrypted S sched b packets)[v]? = packets[v]?.map
      (fun p => mask xorByte (b.keystreamAt ks (steps sched 0 packets v)) p) :=
    encrypted_getElem? S ks hks sched b packets v
  -- no pick misses, so the r-th packet to arrive is the one picked there
  have hget : arrived[r]? = some (mask xorByte (b.keystreamAt ks (steps sched 0 packets w)) p) := by
    have hall : arrived = picks.map (fun w => ((encrypted S sched b packets)[w]?).getD []) := by
      rw [harrived, ← List.filterMap_eq_map]
      apply List.filterMap_congr
      intro v hv
      simp only [Function.comp_apply, hsent, List.getElem?_eq_getElem (hpicks v hv),
        Option.map_some, Option.getD_some]
    rw [hall, List.getElem?_map, hr, Option.map_some, hsent, hw]
    rfl
  have hexact := xorByte_selfInverse.mask_mask_eq_iff
    (b.keystreamAt ks (steps sched 0 packets w)) (b'.keystreamAt ks (steps sched' 0 arrived r)) p
  refine ⟨arrived,mask xorByte (b'.keystreamAt ks (steps sched' 0 arrived r))
    (mask xorByte (b.keystreamAt ks (steps sched 0 packets w)) p),harrived,?_,hexact,?_,?_⟩
  · rw [encrypted_getElem? S ks hks sched' b', hget, Option.map_some]
  · rintro rfl hcase
    apply hexact.mpr
    intro k _
    rcases hcase with hfixed | hsteps
    · rw [CryptTaggedStream.keystreamAt, CryptTaggedStream.keystreamAt, b.nonceAt_of_fixed hfixed,
        b.nonceAt_of_fixed hfixed]
    · rw [hsteps]
  · intro hkey hrot hrot' hw16 hr16
    apply hexact.mpr
    intro k _
    rw [CryptTaggedStream.keystreamAt, CryptTaggedStream.keystreamAt,
      b.nonceAt_of_rotated hrot _ hw16, b'.nonceAt_of_rotated hrot' _ hr16, hkey]

omit hks in
/-- The third packet overtakes the others, and an empty one moves the nonce of the sender. -/
theorem stream_picks_restored_reference : ∃ arrived q,
    arrived = [2,0].filterMap (fun w => (encrypted referenceSodium idleSchedule
      ⟨zeroKey,boundaryNonce,true⟩ [[1],[],[3]])[w]?) ∧
    (encrypted referenceSodium idleSchedule ⟨zeroKey,zeroNonce,true⟩ arrived)[0]? = some q ∧
    (q = [3] ↔ ∀ k < 1,
      CryptTaggedStream.keystreamAt Reference.keystream ⟨zeroKey,boundaryNonce,true⟩
        (steps idleSchedule 0 [[1],[],[3]] 2) k =
      CryptTaggedStream.keystreamAt Reference.keystream ⟨zeroKey,zeroNonce,true⟩
        (steps idleSchedule 0 arrived 0) k) := by
  obtain ⟨arrived,q,harrived,hq,hexact,_⟩ :=
    stream_picks_restored referenceSodium Reference.keystream reference_masks
      ⟨zeroKey,boundaryNonce,true⟩ ⟨zeroKey,zeroNonce,true⟩ idleSchedule idleSchedule
      [[1],[],[3]] [2,0] (by simp) 0 2 [3] rfl rfl
  exact ⟨arrived,q,harrived,hq,hexact⟩

/-- A channel that flips bits: what is combined with a packet on its way is combined with
the packet that is restored, and neither the other packets nor the nonces are touched. -/
theorem stream_flips_through (b : CryptTaggedStream) (sched sched' : ℕ → Schedule)
    (packets flips : List Bytes) (hp : ∀ p ∈ packets, p ≠ [])
    (hflips : List.Forall₂ (fun p d => p.length = d.length) packets flips) :
    encrypted S sched' b (List.zipWith (List.zipWith xorByte) (encrypted S sched b packets) flips) =
      List.zipWith (List.zipWith xorByte) packets flips ∧
    (runPackets S sched' 0 b (List.zipWith (List.zipWith xorByte) (encrypted S sched b packets)
      flips)).map WorkResult.block = (runPackets S sched 0 b packets).map WorkResult.block := by
  have hx := stream_xor_succeeds_of_keystream S (masks_keystream S ks hks)
  unfold encrypted
  generalize hstart : 0 = i
  clear hstart
  -- both runs go on from one state
  induction hflips generalizing i b with
  | nil => exact ⟨rfl,rfl⟩
  | @cons p d packets flips hlen hrest ih =>
    obtain ⟨hne,hpackets⟩ := List.forall_mem_cons.mp hp
    obtain ⟨hpacket,hblock⟩ := workPacket_encrypts S hx b (sched i) p hne
    rw [hks] at hpacket
    have hne' : List.zipWith xorByte (workPacket S b (sched i) p).packet d ≠ [] := by
      have hpos := List.length_pos_iff.mpr hne
      apply List.length_pos_iff.mp
      rw [hpacket, List.length_zipWith, mask_length, ← hlen, Nat.min_self]
      exact hpos
    obtain ⟨hback,hsync⟩ := workPacket_encrypts S hx b (sched' i) _ hne'
    rw [hks] at hback
    have hrestored : (workPacket S b (sched' i)
        (List.zipWith xorByte (workPacket S b (sched i) p).packet d)).packet =
        List.zipWith xorByte p d := by
      rw [hback, hpacket]
      exact xorByte_selfInverse.mask_zipWith _ p d
    obtain ⟨hall,hblocks⟩ := ih b.next hpackets (i+1)
    simp only [runPackets, List.map_cons, List.zipWith_cons_cons, hrestored, hsync, hblock, hall,
      hblocks, and_self]

omit hks in
theorem stream_flips_through_reference :
    encrypted referenceSodium idleSchedule ⟨zeroKey,boundaryNonce,true⟩
      (List.zipWith (List.zipWith xorByte) (encrypted referenceSodium idleSchedule
        ⟨zeroKey,boundaryNonce,true⟩ [[1],[2,3]]) [[255],[0,4]]) =
      List.zipWith (List.zipWith xorByte) [[1],[2,3]] [[255],[0,4]] ∧
    (runPackets referenceSodium idleSchedule 0 ⟨zeroKey,boundaryNonce,true⟩
      (List.zipWith (List.zipWith xorByte) (encrypted referenceSodium idleSchedule
        ⟨zeroKey,boundaryNonce,true⟩ [[1],[2,3]]) [[255],[0,4]])).map WorkResult.block =
      (runPackets referenceSodium idleSchedule 0 ⟨zeroKey,boundaryNonce,true⟩
        [[1],[2,3]]).map WorkResult.block :=
  stream_flips_through referenceSodium Reference.keystream reference_masks
    ⟨zeroKey,boundaryNonce,true⟩ idleSchedule idleSchedule [[1],[2,3]] [[255],[0,4]] (by simp)
    (.cons rfl (.cons rfl .nil))

/-- The packets behind a row of blocks, each with its own key, nonce and flag. -/
def cascade (S : Sodium) (sched : ℕ → ℕ → Schedule) :
    ℕ → List CryptTaggedStream → List Bytes → List Bytes
  | _, [], packets => packets
  | k, b :: bs, packets => cascade S sched (k+1) bs (encrypted S (sched k) b packets)

/-- A row of blocks masks every packet with all their keystreams. -/
theorem cascade_masked (sched : ℕ → ℕ → Schedule) (k : ℕ) (bs : List CryptTaggedStream)
    (packets : List Bytes) (hp : ∀ p ∈ packets, p ≠ []) :
    cascade S sched k bs packets = packets.mapIdx
      (fun j p => maskAll xorByte (bs.map (fun b => b.keystreamAt ks j)) p) := by
  induction bs generalizing k packets with
  | nil =>
    apply List.ext_getElem?
    intro i
    rw [cascade, List.getElem?_mapIdx]
    exact (Option.map_id' (x := packets[i]?)).symm
  | cons b bs ih =>
    have hne := encrypted_ne_nil S ks hks (sched k) b packets hp
    rw [cascade, ih (k+1) (encrypted S (sched k) b packets) hne]
    apply List.ext_getElem?
    intro i
    rw [List.getElem?_mapIdx, List.getElem?_mapIdx,
      encrypted_getElem?_of_ne_nil S ks hks (sched k) b packets hp, Option.map_map]
    rfl

/-- Blocks in a row commute: any order of them does the same to every sequence of packets,
and a second row of the same blocks, in any order, undoes the first. -/
theorem stream_cascade_commutes (sched sched' : ℕ → ℕ → Schedule)
    (bs bs' : List CryptTaggedStream) (hperm : bs.Perm bs') (packets : List Bytes)
    (hp : ∀ p ∈ packets, p ≠ []) :
    cascade S sched 0 bs packets = cascade S sched' 0 bs' packets ∧
    cascade S sched 0 (bs ++ bs') packets = packets := by
  refine ⟨?_,?_⟩
  · rw [cascade_masked S ks hks sched 0 bs packets hp, cascade_masked S ks hks sched' 0 bs' packets hp]
    congr 1
    funext j p
    exact maskAll_perm xorByte_selfInverse (hperm.map _) p
  · rw [cascade_masked S ks hks sched 0 (bs ++ bs') packets hp]
    apply List.ext_getElem?
    intro i
    rw [List.getElem?_mapIdx]
    cases packets[i]? with
    | none => rfl
    | some p =>
      rw [Option.map_some, List.map_append]
      exact congrArg some (maskAll_twice xorByte_selfInverse (hperm.map _) p)

end Traffic

theorem stream_cascade_commutes_reference :
    cascade referenceSodium (fun _ => idleSchedule) 0
      [⟨zeroKey,boundaryNonce,true⟩,⟨zeroKey,zeroNonce,false⟩] [[1],[2,3]] =
      cascade referenceSodium (fun _ => idleSchedule) 0
        [⟨zeroKey,zeroNonce,false⟩,⟨zeroKey,boundaryNonce,true⟩] [[1],[2,3]] ∧
    cascade referenceSodium (fun _ => idleSchedule) 0
      ([⟨zeroKey,boundaryNonce,true⟩,⟨zeroKey,zeroNonce,false⟩] ++
        [⟨zeroKey,zeroNonce,false⟩,⟨zeroKey,boundaryNonce,true⟩]) [[1],[2,3]] = [[1],[2,3]] :=
  stream_cascade_commutes referenceSodium Reference.keystream reference_masks
    (fun _ => idleSchedule) (fun _ => idleSchedule) _ _ (.swap _ _ _) [[1],[2,3]] (by simp)

end GrNacl
