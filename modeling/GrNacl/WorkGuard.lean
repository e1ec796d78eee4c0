import GrNacl.StreamFreshness

/-! Calls of work that encrypt nothing. The status is assigned only under the guard,
so past it the return value and the nonce depend on what the local held before. -/
namespace GrNacl
set_option autoImplicit false

/-- A call is sound when nothing depends on the stale status, no item is reported
that was not written in the call, and an empty or oversized packet changes nothing. -/
structure WorkSound (S : Sodium) (b : CryptTaggedStream) (input out : Bytes) : Prop where
  independent : ∀ g g', (work S b g input out).ret = (work S b g' input out).ret ∧
    (work S b g input out).out = (work S b g' input out).out ∧
    (work S b g input out).block.dNonce = (work S b g' input out).block.dNonce
  bounded : ∀ g, (work S b g input out).ret ≤ out.length
  produced : ∀ g, (work S b g input out).ret ≤ (work S b g input out).written
  idle : input = [] ∨ out.length < input.length →
    ∀ g, (work S b g input out).ret = 0 ∧ (work S b g input out).block.dNonce = b.dNonce

theorem reportProduced_stale_nonce (b : CryptTaggedStream) (status n : ℤ) (out : Bytes)
    (call : Option StreamCall) (h : b.dRotateNonce = false ∨ b.dNonce = zeroNonce) :
    (reportProduced b status n out call).block.dNonce = b.dNonce := by
  unfold reportProduced
  split
  · -- even when the rotation is entered it changes nothing
    rcases h with h | h
    · simp only [h, Bool.false_eq_true, ↓reduceIte]
    · split
      · rw [h, rotateNonce_zero]
      · rfl
  · rfl

theorem work_sound_of_encrypts (S : Sodium) (b : CryptTaggedStream) (input out : Bytes)
    (hne : input ≠ []) (hfit : input.length ≤ out.length) : WorkSound S b input out := by
  have hw (g : ℤ) := work_encrypts S b g input out hne hfit
  refine ⟨fun g g' => by rw [hw g, hw g']; exact ⟨rfl, rfl, rfl⟩, fun g => ?_, fun g => ?_, ?_⟩
  · rw [hw g, reportProduced_ret]
    split <;> omega
  · rw [hw g, reportProduced_ret, WorkResult.written, reportProduced_call]
    split <;> simp
  · rintro (h | h)
    · exact absurd h hne
    · omega

theorem work_sound_of_empty (S : Sodium) (b : CryptTaggedStream) (out : Bytes)
    (h : b.dRotateNonce = false ∨ b.dNonce = zeroNonce) : WorkSound S b [] out := by
  have hw (g : ℤ) := work_skips S b g [] out (Or.inl rfl)
  have hret (g : ℤ) : (work S b g [] out).ret = 0 := by
    rw [hw g, reportProduced_ret]
    split <;> rfl
  have hnonce (g : ℤ) : (work S b g [] out).block.dNonce = b.dNonce := by
    rw [hw g]
    exact reportProduced_stale_nonce b g _ out none h
  have hout (g : ℤ) : (work S b g [] out).out = out := by
    rw [hw g, reportProduced_out]
  refine ⟨fun g g' => ?_, fun g => ?_, fun g => ?_, fun _ g => ⟨hret g, hnonce g⟩⟩
  · rw [hret g, hret g', hout g, hout g', hnonce g, hnonce g']
    exact ⟨rfl, rfl, rfl⟩
  · rw [hret g]
    omega
  · rw [hret g]
    omega

/-- The calls of work that are sound: those that pass the guard, and those on an
empty packet whose rotation would change nothing. -/
theorem work_sound_iff (S : Sodium) (b : CryptTaggedStream) (input out : Bytes) :
    WorkSound S b input out ↔ (input ≠ [] ∧ input.length ≤ out.length) ∨
      (input = [] ∧ (b.dRotateNonce = false ∨ b.dNonce = zeroNonce)) := by
  constructor
  · intro h
    by_cases hne : input = []
    · refine Or.inr ⟨hne, ?_⟩
      -- a stale zero rotates the nonce, so an unchanged nonce is a fixed point
      have hstale := (h.idle (Or.inl hne) 0).2
      rw [work_skips S b 0 input out (Or.inl hne)] at hstale
      cases hr : b.dRotateNonce with
      | false => exact Or.inl rfl
      | true =>
        rw [reportProduced_nonce b hr] at hstale
        exact Or.inr ((rotateNonce_eq_self_iff b.dNonce).mp hstale)
    · refine Or.inl ⟨hne, ?_⟩
      -- without room a stale zero reports the packet as produced
      by_contra hlt
      have hover : input = [] ∨ out.length < input.length := Or.inr (by omega)
      have hret := (h.idle hover 0).1
      rw [work_skips S b 0 input out hover, reportProduced_ret, if_pos rfl] at hret
      exact hne (List.length_eq_zero_iff.mp (by exact_mod_cast hret))
  · rintro (⟨hne,hfit⟩ | ⟨rfl,hr⟩)
    · exact work_sound_of_encrypts S b input out hne hfit
    · exact work_sound_of_empty S b out hr

/-- A stale zero on an empty packet advances the nonce, and on a packet without
room it reports an item that does not exist. -/
theorem work_trusts_stale_status :
    (work referenceSodium ⟨zeroKey,boundaryNonce,true⟩ 0 [] []).block.dNonce = zeroNonce ∧
    (work referenceSodium ⟨zeroKey,boundaryNonce,true⟩ 1 [] []).block.dNonce = boundaryNonce ∧
    (work referenceSodium ⟨zeroKey,boundaryNonce,true⟩ 0 [1] []).ret = 1 ∧
    (work referenceSodium ⟨zeroKey,boundaryNonce,true⟩ 0 [1] []).written = 0 ∧
    ¬WorkSound referenceSodium ⟨zeroKey,boundaryNonce,true⟩ [] [] := by
  refine ⟨rotateNonce_boundaryNonce, rfl, rfl, rfl, ?_⟩
  intro h
  have hstale : rotateNonce boundaryNonce = boundaryNonce := (h.idle (Or.inl rfl) 0).2
  rw [rotateNonce_boundaryNonce] at hstale
  exact absurd hstale (by decide)

end GrNacl
