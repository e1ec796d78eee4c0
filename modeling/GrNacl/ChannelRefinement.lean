import GrNacl.ActiveAttacker
import GrNacl.IdealChannels

/-! What a matched pair is for: a channel for payloads. Wired together, the two blocks are one
that keeps the order; over a link in the hands of an attacker they are one that lets nothing
in, but loses, reorders and replays. -/
namespace GrNacl
set_option autoImplicit false

open EffectTrace CountedLoop MessageNetwork IdealChannels

/-- A clear text that the pair can carry. -/
def Deliverable (x : Pmt) : Prop :=
  ∃ p : Bytes, p ≠ [] ∧ 16+p.length ≤ 2147483647 ∧ x = messagePmt (decryptedPdu p)

theorem deliverable_of_relayed (entries : List Entry) (hsized : WellSized entries) :
    ∀ x ∈ relayedPayload (messagePmt entries), Deliverable x := by
  intro x hx
  rw [relayedPayload, entriesIn_messagePmt] at hx
  cases hp : lookup "msg_clear" entries with
  | none =>
    rw [hp] at hx
    exact absurd hx List.not_mem_nil
  | some p =>
    rw [hp] at hx
    dsimp only at hx
    split at hx
    · exact absurd hx List.not_mem_nil
    · next hne => exact ⟨p,hne,hsized.clear p hp,List.mem_singleton.mp hx⟩

theorem outcomeOf_answers (x : Handler Unit) (msgs : List Pmt) (h : Answers x msgs) :
    outcomeOf x = ⟨msgs,false⟩ := by
  have hfine := (outcomeOf_faulted x).mpr h.returned
  rw [← hfine, ← h.messages]
  rfl

/-- An encryptor is not the decryptor it matches. -/
theorem matched_ne {S : Sodium} {ι : Type} (g : Flowgraph S ι) (a r : ι) (d : Decryptor S)
    (hr : g.block r = .decryptor d) (hmatch : Matched S (g.block a) d) : r ≠ a := by
  rintro rfl
  rw [hr] at hmatch
  cases hmatch

section Channels

variable {S : Sodium} {ι : Type} [DecidableEq ι] (g : Flowgraph S ι)
  (injects : State ι Pmt → ι → Pmt → Prop) (hS : S.Inverts) (a r : ι) (d : Decryptor S)
  (hr : g.block r = .decryptor d) (hmatch : Matched S (g.block a) d)
include hS hr hmatch

/-- Every payload gets into a PDU and out of it again. -/
theorem matched_link
    (hfree : ∀ s entries, WellSized entries → injects s a (messagePmt entries))
    (hdeaf : g.wired a a = false ∧ g.wired r a = false ∧ g.wired r r = false) :
    Link (g.network injects) a r relayedPayload Deliverable
      (fun pdu x => Answers (d.handleMsg pdu) [x]) := by
  refine ⟨?_,?_,matched_ne g a r d hr hmatch,hdeaf⟩
  · rintro x ⟨p,hne,hlen,rfl⟩
    have hsized := wellSized_clear p hlen
    have hrelayed := relayedPayload_some (messagePmt [.field "msg_clear" p]) p
      (congrArg (lookup "msg_clear") (entriesIn_messagePmt _)) hne
    have hcourse := matched_course hS hmatch ⟨[],Vector.replicate 24 0⟩ _ hsized
    rw [hrelayed] at hcourse
    obtain ⟨_,hnothing⟩ | ⟨pdu,hpub,hanswers⟩ := hcourse
    · exact absurd hnothing (List.cons_ne_nil _ _)
    · have hsends : Answers (((g.block a).onDraws ⟨[],Vector.replicate 24 0⟩).handleMsg
          (messagePmt [.field "msg_clear" p])) [pdu] :=
        ⟨MessageBlock.returns_of_wellSized _ _ hsized,hpub⟩
      exact ⟨_,pdu,_,fun s => hfree s _ hsized,hrelayed,⟨⟨[],Vector.replicate 24 0⟩,rfl⟩,
        outcomeOf_answers _ _ hsends,hanswers⟩
  · intro pdu x hanswers
    refine ⟨⟨[],Vector.replicate 24 0⟩,?_⟩
    rw [hr]
    exact (outcomeOf_answers _ _ hanswers).symm

/-- An encryptor wired to the matching decryptor, with nothing else in front of that, is a
first-in first-out channel: step by step the flowgraph does what the channel may do, and
whatever the channel can come to, some run of the flowgraph comes to. -/
theorem flowgraph_fifo_channel (hwired : g.wired a r = true)
    (honly : ∀ j, j ≠ a → g.wired j r = false)
    (hsource : g.wired a a = false ∧ g.wired r a = false) (hclosed : ∀ s m, ¬injects s r m)
    (hinject : ∀ s i m, injects s i m → ∃ entries, m = messagePmt entries ∧ WellSized entries)
    (hfree : ∀ s entries, WellSized entries → injects s a (messagePmt entries)) :
    IsChannel (g.network injects) a r relayedPayload Deliverable InOrder := by
  have hlink := matched_link g injects hS a r d hr hmatch hfree
    ⟨hsource.1,hsource.2,honly r (matched_ne g a r d hr hmatch)⟩
  refine ⟨?_,?_⟩
  · apply simulated_inOrder
    · intro acts s h m hm
      have harrived : m ∈ s.arrived a := by
        rw [← h.conserved a]
        exact List.mem_append_left _ hm
      obtain ⟨entries,rfl,hsized⟩ :=
        (wellSized_everywhere g injects hinject acts s h a).1 m harrived
      exact deliverable_of_relayed entries hsized
    · intro acts s h
      exact (fed_delivers g injects hS a r d hr hmatch hwired honly hclosed hinject acts s h).1
  · intro c hc
    obtain ⟨acts,s,_,hrun,hs,_⟩ := hlink.realises_inOrder hwired c hc
    exact ⟨acts,s,hrun,hs.channel⟩

end Channels

theorem flowgraph_fifo_channel_strobe :
    IsChannel (secretEncryption.network (injectsAt false)) false true relayedPayload Deliverable
      InOrder := by
  apply flowgraph_fifo_channel secretEncryption (injectsAt false) reference_inverts false true _
    rfl secretEncryption_matched rfl secretEncryption_wired ⟨rfl,rfl⟩
  · rintro s m ⟨h,_⟩
    cases h
  · rintro s i m ⟨_,h⟩
    exact h
  · intro s entries hsized
    exact ⟨rfl,entries,rfl,hsized⟩

end GrNacl
