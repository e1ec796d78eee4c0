import GrNacl.KeyGeneration
import GrNacl.SodiumInstance

/-! The two files of a generated pair. They are rewritten one after the other and nothing
is taken back: the one way to a pair of unequal age in generate_kem_keypair is the
exception for a public-key file that does not open. generate_keypair, which does not look,
gets there by a return as well. -/
namespace GrNacl
set_option autoImplicit false

open EffectTrace CountedLoop

section Pair

variable (files files' : Files) (filenameSk filenamePk : String) (sk pk : Bytes)

/-- The files hold the two halves of the pair. -/
def HoldsPair : Prop := files' filenameSk = some sk ∧ files' filenamePk = some pk

/-- The files hold what they held before. -/
def KeepsPair : Prop := files' filenameSk = files filenameSk ∧ files' filenamePk = files filenamePk

def AllOrNothing : Prop :=
  HoldsPair files' filenameSk filenamePk sk pk ∨ KeepsPair files files' filenameSk filenamePk

end Pair

/-- One file holds its new half, the other what it held before. -/
def HalfWritten (files files' : Files) (written kept : String) (half : Bytes) : Prop :=
  files' written = some half ∧ files' kept = files kept

theorem keepsPair_self (files : Files) (filenameSk filenamePk : String) :
    KeepsPair files files filenameSk filenamePk := ⟨rfl,rfl⟩

/-- The exception of generate_kem_keypair between its two files. -/
abbrev publicNotOpened : Fault := .runtimeError "Failed to open public-key file for writing."

/-- What a run of generate_kem_keypair has made of its two files. -/
structure KemPairOutcome (S : Sodium) (files : Files) (seed : Bytes) (filenameSk filenamePk : String)
    (x : Handler Unit) : Prop where
  returned : x.result = .ok () → HoldsPair (files.replay x.events) filenameSk filenamePk
    (S.cryptoKemKeypair seed).2.2.toList (S.cryptoKemKeypair seed).2.1.toList
  interrupted : x.result = .error publicNotOpened →
    HalfWritten files (files.replay x.events) filenameSk filenamePk
      (S.cryptoKemKeypair seed).2.2.toList
  refused : ∀ e, x.result = .error e → e ≠ publicNotOpened →
    KeepsPair files (files.replay x.events) filenameSk filenamePk

theorem kemPairOutcome_of_ends {S : Sodium} {files files' : Files} {seed : Bytes}
    {filenameSk filenamePk : String} {x : Handler Unit} {r : Except Fault Unit}
    (hends : x.Ends Files.apply files r files')
    (hreturned : r = .ok () → HoldsPair files' filenameSk filenamePk
      (S.cryptoKemKeypair seed).2.2.toList (S.cryptoKemKeypair seed).2.1.toList)
    (hinterrupted : r = .error publicNotOpened →
      HalfWritten files files' filenameSk filenamePk (S.cryptoKemKeypair seed).2.2.toList)
    (hrefused : ∀ e, r = .error e → e ≠ publicNotOpened →
      KeepsPair files files' filenameSk filenamePk) :
    KemPairOutcome S files seed filenameSk filenamePk x := by
  have hfiles : files.replay x.events = files' := hends.observed
  constructor
  · rw [hends.result, hfiles]
    exact hreturned
  · rw [hends.result, hfiles]
    exact hinterrupted
  · rw [hends.result, hfiles]
    exact hrefused

/-- The exception between the two files means that the first was written. -/
theorem generateKemKeypair_interrupted_iff (S : Sodium) (seed : Bytes) (outSk outPk : OutFile)
    (filenameSk filenamePk : String) :
    (generateKemKeypair S seed outSk outPk filenameSk filenamePk).result =
        .error publicNotOpened ↔
      ¬S.sodiumInit < 0 ∧ (S.cryptoKemKeypair seed).1 = 0 ∧ outSk.opens = true ∧
        outPk.opens = false := by
  by_cases hpair : S.sodiumInit < 0 ∨ (S.cryptoKemKeypair seed).1 ≠ 0
  · rw [(generateKemKeypair_fails S (fun _ => none) seed outSk outPk _ _ hpair).result]
    apply iff_of_false _ (fun h => hpair.elim h.1 (fun hs => hs h.2.1))
    split <;> decide
  · rw [not_or, not_not] at hpair
    rw [(generateKemKeypair_ends S (fun _ => none) seed outSk outPk _ _ hpair.1 hpair.2).result]
    cases outSk.opens <;> cases outPk.opens <;> simp [hpair.1, hpair.2]

section Outcomes

variable (S : Sodium) (files : Files) (seed : Bytes) (outSk outPk : OutFile)
  (filenameSk filenamePk : String) (hne : filenameSk ≠ filenamePk)
include hne

/-- Two files that open and have room take the pair. -/
theorem leaves_both {m n : ℕ} (sk : Vector UInt8 m) (pk : Vector UInt8 n)
    (hoSk : outSk.opens = true) (hoPk : outPk.opens = true) (hroomSk : m ≤ outSk.room)
    (hroomPk : n ≤ outPk.room) :
    HoldsPair (outPk.leaves (outSk.leaves files filenameSk sk.toList) filenamePk pk.toList)
      filenameSk filenamePk sk.toList pk.toList := by
  constructor
  · rw [leaves_of_ne _ _ _ _ _ hne, leaves_key outSk files filenameSk sk hoSk hroomSk,
      Function.update_self]
  · rw [leaves_key outPk _ filenamePk pk hoPk hroomPk, Function.update_self]

omit hne in
/-- A file that opens and has room takes its half, and the other is not touched. -/
theorem leaves_half (out : OutFile) (written kept : String) (hother : kept ≠ written) {n : ℕ}
    (half : Vector UInt8 n) (ho : out.opens = true) (hroom : n ≤ out.room) :
    HalfWritten files (out.leaves files written half.toList) written kept half.toList := by
  constructor
  · rw [leaves_key out files written half ho hroom, Function.update_self]
  · exact leaves_of_ne _ _ _ _ _ hother

/-- generate_keypair replaces both files or none when both can be opened or neither. -/
theorem generateKeypair_outcome (hroomSk : cryptoBoxSECRETKEYBYTES ≤ outSk.room)
    (hroomPk : cryptoBoxPUBLICKEYBYTES ≤ outPk.room) (hopens : outSk.opens = outPk.opens) :
    AllOrNothing files
      (files.replay (generateKeypair S seed outSk outPk filenameSk filenamePk).events)
      filenameSk filenamePk (S.cryptoBoxKeypair seed).2.toList
      (S.cryptoBoxKeypair seed).1.toList := by
  have hfiles : files.replay (generateKeypair S seed outSk outPk filenameSk filenamePk).events = _ :=
    (generateKeypair_ends S files seed outSk outPk filenameSk filenamePk).observed
  rw [hfiles]
  by_cases ho : outSk.opens = true
  · exact Or.inl (leaves_both files outSk outPk _ _ hne _ _ ho (hopens ▸ ho) hroomSk hroomPk)
  · have hoPk : ¬outPk.opens = true := hopens ▸ ho
    rw [leaves_of_closed outPk _ _ _ hoPk, leaves_of_closed outSk _ _ _ ho]
    exact Or.inr (keepsPair_self files filenameSk filenamePk)

/-- When just one of the two opens, generate_keypair returns all the same, and has put a new
half beside the previous other one. -/
theorem generateKeypair_halves (hroomSk : cryptoBoxSECRETKEYBYTES ≤ outSk.room)
    (hroomPk : cryptoBoxPUBLICKEYBYTES ≤ outPk.room) (hopens : outSk.opens ≠ outPk.opens) :
    (generateKeypair S seed outSk outPk filenameSk filenamePk).result = .ok () ∧
      if outSk.opens then
        HalfWritten files
          (files.replay (generateKeypair S seed outSk outPk filenameSk filenamePk).events)
          filenameSk filenamePk (S.cryptoBoxKeypair seed).2.toList
      else
        HalfWritten files
          (files.replay (generateKeypair S seed outSk outPk filenameSk filenamePk).events)
          filenamePk filenameSk (S.cryptoBoxKeypair seed).1.toList := by
  have hends := generateKeypair_ends S files seed outSk outPk filenameSk filenamePk
  have hfiles : files.replay (generateKeypair S seed outSk outPk filenameSk filenamePk).events = _ :=
    hends.observed
  refine ⟨hends.result,?_⟩
  rw [hfiles]
  by_cases ho : outSk.opens = true
  · have hoPk : ¬outPk.opens = true := fun h => hopens (ho.trans h.symm)
    rw [if_pos ho, leaves_of_closed outPk _ _ _ hoPk]
    exact leaves_half files outSk filenameSk filenamePk (Ne.symm hne) _ ho hroomSk
  · have hoPk : outPk.opens = true := by
      rw [Bool.not_eq_true] at ho
      rw [ho] at hopens
      exact Bool.eq_true_of_not_eq_false (Ne.symm hopens)
    rw [if_neg ho, leaves_of_closed outSk _ _ _ ho]
    exact leaves_half files outPk filenamePk filenameSk hne _ hoPk hroomPk

/-- generate_kem_keypair, by how it is left. -/
theorem generateKemKeypair_outcome (hroomSk : S.cryptoKemSECRETKEYBYTES ≤ outSk.room)
    (hroomPk : S.cryptoKemPUBLICKEYBYTES ≤ outPk.room) :
    KemPairOutcome S files seed filenameSk filenamePk
      (generateKemKeypair S seed outSk outPk filenameSk filenamePk) := by
  by_cases hpair : S.sodiumInit < 0 ∨ (S.cryptoKemKeypair seed).1 ≠ 0
  · apply kemPairOutcome_of_ends
      (generateKemKeypair_fails S files seed outSk outPk filenameSk filenamePk hpair)
    · exact fun h => nomatch h
    · intro h
      split at h <;> exact absurd h (by decide)
    · exact fun _ _ _ => keepsPair_self files filenameSk filenamePk
  · rw [not_or, not_not] at hpair
    have hends := generateKemKeypair_ends S files seed outSk outPk filenameSk filenamePk hpair.1
      hpair.2
    -- which of the files open decides the exit and what was written before it
    by_cases hoSk : outSk.opens = true
    · rw [if_pos hoSk, if_pos hoSk] at hends
      by_cases hoPk : outPk.opens = true
      · rw [if_pos hoPk] at hends
        have hboth := leaves_both files outSk outPk filenameSk filenamePk hne
          (S.cryptoKemKeypair seed).2.2 (S.cryptoKemKeypair seed).2.1 hoSk hoPk hroomSk hroomPk
        exact kemPairOutcome_of_ends hends (fun _ => hboth) (fun h => nomatch h)
          (fun _ h => nomatch h)
      · rw [if_neg hoPk, leaves_of_closed outPk _ _ _ hoPk] at hends
        have hhalf := leaves_half files outSk filenameSk filenamePk (Ne.symm hne)
          (S.cryptoKemKeypair seed).2.2 hoSk hroomSk
        exact kemPairOutcome_of_ends hends (fun h => nomatch h) (fun _ => hhalf)
          (fun _ h hother => absurd (Except.error.inj h).symm hother)
    · rw [if_neg hoSk, if_neg hoSk] at hends
      exact kemPairOutcome_of_ends hends (fun h => nomatch h) (fun h => absurd h (by decide))
        (fun _ _ _ => keepsPair_self files filenameSk filenamePk)

end Outcomes

/-- A generated pair replaces the previous one as a whole or not at all, except where
generate_kem_keypair throws because the second of its files does not open: then the new
secret half is left beside the previous public one. -/
theorem pairs_replaced (S : Sodium) (files : Files) (seed : Bytes)
    (filenameSk filenamePk : String) (hne : filenameSk ≠ filenamePk) :
    (∀ outSk outPk : OutFile, S.cryptoKemSECRETKEYBYTES ≤ outSk.room →
      S.cryptoKemPUBLICKEYBYTES ≤ outPk.room →
      KemPairOutcome S files seed filenameSk filenamePk
          (generateKemKeypair S seed outSk outPk filenameSk filenamePk) ∧
        ((generateKemKeypair S seed outSk outPk filenameSk filenamePk).result =
            .error publicNotOpened ↔
          ¬S.sodiumInit < 0 ∧ (S.cryptoKemKeypair seed).1 = 0 ∧ outSk.opens = true ∧
            outPk.opens = false)) ∧
    ∀ outSk outPk : OutFile, cryptoBoxSECRETKEYBYTES ≤ outSk.room →
      cryptoBoxPUBLICKEYBYTES ≤ outPk.room → outSk.opens = outPk.opens →
      AllOrNothing files
        (files.replay (generateKeypair S seed outSk outPk filenameSk filenamePk).events)
        filenameSk filenamePk (S.cryptoBoxKeypair seed).2.toList
        (S.cryptoBoxKeypair seed).1.toList := by
  constructor
  · intro outSk outPk hroomSk hroomPk
    exact ⟨generateKemKeypair_outcome S files seed outSk outPk _ _ hne hroomSk hroomPk,
      generateKemKeypair_interrupted_iff S seed outSk outPk filenameSk filenamePk⟩
  · intro outSk outPk hroomSk hroomPk hopens
    exact generateKeypair_outcome S files seed outSk outPk _ _ hne hroomSk hroomPk hopens

theorem pairs_replaced_reference :
    KemPairOutcome referenceSodium (fun _ => none) [1] "kem.sk" "kem.pk"
      (generateKemKeypair referenceSodium [1] ⟨true,32⟩ ⟨false,1216⟩ "kem.sk" "kem.pk") ∧
    AllOrNothing (fun _ => none) (Files.replay (fun _ => none)
        (generateKeypair referenceSodium [1] ⟨true,32⟩ ⟨true,32⟩ "kem.sk" "kem.pk").events)
      "kem.sk" "kem.pk" (referenceSodium.cryptoBoxKeypair [1]).2.toList
      (referenceSodium.cryptoBoxKeypair [1]).1.toList := by
  have h := pairs_replaced referenceSodium (fun _ => none) [1] "kem.sk" "kem.pk" (by decide)
  exact ⟨(h.1 ⟨true,32⟩ ⟨false,1216⟩ (Nat.le_refl 32) (Nat.le_refl 1216)).1,
    h.2 ⟨true,32⟩ ⟨true,32⟩ (Nat.le_refl 32) (Nat.le_refl 32) rfl⟩

/-- The files of the pair made from a seed. -/
def kemPairFiles (seed : Bytes) : Files := fun filename =>
  if filename = "kem.sk" then some (referenceSodium.cryptoKemKeypair seed).2.2.toList
  else if filename = "kem.pk" then some (referenceSodium.cryptoKemKeypair seed).2.1.toList
  else none

/-- A second pair is made over a first one, and its public-key file does not open. -/
theorem halves_of_two_pairs :
    ¬AllOrNothing (kemPairFiles [1]) ((kemPairFiles [1]).replay
        (generateKemKeypair referenceSodium [2] ⟨true,32⟩ ⟨false,1216⟩ "kem.sk" "kem.pk").events)
      "kem.sk" "kem.pk" (referenceSodium.cryptoKemKeypair [2]).2.2.toList
      (referenceSodium.cryptoKemKeypair [2]).2.1.toList := by
  have hinterrupted := (generateKemKeypair_interrupted_iff referenceSodium [2] ⟨true,32⟩
    ⟨false,1216⟩ "kem.sk" "kem.pk").mpr ⟨by decide,rfl,rfl,rfl⟩
  have hhalf := (generateKemKeypair_outcome referenceSodium (kemPairFiles [1]) [2] ⟨true,32⟩
    ⟨false,1216⟩ "kem.sk" "kem.pk" (by decide) (Nat.le_refl 32)
    (Nat.le_refl 1216)).interrupted hinterrupted
  -- the draws already differ in their first byte
  have hdiffer (n : ℕ) (hn : 0 < n) :
      (Reference.draw n [1]).toList ≠ (Reference.draw n [2]).toList := by
    intro he
    have hbyte := congrArg (fun v : Vector UInt8 n => v[0]) (Vector.toList_inj.mp he)
    simp only [Reference.draw, Vector.getElem_ofFn] at hbyte
    exact absurd hbyte (by decide)
  rintro (h | h)
  · exact hdiffer 1216 (by decide) (Option.some.inj (hhalf.2.symm.trans h.2))
  · exact hdiffer 32 (by decide) (Option.some.inj (hhalf.1.symm.trans h.1)).symm

end GrNacl
