import GrNacl.Decryptors
import GrNacl.SodiumInstance

/-! The copying loops of the secret-key and public-key handlers, whose counter is an int
below a size_t bound, beside the loops of the KEM handlers, whose counter is a size_t. -/
namespace GrNacl
set_option autoImplicit false

open EffectTrace CountedLoop

/-- `for (k = 0; k < bound; k++) target[k] = source[k];` -/
structure CopyLoop where
  bound : ℕ
  target : Bytes
  source : Bytes

def CopyLoop.run (c : Counter) (l : CopyLoop) : Handler Bytes :=
  copyBytes c l.bound l.target l.source

/-- With an int counter the loop ends with the source in its target, as it does with a
size_t counter. -/
structure CopyLoop.Complete (l : CopyLoop) : Prop where
  copied : l.run intCounter = pure l.source
  agrees : l.run intCounter = l.run sizeCounter

/-- A loop over two vectors of the length of its bound. -/
structure CopyLoop.Fits (l : CopyLoop) : Prop where
  target : l.target.length = l.bound
  source : l.source.length = l.bound

theorem CopyLoop.Fits.run_eq {l : CopyLoop} (h : l.Fits) (c : Counter) :
    l.run c = if c.Covers l.bound then pure l.source else Run.fail .undefinedBehaviour := by
  have hcopy := copyBytes_eq c l.target l.source (h.target.trans h.source.symm)
  rw [h.source] at hcopy
  exact hcopy

theorem CopyLoop.Fits.complete_iff {l : CopyLoop} (h : l.Fits) :
    l.Complete ↔ l.bound ≤ 2147483647 := by
  have hsize := h.run_eq sizeCounter
  rw [if_pos (covers_none _)] at hsize
  by_cases hc : l.bound ≤ 2147483647
  · have hint := h.run_eq intCounter
    rw [if_pos ((covers_some _ _).mpr hc)] at hint
    exact iff_of_true ⟨hint,hint.trans hsize.symm⟩ hc
  · have hint := h.run_eq intCounter
    rw [if_neg (fun hcov => hc ((covers_some _ _).mp hcov))] at hint
    apply iff_of_false _ hc
    intro hcomplete
    have hbad := hcomplete.copied
    rw [hint] at hbad
    cases congrArg Run.result hbad

/-- A new vector filled from a source of the same length. -/
def fresh (n : ℕ) (source : Bytes) : CopyLoop := ⟨n,List.replicate n 0,source⟩

theorem fresh_complete_iff (n : ℕ) (source : Bytes) (h : source.length = n) :
    (fresh n source).Complete ↔ n ≤ 2147483647 := by
  have hfits : (fresh n source).Fits := ⟨List.length_replicate,h⟩
  exact hfits.complete_iff

/-- The loops encrypt_secret and encrypt_public run on a payload: those of the output
after a successful call. -/
def encryptLoops (easy : CipherCall) (nonce : Vector UInt8 24) (data : Bytes) : List CopyLoop :=
  fresh data.length data ::
    if (easy data nonce).1 ≠ 0 then []
    else [fresh (sizeAdd 16 data.length) (easy data nonce).2,fresh 24 nonce.toList]

/-- The loops decrypt_secret and decrypt_public run on their two fields. -/
def decryptLoops (openEasy : CipherCall) (data nonce : Bytes) : List CopyLoop :=
  fresh data.length data :: fresh nonce.length nonce ::
    match arrayOf 24 nonce with
    | some n =>
      if 16 ≤ data.length ∧ (openEasy data n).1 = 0 then
        [fresh (sizeSub data.length 16) (openEasy data n).2]
      else []
    | none => []

theorem encryptLoops_complete_iff (easy : CipherCall) (nonce : Vector UInt8 24) (data : Bytes)
    (heasy : (easy data nonce).2.length = 16+data.length) :
    (∀ l ∈ encryptLoops easy nonce data, l.Complete) ↔
      data.length ≤ 2147483647 ∧
        ((easy data nonce).1 = 0 → 16+data.length ≤ 2147483647) := by
  have hdata := fresh_complete_iff data.length data rfl
  have hnonce := fresh_complete_iff 24 nonce.toList nonce.length_toList
  rw [encryptLoops, List.forall_mem_cons, hdata]
  apply and_congr_right
  intro hlen
  -- a countable payload is far below the lengths whose sum wraps
  have hmax : maxSize = 9223372036854775807 := rfl
  have hsum := sizeAdd_of_le 16 data.length (by omega)
  rw [hsum]
  have hout := fresh_complete_iff (16+data.length) (easy data nonce).2 heasy
  by_cases hs : (easy data nonce).1 = 0
  · rw [if_neg (not_not_intro hs), List.forall_mem_cons, List.forall_mem_singleton, hout, hnonce]
    -- the copy of the 24 bytes of the nonce never overflows
    constructor
    · intro h _
      exact h.1
    · intro h
      exact ⟨h hs,by decide⟩
  · rw [if_pos hs]
    exact iff_of_true (fun _ hl => absurd hl List.not_mem_nil) (fun h => absurd h hs)

theorem decryptLoops_complete_iff (openEasy : CipherCall) (data nonce : Bytes)
    (hopen : ∀ n, (openEasy data n).2.length = data.length-16) :
    (∀ l ∈ decryptLoops openEasy data nonce, l.Complete) ↔
      data.length ≤ 2147483647 ∧ nonce.length ≤ 2147483647 := by
  have hdata := fresh_complete_iff data.length data rfl
  have hnonce := fresh_complete_iff nonce.length nonce rfl
  rw [decryptLoops, List.forall_mem_cons, List.forall_mem_cons, hdata, hnonce]
  apply and_congr_right
  intro hlen
  apply and_iff_left
  intro l hl
  split at hl
  · next n hread =>
    split at hl
    · next hcall =>
      -- the clear text is shorter than the data
      have hmax : maxSize = 9223372036854775807 := rfl
      have hsub := sizeSub_of_le data.length 16 hcall.1 (by omega)
      rw [hsub] at hl
      rw [List.mem_singleton.mp hl, fresh_complete_iff _ _ (hopen n)]
      omega
    · exact absurd hl List.not_mem_nil
  · exact absurd hl List.not_mem_nil

/-! The handlers run these loops, in this order, and copy nothing else. -/

def runLoops (c : Counter) (loops : List CopyLoop) : Handler (List Bytes) :=
  loops.mapM (CopyLoop.run c)

theorem runLoops_nil (c : Counter) : runLoops c [] = pure [] := rfl

theorem runLoops_cons (c : Counter) (l : CopyLoop) (loops : List CopyLoop) :
    runLoops c (l :: loops) = (do
      let copied ← l.run c
      let rest ← runLoops c loops
      pure (copied :: rest)) := List.mapM_cons

/-- Loops that complete do not depend on the counter. -/
theorem runLoops_agree (loops : List CopyLoop) (h : ∀ l ∈ loops, l.Complete) :
    runLoops intCounter loops = runLoops sizeCounter loops := by
  induction loops with
  | nil => rfl
  | cons l loops ih =>
    obtain ⟨hl,hrest⟩ := List.forall_mem_cons.mp h
    rw [runLoops_cons, runLoops_cons, hl.agrees, ih hrest]

theorem copyBytes_fresh (c : Counter) (n : ℕ) (source : Bytes) :
    copyBytes c n (List.replicate n 0) source = (fresh n source).run c := rfl

theorem repack_fresh (c : Counter) (n : ℕ) (source : Bytes) (hn : n ≤ maxSize) :
    repack c n source = (fresh n source).run c := by
  rw [repack, vector_of_le n hn, pure_bind, copyBytes_fresh]

/-- A copy of a whole vector gives that vector, or ends the handler. -/
theorem fresh_run (c : Counter) (v : Bytes) {α : Type} (rest : Bytes → Handler α) :
    ((fresh v.length v).run c >>= rest) = ((fresh v.length v).run c >>= fun _ => rest v) := by
  have hfits : (fresh v.length v).Fits := ⟨List.length_replicate,rfl⟩
  rw [hfits.run_eq c]
  by_cases hc : c.Covers (fresh v.length v).bound
  · rw [if_pos hc, pure_bind, pure_bind]
    rfl
  · rw [if_neg hc, Run.fail_bind, Run.fail_bind]

/-- The end of encrypt_secret and encrypt_public: the PDU of what was copied. After a failed
call nothing but the data was. -/
def publishEncrypted : List Bytes → Handler Unit
  | [_,msgEncrypted,nonceVec] =>
    Run.emit (.messagePortPub (messagePmt (encryptedPdu [] nonceVec msgEncrypted)))
  | _ => Run.emit (.cout "Failed to encrypt message.")

/-- encrypt_secret and encrypt_public are their loops and that end. -/
theorem encryptData_loops (c : Counter) (easy : CipherCall) (nonce : Vector UInt8 24)
    (data : Bytes) (hroom : 16+data.length ≤ maxSize) :
    encryptData c 16 easy [] (pure []) nonce data =
      runLoops c (encryptLoops easy nonce data) >>= publishEncrypted := by
  have hsum := sizeAdd_of_le 16 data.length hroom
  rw [encryptData, repack_fresh c _ _ (by omega), fresh_run, encryptLoops, runLoops_cons, hsum,
    bind_assoc]
  apply bind_congr
  intro copied
  dsimp only
  rw [hsum, vector_of_le _ hroom, pure_bind, Run.emitAll_nil, pure_bind, bind_assoc]
  by_cases hs : (easy data nonce).1 ≠ 0
  · rw [if_pos hs, if_pos hs, runLoops_nil, pure_bind, pure_bind]
    rfl
  · -- the ciphertext, then the nonce
    rw [if_neg hs, if_neg hs, repack_fresh c _ _ hroom, repack_fresh c _ _ (by decide)]
    simp only [runLoops_cons, runLoops_nil, pure_bind, bind_assoc, Pmt.initU8vector_length]
    rfl

/-- A handler whose loops complete does what it would do with a size_t counter. -/
theorem encryptData_agrees (easy : CipherCall) (nonce : Vector UInt8 24) (data : Bytes)
    (heasy : (easy data nonce).2.length = 16+data.length)
    (h : ∀ l ∈ encryptLoops easy nonce data, l.Complete) :
    encryptData intCounter 16 easy [] (pure []) nonce data =
      encryptData sizeCounter 16 easy [] (pure []) nonce data := by
  have hlen := ((encryptLoops_complete_iff easy nonce data heasy).mp h).1
  have hmax : maxSize = 9223372036854775807 := rfl
  rw [encryptData_loops intCounter easy nonce data (by omega),
    encryptData_loops sizeCounter easy nonce data (by omega), runLoops_agree _ h]

/-- The end of decrypt_secret and decrypt_public: the clear text, if it was copied. -/
def publishDecrypted (found : List String) (status : ℤ) : List Bytes → Handler Unit
  | [msgDecrypted] => Run.emit (.messagePortPub (messagePmt (decryptedPdu msgDecrypted)))
  | _ => Run.emitAll (failureLines found status)

/-- decrypt_secret and decrypt_public copy the two fields, call open_easy on the copies, and
copy the clear text if there is one. -/
theorem decryptData_loops (c : Counter) (openEasy : CipherCall) (found : List String)
    (data nonce : Bytes) (hd : data.length ≤ maxSize) (hn : nonce.length ≤ maxSize) :
    decryptData c 16 openEasy [] found data nonce = (do
      let _ ← runLoops c ((decryptLoops openEasy data nonce).take 2)
      let _ ← vector (sizeSub data.length 16)
      Run.emit (.openEasy nonce)
      let nonceRead ← readArray 24 nonce
      let copied ← runLoops c ((decryptLoops openEasy data nonce).drop 2)
      publishDecrypted found (openEasy data nonceRead).1 copied) := by
  rw [decryptData, vector_of_le _ hd, pure_bind, vector_of_le _ hn, pure_bind]
  dsimp only
  -- both sides begin with the copies of the two fields
  rw [copyBytes_fresh, copyBytes_fresh, fresh_run, decryptLoops, List.take_succ_cons,
    List.take_succ_cons, List.take_zero, List.drop_succ_cons, List.drop_succ_cons, List.drop_zero]
  simp only [runLoops_cons, runLoops_nil, pure_bind, bind_assoc]
  apply bind_congr
  intro dataChar
  rw [fresh_run]
  apply bind_congr
  intro nonceChar
  by_cases hmac : 16 ≤ data.length
  · have hsub := sizeSub_of_le data.length 16 hmac hd
    rw [hsub, vector_of_le _ (by omega), pure_bind, pure_bind]
    apply bind_congr
    intro _
    cases hread : arrayOf 24 nonce with
    | none => rw [readArray, hread, Run.fail_bind, Run.fail_bind]
    | some n =>
      rw [readArray, hread, pure_bind, pure_bind]
      dsimp only
      rw [Run.emitAll_nil, pure_bind]
      by_cases hs : (openEasy data n).1 = 0
      · rw [if_pos hs, if_pos ⟨hmac,hs⟩, runLoops_cons, runLoops_nil,
          repack_fresh c _ _ (by omega)]
        simp only [pure_bind, bind_assoc, Pmt.initU8vector_length]
        rfl
      · rw [if_neg hs, if_neg (fun h => hs h.2), runLoops_nil, pure_bind]
        rfl
  · -- no vector takes the wrapped length
    have hwrap := maxSize_lt_sizeSub data.length 16 (by omega) (by decide)
    rw [vector_of_lt _ hwrap, Run.fail_bind, Run.fail_bind]

theorem decryptData_agrees (openEasy : CipherCall) (found : List String) (data nonce : Bytes)
    (hd : data.length ≤ maxSize) (hn : nonce.length ≤ maxSize)
    (h : ∀ l ∈ decryptLoops openEasy data nonce, l.Complete) :
    decryptData intCounter 16 openEasy [] found data nonce =
      decryptData sizeCounter 16 openEasy [] found data nonce := by
  have hfields := runLoops_agree _ (fun l hl => h l (List.mem_of_mem_take (i := 2) hl))
  have hclear := runLoops_agree _ (fun l hl => h l (List.mem_of_mem_drop (i := 2) hl))
  rw [decryptData_loops intCounter openEasy found data nonce hd hn,
    decryptData_loops sizeCounter openEasy found data nonce hd hn, hfields, hclear]

/-- The copies of a handler: its loops complete, and it does what it would do with the
counter of the KEM handlers. -/
structure CopiesAgree (loops : List CopyLoop) (handler : Counter → Handler Unit) : Prop where
  complete : ∀ l ∈ loops, l.Complete
  agrees : handler intCounter = handler sizeCounter

theorem copiesAgree_iff {loops : List CopyLoop} {handler : Counter → Handler Unit} {p : Prop}
    (hloops : (∀ l ∈ loops, l.Complete) ↔ p)
    (hhandler : (∀ l ∈ loops, l.Complete) → handler intCounter = handler sizeCounter) :
    CopiesAgree loops handler ↔ p := by
  rw [← hloops]
  constructor
  · intro h
    exact h.complete
  · intro h
    exact ⟨h,hhandler h⟩

/-- The int counters copy exactly the payloads that they count, with the MAC that a
successful encryption adds. -/
theorem copies_agree_iff (S : Sodium) (data field : Bytes) (hdata : data.length ≤ maxSize)
    (hfield : field.length ≤ maxSize) (nonce : Vector UInt8 24) (found : List String) :
    (∀ b : EncryptSecret,
      CopiesAgree (encryptLoops (S.secretboxUnder b.dKey).easy nonce data)
        (fun c => encryptData c cryptoSecretboxMACBYTES (S.secretboxUnder b.dKey).easy [] (pure [])
          nonce data) ↔
      data.length ≤ 2147483647 ∧
        (((S.secretboxUnder b.dKey).easy data nonce).1 = 0 → 16+data.length ≤ 2147483647)) ∧
    (∀ b : EncryptPublic,
      CopiesAgree (encryptLoops (S.boxUnder b.dPk b.dSk).easy nonce data)
        (fun c => encryptData c cryptoBoxMACBYTES (S.boxUnder b.dPk b.dSk).easy [] (pure [])
          nonce data) ↔
      data.length ≤ 2147483647 ∧
        (((S.boxUnder b.dPk b.dSk).easy data nonce).1 = 0 → 16+data.length ≤ 2147483647)) ∧
    (∀ b : DecryptSecret,
      CopiesAgree (decryptLoops (S.secretboxUnder b.dKey).openEasy data field)
        (fun c => decryptData c cryptoSecretboxMACBYTES (S.secretboxUnder b.dKey).openEasy [] found
          data field) ↔
      data.length ≤ 2147483647 ∧ field.length ≤ 2147483647) ∧
    ∀ b : DecryptPublic,
      CopiesAgree (decryptLoops (S.boxUnder b.dPk b.dSk).openEasy data field)
        (fun c => decryptData c cryptoBoxMACBYTES (S.boxUnder b.dPk b.dSk).openEasy [] found
          data field) ↔
      data.length ≤ 2147483647 ∧ field.length ≤ 2147483647 := by
  refine ⟨?_,?_,?_,?_⟩
  · intro b
    have heasy := S.secretbox_easy_size data nonce b.dKey
    exact copiesAgree_iff (encryptLoops_complete_iff _ nonce data heasy)
      (encryptData_agrees _ nonce data heasy)
  · intro b
    have heasy := S.box_easy_size data nonce b.dPk b.dSk
    exact copiesAgree_iff (encryptLoops_complete_iff _ nonce data heasy)
      (encryptData_agrees _ nonce data heasy)
  · intro b
    have hopen (n : SecretboxNonce) := S.secretbox_open_size data n b.dKey
    exact copiesAgree_iff (decryptLoops_complete_iff _ data field hopen)
      (decryptData_agrees _ found data field hdata hfield)
  · intro b
    have hopen (n : BoxNonce) := S.box_open_size data n b.dPk b.dSk
    exact copiesAgree_iff (decryptLoops_complete_iff _ data field hopen)
      (decryptData_agrees _ found data field hdata hfield)

theorem copies_agree_iff_reference :
    let sender : EncryptSecret := ⟨"key",Vector.replicate 32 1⟩
    let receiver : DecryptSecret := ⟨"key",Vector.replicate 32 1⟩
    let sender' : EncryptPublic := ⟨"pk","sk",Vector.replicate 32 1,Vector.replicate 32 2⟩
    let receiver' : DecryptPublic := ⟨"pk","sk",Vector.replicate 32 2,Vector.replicate 32 1⟩
    let nonce : Vector UInt8 24 := Vector.replicate 24 0
    let field : Bytes := List.replicate 24 0
    CopiesAgree (encryptLoops (referenceSodium.secretboxUnder sender.dKey).easy nonce [5])
        (fun c => encryptData c cryptoSecretboxMACBYTES
          (referenceSodium.secretboxUnder sender.dKey).easy [] (pure []) nonce [5]) ∧
      CopiesAgree
        (encryptLoops (referenceSodium.boxUnder sender'.dPk sender'.dSk).easy nonce [5])
        (fun c => encryptData c cryptoBoxMACBYTES
          (referenceSodium.boxUnder sender'.dPk sender'.dSk).easy [] (pure []) nonce [5]) ∧
      CopiesAgree (decryptLoops (referenceSodium.secretboxUnder receiver.dKey).openEasy [5] field)
        (fun c => decryptData c cryptoSecretboxMACBYTES
          (referenceSodium.secretboxUnder receiver.dKey).openEasy [] [] [5] field) ∧
      CopiesAgree
        (decryptLoops (referenceSodium.boxUnder receiver'.dPk receiver'.dSk).openEasy [5] field)
        (fun c => decryptData c cryptoBoxMACBYTES
          (referenceSodium.boxUnder receiver'.dPk receiver'.dSk).openEasy [] [] [5] field) := by
  intro sender receiver sender' receiver' nonce field
  obtain ⟨hsecret,hbox,hopen,hopen'⟩ :=
    copies_agree_iff referenceSodium [5] field (by decide) (by decide) nonce []
  exact ⟨(hsecret sender).mpr ⟨by decide,fun _ => by decide⟩,
    (hbox sender').mpr ⟨by decide,fun _ => by decide⟩,
    (hopen receiver).mpr ⟨by decide,by decide⟩,(hopen' receiver').mpr ⟨by decide,by decide⟩⟩

theorem not_copiesAgree_of_length (p : Bytes) (hp : p.length = 2147483633) :
    ¬CopiesAgree (encryptLoops (referenceSodium.secretboxUnder (Vector.replicate 32 1)).easy
        (Vector.replicate 24 0) p)
      (fun c => encryptData c cryptoSecretboxMACBYTES
        (referenceSodium.secretboxUnder (Vector.replicate 32 1)).easy [] (pure [])
        (Vector.replicate 24 0) p) := by
  intro h
  have heasy := referenceSodium.secretbox_easy_size p (Vector.replicate 24 0)
    (Vector.replicate 32 1)
  have hcount := ((encryptLoops_complete_iff _ _ p heasy).mp h.complete).2 rfl
  omega

/-- A payload whose ciphertext has a byte more than an int has values from 0 on, so that even
a counter that wraps leaves the last byte out. -/
theorem ciphertext_copy_overflows :
    ¬CopiesAgree (encryptLoops (referenceSodium.secretboxUnder (Vector.replicate 32 1)).easy
        (Vector.replicate 24 0) (List.replicate 2147483633 7))
      (fun c => encryptData c cryptoSecretboxMACBYTES
        (referenceSodium.secretboxUnder (Vector.replicate 32 1)).easy [] (pure [])
        (Vector.replicate 24 0) (List.replicate 2147483633 7)) :=
  not_copiesAgree_of_length _ List.length_replicate

end GrNacl
