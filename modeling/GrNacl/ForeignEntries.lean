import GrNacl.MessageBlocks
import GrNacl.SodiumInstance

/-! Messages whose entries are arbitrary values. The scan asks every entry for a symbol
before it knows that there is one, so a foreign entry ends the handler in wrong_type. -/
namespace GrNacl
set_option autoImplicit false

open EffectTrace CountedLoop

namespace Pmt

/-- A chain of pairs that ends in PMT_NIL. -/
def isList : Pmt → Bool
  | .null => true
  | .pair _ d => d.isList
  | _ => false

/-- A list of at least two elements headed by a symbol. -/
def isWellFormed : Pmt → Bool
  | .pair (.symbol _) (.pair _ rest) => rest.isList
  | _ => false

/-- What the scan can get past: a pair headed by a symbol, with any tail. -/
def entry : Pmt → Option Entry
  | .pair (.symbol tag) tail => some ⟨tag,tail⟩
  | _ => none

theorem toPmt_of_entry (x : Pmt) (e : Entry) (h : x.entry = some e) : e.toPmt = x := by
  unfold entry at h
  split at h
  · cases Option.some.inj h
    rfl
  · cases h

/-- The tag test returns on no other entry. -/
theorem entry_of_symbol (x : Pmt) (tag : String)
    (h : (do let head ← nth 0 x; head.symbolToString : Handler String).result = .ok tag) :
    x.entry.isSome = true := by
  obtain ⟨head,hhead,hsym⟩ := (Run.bind_result_ok_iff _ _ _).mp h
  cases x with
  | pair a d =>
    have hcar : head = a := (Except.ok.inj hhead).symm
    subst hcar
    cases head with
    | symbol name => rfl
    | null => cases hsym
    | pair a' d' => cases hsym
    | u8vector v => cases hsym
    | atom kind => cases hsym
    | container kind n => cases hsym
  | null =>
    have hnil : head = .null := (Except.ok.inj hhead).symm
    subst hnil
    cases hsym
  | symbol name => cases hhead
  | u8vector v => cases hhead
  | atom kind => cases hhead
  | container kind n => cases hhead

end Pmt

/-- The entries of a list that the scan can get past. -/
def entriesOf (xs : List Pmt) : List Entry := xs.filterMap Pmt.entry

/-- The last u8vector under msg_clear, empty when there is none. -/
def payloadOf (xs : List Pmt) : Bytes := (lookup "msg_clear" (entriesOf xs)).getD []

theorem messagePmt_entriesOf (xs : List Pmt) (h : ∀ x ∈ xs, x.entry.isSome = true) :
    messagePmt (entriesOf xs) = Pmt.ofList xs ∧ (entriesOf xs).length = xs.length := by
  have hmap : (entriesOf xs).map Entry.toPmt = xs := by
    induction xs with
    | nil => rfl
    | cons x xs ih =>
      obtain ⟨hx,hxs⟩ := List.forall_mem_cons.mp h
      obtain ⟨e,he⟩ := Option.isSome_iff_exists.mp hx
      have hhead : entriesOf (x :: xs) = e :: entriesOf xs := List.filterMap_cons_some he
      rw [hhead, List.map_cons, ih hxs, Pmt.toPmt_of_entry x e he]
  refine ⟨?_,?_⟩
  · rw [messagePmt, hmap]
  · rw [← List.length_map (f := Entry.toPmt), hmap]

/-- A scan that returns has found a symbol at the head of every entry. -/
theorem entry_of_scanClear (c : Counter) (xs : List Pmt) (data : Bytes)
    (h : (scanClear c (Pmt.ofList xs)).result = .ok data) : ∀ x ∈ xs, x.entry.isSome = true := by
  rw [scanClear, Pmt.length_ofList, pure_bind] at h
  intro x hx
  obtain ⟨j,hj,rfl⟩ := List.getElem_of_mem hx
  obtain ⟨u,v,hround⟩ := countUpTo_rounds _ _ _ _ _ _ h j hj
  obtain ⟨tag,htag,_⟩ := (Run.bind_result_ok_iff _ _ _).mp hround
  rw [entryTag, Pmt.nth_ofList j xs hj, pure_bind] at htag
  exact Pmt.entry_of_symbol xs[j] tag htag

namespace ClearTextBlock

variable {S : Sodium}

/-- On a list without foreign heads the handler works on the payload. -/
theorem handleMsg_ofList (b : ClearTextBlock S) (xs : List Pmt)
    (hheaded : ∀ x ∈ xs, x.entry.isSome = true) (hcounted : b.kind.counter.Covers xs.length) :
    b.handleMsg (Pmt.ofList xs) = b.onPayload (payloadOf xs) := by
  obtain ⟨hmsg,hlen⟩ := messagePmt_entriesOf xs hheaded
  rw [← hmsg]
  apply b.handleMsg_counted
  rw [hlen, b.counter_eq]
  exact hcounted

/-- A handler that returns has found a symbol at every head and has counted the list. -/
theorem headed_of_returns (b : ClearTextBlock S) (xs : List Pmt)
    (h : (b.handleMsg (Pmt.ofList xs)).result = .ok ()) :
    (∀ x ∈ xs, x.entry.isSome = true) ∧ b.kind.counter.Covers xs.length := by
  obtain ⟨rest,hrest⟩ := b.handleMsg_bind
  have hscan := h
  rw [hrest] at hscan
  obtain ⟨data,hdata,_⟩ := (Run.bind_result_ok_iff _ _ _).mp hscan
  have hheaded := entry_of_scanClear b.counter xs data hdata
  obtain ⟨hmsg,hlen⟩ := messagePmt_entriesOf xs hheaded
  refine ⟨hheaded,?_⟩
  by_contra hover
  rw [← b.counter_eq, ← hlen] at hover
  rw [← hmsg, b.handleMsg_scan, if_neg hover] at h
  cases h

theorem returns_of_fits (b : ClearTextBlock S) (data : Bytes) (h : b.kind.Fits data.length) :
    (b.onPayload data).result = .ok () := by
  have hmax : maxSize = 9223372036854775807 := rfl
  by_cases hne : data.length ≠ 0
  · cases b with
    | encryptSecret b nonce =>
      have hfits : 16+data.length ≤ 2147483647 := h
      have hrun := encryptData_counted intCounter 16
        (fun m n => S.cryptoSecretboxEasy m n b.dKey) [] [] nonce data (by omega)
        ((covers_some _ _).mpr (by decide)) (S.secretbox_easy_size data nonce b.dKey)
        ((covers_some _ _).mpr hfits)
      rw [List.map_nil] at hrun
      rw [encryptSecret_onPayload, if_pos hne, hrun, Run.result_emitAll]
    | encryptPublic b nonce =>
      have hfits : 16+data.length ≤ 2147483647 := h
      have hrun := encryptData_counted intCounter 16
        (fun m n => S.cryptoBoxEasy m n b.dPk b.dSk) [] [] nonce data (by omega)
        ((covers_some _ _).mpr (by decide)) (S.box_easy_size data nonce b.dPk b.dSk)
        ((covers_some _ _).mpr hfits)
      rw [List.map_nil] at hrun
      rw [encryptPublic_onPayload, if_pos hne, hrun, Run.result_emitAll]
    | encryptKem b draws =>
      rcases henc : S.cryptoKemEnc b.dPk draws.coins with ⟨st,ct,ss⟩
      rw [encryptKem_onPayload b draws data hne st ct ss henc]
      split
      · exact Run.result_emitAll _
      · rw [encryptData_counted sizeCounter 16 (fun m n => S.cryptoSecretboxEasy m n ss) _
          (kemFront ct.toList) draws.nonce data h (covers_none _)
          (S.secretbox_easy_size data draws.nonce ss) (covers_none _)]
        rfl
    | hashSha3 b =>
      rw [hashSha3_onPayload b data hne]
      split <;> rfl
  · have hnil : data = [] := List.length_eq_zero_iff.mp (not_not.mp hne)
    rw [hnil, b.onPayload_nil, Run.result_pure]

end ClearTextBlock

/-- A handler returns from a list and does what it does without the foreign entries. -/
def SkipsForeign {S : Sodium} (b : ClearTextBlock S) (xs : List Pmt) : Prop :=
  (b.handleMsg (Pmt.ofList xs)).result = .ok () ∧
    b.handleMsg (Pmt.ofList xs) = b.handleMsg (Pmt.ofList (xs.filter Pmt.isWellFormed))

/-- The lists a block of this kind gets through: nothing but symbols at the heads, no
more entries than the counter covers, a payload that fits, and the same payload without
the entries that are no proper lists. -/
structure Skippable (k : ClearTextKind) (xs : List Pmt) : Prop where
  headed : ∀ x ∈ xs, x.entry.isSome = true
  counted : k.counter.Covers xs.length
  fits : k.Fits (payloadOf xs).length
  proper : payloadOf xs = payloadOf (xs.filter Pmt.isWellFormed)

theorem skipsForeign_of_skippable {S : Sodium} (b : ClearTextBlock S) (xs : List Pmt)
    (h : Skippable b.kind xs) : SkipsForeign b xs := by
  have hall := b.handleMsg_ofList xs h.headed h.counted
  have hheaded : ∀ x ∈ xs.filter Pmt.isWellFormed, x.entry.isSome = true := by
    intro x hx
    exact h.headed x (List.mem_of_mem_filter hx)
  have hfiltered := b.handleMsg_ofList (xs.filter Pmt.isWellFormed) hheaded
    (h.counted.mono (List.length_filter_le _ _))
  refine ⟨?_,?_⟩
  · rw [hall]
    exact b.returns_of_fits _ h.fits
  · rw [hall, hfiltered, h.proper]

/-! Blocks whose output tells the payload. -/

/-- What a block shows of its payloads: it returns on none that does not fit, publishes
one message for every other, and tells the payload p from all others by it. -/
structure Tells {S : Sodium} (b : ClearTextBlock S) (p : Bytes) (out : Bytes → Pmt) : Prop where
  fits : ∀ q, q ≠ [] → (b.onPayload q).result = .ok () → b.kind.Fits q.length
  publishes : ∀ q, q ≠ [] → (b.onPayload q).result = .ok () →
    published (b.onPayload q).events = [out q]
  apart : ∀ q, out q = out p → q = p

theorem published_encryptData (c : Counter) (easy : CipherCall) (wiped : List Event)
    (front : List Entry) (nonce : Vector UInt8 24) (q : Bytes) (hw : published wiped = [])
    (hc : c.Covers 24) (hsize : (easy q nonce).2.length = 16+q.length)
    (hstatus : (easy q nonce).1 = 0)
    (h : (encryptData c 16 easy wiped (pure (front.map Entry.toPmt)) nonce q).result = .ok ()) :
    (c.Covers (16+q.length) ∧ 16+q.length ≤ maxSize) ∧
      published (encryptData c 16 easy wiped (pure (front.map Entry.toPmt)) nonce q).events =
        [messagePmt (encryptedPdu front nonce.toList (easy q nonce).2)] := by
  have hfits := (encryptData_returns_iff c 16 easy wiped front nonce q (by decide) hc hsize
    hstatus).mp h
  exact ⟨hfits,(encryptData_answers c easy wiped hw front nonce q hfits.2 hc hsize hfits.1
    hstatus).messages⟩

/-- A block that encrypts under calls which succeed and are injective tells every payload. -/
theorem tells_of_encryptData {S : Sodium} (b : ClearTextBlock S) (p : Bytes) (c : Counter)
    (easy : CipherCall) (pre wiped : List Event) (front : List Entry) (nonce : Vector UInt8 24)
    (hrun : ∀ q, q ≠ [] → b.onPayload q = Run.emitAll pre >>= fun _ =>
      encryptData c 16 easy wiped (pure (front.map Entry.toPmt)) nonce q)
    (hpre : published pre = []) (hw : published wiped = []) (hc : c.Covers 24)
    (hsize : ∀ q, (easy q nonce).2.length = 16+q.length) (hstatus : ∀ q, (easy q nonce).1 = 0)
    (hinj : ∀ q q', (easy q nonce).2 = (easy q' nonce).2 → q = q')
    (hfits : ∀ n, c.Covers (16+n) ∧ 16+n ≤ maxSize → b.kind.Fits n) :
    Tells b p (fun q => messagePmt (encryptedPdu front nonce.toList (easy q nonce).2)) := by
  have hreturns (q : Bytes) (hq : q ≠ []) (h : (b.onPayload q).result = .ok ()) :
      (c.Covers (16+q.length) ∧ 16+q.length ≤ maxSize) ∧
        published (b.onPayload q).events =
          [messagePmt (encryptedPdu front nonce.toList (easy q nonce).2)] := by
    rw [hrun q hq, Run.emitAll_bind] at h ⊢
    have hdata := published_encryptData c easy wiped front nonce q hw hc (hsize q) (hstatus q) h
    refine ⟨hdata.1,?_⟩
    rw [published_append, hpre, List.nil_append, hdata.2]
  refine ⟨?_,?_,?_⟩
  · intro q hq h
    exact hfits q.length (hreturns q hq h).1
  · intro q hq h
    exact (hreturns q hq h).2
  · intro q h
    exact hinj q p (encryptedPdu_injective front nonce.toList h)

theorem secretbox_injective (S : Sodium) (hS : S.SecretboxInverts) (n : SecretboxNonce)
    (k : SecretboxKey) (q q' : Bytes)
    (h : (S.cryptoSecretboxEasy q n k).2 = (S.cryptoSecretboxEasy q' n k).2) : q = q' := by
  have hopen := (hS q n k).2
  rw [h, (hS q' n k).2] at hopen
  exact (congrArg Prod.snd hopen).symm

/-- The output of the block tells the payload p from all others: its cipher can be undone, or
nothing else has the digest of p. -/
def ClearTextBlock.TellsApart {S : Sodium} (p : Bytes) : ClearTextBlock S → Prop
  | .encryptSecret _ _ => S.SecretboxInverts
  | .encryptPublic b _ => S.BoxInverts ∧ ∃ seedA seedB,
    b.dPk = (S.cryptoBoxKeypair seedB).1 ∧ b.dSk = (S.cryptoBoxKeypair seedA).2
  | .encryptKem b draws => S.SecretboxInverts ∧ (S.cryptoKemEnc b.dPk draws.coins).1 = 0
  | .hashSha3 b => ∀ q, (b.cryptoHash S q).1 = 0 ∧
    ((b.cryptoHash S q).2 = (b.cryptoHash S p).2 → q = p)

section TellsApart

variable {S : Sodium} (p : Bytes)

theorem secret_tells (hS : S.SecretboxInverts) (b : EncryptSecret) (nonce : SecretboxNonce) :
    ∃ out, Tells (.encryptSecret b nonce : ClearTextBlock S) p out := by
  refine ⟨_,tells_of_encryptData _ p intCounter (fun m n => S.cryptoSecretboxEasy m n b.dKey)
    [] [] [] nonce ?_ rfl rfl ((covers_some _ _).mpr (by decide))
    (fun q => S.secretbox_easy_size q nonce b.dKey) (fun q => (hS q nonce b.dKey).1)
    (secretbox_injective S hS nonce b.dKey) (fun n h => (covers_some _ _).mp h.1)⟩
  intro q hq
  rw [ClearTextBlock.encryptSecret_onPayload, if_pos (List.length_pos_iff.mpr hq).ne']
  rfl

theorem public_tells (hS : S.BoxInverts) (b : EncryptPublic) (nonce : BoxNonce)
    (seedA seedB : Bytes) (hpk : b.dPk = (S.cryptoBoxKeypair seedB).1)
    (hsk : b.dSk = (S.cryptoBoxKeypair seedA).2) :
    ∃ out, Tells (.encryptPublic b nonce : ClearTextBlock S) p out := by
  have hinv (q : Bytes) := hS seedA seedB q nonce
  dsimp only at hinv
  rw [← hpk, ← hsk] at hinv
  refine ⟨_,tells_of_encryptData _ p intCounter (fun m n => S.cryptoBoxEasy m n b.dPk b.dSk)
    [] [] [] nonce ?_ rfl rfl ((covers_some _ _).mpr (by decide))
    (fun q => S.box_easy_size q nonce b.dPk b.dSk) (fun q => (hinv q).1) ?_
    (fun n h => (covers_some _ _).mp h.1)⟩
  · intro q hq
    rw [ClearTextBlock.encryptPublic_onPayload, if_pos (List.length_pos_iff.mpr hq).ne']
    rfl
  · intro q q' h
    have hopen := (hinv q).2
    rw [h, (hinv q').2] at hopen
    exact (congrArg Prod.snd hopen).symm

theorem kem_tells (hS : S.SecretboxInverts) (b : EncryptKem S) (draws : KemDraws)
    (henc : (S.cryptoKemEnc b.dPk draws.coins).1 = 0) :
    ∃ out, Tells (.encryptKem b draws) p out := by
  rcases hkem : S.cryptoKemEnc b.dPk draws.coins with ⟨st,ct,ss⟩
  have hst : st = 0 := by
    rw [hkem] at henc
    exact henc
  refine ⟨_,tells_of_encryptData _ p sizeCounter (fun m n => S.cryptoSecretboxEasy m n ss)
    [.fill .ss] [.sodiumMemzero .ss] (kemFront ct.toList) draws.nonce ?_ rfl rfl (covers_none _)
    (fun q => S.secretbox_easy_size q draws.nonce ss) (fun q => (hS q draws.nonce ss).1)
    (secretbox_injective S hS draws.nonce ss) (fun n h => h.2)⟩
  intro q hq
  rw [ClearTextBlock.encryptKem_onPayload b draws q (List.length_pos_iff.mpr hq).ne' st ct ss hkem,
    if_neg (not_not_intro hst)]
  rfl

theorem hash_tells (b : HashSha3)
    (hS : ∀ q, (b.cryptoHash S q).1 = 0 ∧
      ((b.cryptoHash S q).2 = (b.cryptoHash S p).2 → q = p)) :
    ∃ out, Tells (.hashSha3 b : ClearTextBlock S) p out := by
  have hrun (q : Bytes) (hq : q ≠ []) :
      (.hashSha3 b : ClearTextBlock S).onPayload q =
        Run.emit (.messagePortPub (messagePmt (b.hashPdu S q))) := by
    rw [ClearTextBlock.hashSha3_onPayload b q (List.length_pos_iff.mpr hq).ne']
    exact if_neg (not_not_intro (hS q).1)
  refine ⟨fun q => messagePmt (b.hashPdu S q),?_,?_,?_⟩
  · intro q hq h
    trivial
  · intro q hq h
    rw [hrun q hq]
    rfl
  · intro q h
    -- the digest stands under its tag in both PDUs
    have hpdu := congrArg (lookup b.digestTag) (messagePmt_injective h)
    have hfield (v : Bytes) : lookup b.digestTag [.field b.digestTag v] = some v := by
      have hlast := lookup_append b.digestTag [] (.field b.digestTag v)
      rw [value_field_self, Option.some_or] at hlast
      exact hlast
    rw [HashSha3.hashPdu, HashSha3.hashPdu, hfield, hfield] at hpdu
    exact (hS q).2 (Option.some.inj hpdu)

theorem tells_of_apart (b : ClearTextBlock S) (h : b.TellsApart p) : ∃ out, Tells b p out := by
  cases b with
  | encryptSecret b nonce => exact secret_tells p h b nonce
  | encryptPublic b nonce =>
    obtain ⟨hS,seedA,seedB,hpk,hsk⟩ := h
    exact public_tells p hS b nonce seedA seedB hpk hsk
  | encryptKem b draws => exact kem_tells p h.1 b draws h.2
  | hashSha3 b => exact hash_tells p b h

end TellsApart

/-- A library whose digest marks one input. -/
def markingSodium (p : Bytes) : Sodium :=
  { referenceSodium with
    cryptoHashSha3256 := fun m => (0,Vector.replicate 32 (if m = p then 1 else 0)) }

theorem hash_tellsApart (p : Bytes) :
    (.hashSha3 ⟨false⟩ : ClearTextBlock (markingSodium p)).TellsApart p := by
  intro q
  refine ⟨rfl,?_⟩
  intro h
  by_contra hne
  have hdigest : (List.replicate 32 (if q = p then 1 else 0) : Bytes) =
      List.replicate 32 (if p = p then 1 else 0) := h
  rw [if_neg hne, if_pos rfl] at hdigest
  exact absurd hdigest (by decide)

def referenceEncryptPublic : EncryptPublic :=
  ⟨"pk","sk",(referenceSodium.cryptoBoxKeypair []).1,(referenceSodium.cryptoBoxKeypair []).2⟩

theorem public_tellsApart (p : Bytes) (nonce : BoxNonce) :
    (.encryptPublic referenceEncryptPublic nonce : ClearTextBlock referenceSodium).TellsApart p :=
  ⟨reference_box_inverts,[],[],rfl,rfl⟩

/-- Of every kind there is a block that tells its payloads apart. -/
theorem exists_tellsApart (k : ClearTextKind) (p : Bytes) :
    ∃ (S : Sodium) (b : ClearTextBlock S), b.kind = k ∧ b.TellsApart p := by
  cases k with
  | encryptSecret =>
    exact ⟨referenceSodium,.encryptSecret ⟨"key",Vector.replicate 32 0⟩ (Vector.replicate 24 0),rfl,
      reference_secretbox_inverts⟩
  | encryptPublic =>
    exact ⟨referenceSodium,_,rfl,public_tellsApart p (Vector.replicate 24 0)⟩
  | encryptKem =>
    exact ⟨referenceSodium,.encryptKem ⟨"pk",Vector.replicate 1216 0⟩ ⟨[],Vector.replicate 24 0⟩,
      rfl,reference_secretbox_inverts,rfl⟩
  | hashSha3 => exact ⟨markingSodium p,_,rfl,hash_tellsApart p⟩

/-- A block that tells the payload skips the foreign entries of no other list. -/
theorem skippable_of_tells {S : Sodium} (b : ClearTextBlock S) (xs : List Pmt) (out : Bytes → Pmt)
    (htells : Tells b (payloadOf xs) out) (h : SkipsForeign b xs) : Skippable b.kind xs := by
  obtain ⟨hreturns,hsame⟩ := h
  obtain ⟨hheaded,hcounted⟩ := b.headed_of_returns xs hreturns
  have hreturns' := hreturns
  rw [hsame] at hreturns'
  obtain ⟨hheaded',hcounted'⟩ := b.headed_of_returns _ hreturns'
  rw [b.handleMsg_ofList _ hheaded' hcounted'] at hreturns' hsame
  rw [b.handleMsg_ofList xs hheaded hcounted] at hreturns hsame
  refine ⟨hheaded,hcounted,?_,?_⟩
  · by_cases hne : payloadOf xs = []
    · rw [hne]
      exact b.kind.fits_zero
    · exact htells.fits _ hne hreturns
  · -- the one message published names the payload, and an empty payload publishes none
    have hevents : published (b.onPayload (payloadOf xs)).events =
        published (b.onPayload (payloadOf (xs.filter Pmt.isWellFormed))).events := by
      rw [hsame]
    by_cases hne : payloadOf xs = []
    · by_cases hne' : payloadOf (xs.filter Pmt.isWellFormed) = []
      · rw [hne, hne']
      · rw [hne, b.onPayload_nil, htells.publishes _ hne' hreturns'] at hevents
        cases hevents
    · by_cases hne' : payloadOf (xs.filter Pmt.isWellFormed) = []
      · rw [hne', b.onPayload_nil, htells.publishes _ hne hreturns] at hevents
        cases hevents
      · rw [htells.publishes _ hne hreturns, htells.publishes _ hne' hreturns'] at hevents
        exact (htells.apart _ (List.singleton_inj.mp hevents).symm).symm

/-- The lists on which every block of a kind skips the foreign entries are the skippable
ones, whatever the library, the keys and the draws; and they are those of every single block
whose output tells the payload from others. -/
theorem skips_foreign_iff (k : ClearTextKind) (xs : List Pmt) :
    ((∀ (S : Sodium) (b : ClearTextBlock S), b.kind = k → SkipsForeign b xs) ↔
      Skippable k xs) ∧
    ∀ (S : Sodium) (b : ClearTextBlock S), b.kind = k → b.TellsApart (payloadOf xs) →
      (SkipsForeign b xs ↔ Skippable k xs) := by
  have hone (S : Sodium) (b : ClearTextBlock S) (hk : b.kind = k)
      (hb : b.TellsApart (payloadOf xs)) (h : SkipsForeign b xs) : Skippable k xs := by
    obtain ⟨out,htells⟩ := tells_of_apart (payloadOf xs) b hb
    have hskip := skippable_of_tells b xs out htells h
    rw [hk] at hskip
    exact hskip
  have hall (S : Sodium) (b : ClearTextBlock S) (hk : b.kind = k) (h : Skippable k xs) :
      SkipsForeign b xs := by
    rw [← hk] at h
    exact skipsForeign_of_skippable b xs h
  constructor
  · constructor
    · intro h
      obtain ⟨S,b,hk,hb⟩ := exists_tellsApart k (payloadOf xs)
      exact hone S b hk hb (h S b hk)
    · intro h S b hk
      exact hall S b hk h
  · intro S b hk hb
    exact ⟨hone S b hk hb,hall S b hk⟩

/-- An entry headed by a number, and a valid payload behind it. -/
def numberHeaded : List Pmt := [.pair (.atom .long) .null,(Entry.field "msg_clear" [1]).toPmt]

theorem skips_foreign_iff_number :
    let secret : ClearTextBlock referenceSodium :=
      .encryptSecret ⟨"key",Vector.replicate 32 0⟩ (Vector.replicate 24 0)
    let box : ClearTextBlock referenceSodium :=
      .encryptPublic referenceEncryptPublic (Vector.replicate 24 0)
    let kem : ClearTextBlock referenceSodium :=
      .encryptKem ⟨"pk",Vector.replicate 1216 0⟩ ⟨[],Vector.replicate 24 0⟩
    let hash : ClearTextBlock (markingSodium [1]) := .hashSha3 ⟨false⟩
    (SkipsForeign secret numberHeaded ↔ Skippable .encryptSecret numberHeaded) ∧
      (SkipsForeign box numberHeaded ↔ Skippable .encryptPublic numberHeaded) ∧
      (SkipsForeign kem numberHeaded ↔ Skippable .encryptKem numberHeaded) ∧
      (SkipsForeign hash numberHeaded ↔ Skippable .hashSha3 numberHeaded) := by
  intro secret box kem hash
  refine ⟨?_,?_,?_,?_⟩
  · exact (skips_foreign_iff .encryptSecret numberHeaded).2 _ secret rfl reference_secretbox_inverts
  · exact (skips_foreign_iff .encryptPublic numberHeaded).2 _ box rfl (public_tellsApart _ _)
  · exact (skips_foreign_iff .encryptKem numberHeaded).2 _ kem rfl ⟨reference_secretbox_inverts,rfl⟩
  · exact (skips_foreign_iff .hashSha3 numberHeaded).2 _ hash rfl (hash_tellsApart [1])

/-- The number raises wrong_type in all four handlers, and the payload is lost. -/
theorem foreign_entry_raises :
    payloadOf (numberHeaded.filter Pmt.isWellFormed) = [1] ∧
      ∀ (S : Sodium) (b : ClearTextBlock S),
        b.handleMsg (Pmt.ofList numberHeaded) = Run.fail .wrongType ∧
          ¬SkipsForeign b numberHeaded := by
  refine ⟨rfl,?_⟩
  intro S b
  obtain ⟨rest,hrest⟩ := b.handleMsg_bind
  have hscan : scanClear b.counter (Pmt.ofList numberHeaded) = Run.fail .wrongType := by
    rw [b.counter_eq]
    cases b.kind <;> rfl
  have hraise : b.handleMsg (Pmt.ofList numberHeaded) = Run.fail .wrongType := by
    rw [hrest, hscan, Run.fail_bind]
  refine ⟨hraise,?_⟩
  intro h
  have hreturns := h.1
  rw [hraise] at hreturns
  cases hreturns

end GrNacl
