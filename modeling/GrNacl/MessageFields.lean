import GrNacl.MachineVectors

/-! Messages made of tagged entries, and the scanning loops of the handlers. Every
loop keeps, for each tag it looks for, the last entry that holds a u8vector. -/
namespace GrNacl
set_option autoImplicit false

open EffectTrace CountedLoop

/-- A list headed by a symbol. -/
structure Entry where
  tag : String
  tail : Pmt
  deriving DecidableEq, Repr

namespace Entry

def toPmt (e : Entry) : Pmt := .pair (.symbol e.tag) e.tail

/-- The second element, PMT_NIL when there is none. -/
def second (e : Entry) : Pmt :=
  match e.tail with
  | .pair v _ => v
  | _ => .null

def bytes (e : Entry) : Option Bytes :=
  match e.second with
  | .u8vector v => some v
  | _ => none

/-- What the entry offers a scan for the given tag. -/
def value (name : String) (e : Entry) : Option Bytes := if e.tag = name then e.bytes else none

/-- The entry `(name data)`. -/
def field (name : String) (data : Bytes) : Entry := ⟨name, .pair (.u8vector data) .null⟩

end Entry

def messagePmt (entries : List Entry) : Pmt := Pmt.ofList (entries.map Entry.toPmt)

/-- The reference lookup: the last u8vector under a tag. -/
def lookup (name : String) (entries : List Entry) : Option Bytes :=
  (entries.filterMap (Entry.value name)).getLast?

def entryTag (msg : Pmt) (k : ℕ) : Handler String := do
  let entry ← Pmt.nth k msg
  let head ← Pmt.nth 0 entry
  head.symbolToString

/-- The body of one test of a scan: an entry under the wanted tag is taken over
when its second element is a u8vector. -/
def takeEntry {σ : Type} (msg : Pmt) (k : ℕ) (tag name : String) (s : σ) (assign : Bytes → σ) :
    Handler σ :=
  if tag = name then do
    let entry ← Pmt.nth k msg
    let second ← Pmt.nth 1 entry
    -- anything else under the tag is passed over
    if second.isU8vector then do
      let elements ← second.u8vectorElements
      pure (assign elements)
    else pure s
  else pure s

/-- The scan of encrypt_secret, encrypt_public, encrypt_kem and hash_sha3. -/
def scanClear (c : Counter) (msg : Pmt) : Handler Bytes := do
  let msgSize ← msg.length
  countUpTo c .undefinedBehaviour msgSize [] fun k data => do
    let tag ← entryTag msg k
    takeEntry msg k tag "msg_clear" data (fun elements => elements)

structure EncryptedFields where
  data : Bytes
  nonce : Bytes
  msgEncryptedFound : Bool
  nonceFound : Bool
  deriving DecidableEq

def EncryptedFields.empty : EncryptedFields := ⟨[],[],false,false⟩

/-- The scan of decrypt_secret and decrypt_public, which reads the tag twice. -/
def scanEncrypted (c : Counter) (msg : Pmt) : Handler EncryptedFields := do
  let msgSize ← msg.length
  countUpTo c .undefinedBehaviour msgSize .empty fun k s => do
    let tag ← entryTag msg k
    let s ← takeEntry msg k tag "msg_encrypted" s
      (fun elements => { s with data := elements, msgEncryptedFound := true })
    let tag ← entryTag msg k
    takeEntry msg k tag "nonce" s (fun elements => { s with nonce := elements, nonceFound := true })

structure KemFields where
  kemCt : Bytes
  kemCiphertextFound : Bool
  rest : EncryptedFields
  deriving DecidableEq

def KemFields.empty : KemFields := ⟨[],false,.empty⟩

/-- The scan of decrypt_kem. -/
def scanKem (c : Counter) (msg : Pmt) : Handler KemFields := do
  let msgSize ← msg.length
  countUpTo c .undefinedBehaviour msgSize .empty fun k s => do
    let tag ← entryTag msg k
    let s ← takeEntry msg k tag "kem_ciphertext" s
      (fun elements => { s with kemCt := elements, kemCiphertextFound := true })
    let s ← takeEntry msg k tag "msg_encrypted" s
      (fun elements => { s with rest := { s.rest with data := elements, msgEncryptedFound := true } })
    takeEntry msg k tag "nonce" s
      (fun elements => { s with rest := { s.rest with nonce := elements, nonceFound := true } })

/-! What a round sees of its entry. -/

theorem nth_messagePmt (entries : List Entry) (k : ℕ) (h : k < entries.length) :
    Pmt.nth k (messagePmt entries) = pure entries[k].toPmt := by
  have hk : k < (entries.map Entry.toPmt).length := by
    rw [List.length_map]
    exact h
  rw [messagePmt, Pmt.nth_ofList k _ hk, List.getElem_map]

theorem length_messagePmt (entries : List Entry) :
    (messagePmt entries).length = pure entries.length := by
  rw [messagePmt, Pmt.length_ofList, List.length_map]

theorem messagePmt_injective : Function.Injective messagePmt := by
  intro xs ys h
  have hentry : Function.Injective Entry.toPmt := by
    rintro ⟨tag,tail⟩ ⟨tag',tail'⟩ he
    obtain ⟨htag,htail⟩ := Pmt.pair.inj he
    exact congrArg₂ Entry.mk (Pmt.symbol.inj htag) htail
  exact List.map_injective_iff.mpr hentry (Pmt.ofList_injective h)

theorem nth_zero_toPmt (e : Entry) : Pmt.nth 0 e.toPmt = pure (.symbol e.tag) := rfl

theorem nth_one_toPmt (e : Entry) : Pmt.nth 1 e.toPmt = pure e.second := by
  rw [Pmt.nth, Entry.toPmt, Pmt.nthcdr, Pmt.dropPairs, Pmt.dropPairs, pure_bind, Entry.second]
  cases e.tail <;> rfl

theorem entryTag_messagePmt (entries : List Entry) (k : ℕ) (h : k < entries.length) :
    entryTag (messagePmt entries) k = pure entries[k].tag := by
  rw [entryTag, nth_messagePmt entries k h, pure_bind, nth_zero_toPmt, pure_bind]
  rfl

/-- A test takes over exactly what its entry offers under the tag. -/
theorem takeEntry_messagePmt {σ : Type} (entries : List Entry) (k : ℕ) (h : k < entries.length)
    (name : String) (s : σ) (assign : Bytes → σ) :
    takeEntry (messagePmt entries) k entries[k].tag name s assign =
      pure ((entries[k].value name).elim s assign) := by
  rw [takeEntry, Entry.value]
  by_cases htag : entries[k].tag = name
  · rw [if_pos htag, if_pos htag, nth_messagePmt entries k h, pure_bind, nth_one_toPmt, pure_bind,
      Entry.bytes]
    cases entries[k].second <;> rfl
  · rw [if_neg htag, if_neg htag, Option.elim_none]

theorem lookup_append (name : String) (entries : List Entry) (e : Entry) :
    lookup name (entries ++ [e]) = (e.value name).or (lookup name entries) := by
  rw [lookup, List.filterMap_append, List.getLast?_append]
  congr 1
  cases h : e.value name <;> simp [h]

@[simp] theorem value_field_self (name : String) (data : Bytes) :
    (Entry.field name data).value name = some data := if_pos rfl

theorem value_field_of_ne (tag name : String) (data : Bytes) (h : tag ≠ name) :
    (Entry.field tag data).value name = none := if_neg h

theorem lookup_bytes (name : String) (entries : List Entry) (v : Bytes)
    (h : lookup name entries = some v) : ∃ e ∈ entries, e.bytes = some v := by
  have hmem : v ∈ entries.filterMap (Entry.value name) := List.mem_of_getLast? h
  obtain ⟨e,he,hv⟩ := List.mem_filterMap.mp hmem
  refine ⟨e, he, ?_⟩
  unfold Entry.value at hv
  split at hv
  · exact hv
  · cases hv

/-- Every u8vector leaves room for so many more bytes in a vector. -/
def LeavesRoom (extra : ℕ) (entries : List Entry) : Prop :=
  ∀ e ∈ entries, ∀ v, e.bytes = some v → v.length+extra ≤ maxSize

theorem leavesRoom_nil (extra : ℕ) : LeavesRoom extra [] := fun _ he => absurd he List.not_mem_nil

theorem leavesRoom_field_cons (extra : ℕ) (tag : String) (data : Bytes) (entries : List Entry) :
    LeavesRoom extra (.field tag data :: entries) ↔
      data.length+extra ≤ maxSize ∧ LeavesRoom extra entries := by
  have hhead : (∀ v, (Entry.field tag data).bytes = some v → v.length+extra ≤ maxSize) ↔
      data.length+extra ≤ maxSize :=
    ⟨fun h => h data rfl, fun h v hv => Option.some.inj hv ▸ h⟩
  rw [LeavesRoom, List.forall_mem_cons, hhead]
  exact Iff.rfl

theorem lookup_leavesRoom (extra : ℕ) (entries : List Entry) (h : LeavesRoom extra entries)
    (name : String) (v : Bytes) (hv : lookup name entries = some v) : v.length+extra ≤ maxSize := by
  obtain ⟨e,he,hb⟩ := lookup_bytes name entries v hv
  exact h e he v hb

/-- A message as it sits in memory, each vector of it with so much room to the largest size.
With none its vectors are any that exist, with 16 bytes each has a ciphertext that exists. -/
structure Message (extra : ℕ) where
  entries : List Entry
  inMemory : LeavesRoom extra entries

namespace Message

variable {extra : ℕ} (m : Message extra)

def toPmt : Pmt := messagePmt m.entries

def field (name : String) : Option Bytes := lookup name m.entries

end Message

/-! The scans agree with the reference lookup. -/

theorem scanClear_eq (c : Counter) (entries : List Entry) :
    scanClear c (messagePmt entries) =
      if c.Covers entries.length then pure ((lookup "msg_clear" entries).getD [])
      else Run.fail .undefinedBehaviour := by
  have hround (j : ℕ) (hj : j < entries.length) (data : Bytes) :
      (do let tag ← entryTag (messagePmt entries) j
          takeEntry (messagePmt entries) j tag "msg_clear" data (fun elements => elements)) =
        pure ((entries[j].value "msg_clear").elim data (fun v => v)) := by
    rw [entryTag_messagePmt entries j hj, pure_bind, takeEntry_messagePmt entries j hj]
  -- the loop overwrites its variable, so the last offer is what remains
  have hlast : entries.foldl (fun data e => (e.value "msg_clear").elim data (fun v => v)) [] =
      (lookup "msg_clear" entries).getD [] := by
    rw [lookup, ← foldl_getD_eq_last]
    congr 1
    funext data e
    cases e.value "msg_clear" <;> rfl
  rw [scanClear, length_messagePmt, pure_bind, countUpTo_foldl c .undefinedBehaviour entries
    (fun data e => (e.value "msg_clear").elim data (fun v => v)) [] _ hround, hlast]

/-- What a scan for the encrypted fields leaves in its variables. -/
def EncryptedFields.of (entries : List Entry) : EncryptedFields :=
  ⟨(lookup "msg_encrypted" entries).getD [], (lookup "nonce" entries).getD [],
    (lookup "msg_encrypted" entries).isSome, (lookup "nonce" entries).isSome⟩

def KemFields.of (entries : List Entry) : KemFields :=
  ⟨(lookup "kem_ciphertext" entries).getD [], (lookup "kem_ciphertext" entries).isSome,
    .of entries⟩

def EncryptedFields.take (s : EncryptedFields) (e : Entry) : EncryptedFields :=
  let s := (e.value "msg_encrypted").elim s
    (fun elements => { s with data := elements, msgEncryptedFound := true })
  (e.value "nonce").elim s (fun elements => { s with nonce := elements, nonceFound := true })

def KemFields.take (s : KemFields) (e : Entry) : KemFields :=
  let s := (e.value "kem_ciphertext").elim s
    (fun elements => { s with kemCt := elements, kemCiphertextFound := true })
  { s with rest := s.rest.take e }

theorem foldl_take_encrypted (entries : List Entry) :
    entries.foldl EncryptedFields.take .empty = .of entries := by
  induction entries using List.reverseRecOn with
  | nil => rfl
  | append_singleton entries e ih =>
    rw [List.foldl_append, ih, List.foldl_cons, List.foldl_nil]
    simp only [EncryptedFields.of, EncryptedFields.take, lookup_append]
    cases e.value "msg_encrypted" <;> cases e.value "nonce" <;> rfl

theorem foldl_take_kem (entries : List Entry) :
    entries.foldl KemFields.take .empty = .of entries := by
  induction entries using List.reverseRecOn with
  | nil => rfl
  | append_singleton entries e ih =>
    have hrest : (EncryptedFields.of entries).take e = .of (entries ++ [e]) := by
      rw [← foldl_take_encrypted, ← foldl_take_encrypted, List.foldl_append]
      rfl
    rw [List.foldl_append, ih, List.foldl_cons, List.foldl_nil]
    simp only [KemFields.of, KemFields.take, lookup_append, ← hrest]
    cases e.value "kem_ciphertext" <;> rfl

theorem scanEncrypted_eq (c : Counter) (entries : List Entry) :
    scanEncrypted c (messagePmt entries) =
      if c.Covers entries.length then pure (.of entries) else Run.fail .undefinedBehaviour := by
  have hround (j : ℕ) (hj : j < entries.length) (s : EncryptedFields) :
      (do let tag ← entryTag (messagePmt entries) j
          let s ← takeEntry (messagePmt entries) j tag "msg_encrypted" s
            (fun elements => { s with data := elements, msgEncryptedFound := true })
          let tag ← entryTag (messagePmt entries) j
          takeEntry (messagePmt entries) j tag "nonce" s
            (fun elements => { s with nonce := elements, nonceFound := true })) =
        pure (s.take entries[j]) := by
    rw [entryTag_messagePmt entries j hj, pure_bind, takeEntry_messagePmt entries j hj, pure_bind,
      pure_bind, takeEntry_messagePmt entries j hj]
    rfl
  rw [scanEncrypted, length_messagePmt, pure_bind,
    countUpTo_foldl c .undefinedBehaviour entries EncryptedFields.take _ _ hround,
    foldl_take_encrypted]

theorem scanKem_eq (c : Counter) (entries : List Entry) :
    scanKem c (messagePmt entries) =
      if c.Covers entries.length then pure (.of entries) else Run.fail .undefinedBehaviour := by
  have hround (j : ℕ) (hj : j < entries.length) (s : KemFields) :
      (do let tag ← entryTag (messagePmt entries) j
          let s ← takeEntry (messagePmt entries) j tag "kem_ciphertext" s
            (fun elements => { s with kemCt := elements, kemCiphertextFound := true })
          let s ← takeEntry (messagePmt entries) j tag "msg_encrypted" s
            (fun elements =>
              { s with rest := { s.rest with data := elements, msgEncryptedFound := true } })
          takeEntry (messagePmt entries) j tag "nonce" s
            (fun elements =>
              { s with rest := { s.rest with nonce := elements, nonceFound := true } })) =
        pure (s.take entries[j]) := by
    rw [entryTag_messagePmt entries j hj, pure_bind, takeEntry_messagePmt entries j hj, pure_bind,
      takeEntry_messagePmt entries j hj, pure_bind, takeEntry_messagePmt entries j hj,
      KemFields.take, EncryptedFields.take]
    cases entries[j].value "kem_ciphertext" <;> cases entries[j].value "msg_encrypted" <;>
      cases entries[j].value "nonce" <;> rfl
  rw [scanKem, length_messagePmt, pure_bind,
    countUpTo_foldl c .undefinedBehaviour entries KemFields.take _ _ hround, foldl_take_kem]

end GrNacl
