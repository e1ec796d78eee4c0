import GrNacl.ForeignEntries

/-! The seven message handlers on every value a port can carry. A handler looks at a
message through its scan alone, and the scan sees a list of symbol-headed pairs or fails
before anything else has happened. -/
namespace GrNacl
set_option autoImplicit false

open EffectTrace CountedLoop

namespace Pmt

/-- The elements of a proper list. -/
def elements : Pmt → Option (List Pmt)
  | .null => some []
  | .pair a d => d.elements.map (fun xs => a :: xs)
  | _ => none

theorem ofList_elements (m : Pmt) (xs : List Pmt) (h : m.elements = some xs) : m = ofList xs := by
  induction m generalizing xs with
  | null => cases Option.some.inj h; rfl
  | pair a d _ ihd =>
    obtain ⟨ys,hys,rfl⟩ := Option.map_eq_some_iff.mp h
    rw [ihd ys hys]
    rfl
  | symbol name => cases h
  | u8vector v => cases h
  | atom kind => cases h
  | container kind n => cases h

/-- A chain of pairs that does not end in PMT_NIL has no length. -/
theorem chainLength_improper (m : Pmt) (h : m.elements = none) :
    m.chainLength = Run.fail .wrongType := by
  induction m with
  | null => cases h
  | pair a d _ ihd =>
    have hd : d.elements = none := Option.map_eq_none_iff.mp h
    change (do let n ← d.chainLength; pure (n+1)) = _
    rw [ihd hd, Run.fail_bind]
  | symbol name => rfl
  | u8vector v => rfl
  | atom kind => rfl
  | container kind n => rfl

/-- The tag test raises wrong_type on everything that is no pair headed by a symbol. -/
theorem symbolToString_unheaded (x : Pmt) (h : x.entry = none) :
    (do let head ← nth 0 x; head.symbolToString : Handler String) = Run.fail .wrongType := by
  cases x with
  | pair a d =>
    have hnth : nth 0 (.pair a d) = pure a := rfl
    rw [hnth, pure_bind]
    cases a with
    | symbol name => cases h
    | null => rfl
    | pair a' d' => rfl
    | u8vector v => rfl
    | atom kind => rfl
    | container kind n => rfl
  | null => rfl
  | symbol name => rfl
  | u8vector v => rfl
  | atom kind => rfl
  | container kind n => rfl

end Pmt

/-! A round of a scan, on an element of any list. -/

theorem entryTag_of_nth (msg : Pmt) (k : ℕ) (e : Entry) (h : Pmt.nth k msg = pure e.toPmt) :
    entryTag msg k = pure e.tag := by
  rw [entryTag, h, pure_bind, nth_zero_toPmt, pure_bind]
  rfl

theorem takeEntry_of_nth {σ : Type} (msg : Pmt) (k : ℕ) (e : Entry)
    (h : Pmt.nth k msg = pure e.toPmt) (name : String) (s : σ) (assign : Bytes → σ) :
    takeEntry msg k e.tag name s assign = pure ((e.value name).elim s assign) := by
  rw [takeEntry, Entry.value]
  by_cases htag : e.tag = name
  · rw [if_pos htag, if_pos htag, h, pure_bind, nth_one_toPmt, pure_bind, Entry.bytes]
    cases e.second <;> rfl
  · rw [if_neg htag, if_neg htag, Option.elim_none]

/-- The loop of a scan with its round left open. -/
def scanOver {σ : Type} (c : Counter) (init : σ) (round : Pmt → ℕ → String → σ → Handler σ)
    (msg : Pmt) : Handler σ := do
  let msgSize ← msg.length
  countUpTo c .undefinedBehaviour msgSize init fun k s => do
    let tag ← entryTag msg k
    round msg k tag s

/-- Why a scan does not get through a message: an element that is no pair headed by a
symbol, more elements than the counter can count, or no list at all. -/
def shapeFault (c : Counter) : Pmt → Option Fault
  | .container _ n => if n = 0 then none else some .wrongType
  | .u8vector v => if v.length = 0 then none else some .wrongType
  | m =>
    match m.elements with
    | none => some .wrongType
    | some xs =>
      match xs.findIdx? (fun x => x.entry.isNone) with
      | some j => if c.Covers j then some .wrongType else some .undefinedBehaviour
      | none => if c.Covers xs.length then none else some .undefinedBehaviour

/-- The entries a scan can read of a message. -/
def entriesIn (m : Pmt) : List Entry := entriesOf (m.elements.getD [])

section Scan

variable {σ : Type} (c : Counter) (init : σ) (round : Pmt → ℕ → String → σ → Handler σ)
  (step : σ → Entry → σ)
  (hround : ∀ msg k e s, Pmt.nth k msg = pure e.toPmt → round msg k e.tag s = pure (step s e))
include hround

/-- The state of a scan before round j, as long as all entries were headed by symbols. -/
theorem scanOver_round (xs : List Pmt) (j : ℕ) (hj : j < xs.length) (e : Entry)
    (he : xs[j].entry = some e) :
    (do let tag ← entryTag (Pmt.ofList xs) j
        round (Pmt.ofList xs) j tag ((entriesOf (xs.take j)).foldl step init)) =
      pure ((entriesOf (xs.take (j+1))).foldl step init) := by
  have hnth : Pmt.nth j (Pmt.ofList xs) = pure e.toPmt := by
    rw [Pmt.nth_ofList j xs hj, Pmt.toPmt_of_entry _ e he]
  have hgrow : entriesOf (xs.take (j+1)) = entriesOf (xs.take j) ++ [e] := by
    rw [← List.take_append_getElem hj, entriesOf, List.filterMap_append, entriesOf]
    simp [he]
  rw [entryTag_of_nth _ j e hnth, pure_bind, hround _ j e _ hnth, hgrow, List.foldl_append]
  rfl

theorem scanOver_ofList (xs : List Pmt) :
    scanOver c init round (Pmt.ofList xs) =
      match xs.findIdx? (fun x => x.entry.isNone) with
      | some j => if c.Covers j then Run.fail .wrongType else Run.fail .undefinedBehaviour
      | none => if c.Covers xs.length then scanOver c init round (messagePmt (entriesOf xs))
        else Run.fail .undefinedBehaviour := by
  have hstart : (entriesOf (xs.take 0)).foldl step init = init := rfl
  cases hfind : xs.findIdx? (fun x => x.entry.isNone) with
  | some j =>
    obtain ⟨hj,hbad,hgood⟩ := List.findIdx?_eq_some_iff_getElem.mp hfind
    have hunheaded : entryTag (Pmt.ofList xs) j = Run.fail .wrongType := by
      rw [entryTag, Pmt.nth_ofList j xs hj, pure_bind]
      exact Pmt.symbolToString_unheaded _ (Option.isNone_iff_eq_none.mp hbad)
    have hloop := countUpTo_fails c Fault.undefinedBehaviour
      (fun k s => do let tag ← entryTag (Pmt.ofList xs) k; round (Pmt.ofList xs) k tag s)
      (fun k => (entriesOf (xs.take k)).foldl step init) xs.length j .wrongType hj
      (by
        intro i hi
        -- the entries before the first bad one are headed by symbols
        obtain ⟨e,he⟩ := Option.ne_none_iff_exists'.mp fun hnone =>
          hgood i hi (Option.isNone_iff_eq_none.mpr hnone)
        exact scanOver_round init round step hround xs i (by omega) e he)
      (by rw [hunheaded, Run.fail_bind])
    rw [hstart] at hloop
    rw [scanOver, Pmt.length_ofList, pure_bind, hloop]
  | none =>
    have hall (x : Pmt) (hx : x ∈ xs) : x.entry.isSome = true := by
      have hsome := List.findIdx?_eq_none_iff.mp hfind x hx
      cases hentry : x.entry with
      | none => simp [hentry] at hsome
      | some e => rfl
    dsimp only
    by_cases hc : c.Covers xs.length
    · rw [if_pos hc, (messagePmt_entriesOf xs hall).1]
    · have hloop := countUpTo_trajectory c Fault.undefinedBehaviour
        (fun k s => do let tag ← entryTag (Pmt.ofList xs) k; round (Pmt.ofList xs) k tag s)
        (fun k => (entriesOf (xs.take k)).foldl step init) xs.length
        (by
          intro i hi
          obtain ⟨e,he⟩ := Option.isSome_iff_exists.mp (hall _ (List.getElem_mem hi))
          exact scanOver_round init round step hround xs i hi e he)
      rw [hstart, if_neg hc] at hloop
      rw [if_neg hc, scanOver, Pmt.length_ofList, pure_bind, hloop]

omit hround in
/-- A container has a length, but nth takes it for no list. -/
theorem scanOver_unindexed (m : Pmt) (n : ℕ) (hlen : m.length = pure n)
    (hnth : entryTag m 0 = Run.fail .wrongType) :
    scanOver c init round m = if n = 0 then pure init else Run.fail .wrongType := by
  rw [scanOver, hlen, pure_bind]
  cases n with
  | zero => rfl
  | succ n =>
    change ((do let tag ← entryTag m 0; round m 0 tag init) >>= fun s => _) = _
    rw [hnth, Run.fail_bind, Run.fail_bind]
    rfl

/-- What a scan does with any value. -/
theorem scanOver_shape (m : Pmt) :
    scanOver c init round m =
      match shapeFault c m with
      | some e => Run.fail e
      | none => scanOver c init round (messagePmt (entriesIn m)) := by
  have hempty : scanOver c init round (messagePmt []) = pure init := rfl
  -- a value that pmt::length treats as a chain of pairs
  have hchain (hlen : m.length = m.chainLength) :
      scanOver c init round m =
        match (match m.elements with
          | none => some Fault.wrongType
          | some xs =>
            match xs.findIdx? (fun x => x.entry.isNone) with
            | some j => if c.Covers j then some .wrongType else some .undefinedBehaviour
            | none => if c.Covers xs.length then none else some .undefinedBehaviour) with
        | some e => Run.fail e
        | none => scanOver c init round (messagePmt (entriesIn m)) := by
    cases hm : m.elements with
    | none => rw [scanOver, hlen, Pmt.chainLength_improper m hm, Run.fail_bind]
    | some xs =>
      have hentries : entriesIn m = entriesOf xs := by
        rw [entriesIn, hm, Option.getD_some]
      rw [hentries, Pmt.ofList_elements m xs hm,
        scanOver_ofList c init round step hround xs]
      dsimp only
      cases xs.findIdx? (fun x => x.entry.isNone) with
      | none => dsimp only; split <;> rfl
      | some j => dsimp only; split <;> rfl
  cases m with
  | null => exact hchain rfl
  | pair a d => exact hchain rfl
  | symbol name => exact hchain rfl
  | atom kind => exact hchain rfl
  | u8vector v =>
    rw [scanOver_unindexed c init round _ v.length rfl rfl, shapeFault]
    split
    · exact hempty.symm
    · rfl
  | container kind n =>
    rw [scanOver_unindexed c init round _ n rfl rfl, shapeFault]
    split
    · exact hempty.symm
    · rfl

end Scan

/-! The three scans are this loop, and a handler is one of them and what it does with the
fields. -/

theorem handler_shape {σ : Type} (c : Counter) (init : σ)
    (round : Pmt → ℕ → String → σ → Handler σ) (step : σ → Entry → σ)
    (hround : ∀ msg k e s, Pmt.nth k msg = pure e.toPmt → round msg k e.tag s = pure (step s e))
    (rest : σ → Handler Unit) (handler : Pmt → Handler Unit)
    (hrest : ∀ m, handler m = scanOver c init round m >>= rest) (m : Pmt) :
    handler m =
      match shapeFault c m with
      | some e => Run.fail e
      | none => handler (messagePmt (entriesIn m)) := by
  have hm := hrest m
  rw [scanOver_shape c init round step hround m] at hm
  cases hshape : shapeFault c m with
  | none =>
    rw [hshape] at hm
    rw [hm, hrest]
  | some e =>
    rw [hshape] at hm
    rw [hm, Run.fail_bind]

theorem ClearTextBlock.handleMsg_shape {S : Sodium} (b : ClearTextBlock S) (m : Pmt) :
    b.handleMsg m =
      match shapeFault b.counter m with
      | some e => Run.fail e
      | none => b.handleMsg (messagePmt (entriesIn m)) := by
  obtain ⟨rest,hrest⟩ := b.handleMsg_bind
  refine handler_shape b.counter [] (fun msg k tag data => takeEntry msg k tag "msg_clear" data id)
    (fun data e => (e.value "msg_clear").elim data id) ?_ rest b.handleMsg hrest m
  intro msg k e data h
  exact takeEntry_of_nth msg k e h "msg_clear" data id

/-- The round of scanEncrypted, which reads the tag a second time. -/
def encryptedRound (msg : Pmt) (k : ℕ) (tag : String) (s : EncryptedFields) :
    Handler EncryptedFields := do
  let s ← takeEntry msg k tag "msg_encrypted" s
    (fun elements => { s with data := elements, msgEncryptedFound := true })
  let tag ← entryTag msg k
  takeEntry msg k tag "nonce" s (fun elements => { s with nonce := elements, nonceFound := true })

def kemRound (msg : Pmt) (k : ℕ) (tag : String) (s : KemFields) : Handler KemFields := do
  let s ← takeEntry msg k tag "kem_ciphertext" s
    (fun elements => { s with kemCt := elements, kemCiphertextFound := true })
  let s ← takeEntry msg k tag "msg_encrypted" s
    (fun elements => { s with rest := { s.rest with data := elements, msgEncryptedFound := true } })
  takeEntry msg k tag "nonce" s
    (fun elements => { s with rest := { s.rest with nonce := elements, nonceFound := true } })

theorem scanEncrypted_over (c : Counter) (msg : Pmt) :
    scanEncrypted c msg = scanOver c .empty encryptedRound msg := rfl

theorem scanKem_over (c : Counter) (msg : Pmt) :
    scanKem c msg = scanOver c .empty kemRound msg := rfl

theorem encryptedRound_take (msg : Pmt) (k : ℕ) (e : Entry) (s : EncryptedFields)
    (h : Pmt.nth k msg = pure e.toPmt) : encryptedRound msg k e.tag s = pure (s.take e) := by
  rw [encryptedRound, takeEntry_of_nth msg k e h, pure_bind, entryTag_of_nth msg k e h, pure_bind,
    takeEntry_of_nth msg k e h]
  rfl

theorem kemRound_take (msg : Pmt) (k : ℕ) (e : Entry) (s : KemFields)
    (h : Pmt.nth k msg = pure e.toPmt) : kemRound msg k e.tag s = pure (s.take e) := by
  rw [kemRound, takeEntry_of_nth msg k e h, pure_bind, takeEntry_of_nth msg k e h, pure_bind,
    takeEntry_of_nth msg k e h, KemFields.take, EncryptedFields.take]
  cases e.value "kem_ciphertext" <;> cases e.value "msg_encrypted" <;>
    cases e.value "nonce" <;> rfl

namespace Decryptor

variable {S : Sodium}

/-- The decryptors without a KEM scan for two fields, decrypt_kem for three. -/
theorem handleMsg_bind (d : Decryptor S) :
    (∃ rest, ∀ m, d.handleMsg m = scanEncrypted d.counter m >>= rest) ∨
    ∃ rest, ∀ m, d.handleMsg m = scanKem d.counter m >>= rest := by
  cases d with
  | secret b => exact Or.inl ⟨_,fun _ => rfl⟩
  | box b => exact Or.inl ⟨_,fun _ => rfl⟩
  | kem b => exact Or.inr ⟨_,fun _ => rfl⟩

theorem handleMsg_shape (d : Decryptor S) (m : Pmt) :
    d.handleMsg m =
      match shapeFault d.counter m with
      | some e => Run.fail e
      | none => d.handleMsg (messagePmt (entriesIn m)) := by
  rcases d.handleMsg_bind with ⟨rest,hrest⟩ | ⟨rest,hrest⟩
  · simp only [scanEncrypted_over] at hrest
    exact handler_shape d.counter .empty encryptedRound EncryptedFields.take
      encryptedRound_take rest d.handleMsg hrest m
  · simp only [scanKem_over] at hrest
    exact handler_shape d.counter .empty kemRound KemFields.take kemRound_take rest
      d.handleMsg hrest m

end Decryptor

/-- What any block does with any value. -/
theorem MessageBlock.handleMsg_shape {S : Sodium} (b : MessageBlock S) (m : Pmt) :
    b.handleMsg m =
      match shapeFault b.counter m with
      | some e => Run.fail e
      | none => b.handleMsg (messagePmt (entriesIn m)) := by
  cases b with
  | clearText b => exact b.handleMsg_shape m
  | decryptor d => exact d.handleMsg_shape m

/-! The shapes themselves: what can be read, and what overflows a counter. -/

/-- A counted list of pairs headed by symbols, or a container without elements. -/
def Readable (c : Counter) (m : Pmt) : Prop :=
  (∃ entries, m = messagePmt entries ∧ c.Covers entries.length) ∨ m = .u8vector [] ∨
    ∃ kind, m = .container kind 0

/-- A list that begins with more symbol-headed pairs than the counter covers. -/
def Overlong (c : Counter) (m : Pmt) : Prop :=
  ∃ xs j, m = Pmt.ofList xs ∧ j ≤ xs.length ∧ ¬c.Covers j ∧
    ∀ x ∈ xs.take j, x.entry.isSome = true

namespace Pmt

theorem elements_ofList (xs : List Pmt) : (ofList xs).elements = some xs := by
  induction xs with
  | nil => rfl
  | cons x xs ih =>
    change (ofList xs).elements.map _ = _
    rw [ih, Option.map_some]

theorem entry_toPmt (e : Entry) : e.toPmt.entry = some e := rfl

end Pmt

/-- The shape of a list. -/
theorem shapeFault_ofList (c : Counter) (xs : List Pmt) :
    shapeFault c (Pmt.ofList xs) =
      match xs.findIdx? (fun x => x.entry.isNone) with
      | some j => if c.Covers j then some .wrongType else some .undefinedBehaviour
      | none => if c.Covers xs.length then none else some .undefinedBehaviour := by
  have helements := Pmt.elements_ofList xs
  cases xs with
  | nil => rfl
  | cons x xs =>
    change (match (Pmt.ofList (x :: xs)).elements with
      | none => some Fault.wrongType
      | some xs => _) = _
    rw [helements]

theorem shapeFault_messagePmt (c : Counter) (entries : List Entry) :
    shapeFault c (messagePmt entries) =
      if c.Covers entries.length then none else some .undefinedBehaviour := by
  have hheaded : (entries.map Entry.toPmt).findIdx? (fun x => x.entry.isNone) = none := by
    rw [List.findIdx?_eq_none_iff]
    intro x hx
    obtain ⟨e,he,rfl⟩ := List.mem_map.mp hx
    rw [Pmt.entry_toPmt, Option.isNone_some]
  rw [messagePmt, shapeFault_ofList, hheaded, List.length_map]

theorem shapeFault_of_readable (c : Counter) (m : Pmt) (h : Readable c m) :
    shapeFault c m = none := by
  rcases h with ⟨entries,rfl,hc⟩ | rfl | ⟨kind,rfl⟩
  · rw [shapeFault_messagePmt, if_pos hc]
  · rfl
  · rfl

theorem shapeFault_of_overlong (c : Counter) (m : Pmt) (h : Overlong c m) :
    shapeFault c m = some .undefinedBehaviour := by
  obtain ⟨xs,j,rfl,hj,hc,hheaded⟩ := h
  rw [shapeFault_ofList]
  cases hfind : xs.findIdx? (fun x => x.entry.isNone) with
  | none => exact if_neg fun hall => hc (hall.mono hj)
  | some i =>
    obtain ⟨hi,hbad,_⟩ := List.findIdx?_eq_some_iff_getElem.mp hfind
    -- the first element that is no pair with a symbol stands behind the overflow
    have hij : j ≤ i := by
      by_contra hlt
      have hmem : xs[i] ∈ xs.take j := List.mem_take_iff_getElem.mpr ⟨i,by omega,rfl⟩
      have hsome := hheaded _ hmem
      rw [Option.isNone_iff_eq_none.mp hbad] at hsome
      cases hsome
    exact if_neg fun hall => hc (hall.mono hij)

/-- Everything else is turned down with wrong_type. -/
theorem shapeFault_otherwise (c : Counter) (m : Pmt) (hr : ¬Readable c m) (ho : ¬Overlong c m) :
    shapeFault c m = some .wrongType := by
  cases hm : m.elements with
  | some xs =>
    have hlist := Pmt.ofList_elements m xs hm
    subst hlist
    have hheaded (h : ∀ x ∈ xs, x.entry.isSome = true) : c.Covers xs.length := by
      by_contra hc
      exact ho ⟨xs,xs.length,rfl,le_rfl,hc,fun x hx => h x (List.mem_of_mem_take hx)⟩
    rw [shapeFault_ofList]
    cases hfind : xs.findIdx? (fun x => x.entry.isNone) with
    | none =>
      have hall (x : Pmt) (hx : x ∈ xs) : x.entry.isSome = true := by
        have hsome := List.findIdx?_eq_none_iff.mp hfind x hx
        cases hentry : x.entry with
        | none => simp [hentry] at hsome
        | some e => rfl
      obtain ⟨hmsg,hlen⟩ := messagePmt_entriesOf xs hall
      refine absurd (Or.inl ⟨entriesOf xs,hmsg.symm,?_⟩) hr
      rw [hlen]
      exact hheaded hall
    | some i =>
      obtain ⟨hi,_,hgood⟩ := List.findIdx?_eq_some_iff_getElem.mp hfind
      apply if_pos
      by_contra hc
      refine ho ⟨xs,i,rfl,hi.le,hc,?_⟩
      intro x hx
      obtain ⟨k,hk,rfl⟩ := List.mem_take_iff_getElem.mp hx
      have hbefore := hgood k (by omega)
      cases hentry : xs[k].entry with
      | none => simp [hentry] at hbefore
      | some e => rfl
  | none =>
    cases m with
    | null => cases hm
    | pair a d =>
      change (match (Pmt.pair a d).elements with
        | none => some Fault.wrongType
        | some xs => _) = _
      rw [hm]
    | symbol name => rfl
    | atom kind => rfl
    | u8vector v =>
      apply if_neg
      intro hv
      exact hr (Or.inr (Or.inl (congrArg Pmt.u8vector (List.length_eq_zero_iff.mp hv))))
    | container kind n =>
      apply if_neg
      rintro rfl
      exact hr (Or.inr (Or.inr ⟨kind,rfl⟩))

/-- Every block on every value: a readable one is handled as the entries it holds, and all
others end the handler before it has done anything. -/
theorem handlers_on_any_value {S : Sodium} (b : MessageBlock S) (m : Pmt) :
    (Readable b.counter m → b.handleMsg m = b.handleMsg (messagePmt (entriesIn m))) ∧
    (Overlong b.counter m → b.handleMsg m = Run.fail .undefinedBehaviour) ∧
    (¬Readable b.counter m → ¬Overlong b.counter m → b.handleMsg m = Run.fail .wrongType) := by
  refine ⟨?_,?_,?_⟩
  · intro h
    rw [b.handleMsg_shape m, shapeFault_of_readable _ m h]
  · intro h
    rw [b.handleMsg_shape m, shapeFault_of_overlong _ m h]
  · intro hr ho
    rw [b.handleMsg_shape m, shapeFault_otherwise _ m hr ho]

end GrNacl
