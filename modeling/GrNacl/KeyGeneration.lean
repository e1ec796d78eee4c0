import GrNacl.KeyFiles

/-! The generators. What they do to the file system is the log of their run, replayed
over the files that were there. -/
namespace GrNacl
set_option autoImplicit false

open EffectTrace CountedLoop

/-- What the file system does with a file opened for writing: whether it opens, and
how many bytes it takes before a write fails. Opening it or writing to it changes nothing
under any other name, as in `Files`. -/
structure OutFile where
  opens : Bool
  room : ℕ

/-- `std::ofstream file(filename)`: an existing file is emptied. -/
def openOut (out : OutFile) (filename : String) : Handler Unit :=
  if out.opens then Run.emit (.truncate filename) else pure ()

/-- `for (k = 0; k < n; k++) file << key[k];` on a stream nobody checks. -/
def putBytes {n : ℕ} (out : OutFile) (filename : String) (key : Vector UInt8 n) : Handler Unit :=
  countUpTo intCounter .undefinedBehaviour n () fun k _ => do
    let b ← load key.toList k
    if out.opens ∧ k < out.room then Run.emit (.write filename [b]) else pure ()

def generateKey (key : SecretboxKey) (out : OutFile) (filenameKey : String) : Handler Unit := do
  Run.emit (.cout ("Key " ++ filenameKey ++ " generated successfully."))
  -- save keys to files
  openOut out filenameKey
  putBytes out filenameKey key
  Run.emit (.cout ("Key " ++ filenameKey ++ " saved to file."))

def generateKeypair (S : Sodium) (seed : Bytes) (outSk outPk : OutFile)
    (filenameSk filenamePk : String) : Handler Unit := do
  let (pk, sk) := S.cryptoBoxKeypair seed
  Run.emit (.cout ("Keypair [" ++ filenameSk ++ ", " ++ filenamePk ++ "] generated successfully."))
  -- save keys to files
  openOut outSk filenameSk
  putBytes outSk filenameSk sk
  openOut outPk filenamePk
  putBytes outPk filenamePk pk
  Run.emit (.cout ("Keypair [" ++ filenameSk ++ ", " ++ filenamePk ++ "] saved to file."))

/-- Opening a file of the KEM generator and writing a key to it in one piece. -/
def writeKey {n : ℕ} (out : OutFile) (filename notOpened : String) (key : Vector UInt8 n) :
    Handler Unit :=
  if out.opens then
    Run.emitAll [.truncate filename, .write filename (key.toList.take out.room)]
  else Run.fail (.runtimeError notOpened)

def generateKemKeypair (S : Sodium) (seed : Bytes) (outSk outPk : OutFile)
    (filenameSk filenamePk : String) : Handler Unit :=
  if S.sodiumInit < 0 then Run.fail (.runtimeError "Failed to initialize libsodium.")
  else do
    let (status, pk, sk) := S.cryptoKemKeypair seed
    Run.emitAll [.fill .pk, .fill .sk]
    if status ≠ 0 then Run.fail (.runtimeError "Failed to generate KEM keypair.")
    else do
      Run.emit (.cout ("KEM keypair [" ++ filenameSk ++ ", " ++ filenamePk ++
        "] generated successfully."))
      writeKey outSk filenameSk "Failed to open secret-key file for writing." sk
      writeKey outPk filenamePk "Failed to open public-key file for writing." pk
      Run.emit (.cout ("KEM keypair [" ++ filenameSk ++ ", " ++ filenamePk ++ "] saved to file."))
      Run.emitAll [.sodiumMemzero .pk, .sodiumMemzero .sk]

/-! The files after a log. -/

def Files.apply (files : Files) (e : Event) : Files :=
  match e with
  | .truncate filename => Function.update files filename (some [])
  | .write filename bytes =>
    Function.update files filename ((files filename).map (fun content => content ++ bytes))
  | _ => files

def Files.replay (files : Files) (events : List Event) : Files := events.foldl Files.apply files

theorem replay_writes (files : Files) (filename : String) (content bytes : Bytes)
    (h : files filename = some content) :
    files.replay (bytes.map (fun b => Event.write filename [b])) =
      Function.update files filename (some (content ++ bytes)) := by
  -- each write appends one byte, to whatever content it finds
  induction bytes generalizing files content with
  | nil =>
    rw [List.append_nil, ← h, Function.update_eq_self]
    rfl
  | cons b bytes ih =>
    have hwrite : files.apply (.write filename [b]) =
        Function.update files filename (some (content ++ [b])) := by
      rw [Files.apply, h, Option.map_some]
    have hnow : files.apply (.write filename [b]) filename = some (content ++ [b]) := by
      rw [hwrite, Function.update_self]
    have hrest := ih (files.apply (.write filename [b])) (content ++ [b]) hnow
    rw [List.map_cons, Files.replay, List.foldl_cons]
    change Files.replay _ _ = _
    rw [hrest, hwrite, Function.update_idem, List.append_assoc, List.singleton_append]

theorem flatMap_range_getElem? {α : Type} (xs : Bytes) (f : UInt8 → α) (m : ℕ) :
    (List.range m).flatMap (fun j => xs[j]?.toList.map f) = (xs.take m).map f := by
  induction m with
  | zero => rfl
  | succ m ih =>
    rw [List.range_succ, List.flatMap_append, ih, List.flatMap_singleton, List.take_add_one,
      List.map_append]

/-- What of a key reaches the file. -/
def OutFile.accepted (out : OutFile) (key : Bytes) : Bytes :=
  if out.opens then key.take out.room else []

theorem accepted_length (out : OutFile) (key : Bytes) : (out.accepted key).length ≤ key.length := by
  unfold OutFile.accepted
  split
  · rw [List.length_take]
    omega
  · exact Nat.zero_le _

/-- The byte loop writes the bytes there is room for, if the file opened. -/
theorem putBytes_eq {n : ℕ} (hn : n ≤ 2147483647) (out : OutFile) (filename : String)
    (key : Vector UInt8 n) :
    putBytes out filename key =
      Run.emitAll ((out.accepted key.toList).map (fun b => Event.write filename [b])) := by
  have hround (j : ℕ) (hj : j < n) :
      (do
        let b ← load key.toList j
        if out.opens ∧ j < out.room then Run.emit (.write filename [b])
        else pure () : Handler Unit) =
      ⟨(out.accepted key.toList)[j]?.toList.map (fun b => Event.write filename [b]),.ok ()⟩ := by
    have hin : j < key.toList.length := by
      rw [Vector.length_toList]
      exact hj
    have hload : load key.toList j = pure key.toList[j] := by
      rw [load, List.getElem?_eq_getElem hin]
    rw [hload, pure_bind, OutFile.accepted]
    -- a byte is written while the file is open and has room
    by_cases ho : out.opens = true
    · by_cases hr : j < out.room
      · rw [if_pos ⟨ho,hr⟩, if_pos ho, List.getElem?_take_of_lt hr, List.getElem?_eq_getElem hin]
        rfl
      · -- past the room the stream stays bad
        have hpast : (key.toList.take out.room)[j]? = none := by
          rw [List.getElem?_eq_none_iff, List.length_take]
          omega
        rw [if_neg (fun h => hr h.2), if_pos ho, hpast]
        rfl
    · rw [if_neg (fun h => ho h.1), if_neg ho]
      rfl
  have hloop := countUpTo_trace intCounter Fault.undefinedBehaviour
    (fun k _ => (do
      let b ← load key.toList k
      if out.opens ∧ k < out.room then Run.emit (.write filename [b])
      else pure () : Handler Unit))
    (fun _ => ()) (fun j => (out.accepted key.toList)[j]?.toList.map
      (fun b => Event.write filename [b])) n ((covers_some _ _).mpr hn) hround
  have hall : (out.accepted key.toList).take n = out.accepted key.toList := by
    have hlen := accepted_length out key.toList
    rw [Vector.length_toList] at hlen
    exact List.take_of_length_le hlen
  rw [flatMap_range_getElem?, hall] at hloop
  exact hloop

/-! The files after a generator has returned. -/

/-- The computation returns, and turns one state of the files into the other. -/
def Leaves (x : Handler Unit) (files files' : Files) : Prop :=
  x.result = .ok () ∧ files.replay x.events = files'

theorem leaves_of_ends {x : Handler Unit} {files files' : Files}
    (h : x.Ends Files.apply files (.ok ()) files') : Leaves x files files' := ⟨h.result,h.observed⟩

theorem Leaves.bind {x y : Handler Unit} {files files' files'' : Files} (hx : Leaves x files files')
    (hy : Leaves y files' files'') : Leaves (do x; y) files files'' := by
  have hfirst : x.Ends Files.apply files (.ok ()) files' := ⟨hx.1,hx.2⟩
  have hsecond : y.Ends Files.apply files' (.ok ()) files'' := ⟨hy.1,hy.2⟩
  exact leaves_of_ends (hfirst.bind hsecond)

/-- The files once a key was sent to one of them: a file that opens holds what it took. -/
def OutFile.leaves (out : OutFile) (files : Files) (filename : String) (key : Bytes) : Files :=
  if out.opens then Function.update files filename (some (key.take out.room)) else files

theorem leaves_of_room (out : OutFile) (files : Files) (filename : String) (key : Bytes)
    (ho : out.opens = true) (hroom : key.length ≤ out.room) :
    out.leaves files filename key = Function.update files filename (some key) := by
  rw [OutFile.leaves, if_pos ho, List.take_of_length_le hroom]

theorem leaves_key {n : ℕ} (out : OutFile) (files : Files) (filename : String)
    (key : Vector UInt8 n) (ho : out.opens = true) (hroom : n ≤ out.room) :
    out.leaves files filename key.toList = Function.update files filename (some key.toList) := by
  apply leaves_of_room out files filename key.toList ho
  rw [Vector.length_toList]
  exact hroom

theorem leaves_of_closed (out : OutFile) (files : Files) (filename : String) (key : Bytes)
    (ho : ¬out.opens = true) : out.leaves files filename key = files := if_neg ho

theorem leaves_of_ne (out : OutFile) (files : Files) (filename other : String) (key : Bytes)
    (h : other ≠ filename) : out.leaves files filename key other = files other := by
  unfold OutFile.leaves
  split
  · exact Function.update_of_ne h _ _
  · rfl

theorem openOut_ends (files : Files) (out : OutFile) (filename : String) :
    (openOut out filename).Ends Files.apply files (.ok ()) (out.leaves files filename []) := by
  unfold openOut OutFile.leaves
  split
  · rw [List.take_nil]
    exact ⟨rfl,rfl⟩
  · exact ⟨rfl,rfl⟩

theorem putBytes_ends {n : ℕ} (hn : n ≤ 2147483647) (files : Files) (out : OutFile)
    (filename : String) (key : Vector UInt8 n) :
    (putBytes out filename key).Ends Files.apply (out.leaves files filename []) (.ok ())
      (out.leaves files filename key.toList) := by
  rw [putBytes_eq hn]
  refine ⟨rfl,?_⟩
  rw [Run.events_emitAll]
  by_cases ho : out.opens = true
  · have hempty : out.leaves files filename [] = Function.update files filename (some []) :=
      leaves_of_room out files filename [] ho (Nat.zero_le _)
    have hwrites := replay_writes _ filename [] (key.toList.take out.room)
      (Function.update_self filename (some []) files)
    rw [OutFile.accepted, if_pos ho, hempty, OutFile.leaves, if_pos ho]
    rw [Function.update_idem, List.nil_append] at hwrites
    exact hwrites
  · -- a stream that did not open takes nothing
    rw [OutFile.accepted, if_neg ho, leaves_of_closed _ _ _ _ ho, leaves_of_closed _ _ _ _ ho]
    rfl

theorem writeKey_ends {n : ℕ} (files : Files) (out : OutFile) (filename notOpened : String)
    (key : Vector UInt8 n) :
    (writeKey out filename notOpened key).Ends Files.apply files
      (if out.opens then .ok () else .error (.runtimeError notOpened))
      (out.leaves files filename key.toList) := by
  by_cases ho : out.opens = true
  · have hempty : Function.update files filename (some []) filename = some [] :=
      Function.update_self ..
    rw [writeKey, if_pos ho, if_pos ho, OutFile.leaves, if_pos ho]
    refine ⟨rfl,?_⟩
    change Files.apply (Files.apply files (.truncate filename)) (.write filename _) = _
    rw [Files.apply, Files.apply, hempty, Option.map_some, Function.update_idem, List.nil_append]
  · rw [writeKey, if_neg ho, if_neg ho, leaves_of_closed _ _ _ _ ho]
    exact Run.ends_fail _

/-- generate_key returns whatever the file system does. -/
theorem generateKey_ends (files : Files) (key : SecretboxKey) (out : OutFile)
    (filenameKey : String) :
    (generateKey key out filenameKey).Ends Files.apply files (.ok ())
      (out.leaves files filenameKey key.toList) := by
  have hput := putBytes_ends (by decide) files out filenameKey key
  exact (Run.ends_emit _).bind ((openOut_ends files out filenameKey).bind
    (hput.bind (Run.ends_emit _)))

/-- So does generate_keypair, which writes its two files one after the other. -/
theorem generateKeypair_ends (S : Sodium) (files : Files) (seed : Bytes) (outSk outPk : OutFile)
    (filenameSk filenamePk : String) :
    (generateKeypair S seed outSk outPk filenameSk filenamePk).Ends Files.apply files (.ok ())
      (outPk.leaves (outSk.leaves files filenameSk (S.cryptoBoxKeypair seed).2.toList) filenamePk
        (S.cryptoBoxKeypair seed).1.toList) := by
  have hputSk := putBytes_ends (by decide) files outSk filenameSk (S.cryptoBoxKeypair seed).2
  have hputPk := putBytes_ends (by decide)
    (outSk.leaves files filenameSk (S.cryptoBoxKeypair seed).2.toList) outPk filenamePk
    (S.cryptoBoxKeypair seed).1
  exact (Run.ends_emit _).bind ((openOut_ends _ outSk filenameSk).bind (hputSk.bind
    ((openOut_ends _ outPk filenamePk).bind (hputPk.bind (Run.ends_emit _)))))

/-- generate_kem_keypair without a pair throws before it opens a file. -/
theorem generateKemKeypair_fails (S : Sodium) (files : Files) (seed : Bytes)
    (outSk outPk : OutFile) (filenameSk filenamePk : String)
    (h : S.sodiumInit < 0 ∨ (S.cryptoKemKeypair seed).1 ≠ 0) :
    (generateKemKeypair S seed outSk outPk filenameSk filenamePk).Ends Files.apply files
      (.error (.runtimeError (if S.sodiumInit < 0 then "Failed to initialize libsodium."
        else "Failed to generate KEM keypair."))) files := by
  unfold generateKemKeypair
  by_cases hinit : S.sodiumInit < 0
  · rw [if_pos hinit, if_pos hinit]
    exact Run.ends_fail _
  · have hstatus := h.resolve_left hinit
    rw [if_neg hinit, if_neg hinit]
    dsimp only
    rw [if_pos hstatus]
    exact (Run.ends_emitAll _).bind (Run.ends_fail _)

/-- With a pair it throws at the first file that does not open, after the earlier one
was written. -/
theorem generateKemKeypair_ends (S : Sodium) (files : Files) (seed : Bytes)
    (outSk outPk : OutFile) (filenameSk filenamePk : String) (hinit : ¬S.sodiumInit < 0)
    (hstatus : (S.cryptoKemKeypair seed).1 = 0) :
    (generateKemKeypair S seed outSk outPk filenameSk filenamePk).Ends Files.apply files
      (if outSk.opens then
        if outPk.opens then .ok ()
        else .error (.runtimeError "Failed to open public-key file for writing.")
      else .error (.runtimeError "Failed to open secret-key file for writing."))
      (if outSk.opens then
        outPk.leaves (outSk.leaves files filenameSk (S.cryptoKemKeypair seed).2.2.toList)
          filenamePk (S.cryptoKemKeypair seed).2.1.toList
      else files) := by
  have hsk := writeKey_ends files outSk filenameSk "Failed to open secret-key file for writing."
    (S.cryptoKemKeypair seed).2.2
  have hpk := writeKey_ends (outSk.leaves files filenameSk (S.cryptoKemKeypair seed).2.2.toList)
    outPk filenamePk "Failed to open public-key file for writing." (S.cryptoKemKeypair seed).2.1
  rw [generateKemKeypair, if_neg hinit]
  dsimp only
  rw [if_neg (not_not_intro hstatus)]
  by_cases hoSk : outSk.opens = true
  · rw [if_pos hoSk] at hsk
    rw [if_pos hoSk, if_pos hoSk]
    by_cases hoPk : outPk.opens = true
    · rw [if_pos hoPk] at hpk ⊢
      exact (Run.ends_emitAll _).bind ((Run.ends_emit _).bind (hsk.bind (hpk.bind
        ((Run.ends_emit _).bind (Run.ends_emitAll _)))))
    · rw [if_neg hoPk] at hpk ⊢
      exact (Run.ends_emitAll _).bind ((Run.ends_emit _).bind (hsk.bind hpk.bind_error))
  · rw [if_neg hoSk, leaves_of_closed _ _ _ _ hoSk] at hsk
    rw [if_neg hoSk, if_neg hoSk]
    exact (Run.ends_emitAll _).bind ((Run.ends_emit _).bind hsk.bind_error)

/-! Files that open and have room. -/

theorem generateKey_leaves (files : Files) (key : SecretboxKey) (out : OutFile)
    (filenameKey : String) (ho : out.opens = true) (hroom : cryptoSecretboxKEYBYTES ≤ out.room) :
    Leaves (generateKey key out filenameKey) files
      (Function.update files filenameKey (some key.toList)) := by
  have hends := generateKey_ends files key out filenameKey
  rw [leaves_key out files _ key ho hroom] at hends
  exact leaves_of_ends hends

theorem generateKeypair_leaves (S : Sodium) (files : Files) (seed : Bytes) (outSk outPk : OutFile)
    (filenameSk filenamePk : String) (hoSk : outSk.opens = true) (hoPk : outPk.opens = true)
    (hroomSk : cryptoBoxSECRETKEYBYTES ≤ outSk.room)
    (hroomPk : cryptoBoxPUBLICKEYBYTES ≤ outPk.room) :
    Leaves (generateKeypair S seed outSk outPk filenameSk filenamePk) files
      (Function.update (Function.update files filenameSk
        (some (S.cryptoBoxKeypair seed).2.toList)) filenamePk
        (some (S.cryptoBoxKeypair seed).1.toList)) := by
  have hends := generateKeypair_ends S files seed outSk outPk filenameSk filenamePk
  rw [leaves_key outSk _ _ _ hoSk hroomSk, leaves_key outPk _ _ _ hoPk hroomPk] at hends
  exact leaves_of_ends hends

/-- A return of generate_kem_keypair means that the pair was made and both files opened. -/
theorem generateKemKeypair_ok_iff (S : Sodium) (seed : Bytes) (outSk outPk : OutFile)
    (filenameSk filenamePk : String) :
    (generateKemKeypair S seed outSk outPk filenameSk filenamePk).result = .ok () ↔
      ¬S.sodiumInit < 0 ∧ (S.cryptoKemKeypair seed).1 = 0 ∧ outSk.opens = true ∧
        outPk.opens = true := by
  by_cases hpair : S.sodiumInit < 0 ∨ (S.cryptoKemKeypair seed).1 ≠ 0
  · rw [(generateKemKeypair_fails S (fun _ => none) seed outSk outPk _ _ hpair).result]
    exact iff_of_false (fun h => nomatch h) (fun h => hpair.elim h.1 (fun hs => hs h.2.1))
  · rw [not_or, not_not] at hpair
    rw [(generateKemKeypair_ends S (fun _ => none) seed outSk outPk _ _ hpair.1 hpair.2).result]
    cases outSk.opens <;> cases outPk.opens <;> simp [hpair.1, hpair.2]

/-- generate_kem_keypair, when it returns and the files have room, leaves the pair in them. -/
theorem generateKemKeypair_leaves (S : Sodium) (files : Files) (seed : Bytes)
    (outSk outPk : OutFile) (filenameSk filenamePk : String)
    (hok : (generateKemKeypair S seed outSk outPk filenameSk filenamePk).result = .ok ())
    (hroomSk : S.cryptoKemSECRETKEYBYTES ≤ outSk.room)
    (hroomPk : S.cryptoKemPUBLICKEYBYTES ≤ outPk.room) :
    Leaves (generateKemKeypair S seed outSk outPk filenameSk filenamePk) files
      (Function.update (Function.update files filenameSk
        (some (S.cryptoKemKeypair seed).2.2.toList)) filenamePk
        (some (S.cryptoKemKeypair seed).2.1.toList)) := by
  obtain ⟨hinit,hstatus,hoSk,hoPk⟩ := (generateKemKeypair_ok_iff S seed outSk outPk _ _).mp hok
  have hends := generateKemKeypair_ends S files seed outSk outPk filenameSk filenamePk hinit hstatus
  rw [if_pos hoSk, if_pos hoSk, if_pos hoPk,
    leaves_key outSk _ _ _ hoSk hroomSk, leaves_key outPk _ _ _ hoPk hroomPk] at hends
  exact leaves_of_ends hends

end GrNacl
