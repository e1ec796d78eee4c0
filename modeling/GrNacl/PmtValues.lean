import GrNacl.EffectTrace
import GrNacl.SodiumInterface

/-! The polymorphic values of the message ports and the accessors the handlers
use on them. A value is an S-expression; a list is a chain of pairs. -/
namespace GrNacl
set_option autoImplicit false

open EffectTrace

/-- The kinds of values no accessor of the handlers looks into. -/
inductive AtomKind
  | bool | long | uint64 | double | complex | any
  deriving DecidableEq, Repr

/-- The containers of which `pmt::length` alone knows anything. -/
inductive ContainerKind
  | vector | tuple | uniform
  deriving DecidableEq, Repr

inductive Pmt
  | null
  | symbol (name : String)
  | pair (car cdr : Pmt)
  | u8vector (elements : Bytes)
  | atom (kind : AtomKind)
  | container (kind : ContainerKind) (length : ℕ)
  deriving DecidableEq, Repr

/-- What ends a handler or a constructor early: the exceptions of the source, or
an operation the language gives no meaning to. -/
inductive Fault
  | wrongType
  | lengthError
  | runtimeError (what : String)
  | undefinedBehaviour
  deriving DecidableEq, Repr

/-- The buffers that hold key material on the stack. -/
inductive SecretBuffer
  | ss | pk | sk
  deriving DecidableEq, Repr

/-- What a block does that can be seen from outside the call. -/
inductive Event
  | cout (line : String)
  | messagePortPub (msg : Pmt)
  | openEasy (nonce : Bytes)
  | fill (buffer : SecretBuffer)
  | sodiumMemzero (buffer : SecretBuffer)
  | truncate (filename : String)
  | write (filename : String) (bytes : Bytes)
  deriving DecidableEq, Repr

abbrev Handler := Run Event Fault

/-- The messages of a log that went out through the port, in order. -/
def published (events : List Event) : List Pmt :=
  events.filterMap (fun e => match e with
    | .messagePortPub msg => some msg
    | _ => none)

@[simp] theorem published_append (xs ys : List Event) :
    published (xs ++ ys) = published xs ++ published ys := List.filterMap_append

theorem published_flatMap {α : Type} (f : α → List Event) (xs : List α) :
    published (xs.flatMap f) = xs.flatMap (fun x => published (f x)) := by
  induction xs with
  | nil => rfl
  | cons x xs ih => rw [List.flatMap_cons, List.flatMap_cons, published_append, ih]

/-- The nonce buffers of a log that were passed to an opening call, in order. -/
def openNonces (events : List Event) : List Bytes :=
  events.filterMap (fun e => match e with
    | .openEasy nonce => some nonce
    | _ => none)

@[simp] theorem openNonces_append (xs ys : List Event) :
    openNonces (xs ++ ys) = openNonces xs ++ openNonces ys := List.filterMap_append

namespace Pmt

def isU8vector : Pmt → Bool
  | .u8vector _ => true
  | _ => false

def u8vectorElements : Pmt → Handler Bytes
  | .u8vector v => pure v
  | _ => Run.fail .wrongType

def symbolToString : Pmt → Handler String
  | .symbol name => pure name
  | _ => Run.fail .wrongType

/-- The number of pairs of a chain that ends in PMT_NIL. -/
def chainLength : Pmt → Handler ℕ
  | .null => pure 0
  | .pair _ d => do
    let n ← chainLength d
    pure (n+1)
  | _ => Run.fail .wrongType

/-- `pmt::length`. -/
def length : Pmt → Handler ℕ
  | .container _ n => pure n
  | .u8vector v => pure v.length
  | x => chainLength x

/-- The walk of `pmt::nthcdr` once its argument is known to be a list. -/
def dropPairs : ℕ → Pmt → Handler Pmt
  | 0, x => pure x
  | n+1, .pair _ d => dropPairs n d
  -- past the end the walk stays at PMT_NIL
  | _+1, .null => pure .null
  | _+1, _ => Run.fail .wrongType

def nthcdr (n : ℕ) : Pmt → Handler Pmt
  | .pair a d => dropPairs n (.pair a d)
  | .null => dropPairs n .null
  | _ => Run.fail .wrongType

/-- `pmt::nth`: PMT_NIL past the end. -/
def nth (n : ℕ) (x : Pmt) : Handler Pmt := do
  let t ← nthcdr n x
  match t with
  | .pair a _ => pure a
  | _ => pure .null

def ofList (xs : List Pmt) : Pmt := xs.foldr .pair .null

def list1 (a : Pmt) : Pmt := ofList [a]
def list2 (a b : Pmt) : Pmt := ofList [a,b]

def initU8vector (k : ℕ) (data : Bytes) : Pmt := .u8vector (data.take k)

@[simp] theorem initU8vector_length (data : Bytes) :
    initU8vector data.length data = .u8vector data := by
  rw [initU8vector, List.take_length]

theorem ofList_injective : Function.Injective ofList := by
  intro xs
  induction xs with
  | nil =>
    intro ys h
    cases ys with
    | nil => rfl
    | cons y ys => cases h
  | cons x xs ih =>
    intro ys h
    cases ys with
    | nil => cases h
    | cons y ys =>
      obtain ⟨hhead,htail⟩ := Pmt.pair.inj h
      rw [hhead, ih htail]

theorem chainLength_ofList (xs : List Pmt) : chainLength (ofList xs) = pure xs.length := by
  induction xs with
  | nil => rfl
  | cons x xs ih =>
    change (do let n ← chainLength (ofList xs); pure (n+1)) = _
    rw [ih, pure_bind, List.length_cons]

theorem length_ofList (xs : List Pmt) : length (ofList xs) = pure xs.length := by
  cases xs with
  | nil => rfl
  | cons x xs => exact chainLength_ofList (x :: xs)

theorem dropPairs_ofList (n : ℕ) (xs : List Pmt) : dropPairs n (ofList xs) = pure (ofList (xs.drop n)) := by
  induction n generalizing xs with
  | zero => rfl
  | succ n ih =>
    cases xs with
    | nil => rfl
    | cons x xs => exact ih xs

theorem nth_ofList (n : ℕ) (xs : List Pmt) (h : n < xs.length) : nth n (ofList xs) = pure xs[n] := by
  -- the check that the argument is a list passes on any chain
  have hwalk : nthcdr n (ofList xs) = pure (ofList (xs.drop n)) := by
    cases xs with
    | nil => simp at h
    | cons x xs => exact dropPairs_ofList n (x :: xs)
  rw [nth, hwalk, pure_bind, List.drop_eq_getElem_cons h]
  rfl

end Pmt

end GrNacl
