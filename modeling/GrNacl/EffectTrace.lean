import Mathlib.Data.List.Basic

/-! Computations that log events and end in a value or in a fault. The log
keeps what happened before the fault, so it can be read on every exit. -/
namespace EffectTrace
set_option autoImplicit false

/-- A finished computation: its log, and its value or the fault that ended it. -/
structure Run (ε φ α : Type) where
  events : List ε
  result : Except φ α

namespace Run

variable {ε φ α β : Type}

protected def bind (x : Run ε φ α) (f : α → Run ε φ β) : Run ε φ β :=
  match x.result with
  | .ok a => ⟨x.events ++ (f a).events, (f a).result⟩
  | .error e => ⟨x.events, .error e⟩

instance : Monad (Run ε φ) where
  pure a := ⟨[], .ok a⟩
  bind := Run.bind

def fail (e : φ) : Run ε φ α := ⟨[], .error e⟩

def emit (e : ε) : Run ε φ Unit := ⟨[e], .ok ()⟩

def emitAll (es : List ε) : Run ε φ Unit := ⟨es, .ok ()⟩

theorem ext {x y : Run ε φ α} (he : x.events = y.events) (hr : x.result = y.result) : x = y := by
  cases x
  cases y
  cases he
  cases hr
  rfl

@[simp] theorem events_pure (a : α) : (pure a : Run ε φ α).events = [] := rfl

@[simp] theorem result_pure (a : α) : (pure a : Run ε φ α).result = .ok a := rfl

@[simp] theorem events_fail (e : φ) : (fail e : Run ε φ α).events = [] := rfl

@[simp] theorem result_fail (e : φ) : (fail e : Run ε φ α).result = .error e := rfl

@[simp] theorem result_emit (e : ε) : (emit e : Run ε φ Unit).result = .ok () := rfl

@[simp] theorem events_emitAll (es : List ε) : (emitAll es : Run ε φ Unit).events = es := rfl

@[simp] theorem result_emitAll (es : List ε) : (emitAll es : Run ε φ Unit).result = .ok () := rfl

theorem emitAll_nil : (emitAll [] : Run ε φ Unit) = pure () := rfl

theorem bind_of_ok {x : Run ε φ α} {a : α} (h : x.result = .ok a) (f : α → Run ε φ β) :
    x >>= f = ⟨x.events ++ (f a).events, (f a).result⟩ := by
  change Run.bind x f = _
  simp only [Run.bind, h]

theorem bind_of_error {x : Run ε φ α} {e : φ} (h : x.result = .error e) (f : α → Run ε φ β) :
    x >>= f = ⟨x.events, .error e⟩ := by
  change Run.bind x f = _
  simp only [Run.bind, h]

@[simp] theorem fail_bind (e : φ) (f : α → Run ε φ β) : fail e >>= f = fail e :=
  bind_of_error (by rfl) f

theorem emit_bind (e : ε) (f : Unit → Run ε φ β) :
    emit e >>= f = ⟨e :: (f ()).events, (f ()).result⟩ :=
  bind_of_ok (result_emit e) f

theorem emitAll_bind (es : List ε) (f : Unit → Run ε φ β) :
    emitAll es >>= f = ⟨es ++ (f ()).events, (f ()).result⟩ :=
  bind_of_ok (result_emitAll es) f

instance : LawfulMonad (Run ε φ) := by
  refine LawfulMonad.mk' _ ?_ ?_ ?_
  -- the laws are those of list append, on either result
  · rintro α ⟨es, r⟩
    change Run.bind _ _ = _
    cases r <;> simp [Run.bind]
  · intro α β a f
    change Run.bind _ f = f a
    simp only [Run.bind, result_pure, events_pure, List.nil_append]
  · rintro α β γ ⟨es, r⟩ f g
    change Run.bind (Run.bind _ f) g = Run.bind _ (fun a => Run.bind (f a) g)
    cases r with
    | error e => rfl
    | ok a => cases h : (f a).result <;> simp [Run.bind, h]

/-- A sequence returns exactly when its first part does and the rest does
from that value. -/
theorem bind_result_ok_iff (x : Run ε φ α) (f : α → Run ε φ β) (b : β) :
    (x >>= f).result = .ok b ↔ ∃ a, x.result = .ok a ∧ (f a).result = .ok b := by
  cases h : x.result with
  | error e => simp [bind_of_error h]
  | ok a => simp [bind_of_ok h]

end Run

variable {ε φ α : Type}

/-- One handler over a queue of inputs. A fault ends the run, and what is
still queued is never handled. -/
def runAll (handle : α → Run ε φ Unit) : List α → Run ε φ Unit
  | [] => pure ()
  | x :: xs => do
    handle x
    runAll handle xs

theorem runAll_result_ok_iff (handle : α → Run ε φ Unit) (xs : List α) :
    (runAll handle xs).result = .ok () ↔ ∀ x ∈ xs, (handle x).result = .ok () := by
  induction xs with
  | nil => simp [runAll]
  | cons x xs ih =>
    rw [runAll, Run.bind_result_ok_iff, List.forall_mem_cons, ← ih]
    constructor
    · rintro ⟨u, hx, hxs⟩
      exact ⟨hx, hxs⟩
    · rintro ⟨hx, hxs⟩
      exact ⟨(), hx, hxs⟩

/-- Without a fault the log of the queue is the logs of its inputs in order. -/
theorem runAll_events (handle : α → Run ε φ Unit) (xs : List α)
    (h : ∀ x ∈ xs, (handle x).result = .ok ()) :
    (runAll handle xs).events = xs.flatMap (fun x => (handle x).events) := by
  induction xs with
  | nil => rfl
  | cons x xs ih =>
    obtain ⟨hx, hxs⟩ := List.forall_mem_cons.mp h
    rw [runAll, Run.bind_of_ok hx, List.flatMap_cons, ih hxs]

/-- The inputs after a fault leave no trace. -/
theorem runAll_fault (handle : α → Run ε φ Unit) (xs ys : List α) (x : α) (e : φ)
    (hxs : ∀ y ∈ xs, (handle y).result = .ok ()) (hx : (handle x).result = .error e) :
    runAll handle (xs ++ x :: ys) =
      ⟨xs.flatMap (fun y => (handle y).events) ++ (handle x).events, .error e⟩ := by
  induction xs with
  | nil =>
    -- the fault stands first, so the queue behind it is not looked at
    rw [List.nil_append, runAll, Run.bind_of_error hx]
    rfl
  | cons y xs ih =>
    obtain ⟨hy, hrest⟩ := List.forall_mem_cons.mp hxs
    rw [List.cons_append, runAll, Run.bind_of_ok hy, ih hrest, List.flatMap_cons,
      List.append_assoc]

/-- The log of the queue is the logs of the inputs that were handled, the last one perhaps
cut short by its fault. -/
theorem runAll_handled (handle : α → Run ε φ Unit) (xs : List α) :
    ∃ ys, ys <+: xs ∧ (runAll handle xs).events = ys.flatMap (fun x => (handle x).events) := by
  induction xs with
  | nil => exact ⟨[], List.nil_prefix, rfl⟩
  | cons x xs ih =>
    obtain ⟨ys, hfirst, hevents⟩ := ih
    cases hx : (handle x).result with
    | error e =>
      refine ⟨[x], ?_, ?_⟩
      · simp
      · rw [runAll, Run.bind_of_error hx, List.flatMap_singleton]
    | ok u =>
      refine ⟨x :: ys, List.cons_prefix_cons.mpr ⟨rfl, hfirst⟩, ?_⟩
      rw [runAll, Run.bind_of_ok hx, hevents, List.flatMap_cons]

/-! What an observer makes of a log, event after event. -/

section Observer

variable {ε φ α β σ : Type} (step : σ → ε → σ)

def observe (s : σ) (events : List ε) : σ := events.foldl step s

theorem observe_append (s : σ) (xs ys : List ε) :
    observe step s (xs ++ ys) = observe step (observe step s xs) ys := List.foldl_append

/-- Events the observer does not react to leave its state. -/
theorem observe_ignored (s : σ) (events : List ε) (h : ∀ e ∈ events, ∀ s, step s e = s) :
    observe step s events = s := by
  -- on the log; no event moves the state, so the rest is observed from the same one
  induction events generalizing s with
  | nil => rfl
  | cons e events ih =>
    obtain ⟨he, hrest⟩ := List.forall_mem_cons.mp h
    rw [observe, List.foldl_cons, he]
    exact ih s hrest

/-- Begun with the observer in s, the computation ends in r with the observer in t. -/
structure Run.Ends (s : σ) (x : Run ε φ α) (r : Except φ α) (t : σ) : Prop where
  result : x.result = r
  observed : observe step s x.events = t

variable {step} {s t u : σ}

theorem Run.ends_emit (e : ε) : (Run.emit e : Run ε φ Unit).Ends step s (.ok ()) (step s e) :=
  ⟨rfl, rfl⟩

theorem Run.ends_emitAll (es : List ε) :
    (Run.emitAll es : Run ε φ Unit).Ends step s (.ok ()) (observe step s es) := ⟨rfl, rfl⟩

theorem Run.ends_fail (e : φ) : (Run.fail e : Run ε φ α).Ends step s (.error e) s := ⟨rfl, rfl⟩

/-- A sequence: the second part begins where the first left the observer. -/
theorem Run.Ends.bind {x : Run ε φ α} {f : α → Run ε φ β} {a : α} {r : Except φ β}
    (hx : x.Ends step s (.ok a) t) (hf : (f a).Ends step t r u) :
    (x >>= f).Ends step s r u := by
  rw [Run.bind_of_ok hx.result]
  refine ⟨hf.result, ?_⟩
  rw [observe_append, hx.observed, hf.observed]

/-- A fault in the first part: the second leaves no trace. -/
theorem Run.Ends.bind_error {x : Run ε φ α} {f : α → Run ε φ β} {e : φ}
    (hx : x.Ends step s (.error e) t) : (x >>= f).Ends step s (.error e) t := by
  rw [Run.bind_of_error hx.result]
  exact ⟨rfl, hx.observed⟩

end Observer

end EffectTrace
