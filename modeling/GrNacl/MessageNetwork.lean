import Mathlib.Data.List.Forall2
import Mathlib.Logic.Function.Basic

/-! Networks of message handlers. A node has one first-in first-out queue. Unless it has
stopped it handles the head of its queue, and what it publishes goes to the queues of the
nodes wired to it. The environment posts messages as well. -/
namespace MessageNetwork
set_option autoImplicit false

/-- What the handling of one message comes to. -/
structure Outcome (M : Type) where
  published : List M
  faulted : Bool

/-- The queues, and beside them what every node has seen and done so far. -/
structure State (ι M : Type) where
  queue : ι → List M
  arrived : ι → List M
  handled : ι → List M
  published : ι → List M
  stopped : ι → Bool

structure Network (ι M : Type) where
  handles : ι → M → Outcome M → Prop
  wired : ι → ι → Bool
  injects : State ι M → ι → M → Prop

variable {ι M : Type}

namespace State

def start : State ι M :=
  ⟨fun _ => [],fun _ => [],fun _ => [],fun _ => [],fun _ => false⟩

/-- The messages are appended to the chosen queues. -/
def post (s : State ι M) (dest : ι → Bool) (ms : List M) : State ι M :=
  { s with
    queue := fun j => if dest j then s.queue j ++ ms else s.queue j
    arrived := fun j => if dest j then s.arrived j ++ ms else s.arrived j }

variable [DecidableEq ι]

/-- Node i is done with the message m, behind which `rest` was queued. -/
def take (s : State ι M) (i : ι) (m : M) (rest : List M) (o : Outcome M) : State ι M :=
  { s with
    queue := Function.update s.queue i rest
    handled := Function.update s.handled i (s.handled i ++ [m])
    published := Function.update s.published i (s.published i ++ o.published)
    stopped := Function.update s.stopped i o.faulted }

end State

inductive Act (ι M : Type)
  | inject (i : ι) (m : M)
  | handle (i : ι)

def Act.isHandle : Act ι M → Bool
  | .handle _ => true
  | .inject _ _ => false

def Act.injected : Act ι M → Option M
  | .handle _ => none
  | .inject _ m => some m

section Runs

variable [DecidableEq ι] (N : Network ι M)

/-- The state after node i has handled the head of its queue. -/
def after (s : State ι M) (i : ι) (m : M) (rest : List M) (o : Outcome M) : State ι M :=
  (s.take i m rest o).post (N.wired i) o.published

/-- The node itself has handled the message and published what it made of it. -/
theorem after_self (s : State ι M) (i : ι) (m : M) (rest : List M) (o : Outcome M) :
    (after N s i m rest o).handled i = s.handled i ++ [m] ∧
      (after N s i m rest o).published i = s.published i ++ o.published ∧
      (after N s i m rest o).stopped i = o.faulted :=
  ⟨Function.update_self _ _ _,Function.update_self _ _ _,Function.update_self _ _ _⟩

/-- The other nodes have done nothing. -/
theorem after_of_ne (s : State ι M) (i j : ι) (hj : j ≠ i) (m : M) (rest : List M)
    (o : Outcome M) : (after N s i m rest o).handled j = s.handled j ∧
      (after N s i m rest o).published j = s.published j ∧
      (after N s i m rest o).stopped j = s.stopped j :=
  ⟨Function.update_of_ne hj _ _,Function.update_of_ne hj _ _,Function.update_of_ne hj _ _⟩

inductive Step (s : State ι M) : Act ι M → State ι M → Prop
  | inject (i : ι) (m : M) (h : N.injects s i m) :
    Step s (.inject i m) (s.post (fun j => decide (j = i)) [m])
  | handle (i : ι) (m : M) (rest : List M) (o : Outcome M) (hlive : s.stopped i = false)
    (hqueue : s.queue i = m :: rest) (ho : N.handles i m o) :
    Step s (.handle i) (after N s i m rest o)

/-- The runs, and the actions they are made of. -/
inductive Run : List (Act ι M) → State ι M → Prop
  | start : Run [] .start
  | step {acts : List (Act ι M)} {s t : State ι M} {a : Act ι M} (hrun : Run acts s)
    (hstep : Step N s a t) : Run (acts ++ [a]) t

end Runs

/-! What one step does to a node. -/

section Steps

variable [DecidableEq ι] {N : Network ι M} {s t : State ι M} {a : Act ι M}

/-- The logs of what was published only grow. -/
theorem Step.published_grows (h : Step N s a t) (k : ι) :
    ∃ ms, t.published k = s.published k ++ ms := by
  cases h with
  | inject i m hi => exact ⟨[],(List.append_nil _).symm⟩
  | handle i m rest o hlive hqueue ho =>
    by_cases hk : k = i
    · subst hk
      exact ⟨o.published,(after_self N s k m rest o).2.1⟩
    · refine ⟨[],?_⟩
      rw [(after_of_ne N s i k hk m rest o).2.1, List.append_nil]

/-- Where a message that has arrived after a step comes from: it was there before, the step
injected it, or the step handled the message of a node wired to this one. -/
theorem Step.arrivals (h : Step N s a t) (i : ι) (m : M) (hm : m ∈ t.arrived i) :
    m ∈ s.arrived i ∨ (a = .inject i m ∧ N.injects s i m) ∨
      ∃ j x o, x ∈ s.queue j ∧ N.handles j x o ∧ N.wired j i = true ∧ m ∈ o.published ∧
        m ∈ t.published j := by
  have hposted (s : State ι M) (dest : ι → Bool) (ms : List M)
      (hm : m ∈ (s.post dest ms).arrived i) : m ∈ s.arrived i ∨ (dest i = true ∧ m ∈ ms) := by
    simp only [State.post] at hm
    split at hm
    · next hdest => exact (List.mem_append.mp hm).imp id (And.intro hdest)
    · exact Or.inl hm
  cases h with
  | inject j x hx =>
    rcases hposted s _ [x] hm with hold | ⟨hdest,hnew⟩
    · exact Or.inl hold
    · obtain rfl := of_decide_eq_true hdest
      rw [List.mem_singleton] at hnew
      subst hnew
      exact Or.inr (Or.inl ⟨rfl,hx⟩)
  | handle j x rest o hlive hqueue ho =>
    rcases hposted (s.take j x rest o) _ o.published hm with hold | ⟨hdest,hnew⟩
    · exact Or.inl hold
    · have hhead : x ∈ s.queue j := by
        rw [hqueue]
        exact List.mem_cons_self
      refine Or.inr (Or.inr ⟨j,x,o,hhead,ho,hdest,hnew,?_⟩)
      rw [(after_self N s j x rest o).2.1]
      exact List.mem_append_right _ hnew

/-- So do the logs of what was handled. -/
theorem Step.handled_grows (h : Step N s a t) (k : ι) :
    ∃ ms, t.handled k = s.handled k ++ ms := by
  cases h with
  | inject i m hi => exact ⟨[],(List.append_nil _).symm⟩
  | handle i m rest o hlive hqueue ho =>
    by_cases hk : k = i
    · subst hk
      exact ⟨[m],(after_self N s k m rest o).1⟩
    · refine ⟨[],?_⟩
      rw [(after_of_ne N s i k hk m rest o).1, List.append_nil]

/-- And those of what has arrived. -/
theorem Step.arrived_grows (h : Step N s a t) (k : ι) : s.arrived k <+: t.arrived k := by
  have hposted (s : State ι M) (dest : ι → Bool) (ms : List M) :
      s.arrived k <+: (s.post dest ms).arrived k := by
    simp only [State.post]
    split
    · exact List.prefix_append _ _
    · exact List.prefix_rfl
  cases h with
  | inject i m hi => exact hposted s _ [m]
  | handle i m rest o hlive hqueue ho => exact hposted (s.take i m rest o) _ o.published

/-- A node stops by the outcome of its own message, or it is as before. -/
theorem Step.stops (h : Step N s a t) (i : ι) : t.stopped i = s.stopped i ∨
    ∃ x o, x ∈ s.queue i ∧ N.handles i x o ∧ t.stopped i = o.faulted := by
  cases h with
  | inject j m hj => exact Or.inl rfl
  | handle j m rest o hlive hqueue ho =>
    by_cases hij : i = j
    · subst hij
      refine Or.inr ⟨m,o,?_,ho,(after_self N s i m rest o).2.2⟩
      rw [hqueue]
      exact List.mem_cons_self
    · exact Or.inl (after_of_ne N s j i hij m rest o).2.2

end Steps

/-! What holds of every node in every run. -/

section Conservation

variable [DecidableEq ι] {N : Network ι M}

/-- Nothing that arrived is lost, doubled or moved forward in the queue. -/
def Conserved (s : State ι M) : Prop := ∀ i, s.handled i ++ s.queue i = s.arrived i

omit [DecidableEq ι] in
theorem Conserved.post {s : State ι M} (h : Conserved s) (dest : ι → Bool) (ms : List M) :
    Conserved (s.post dest ms) := by
  intro i
  simp only [State.post]
  split
  · rw [← List.append_assoc, h i]
  · exact h i

theorem Conserved.take {s : State ι M} (h : Conserved s) (i : ι) (m : M) (rest : List M)
    (o : Outcome M) (hqueue : s.queue i = m :: rest) : Conserved (s.take i m rest o) := by
  intro j
  simp only [State.take]
  by_cases hj : j = i
  · subst hj
    rw [Function.update_self, Function.update_self, List.append_assoc, List.singleton_append,
      ← hqueue]
    exact h j
  · rw [Function.update_of_ne hj, Function.update_of_ne hj]
    exact h j

theorem Run.conserved {acts : List (Act ι M)} {s : State ι M} (h : Run N acts s) :
    Conserved s := by
  induction h with
  | start => exact fun _ => rfl
  | step hrun hstep ih =>
    cases hstep with
    | inject i m hi => exact ih.post _ _
    | handle i m rest o hlive hqueue ho => exact (ih.take i m rest o hqueue).post _ _

/-- What a node has published and whether it has stopped is accounted for by outcomes of
the messages it has handled. -/
def Accounted (N : Network ι M) (s : State ι M) (i : ι) : Prop :=
  ∃ os, List.Forall₂ (N.handles i) (s.handled i) os ∧
    s.published i = os.flatMap Outcome.published ∧
    (s.stopped i = true → ∃ o ∈ os, o.faulted = true)

theorem Run.accounted {acts : List (Act ι M)} {s : State ι M} (h : Run N acts s) (i : ι) :
    Accounted N s i := by
  induction h with
  | start => exact ⟨[],.nil,rfl,fun h => nomatch h⟩
  | @step acts s t act hrun hstep ih =>
    cases hstep with
    | inject j m hj => exact ih
    | handle j m rest o hlive hqueue ho =>
      obtain ⟨os,hos,hpub,hstop⟩ := ih
      by_cases hij : i = j
      · subst hij
        obtain ⟨hhandled,hpublished,hstopped⟩ := after_self N s i m rest o
        refine ⟨os ++ [o],?_,?_,?_⟩
        · rw [hhandled]
          exact List.rel_append hos (.cons ho .nil)
        · rw [hpublished, hpub, List.flatMap_append, List.flatMap_singleton]
        · intro hs
          rw [hstopped] at hs
          exact ⟨o,List.mem_append_right _ (List.mem_singleton_self o),hs⟩
      · obtain ⟨hhandled,hpublished,hstopped⟩ := after_of_ne N s j i hij m rest o
        rw [Accounted, hhandled, hpublished, hstopped]
        exact ⟨os,hos,hpub,hstop⟩

/-- A published message is one of the outcome of a message handled before. -/
theorem Run.published_origin {acts : List (Act ι M)} {s : State ι M} (h : Run N acts s) (i : ι) :
    ∀ x ∈ s.published i, ∃ m ∈ s.handled i, ∃ o, N.handles i m o ∧ x ∈ o.published := by
  intro x hx
  obtain ⟨os,hos,hpub,_⟩ := h.accounted i
  rw [hpub] at hx
  obtain ⟨o,ho,hmem⟩ := List.mem_flatMap.mp hx
  obtain ⟨k,hk,rfl⟩ := List.getElem_of_mem ho
  have hlen := hos.length_eq
  exact ⟨_,List.getElem_mem (by omega),_,hos.get (by omega) hk,hmem⟩

/-- A node fed by one other node alone receives what that one publishes, in that order. -/
theorem Run.arrived_of_feeder {acts : List (Act ι M)} {s : State ι M} (h : Run N acts s)
    (a r : ι) (hwired : N.wired a r = true) (honly : ∀ j, j ≠ a → N.wired j r = false)
    (hclosed : ∀ s m, ¬N.injects s r m) : s.arrived r = s.published a := by
  induction h with
  | start => rfl
  | step hrun hstep ih =>
    cases hstep with
    | inject i m hi =>
      have hne : r ≠ i := by
        rintro rfl
        exact hclosed _ _ hi
      simp only [State.post, decide_eq_true_eq, if_neg hne]
      exact ih
    | handle i m rest o hlive hqueue ho =>
      simp only [after, State.post, State.take]
      by_cases hia : i = a
      · subst hia
        rw [if_pos hwired, Function.update_self, ih]
      · have hidle := honly i hia
        rw [if_neg (by rw [hidle]; exact Bool.false_ne_true),
          Function.update_of_ne (Ne.symm hia)]
        exact ih

/-- What has arrived at a node was injected there or published by a node wired to it. -/
theorem Run.arrived_origin {acts : List (Act ι M)} {s : State ι M} (h : Run N acts s) (i : ι) :
    ∀ m ∈ s.arrived i, Act.inject i m ∈ acts ∨
      ∃ j, N.wired j i = true ∧ m ∈ s.published j := by
  induction h with
  | start => exact fun m hm => absurd hm List.not_mem_nil
  | step hrun hstep ih =>
    intro m hm
    rcases hstep.arrivals i m hm with hold | ⟨rfl,_⟩ | ⟨j,x,o,_,_,hwired,_,hpub⟩
    · -- what it came from before the step is still there
      rcases ih m hold with hinject | ⟨j,hwired,hpub⟩
      · exact Or.inl (List.mem_append_left _ hinject)
      · obtain ⟨ms,hgrow⟩ := hstep.published_grows j
        refine Or.inr ⟨j,hwired,?_⟩
        rw [hgrow]
        exact List.mem_append_left _ hpub
    · exact Or.inl (List.mem_append_right _ (List.mem_singleton_self _))
    · exact Or.inr ⟨j,hwired,hpub⟩

/-- Where only good messages are injected, and good messages lead to good ones without a
fault, no node ever stops. -/
theorem Run.never_stops {acts : List (Act ι M)} {s : State ι M} (h : Run N acts s)
    (Good : M → Prop) (hinject : ∀ s i m, N.injects s i m → Good m)
    (hhandle : ∀ i m o, Good m → N.handles i m o →
      o.faulted = false ∧ ∀ x ∈ o.published, Good x) (i : ι) :
    (∀ m ∈ s.arrived i, Good m) ∧ s.stopped i = false := by
  induction h generalizing i with
  | start => exact ⟨fun m hm => absurd hm List.not_mem_nil,rfl⟩
  | @step acts s t act hrun hstep ih =>
    -- what is queued has arrived, so it is good
    have hqueued (j : ι) (x : M) (hx : x ∈ s.queue j) : Good x := by
      apply (ih j).1
      rw [← hrun.conserved j]
      exact List.mem_append_right _ hx
    refine ⟨?_,?_⟩
    · intro m hm
      rcases hstep.arrivals i m hm with hold | ⟨_,hnew⟩ | ⟨j,x,o,hx,ho,_,hpub,_⟩
      · exact (ih i).1 m hold
      · exact hinject s i m hnew
      · exact (hhandle j x o (hqueued j x hx) ho).2 m hpub
    · rcases hstep.stops i with hsame | ⟨x,o,hx,ho,hfault⟩
      · rw [hsame]
        exact (ih i).2
      · rw [hfault]
        exact (hhandle i x o (hqueued i x hx) ho).1

/-- A state in which no node can go on, and none has stopped, has empty queues. -/
theorem queues_empty (htotal : ∀ i m, ∃ o, N.handles i m o) (s : State ι M)
    (hlive : ∀ i, s.stopped i = false) (hquiet : ∀ i t, ¬Step N s (.handle i) t) (i : ι) :
    s.queue i = [] := by
  by_contra hne
  obtain ⟨m,rest,hqueue⟩ := List.exists_cons_of_ne_nil hne
  obtain ⟨o,ho⟩ := htotal i m
  exact hquiet i _ (.handle i m rest o (hlive i) hqueue ho)

end Conservation

end MessageNetwork
