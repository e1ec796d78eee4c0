import GrNacl.MessageNetwork

/-! Two nodes in a row in a network of message handlers. What the second one publishes is
what the messages of the first are relayed to, in their order. -/
namespace MessageNetwork
set_option autoImplicit false

variable {ι M : Type}

section Relays

variable [DecidableEq ι] {N : Network ι M} {a r : ι}

/-- What node a makes of the message, and node r of that, comes to `out` on all outcomes. -/
structure Relays (N : Network ι M) (a r : ι) (m : M) (out : List M) : Prop where
  sends : ∀ o, N.handles a m o → o.faulted = false
  receives : ∀ o, N.handles a m o → ∀ os, List.Forall₂ (N.handles r) o.published os →
    (∀ o' ∈ os, o'.faulted = false) ∧ os.flatMap Outcome.published = out

omit [DecidableEq ι] in
/-- What r makes of all that a has published comes to the relayed messages in order. -/
theorem relays_all (f : M → List M) (ms : List M) (os : List (Outcome M))
    (h : List.Forall₂ (N.handles a) ms os) (hrelays : ∀ m ∈ ms, Relays N a r m (f m))
    (os' : List (Outcome M)) (h' : List.Forall₂ (N.handles r) (os.flatMap Outcome.published) os') :
    (∀ o' ∈ os', o'.faulted = false) ∧ os'.flatMap Outcome.published = ms.flatMap f := by
  induction h generalizing os' with
  | nil =>
    cases h'
    exact ⟨fun o' ho' => absurd ho' List.not_mem_nil,rfl⟩
  | @cons m o ms os ho hrest ih =>
    obtain ⟨hm,hms⟩ := List.forall_mem_cons.mp hrelays
    rw [List.flatMap_cons] at h'
    -- the outcomes of r split where the messages of the first handling end
    have hflip := List.forall₂_take_append os' o.published _ h'.flip
    have hflip' := List.forall₂_drop_append os' o.published _ h'.flip
    obtain ⟨hlive,hout⟩ := hm.receives o ho _ hflip.flip
    obtain ⟨hlive',hout'⟩ := ih hms _ hflip'.flip
    refine ⟨?_,?_⟩
    · intro o' ho'
      rw [← List.take_append_drop o.published.length os'] at ho'
      exact (List.mem_append.mp ho').elim (hlive o') (hlive' o')
    · rw [← List.take_append_drop o.published.length os', List.flatMap_append, hout, hout',
        List.flatMap_cons]

omit [DecidableEq ι] in
/-- Outcomes for the first messages are the first outcomes for all of them. -/
theorem extend_outcomes (htotal : ∀ m, ∃ o, N.handles r m o) (ms rest : List M)
    (os : List (Outcome M)) (h : List.Forall₂ (N.handles r) ms os) :
    ∃ os', List.Forall₂ (N.handles r) (ms ++ rest) (os ++ os') := by
  have hrest : ∃ os', List.Forall₂ (N.handles r) rest os' := by
    induction rest with
    | nil => exact ⟨[],.nil⟩
    | cons m rest ih =>
      obtain ⟨o,ho⟩ := htotal m
      obtain ⟨os',hos'⟩ := ih
      exact ⟨o :: os',.cons ho hos'⟩
  obtain ⟨os',hos'⟩ := hrest
  exact ⟨os',List.rel_append h hos'⟩

/-- In every state of every run the second node has published the first part of what the
messages handled by the first one are relayed to, and all of it once its queue is empty. -/
theorem Run.relayed {acts : List (Act ι M)} {s : State ι M} (h : Run N acts s) (f : M → List M)
    (hwired : N.wired a r = true) (honly : ∀ j, j ≠ a → N.wired j r = false)
    (hclosed : ∀ s m, ¬N.injects s r m) (htotal : ∀ m, ∃ o, N.handles r m o)
    (hrelays : ∀ m ∈ s.arrived a, Relays N a r m (f m)) :
    s.stopped a = false ∧ s.stopped r = false ∧
      s.published r <+: (s.handled a).flatMap f ∧
      (s.queue r = [] → s.published r = (s.handled a).flatMap f) := by
  have hfeed := h.arrived_of_feeder a r hwired honly hclosed
  obtain ⟨os,hos,hpub,hstop⟩ := h.accounted a
  obtain ⟨os',hos',hpub',hstop'⟩ := h.accounted r
  have hhandled : ∀ m ∈ s.handled a, Relays N a r m (f m) := by
    intro m hm
    apply hrelays
    rw [← h.conserved a]
    exact List.mem_append_left _ hm
  -- what r has handled begins what a has published
  have hsplit : s.handled r ++ s.queue r = os.flatMap Outcome.published := by
    rw [h.conserved r, hfeed, hpub]
  obtain ⟨later,hlater⟩ := extend_outcomes htotal (s.handled r) (s.queue r) os' hos'
  rw [hsplit] at hlater
  obtain ⟨hlive,hall⟩ := relays_all f _ os hos hhandled _ hlater
  rw [List.flatMap_append] at hall
  refine ⟨?_,?_,?_,?_⟩
  · -- a stopped sender would have an outcome with a fault
    by_contra hs
    obtain ⟨o,ho,hfault⟩ := hstop (Bool.ne_false_iff.mp hs)
    obtain ⟨i,hi,rfl⟩ := List.getElem_of_mem ho
    have hlen := hos.length_eq
    have hsends := (hhandled _ (List.getElem_mem (by omega))).sends os[i]
      (hos.get (by omega) hi)
    rw [hfault] at hsends
    cases hsends
  · by_contra hs
    obtain ⟨o,ho,hfault⟩ := hstop' (Bool.ne_false_iff.mp hs)
    have hok := hlive o (List.mem_append_left _ ho)
    rw [hfault] at hok
    cases hok
  · rw [hpub', ← hall]
    exact List.prefix_append _ _
  · intro hempty
    rw [hempty, List.append_nil] at hsplit
    rw [hsplit] at hos'
    rw [hpub']
    exact (relays_all f _ os hos hhandled _ hos').2

end Relays

end MessageNetwork
