import GrNacl.MessageNetwork
import Mathlib.Logic.Relation

/-! Channels as their two ends see them, and when two nodes of a network of message handlers
amount to one. A channel hands out what was sent in its order, or any of it at any time and
as often as it likes. -/
namespace IdealChannels
set_option autoImplicit false

open MessageNetwork Relation

variable {M : Type}

structure Channel (M : Type) where
  sent : List M
  received : List M

def Channel.empty : Channel M := ⟨[],[]⟩

/-- First in, first out, and nothing is left out. -/
def InOrder (c : Channel M) (m : M) : Prop := c.received ++ [m] <+: c.sent

/-- Something valid is sent, or something is received that the channel may hand out. -/
inductive Moves (valid : M → Prop) (allowed : Channel M → M → Prop) : Channel M → Channel M → Prop
  | send (c : Channel M) (m : M) (h : valid m) : Moves valid allowed c ⟨c.sent ++ [m],c.received⟩
  | receive (c : Channel M) (m : M) (h : allowed c m) :
    Moves valid allowed c ⟨c.sent,c.received ++ [m]⟩

section Reach

variable {valid : M → Prop} {allowed : Channel M → M → Prop}

theorem sends_reach (c : Channel M) (ms : List M) (h : ∀ m ∈ ms, valid m) :
    ReflTransGen (Moves valid allowed) c ⟨c.sent ++ ms,c.received⟩ := by
  induction ms generalizing c with
  | nil =>
    rw [List.append_nil]
  | cons m ms ih =>
    obtain ⟨hm,hms⟩ := List.forall_mem_cons.mp h
    have hrest := ih ⟨c.sent ++ [m],c.received⟩ hms
    rw [List.append_cons]
    exact ReflTransGen.head (.send c m hm) hrest

theorem receives_reach (c : Channel M) (ms : List M)
    (h : ∀ l m l', ms = l ++ m :: l' → allowed ⟨c.sent,c.received ++ l⟩ m) :
    ReflTransGen (Moves valid allowed) c ⟨c.sent,c.received ++ ms⟩ := by
  induction ms generalizing c with
  | nil =>
    rw [List.append_nil]
  | cons m ms ih =>
    have hm := h [] m ms rfl
    rw [List.append_nil] at hm
    have hrest := ih ⟨c.sent,c.received ++ [m]⟩ (by
      intro l m' l' hl
      have hm' := h (m :: l) m' l' (by rw [hl, List.cons_append])
      rw [List.append_assoc, List.singleton_append]
      exact hm')
    rw [List.append_cons]
    exact ReflTransGen.head (.receive c m hm) hrest

/-- From one state to another that has more of both, the order being kept. -/
theorem inOrder_reach (c : Channel M) (ms ns : List M) (h : ∀ m ∈ ms, valid m)
    (hfirst : c.received ++ ns <+: c.sent ++ ms) :
    ReflTransGen (Moves valid InOrder) c ⟨c.sent ++ ms,c.received ++ ns⟩ := by
  apply (sends_reach c ms h).trans
  apply receives_reach ⟨c.sent ++ ms,c.received⟩ ns
  rintro l m l' rfl
  -- what is received up to m begins all that is received
  have hm : (c.received ++ l) ++ [m] <+: c.received ++ (l ++ m :: l') :=
    ⟨l',by simp⟩
  exact hm.trans hfirst

end Reach

section Nodes

variable {ι : Type} [DecidableEq ι] {N : Network ι M} {a r : ι} {f : M → List M}
  {valid : M → Prop}

/-- The channel from node a to node r, where a message handled by a counts as sending what f
makes of it. -/
def channelOf (f : M → List M) (a r : ι) (s : State ι M) : Channel M :=
  ⟨(s.handled a).flatMap f,s.published r⟩

/-- The two nodes are such a channel: what the network does is a sequence of moves, and
whatever moves lead to is reached by the network. -/
structure IsChannel (N : Network ι M) (a r : ι) (f : M → List M) (valid : M → Prop)
    (allowed : Channel M → M → Prop) : Prop where
  simulated : ∀ acts s act t, Run N acts s → Step N s act t →
    ReflTransGen (Moves valid allowed) (channelOf f a r s) (channelOf f a r t)
  realised : ∀ c, ReflTransGen (Moves valid allowed) .empty c →
    ∃ acts s, Run N acts s ∧ channelOf f a r s = c

/-- After a step both ends have what they had, and perhaps more. -/
theorem channelOf_grows {s t : State ι M} {act : Act ι M} (h : Step N s act t) : ∃ ms ns,
    channelOf f a r t = ⟨(channelOf f a r s).sent ++ ms,(channelOf f a r s).received ++ ns⟩ ∧
      ∀ x ∈ ms, ∃ m ∈ t.handled a, x ∈ f m := by
  obtain ⟨hs,hhandled⟩ := h.handled_grows a
  obtain ⟨ns,hpublished⟩ := h.published_grows r
  refine ⟨hs.flatMap f,ns,?_,?_⟩
  · rw [channelOf, hhandled, hpublished, List.flatMap_append]
    rfl
  · intro x hx
    obtain ⟨m,hm,hxm⟩ := List.mem_flatMap.mp hx
    rw [hhandled]
    exact ⟨m,List.mem_append_right _ hm,hxm⟩

theorem simulated_inOrder
    (hvalid : ∀ acts s, Run N acts s → ∀ m ∈ s.handled a, ∀ x ∈ f m, valid x)
    (hfirst : ∀ acts s, Run N acts s → s.published r <+: (s.handled a).flatMap f)
    (acts : List (Act ι M)) (s : State ι M) (act : Act ι M) (t : State ι M) (h : Run N acts s)
    (hstep : Step N s act t) :
    ReflTransGen (Moves valid InOrder) (channelOf f a r s) (channelOf f a r t) := by
  have hrun := h.step hstep
  obtain ⟨ms,ns,hgrow,hms⟩ := channelOf_grows (f := f) (a := a) (r := r) hstep
  have ht : (channelOf f a r t).received <+: (channelOf f a r t).sent := hfirst _ t hrun
  rw [hgrow] at ht ⊢
  apply inOrder_reach _ ms ns _ ht
  intro x hx
  obtain ⟨m,hm,hxm⟩ := hms x hx
  exact hvalid _ t hrun m hm x hxm

end Nodes

/-! How the moves of a channel are brought about. -/

section Links

variable {ι : Type} [DecidableEq ι] {N : Network ι M} {a r : ι} {f : M → List M}
  {valid : M → Prop} {carries : M → M → Prop}

/-- A message can be injected at a that counts as sending m, and then a publishes one that
carries m; from a message that carries m, r publishes m. Neither node hears itself, and a
does not hear r. -/
structure Link (N : Network ι M) (a r : ι) (f : M → List M) (valid : M → Prop)
    (carries : M → M → Prop) : Prop where
  sends : ∀ m, valid m → ∃ x y o, (∀ s, N.injects s a x) ∧ f x = [m] ∧ N.handles a x o ∧
    o = ⟨[y],false⟩ ∧ carries y m
  opens : ∀ y m, carries y m → N.handles r y ⟨[m],false⟩
  apart : r ≠ a
  deaf : N.wired a a = false ∧ N.wired r a = false ∧ N.wired r r = false

/-- The two nodes and the channel they are, between one transmission and the next. -/
structure Ready (f : M → List M) (a r : ι) (s : State ι M) (c : Channel M) : Prop where
  channel : channelOf f a r s = c
  idle : s.queue a = []
  liveSender : s.stopped a = false
  liveReceiver : s.stopped r = false

variable (hlink : Link N a r f valid carries)
include hlink

/-- A transmission. What carries the message goes to r where a is wired to it. -/
theorem Link.transmits {acts : List (Act ι M)} {s : State ι M} {c : Channel M}
    (hrun : Run N acts s) (hs : Ready f a r s c) (m : M) (hm : valid m) :
    ∃ acts t y, Run N acts t ∧ carries y m ∧ Ready f a r t ⟨c.sent ++ [m],c.received⟩ ∧
      t.published a = s.published a ++ [y] ∧
      t.queue r = if N.wired a r = true then s.queue r ++ [y] else s.queue r := by
  obtain ⟨x,y,o,hinject,hx,ho,rfl,hcarries⟩ := hlink.sends m hm
  have hra := hlink.apart
  have hqueue : (s.post (fun j => decide (j = a)) [x]).queue a = x :: [] := by
    simp [State.post, hs.idle]
  refine ⟨_,_,y,(hrun.step (.inject a x (hinject s))).step
    (.handle a x [] _ hs.liveSender hqueue ho),hcarries,⟨?_,?_,?_,?_⟩,?_,?_⟩
  · rw [← hs.channel]
    simp [channelOf, after, State.post, State.take, hra, hx]
  · simp [after, State.post, State.take, hlink.deaf.1]
  · simp [after, State.post, State.take]
  · simp [after, State.post, State.take, hra, hs.liveReceiver]
  · simp [after, State.post, State.take]
  · simp [after, State.post, State.take, hra]

/-- A reception of what heads the queue of r. -/
theorem Link.receives {acts : List (Act ι M)} {s : State ι M} {c : Channel M}
    (hrun : Run N acts s) (hs : Ready f a r s c) (y m : M) (rest : List M)
    (hqueue : s.queue r = y :: rest) (hcarries : carries y m) :
    ∃ acts t, Run N acts t ∧ Ready f a r t ⟨c.sent,c.received ++ [m]⟩ ∧
      t.published a = s.published a ∧ t.queue r = rest := by
  have hra := Ne.symm hlink.apart
  have ho := hlink.opens y m hcarries
  refine ⟨_,_,hrun.step (.handle r y rest _ hs.liveReceiver hqueue ho),⟨?_,?_,?_,?_⟩,?_,?_⟩
  · rw [← hs.channel]
    simp [channelOf, after, State.post, State.take, hra]
  · simp [after, State.post, State.take, hra, hs.idle, hlink.deaf.2.1]
  · simp [after, State.post, State.take, hra, hs.liveSender]
  · simp [after, State.post, State.take]
  · simp [after, State.post, State.take, hra]
  · simp [after, State.post, State.take, hlink.deaf.2.2]

/-- Over a wire from a to r every state of the channel in order comes about. -/
theorem Link.realises_inOrder (hwired : N.wired a r = true) (c : Channel M)
    (h : ReflTransGen (Moves valid InOrder) .empty c) :
    ∃ acts s pending, Run N acts s ∧ Ready f a r s c ∧ List.Forall₂ carries (s.queue r) pending ∧
      c.sent = c.received ++ pending := by
  induction h with
  | refl => exact ⟨[],.start,[],.start,⟨rfl,rfl,rfl,rfl⟩,.nil,rfl⟩
  | @tail c c' _ hmove ih =>
    obtain ⟨acts,s,pending,hrun,hs,hqueue,hsent⟩ := ih
    cases hmove with
    | send m hm =>
      obtain ⟨acts',t,y,hrun',hcarries,ht,_,hq⟩ := hlink.transmits hrun hs m hm
      refine ⟨acts',t,pending ++ [m],hrun',ht,?_,?_⟩
      · rw [hq, if_pos hwired]
        exact List.rel_append hqueue (.cons hcarries .nil)
      · rw [hsent, List.append_assoc]
    | receive m hm =>
      -- the next message in order is the first one pending
      rw [InOrder, hsent, List.prefix_append_right_inj] at hm
      obtain ⟨later,rfl⟩ := hm
      rw [List.singleton_append] at hqueue hsent
      obtain ⟨y,rest,hcarries,hrest,hq⟩ := List.forall₂_cons_right_iff.mp hqueue
      obtain ⟨acts',t,hrun',ht,_,hq'⟩ := hlink.receives hrun hs y m rest hq hcarries
      refine ⟨acts',t,later,hrun',ht,?_,?_⟩
      · rw [hq']
        exact hrest
      · rw [hsent, List.append_assoc, List.singleton_append]

end Links

end IdealChannels
